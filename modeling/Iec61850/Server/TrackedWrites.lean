import Iec61850.Server.WriteService

/-!
# What the tracking objects say of the writes

Whatever the engines make of an item, no leaf of a tracking object changes until the item is
recorded, and then one object changes that is of the item's class. It tells the item as it was,
where the item addresses one value, is no operate for a later time, and is about a control block
whose attributes the object spells as the rule expects.
-/

namespace Iec61850.Server

open Theory Ber Mms

namespace Acsi

variable {a : Acsi} {m : Directory}

/-! ### What recording writes -/

/-- An attribute of a tracking object. -/
def attr (a : Acsi) (k : Tracker) (name : Bytes) : Option Value :=
  a.control.ied.values (Tracking.leafOf k.reference name)

/-- The attribute is there, and has a type for the value. -/
def Declares (a : Acsi) (k : Tracker) (name : Bytes) (value : Value) : Prop :=
  a.control.ied.takes (Tracking.leafOf k.reference name) value = true

theorem leafOf_inj {tracker : Reference} {n n' : Bytes} :
    Tracking.leafOf tracker n = Tracking.leafOf tracker n' ↔ n = n' := by
  constructor
  · intro h
    have hitem := (Reference.mk.inj h).2
    exact List.singleton_injective (List.append_cancel_left hitem)
  · rintro rfl
    rfl

/-- Nothing changes but leaves of one tracking object, with names that meet a condition. -/
structure WritesIn (k : Tracker) (P : Bytes → Prop) (a b : Acsi) : Prop where
  others : b = { a with control := { a.control with ied := b.control.ied } }
  written : Overwritten a.control.ied b.control.ied
  leaves : ∀ r, (∀ name, P name → r ≠ Tracking.leafOf k.reference name) →
    b.control.ied.values r = a.control.ied.values r

namespace WritesIn

variable {k : Tracker} {P : Bytes → Prop} {b c : Acsi}

theorem refl (k : Tracker) (P : Bytes → Prop) (a : Acsi) : WritesIn k P a a :=
  ⟨rfl, .refl _, fun _ _ => rfl⟩

theorem trans (h : WritesIn k P a b) (h' : WritesIn k P b c) : WritesIn k P a c := by
  refine ⟨?_, h.written.trans h'.written, fun r hr => (h'.leaves r hr).trans (h.leaves r hr)⟩
  rw [h'.others, h.others]

theorem mono {Q : Bytes → Prop} (h : WritesIn k P a b) (hPQ : ∀ name, P name → Q name) :
    WritesIn k Q a b :=
  ⟨h.others, h.written, fun r hr => h.leaves r fun name hname => hr name (hPQ name hname)⟩

theorem foldl {α : Type*} {f : Acsi → α → Acsi} {l : List α}
    (h : ∀ a, ∀ x ∈ l, WritesIn k P a (f a x)) (a : Acsi) : WritesIn k P a (l.foldl f a) := by
  induction l generalizing a with
  | nil => exact refl k P a
  | cons x l ih =>
    have hrest := ih (fun a y hy => h a y (List.mem_cons_of_mem _ hy)) (f a x)
    exact (h a x List.mem_cons_self).trans hrest

theorem attr (h : WritesIn k P a b) {name : Bytes} (hname : ¬ P name) :
    b.attr k name = a.attr k name := by
  apply h.leaves
  intro other hother heq
  exact hname (leafOf_inj.mp heq ▸ hother)

theorem declares (h : WritesIn k P a b) {name : Bytes} {value : Value} :
    b.Declares k name value ↔ a.Declares k name value := by
  unfold Declares LeafStore.takes
  rw [h.written.node]

end WritesIn

theorem writeTracker_writesIn {P : Bytes → Prop} {name : Bytes} (hname : P name) (a : Acsi)
    (k : Tracker) (value : Value) : WritesIn k P a (a.writeTracker k name value) := by
  refine ⟨rfl, Tracking.write_written _ _ _ _, ?_⟩
  intro r hr
  have hne := hr name hname
  unfold writeTracker Tracking.write
  dsimp only
  split
  · exact LeafStore.writeLeaf_values_ne _ _ _ hne
  · rfl

variable {k : Tracker} {name : Bytes} {value : Value} {b : Acsi}

theorem writeTracker_attr (htyped : a.control.ied.Typed) (h : a.Declares k name value) :
    (a.writeTracker k name value).attr k name = some value := by
  have hsome : (a.control.ied.values (Tracking.leafOf k.reference name)).isSome := by
    unfold Declares LeafStore.takes at h
    split at h
    · rename_i btype hnode
      obtain ⟨v, hv, -⟩ := htyped _ btype hnode
      rw [hv]
      rfl
    · cases h
  unfold attr writeTracker Tracking.write
  dsimp only
  rw [if_pos hsome, LeafStore.writeLeaf_values_self]
  exact if_pos h

/-- Some attributes that are written one after the other. -/
def writeAll (a : Acsi) (k : Tracker) (entries : List (Bytes × Value)) : Acsi :=
  entries.foldl (fun a e => a.writeTracker k e.1 e.2) a

theorem writeAll_writesIn (a : Acsi) (k : Tracker) (entries : List (Bytes × Value)) :
    WritesIn k (· ∈ entries.map (·.1)) a (a.writeAll k entries) :=
  .foldl (fun a _ he => writeTracker_writesIn (List.mem_map_of_mem he) a k _) a

/-- Each of them has its value afterwards, when no name comes twice. -/
theorem writeAll_attr {entries : List (Bytes × Value)} (htyped : a.control.ied.Typed)
    (hnames : (entries.map (·.1)).Nodup) (hmem : (name, value) ∈ entries)
    (h : a.Declares k name value) : (a.writeAll k entries).attr k name = some value := by
  induction entries generalizing a with
  | nil => cases hmem
  | cons e entries ih =>
    rw [List.map_cons, List.nodup_cons] at hnames
    have hfirst := @writeTracker_writesIn (fun n => n = e.1) e.1 rfl a k e.2
    have hrest := writeAll_writesIn (a.writeTracker k e.1 e.2) k entries
    rcases List.mem_cons.mp hmem with heq | hmem
    · cases heq
      exact (hrest.attr hnames.1).trans (writeTracker_attr htyped h)
    · exact ih (hfirst.written.typed htyped) hnames.2 hmem (hfirst.declares.mpr h)

/-! ### What is mirrored -/

/-- The name that a tracking object has for an attribute of a control block: with a small first
letter, and `gi` for `GI`. -/
def trackingName (name : Bytes) : Bytes :=
  if name = ascii "GI" then ascii "gi"
  else
    match name with
    | [] => []
    | c :: cs => (if 65 ≤ c ∧ c ≤ 90 then c + 32 else c) :: cs

/-- The attribute of a control block, or the one inside it, at a path. -/
def attributeText (objRef : Bytes) (names : List Bytes) : Bytes :=
  objRef ++ ascii "$" ++ Control.itemText names

/-- The name begins with no small letter, and only `GI` is written as the exception. -/
def Capital (a : Acsi) (objRef name : Bytes) : Prop :=
  (∀ c ∈ name.head?, ¬ (97 ≤ c ∧ c ≤ 122)) ∧
    (name = ascii "GI" → a.layout (attributeText objRef [ascii "Gi"]) = none)

theorem upper_lower {c : UInt8} (h : ¬ (97 ≤ c ∧ c ≤ 122)) :
    upper (if 65 ≤ c ∧ c ≤ 90 then c + 32 else c) = c := by
  unfold upper
  by_cases hcapital : 65 ≤ c ∧ c ≤ 90
  · have hsmall : 97 ≤ c + 32 ∧ c + 32 ≤ 122 := by
      obtain ⟨hle, hge⟩ := hcapital
      simp only [UInt8.le_iff_toNat_le, UInt8.toNat_add, UInt8.toNat_ofNat] at hle hge ⊢
      omega
    rw [if_pos hcapital, if_pos hsmall, UInt8.add_sub_cancel]
  · rw [if_neg hcapital, if_neg h]

theorem itemText_singleton (name : Bytes) : Control.itemText [name] = name := by
  simp [Control.itemText, List.intercalate]

theorem attributeText_singleton (objRef name : Bytes) :
    attributeText objRef [name] = objRef ++ ascii "$" ++ name := by
  rw [attributeText, itemText_singleton]

/-- Such a name is found again from the one of the tracking object. -/
theorem blockAttribute_trackingName {a : Acsi} {objRef : Bytes} (h : Capital a objRef name)
    (hvalue : a.valueAt (attributeText objRef [name]) = some value) :
    blockAttribute a.valueAt objRef (trackingName name) = some value := by
  rw [attributeText_singleton] at hvalue
  unfold blockAttribute
  dsimp only
  by_cases hgi : name = ascii "GI"
  · subst hgi
    have hlayout := h.2 rfl
    rw [attributeText_singleton] at hlayout
    have hnone : a.valueAt (objRef ++ ascii "$" ++ ascii "Gi") = none := by
      unfold valueAt
      rw [hlayout]
    have hfirst : upperFirst (trackingName (ascii "GI")) = ascii "Gi" := by decide
    have hshouted : (trackingName (ascii "GI")).map upper = ascii "GI" := by decide
    rw [hfirst, hshouted, hnone, Option.none_or, if_neg (by decide)]
    exact hvalue
  · have hfirst : upperFirst (trackingName name) = name := by
      unfold trackingName
      rw [if_neg hgi]
      cases name with
      | nil => rfl
      | cons c cs =>
        have hc : ¬ (97 ≤ c ∧ c ≤ 122) := h.1 c rfl
        exact congrArg (· :: cs) (upper_lower hc)
    rw [hfirst, hvalue]
    rfl

theorem mirrorOne_writesIn (a : Acsi) (k : Tracker) (objRef name : Bytes) :
    WritesIn k (fun n => n ∉ commonAttributes ∧ n = name) a (a.mirrorOne k objRef name) := by
  unfold mirrorOne Tracking.mirrorOne
  by_cases hname : name ∈ commonAttributes
  · simp only [if_pos hname]
    exact .refl k _ a
  · simp only [if_neg hname]
    cases blockAttribute a.valueAt objRef name with
    | none => exact .refl k _ a
    | some value => exact writeTracker_writesIn (And.intro hname rfl) a k value

/-- The loop of `Tracking::mirror`. -/
def mirrorAll (a : Acsi) (k : Tracker) (objRef : Bytes) (names : List Bytes) : Acsi :=
  names.foldl (fun a name => a.mirrorOne k objRef name) a

theorem mirrorAll_writesIn (a : Acsi) (k : Tracker) (objRef : Bytes) (names : List Bytes) :
    WritesIn k (· ∉ commonAttributes) a (a.mirrorAll k objRef names) :=
  .foldl (fun a name _ => (mirrorOne_writesIn a k objRef name).mono fun _ hn => hn.1) a

/-- The value of a leaf that is in no tracking object is what it was. -/
theorem WritesIn.valueAt {P : Bytes → Prop} (h : WritesIn k P a b) (hlaid : Laid m a)
    (hk : k ∈ a.tracking.trackers) {text : Bytes} {fc : Fc} (hfc : constraintOf text = some fc)
    (hne : fc ≠ .sr) : b.valueAt text = a.valueAt text := by
  have hplace : ∀ place, a.layout text = some (.leaf place) → b.value place = a.value place := by
    intro place hlayout
    have houtside := hlaid.outside hlayout hfc hne place (List.mem_singleton_self _)
    rw [h.others]
    cases place with
    | data r =>
      apply h.leaves
      rintro name - rfl
      obtain ⟨ln, object, hreference⟩ := hlaid.objects k hk
      refine houtside _ rfl ?_
      rw [hreference]
      rfl
    | setting j key => rfl
    | report i x => rfl
    | log i x => rfl
  have hlayout : b.layout = a.layout := by rw [h.others]
  unfold Acsi.valueAt
  rw [hlayout]
  split
  · rename_i place hleaf
    exact hplace place hleaf
  · rfl

theorem Laid.of_same (h : Laid m a) (hlayout : b.layout = a.layout)
    (htracking : b.tracking = a.tracking) (hnode : b.control.ied.node = a.control.ied.node) :
    Laid m b where
  placed := by
    rw [hlayout]
    exact h.placed
  blocks := h.blocks
  objects := by
    rw [htracking]
    exact h.objects
  leaves := by
    rw [htracking, hnode]
    exact h.leaves

theorem WritesIn.tracking {P : Bytes → Prop} (h : WritesIn k P a b) : b.tracking = a.tracking := by
  rw [h.others]

/-- A round that meets an attribute whose value can be read writes it, and no other round does. -/
theorem mirrorAll_attr {objRef : Bytes} {names : List Bytes} (htyped : a.control.ied.Typed)
    (hname : name ∉ commonAttributes) (hdeclares : a.Declares k name value)
    (hread : ∀ b, WritesIn k (· ∉ commonAttributes) a b →
      blockAttribute b.valueAt objRef name = some value)
    (hmem : name ∈ names ∨ a.attr k name = some value) :
    (a.mirrorAll k objRef names).attr k name = some value := by
  induction names generalizing a with
  | nil =>
    rcases hmem with hmem | hmem
    · cases hmem
    · exact hmem
  | cons first names ih =>
    have hfirst := mirrorOne_writesIn a k objRef first
    have hwrites : WritesIn k (· ∉ commonAttributes) a (a.mirrorOne k objRef first) :=
      hfirst.mono fun _ hn => hn.1
    apply ih (hfirst.written.typed htyped) (hfirst.declares.mpr hdeclares)
      fun b hb => hread b (hwrites.trans hb)
    by_cases heq : name = first
    · subst heq
      right
      have hvalue := hread a (.refl k _ a)
      unfold mirrorOne Tracking.mirrorOne
      simp only [if_neg hname, hvalue]
      exact writeTracker_attr htyped hdeclares
    · have hkept : (a.mirrorOne k objRef first).attr k name = a.attr k name :=
        hfirst.attr fun hn => heq hn.2
      rw [hkept]
      exact hmem.imp (fun hmem => (List.mem_cons.mp hmem).resolve_left heq) id

/-! ### What a record says -/

/-- The attributes of the common class, but for the time. -/
def commonValues (a : Acsi) (k : Tracker) (event : Tracked) : List (Bytes × Value) :=
  [(ascii "objRef", .visibleString event.objRef),
    (ascii "serviceType", a.tracking.ordinal k.reference (ascii "serviceType") event.service),
    (ascii "errorCode", a.tracking.ordinal k.reference (ascii "errorCode") event.error),
    (ascii "originatorID", .octetString event.originator)]

theorem commonValues_nodup (a : Acsi) (k : Tracker) (event : Tracked) :
    ((a.commonValues k event).map (·.1)).Nodup := by
  have hnames : [ascii "objRef", ascii "serviceType", ascii "errorCode",
      ascii "originatorID"].Nodup := by decide
  exact hnames

theorem recordIn_eq (a : Acsi) (k : Tracker) (event : Tracked) (extra : List (Bytes × Value))
    (now : Now) :
    a.recordIn k event extra now =
      (((a.writeAll k (a.commonValues k event)).mirrorAll k event.objRef k.leaves).writeAll k
        extra).writeTracker k (ascii "t") (.utcTime now.wall) := rfl

section Records

variable {k : Tracker} {event : Tracked} {extra : List (Bytes × Value)} {now : Now}

theorem recordIn_writesIn : WritesIn k (fun _ => True) a (a.recordIn k event extra now) := by
  have hcommon := writeAll_writesIn a k (a.commonValues k event)
  have hmirror := mirrorAll_writesIn (a.writeAll k (a.commonValues k event)) k event.objRef k.leaves
  have hextra := writeAll_writesIn
    ((a.writeAll k (a.commonValues k event)).mirrorAll k event.objRef k.leaves) k extra
  have htime := @writeTracker_writesIn (fun _ => True) (ascii "t") trivial
    (((a.writeAll k (a.commonValues k event)).mirrorAll k event.objRef k.leaves).writeAll k extra)
    k (.utcTime now.wall)
  rw [recordIn_eq]
  exact (((hcommon.mono fun _ _ => trivial).trans (hmirror.mono fun _ _ => trivial)).trans
    (hextra.mono fun _ _ => trivial)).trans htime

theorem recordIn_common (htyped : a.control.ied.Typed)
    (hextra : ∀ e ∈ extra, e.1 ∉ commonAttributes) {name : Bytes} {value : Value}
    (hmem : (name, value) ∈ a.commonValues k event) (h : a.Declares k name value) :
    (a.recordIn k event extra now).attr k name = some value := by
  have hname : name ∈ commonAttributes ∧ name ≠ ascii "t" := by
    have hnames : name ∈ (a.commonValues k event).map (·.1) := List.mem_map_of_mem hmem
    have hall : ∀ n ∈ [ascii "objRef", ascii "serviceType", ascii "errorCode",
        ascii "originatorID"], n ∈ commonAttributes ∧ n ≠ ascii "t" := by decide
    exact hall name hnames
  have hmirror := mirrorAll_writesIn (a.writeAll k (a.commonValues k event)) k event.objRef k.leaves
  have hwrites := writeAll_writesIn
    ((a.writeAll k (a.commonValues k event)).mirrorAll k event.objRef k.leaves) k extra
  have htime := @writeTracker_writesIn (fun n => n = ascii "t") (ascii "t") rfl
    (((a.writeAll k (a.commonValues k event)).mirrorAll k event.objRef k.leaves).writeAll k extra)
    k (.utcTime now.wall)
  rw [recordIn_eq, htime.attr hname.2, hwrites.attr, hmirror.attr (not_not_intro hname.1)]
  · exact writeAll_attr htyped (commonValues_nodup a k event) hmem h
  · intro hin
    obtain ⟨e, he, rfl⟩ := List.mem_map.mp hin
    exact hextra e he hname.1

theorem recordIn_extra (htyped : a.control.ied.Typed)
    (hextra : ∀ e ∈ extra, e.1 ∉ commonAttributes) (hnames : (extra.map (·.1)).Nodup)
    {name : Bytes} {value : Value} (hmem : (name, value) ∈ extra) (h : a.Declares k name value) :
    (a.recordIn k event extra now).attr k name = some value := by
  have hcommon := writeAll_writesIn a k (a.commonValues k event)
  have hmirror := mirrorAll_writesIn (a.writeAll k (a.commonValues k event)) k event.objRef k.leaves
  have htime := @writeTracker_writesIn (fun n => n = ascii "t") (ascii "t") rfl
    (((a.writeAll k (a.commonValues k event)).mirrorAll k event.objRef k.leaves).writeAll k extra)
    k (.utcTime now.wall)
  have hne : name ≠ ascii "t" := by
    rintro rfl
    have htime : ascii "t" ∈ commonAttributes := by decide
    exact hextra _ hmem htime
  rw [recordIn_eq, htime.attr hne]
  exact writeAll_attr (hmirror.written.typed (hcommon.written.typed htyped)) hnames hmem
    (hmirror.declares.mpr (hcommon.declares.mpr h))

theorem recordIn_mirrored (hlaid : Laid m a) (htyped : a.control.ied.Typed)
    (hk : k ∈ a.tracking.trackers) {fc : Fc} (hfc : constraintOf event.objRef = some fc)
    (hne : fc ≠ .sr) {name : Bytes} {value : Value} (hcapital : Capital a event.objRef name)
    (hname : trackingName name ∉ commonAttributes)
    (hvalue : a.valueAt (attributeText event.objRef [name]) = some value)
    (h : a.Declares k (trackingName name) value) :
    (a.recordIn k event [] now).attr k (trackingName name) = some value := by
  have hcommon := writeAll_writesIn a k (a.commonValues k event)
  have htime := @writeTracker_writesIn (fun n => n = ascii "t") (ascii "t") rfl
    (((a.writeAll k (a.commonValues k event)).mirrorAll k event.objRef k.leaves).writeAll k [])
    k (.utcTime now.wall)
  have hntime : trackingName name ≠ ascii "t" := by
    intro heq
    rw [heq] at hname
    exact hname (by decide)
  have hleaf : trackingName name ∈ k.leaves := by
    unfold Declares LeafStore.takes at h
    split at h
    · rename_i btype hnode
      exact hlaid.leaves k hk _ btype hnode
    · cases h
  rw [recordIn_eq, htime.attr hntime]
  refine mirrorAll_attr (hcommon.written.typed htyped) hname (hcommon.declares.mpr h) ?_
    (Or.inl hleaf)
  intro b hb
  have hboth : WritesIn k (fun _ => True) a b :=
    (hcommon.mono fun _ _ => trivial).trans (hb.mono fun _ _ => trivial)
  have htext : constraintOf (attributeText event.objRef [name]) = some fc := by
    rw [attributeText_singleton, List.append_assoc]
    exact constraintOf_append hfc name
  apply blockAttribute_trackingName
  · refine ⟨hcapital.1, fun hgi => ?_⟩
    have hlayout : b.layout = a.layout := by rw [hboth.others]
    rw [hlayout]
    exact hcapital.2 hgi
  · rw [hboth.valueAt hlaid hk htext hne]
    exact hvalue

end Records

/-! ### The record of a write -/

theorem trackedWrite_congr {b : Acsi} (hlayout : b.layout = a.layout) (hpeers : b.peers = a.peers)
    (assoc : AssocId) (reference : Bytes) (result : Except Int Unit) :
    b.trackedWrite m assoc reference result = a.trackedWrite m assoc reference result := by
  unfold trackedWrite controlAt constraintAt
  rw [hlayout, hpeers]

/-- What a command tells beside the common attributes has names of its own, none of them twice. -/
theorem controlTrackingValues_names (a : Acsi) (value : Option Value) :
    (∀ e ∈ a.controlTrackingValues value, e.1 ∉ commonAttributes) ∧
      ((a.controlTrackingValues value).map (·.1)).Nodup := by
  have hlast : ∀ names ∈ [[ascii "respAddCause"],
      [ascii "respAddCause", ascii "ctlVal", ascii "origin", ascii "ctlNum", ascii "T",
        ascii "Test", ascii "Check"],
      [ascii "respAddCause", ascii "ctlVal", ascii "operTm", ascii "origin", ascii "ctlNum",
        ascii "T", ascii "Test", ascii "Check"]],
      (∀ n ∈ names, n ∉ commonAttributes) ∧ names.Nodup := by decide
  have hnames : (a.controlTrackingValues value).map (·.1) ∈ [[ascii "respAddCause"],
      [ascii "respAddCause", ascii "ctlVal", ascii "origin", ascii "ctlNum", ascii "T",
        ascii "Test", ascii "Check"],
      [ascii "respAddCause", ascii "ctlVal", ascii "operTm", ascii "origin", ascii "ctlNum",
        ascii "T", ascii "Test", ascii "Check"]] := by
    unfold controlTrackingValues
    cases requestOf value with
    | none => exact List.mem_cons_self
    | some request =>
      cases hoperTm : request.operTm with
      | none => simp [hoperTm]
      | some t => simp [hoperTm]
  obtain ⟨hcommon, hnodup⟩ := hlast _ hnames
  exact ⟨fun e he => hcommon e.1 (List.mem_map_of_mem he), hnodup⟩

/-- What is told of a write that is recorded. -/
def extraOf (a : Acsi) (event : Tracked) (value : Option Value) : List (Bytes × Value) :=
  if event.cdc = .cts then a.controlTrackingValues value else []

/-- The server when a write is recorded: the cause of a command has been taken. -/
def causeTaken (a : Acsi) (event : Tracked) : Acsi :=
  if event.cdc = .cts then a.takeLastCause else a

theorem extraOf_names (a : Acsi) (event : Tracked) (value : Option Value) :
    (∀ e ∈ a.extraOf event value, e.1 ∉ commonAttributes) ∧
      ((a.extraOf event value).map (·.1)).Nodup := by
  unfold extraOf
  split
  · exact a.controlTrackingValues_names value
  · exact ⟨fun e he => absurd he List.not_mem_nil, List.nodup_nil⟩

theorem trackWrite_eq (assoc : AssocId) (now : Now) (reference : Bytes) (value : Option Value)
    (result : Except Int Unit) (h : a.tracking.isEmpty = false) :
    a.trackWrite m assoc now reference value result =
      (a.causeTaken (a.trackedWrite m assoc reference result)).recordWith
        (a.trackedWrite m assoc reference result)
        (a.extraOf (a.trackedWrite m assoc reference result) value) now := by
  unfold trackWrite causeTaken extraOf
  rw [h]
  dsimp only
  rw [if_neg Bool.false_ne_true]
  split
  · rfl
  · rfl

theorem causeTaken_beside (a : Acsi) (event : Tracked) : Beside a (a.causeTaken event) := by
  unfold causeTaken
  split
  · exact ⟨rfl, rfl, rfl, .refl _, fun _ _ => rfl⟩
  · exact (Aside.refl a).toBeside

end Acsi

/-! ### The items of a run -/

/-- What an item of a request names, whatever it selects of that. -/
def namedBy : VariableSpecification → Option Bytes
  | .name (.domainSpecific domain item) => some (fullReference domain item)
  | .element (.domainSpecific domain item) _ => some (fullReference domain item)
  | _ => none

/-- What the items of a request name, in the order of `access_names`. -/
def Acsi.namedIn (a : Acsi) : VariableAccess → List (Option Bytes)
  | .listOfVariable list => list.map namedBy
  | .variableListName (.domainSpecific domain item) =>
    match a.dataSets.find (fullReference domain item) with
    | some ds => ds.references.map some
    | none => []
  | .variableListName _ => []

/-- An item that was handled: the server before it, and what the request has for it. -/
structure Handled where
  before : Acsi
  assoc : AssocId
  now : Now
  named : Option Bytes
  name : Except Int Bytes
  content : Tlv

/-- The items that a loop handles. -/
def handledItems (m : Directory) (assoc : AssocId) (now : Now) :
    Acsi → List (Option Bytes × Except Int Bytes × Tlv) → List Handled
  | _, [] => []
  | a, (named, name, t) :: items =>
    ⟨a, assoc, now, named, name, t⟩ ::
      handledItems m assoc now (a.writeItem m assoc now name t).1 items

/-- The items that are handled in an event. -/
def handled (m : Directory) (a : Acsi) : ServiceEvent → List Handled
  | .write assoc access values now =>
    match a.accessNames access with
    | .error _ => []
    | .ok names =>
      if names.length ≠ values.length then []
      else handledItems m assoc now a ((a.namedIn access).zip (names.zip values))
  | .loop _ => []

/-- A server between two items: no cause of a refusal is left from a command. -/
structure Acsi.Ready (m : Directory) (a : Acsi) : Prop where
  laid : a.Laid m
  typed : a.control.ied.Typed
  cause : a.control.controls.lastCause = none

namespace Handled

open Acsi (trackingName attributeText Capital)

variable (h : Handled) (m : Directory)

def value : Option Value := Acsi.decoded h.content

/-- The server after the item. -/
def after : Acsi := (h.before.writeItem m h.assoc h.now h.name h.content).1

/-- How the item is answered. -/
def result : Except Int Unit := (h.before.writeItem m h.assoc h.now h.name h.content).2

/-- What the item is a write of: the value it addresses, or else what it names. -/
def reference : Option Bytes :=
  match h.name with
  | .ok reference => some reference
  | .error _ => h.named

/-- An operate with a time that it is to take effect at. -/
def timeActivated (reference : Bytes) : Bool :=
  (h.before.controlAt reference).any (·.2 = .oper) &&
    (Acsi.requestOf h.value).any (·.operTm.isSome)

/-- The service that the item is, and what is to be tracked of it. -/
def event : Option Tracked :=
  h.reference.map fun reference =>
    let event := h.before.trackedWrite m h.assoc reference (h.result m)
    if h.timeActivated reference then { event with service := timeActivatedOperate } else event

/-- The cause that the command in the item is refused with, if it is refused with one. -/
def cause : Option AddCause :=
  match h.name with
  | .ok reference => h.before.causeOfWrite h.assoc h.now reference h.value
  | .error _ => none

/-- A tracking object is as it was before the item. -/
def Keeps (k : Tracker) : Prop :=
  ∀ names, (h.after m).control.ied.values ⟨k.reference.domain, k.reference.item ++ names⟩ =
    h.before.control.ied.values ⟨k.reference.domain, k.reference.item ++ names⟩

/-- A tracking object tells the item. -/
structure Tells (event : Tracked) (k : Tracker) : Prop where
  objRef : (h.after m).attr k (ascii "objRef") = some (.visibleString event.objRef)
  serviceType : (h.after m).attr k (ascii "serviceType") =
    some (h.before.tracking.ordinal k.reference (ascii "serviceType") event.service)
  errorCode : (h.after m).attr k (ascii "errorCode") =
    some (h.before.tracking.ordinal k.reference (ascii "errorCode") event.error)
  originatorID : (h.after m).attr k (ascii "originatorID") = some (.octetString event.originator)
  mirrored : event.cdc ≠ .cts → ∀ b ∈ m.blocks, b.reference = event.objRef →
    ∀ name rest value, trackingName name ∉ commonAttributes →
      (h.after m).valueAt (attributeText event.objRef (name :: rest)) = some value →
      let leaf : Reference := ⟨k.reference.domain, k.reference.item ++ trackingName name :: rest⟩
      (h.after m).control.ied.takes leaf value = true →
        (h.after m).control.ied.values leaf = some value
  respAddCause : event.cdc = .cts → ∀ i,
    (h.after m).Declares k (ascii "respAddCause") (.integer i) →
      (h.after m).attr k (ascii "respAddCause") =
        some (.integer ((h.cause).getD .unknown).toCode)

/-- The tracking objects that the item is to be tracked in. -/
def candidates : List Tracker := (h.event m).elim [] h.before.tracking.candidates

/-- One tracking object of the class of the item tells it, if its logical device has one, and the
others are as they were. -/
structure Attributed : Prop where
  one : h.candidates m ≠ [] → ∃ event k, h.event m = some event ∧ k ∈ h.candidates m ∧
    h.Tells m event k ∧
      ∀ other ∈ h.before.tracking.trackers, other.reference ≠ k.reference → h.Keeps m other
  none : h.candidates m = [] → ∀ k ∈ h.before.tracking.trackers, h.Keeps m k

/-- A tracking object with the attributes of the common class, of the types they have there. -/
structure Complete (a : Acsi) (k : Tracker) : Prop where
  objRef : ∀ text, a.Declares k (ascii "objRef") (.visibleString text)
  serviceType : ∀ i, a.Declares k (ascii "serviceType") (.integer i)
  errorCode : ∀ i, a.Declares k (ascii "errorCode") (.integer i)
  originatorID : ∀ bs, a.Declares k (ascii "originatorID") (.octetString bs)

/-- What the tracking of an item rests on: the item addresses one value and is no operate for a later
time, the tracking object is complete, and what it has of a control block are attributes of the block
that begin with a capital letter. -/
structure Trackable (event : Tracked) : Prop where
  single : ∃ reference, h.name = .ok reference
  immediate : ∀ reference, h.name = .ok reference → h.timeActivated reference = false
  complete : ∀ k ∈ h.candidates m, Complete h.before k
  capital : event.cdc ≠ .cts → ∀ b ∈ m.blocks, b.reference = event.objRef →
    ∀ k ∈ h.candidates m, ∀ name rest btype,
      (h.before.layout (attributeText event.objRef (name :: rest))).isSome →
      h.before.control.ied.node
        ⟨k.reference.domain, k.reference.item ++ trackingName name :: rest⟩ = some (.leaf btype) →
      rest = [] ∧ Capital h.before event.objRef name

/-- An item is not to be tracked, or nothing is in the way. -/
def Fits : Prop := ∀ event, h.event m = some event → h.candidates m ≠ [] → h.Trackable m event

variable {m} in
theorem mem_trackers {k : Tracker} (hk : k ∈ h.candidates m) : k ∈ h.before.tracking.trackers := by
  unfold candidates at hk
  cases hevent : h.event m with
  | none =>
    rw [hevent] at hk
    cases hk
  | some event =>
    rw [hevent] at hk
    exact Tracking.mem_trackers_of_mem_candidates hk

variable {h} {m}

variable {reference : Bytes} {event : Tracked} {k : Tracker}

theorem after_eq (hname : h.name = .ok reference) :
    h.after m = (h.before.writeDecoded m h.assoc h.now reference h.value).1.trackWrite m h.assoc
      h.now reference h.value (h.result m) := by
  unfold after result Acsi.writeItem
  rw [hname]
  rfl

theorem event_cases (h' : h.event m = some event) : ∃ reference, h.reference = some reference ∧
      let recorded := h.before.trackedWrite m h.assoc reference (h.result m)
      h.candidates m = h.before.tracking.candidates recorded ∧
        (h.timeActivated reference = false → event = recorded) := by
  obtain ⟨reference, hreference, heq⟩ := Option.map_eq_some_iff.mp h'
  refine ⟨reference, hreference, ?_, ?_⟩
  · unfold candidates
    rw [h', Option.elim_some, ← heq]
    dsimp only
    split
    · exact Tracking.candidates_service _ _
    · rfl
  · intro himmediate
    rw [himmediate, if_neg Bool.false_ne_true] at heq
    exact heq.symm

/-- A leaf of another tracking object is none of this one. -/
theorem ne_leafOf {other : Tracker} (hlaid : h.before.Laid m) (hk : k ∈ h.before.tracking.trackers)
    (hother : other ∈ h.before.tracking.trackers) (hne : other.reference ≠ k.reference)
    (names : List Bytes) (name : Bytes) :
    (⟨other.reference.domain, other.reference.item ++ names⟩ : Reference) ≠
      Tracking.leafOf k.reference name := by
  intro heq
  obtain ⟨hdomain, hitem⟩ := Reference.mk.inj heq
  obtain ⟨ln, object, hreference⟩ := hlaid.objects k hk
  obtain ⟨ln', object', hreference'⟩ := hlaid.objects other hother
  have hlength : other.reference.item.length = k.reference.item.length := by
    rw [hreference, hreference']
    rfl
  have hitems := (List.append_inj hitem hlength).1
  apply hne
  cases hr : other.reference
  cases hr' : k.reference
  rw [hr, hr'] at hdomain hitems
  exact congrArg₂ Reference.mk hdomain hitems

theorem keeps_of_same (hlaid : h.before.Laid m) (hk : k ∈ h.before.tracking.trackers)
    (hsame : SameTrackers h.before.control.ied (h.after m).control.ied) : h.Keeps m k := by
  intro names
  obtain ⟨ln, object, hreference⟩ := hlaid.objects k hk
  apply hsame
  rw [hreference]
  rfl

theorem accepts_integer (btype : BType) (i j : Int) :
    accepts btype (.integer i) = accepts btype (.integer j) := by
  cases btype <;> rfl

theorem declares_integer {a : Acsi} {name : Bytes} {i : Int} (hi : a.Declares k name (.integer i))
    (j : Int) : a.Declares k name (.integer j) := by
  unfold Acsi.Declares LeafStore.takes at hi ⊢
  split at hi
  · rename_i btype hnode
    exact (accepts_integer btype j i).trans hi
  · cases hi

/-- A tracking object is told an item when it is recorded there. -/
theorem tells_of_recorded {base : Acsi} {extra : List (Bytes × Value)} (hready : h.before.Ready m)
    (hbeside : Acsi.Beside h.before base) (htrackable : h.Trackable m event)
    (hk : k ∈ h.candidates m) (hmem : k ∈ h.before.tracking.trackers)
    (hafter : h.after m = base.recordIn k event extra h.now)
    (hnames : (∀ e ∈ extra, e.1 ∉ commonAttributes) ∧ (extra.map (·.1)).Nodup)
    (hvalues : event.cdc ≠ .cts → extra = []) (hcause : event.cdc = .cts →
      (ascii "respAddCause", .integer ((h.cause).getD .unknown).toCode) ∈ extra) :
    h.Tells m event k := by
  have htyped : base.control.ied.Typed := hbeside.written.typed hready.typed
  have hwrites : Acsi.WritesIn k (fun _ => True) base (base.recordIn k event extra h.now) :=
    Acsi.recordIn_writesIn
  have hlaid : base.Laid m :=
    hready.laid.of_same hbeside.layout hbeside.tracking hbeside.written.node
  have hkbase : k ∈ base.tracking.trackers := by rwa [hbeside.tracking]
  have hcomplete := htrackable.complete k hk
  have hdeclares : ∀ {name value}, h.before.Declares k name value → base.Declares k name value := by
    intro name value hd
    unfold Acsi.Declares LeafStore.takes at hd ⊢
    rwa [hbeside.written.node]
  have hcommon : ∀ {name value}, (name, value) ∈ base.commonValues k event →
      h.before.Declares k name value → (h.after m).attr k name = some value := by
    intro name value hin hd
    rw [hafter]
    exact Acsi.recordIn_common htyped hnames.1 hin (hdeclares hd)
  have hordinal : base.commonValues k event = h.before.commonValues k event := by
    unfold Acsi.commonValues
    rw [hbeside.tracking]
  rw [hordinal] at hcommon
  constructor
  · exact hcommon List.mem_cons_self (hcomplete.objRef _)
  · exact hcommon (List.mem_cons_of_mem _ List.mem_cons_self) (hcomplete.serviceType _)
  · exact hcommon (List.mem_cons_of_mem _ (List.mem_cons_of_mem _ List.mem_cons_self))
      (hcomplete.errorCode _)
  · exact hcommon (List.mem_cons_of_mem _ (List.mem_cons_of_mem _ (List.mem_cons_of_mem _
      List.mem_cons_self))) (hcomplete.originatorID _)
  · intro hcts b hb hreference name rest value hname hvalue
    dsimp only
    intro htakes
    rw [hafter] at hvalue htakes ⊢
    obtain ⟨fc, hfc, hne⟩ := hready.laid.blocks b hb
    rw [hreference] at hfc
    have hlayout : (h.before.layout (attributeText event.objRef (name :: rest))).isSome := by
      unfold Acsi.valueAt at hvalue
      rw [hwrites.others] at hvalue
      rw [← hbeside.layout]
      split at hvalue
      · rename_i place hplace
        have hplace' : base.layout (attributeText event.objRef (name :: rest)) =
            some (.leaf place) := hplace
        rw [hplace']
        rfl
      · cases hvalue
    have hnode : ∃ btype, h.before.control.ied.node
        ⟨k.reference.domain, k.reference.item ++ trackingName name :: rest⟩ =
          some (.leaf btype) := by
      unfold LeafStore.takes at htakes
      rw [hwrites.written.node, hbeside.written.node] at htakes
      split at htakes
      · rename_i btype hnode
        exact ⟨btype, hnode⟩
      · cases htakes
    obtain ⟨btype, hnode⟩ := hnode
    obtain ⟨rfl, hcapital⟩ :=
      htrackable.capital hcts b hb hreference k hk name rest btype hlayout hnode
    have htext : constraintOf (attributeText event.objRef [name]) = some fc := by
      rw [Acsi.attributeText_singleton, List.append_assoc]
      exact constraintOf_append hfc name
    rw [hwrites.valueAt hlaid hkbase htext hne] at hvalue
    have hdeclared : base.Declares k (trackingName name) value := by
      apply hwrites.declares.mp
      exact htakes
    have hcapital' : Capital base event.objRef name := by
      refine ⟨hcapital.1, fun hgi => ?_⟩
      rw [hbeside.layout]
      exact hcapital.2 hgi
    rw [hvalues hcts]
    exact Acsi.recordIn_mirrored hlaid htyped hkbase hfc hne hcapital' hname hvalue hdeclared
  · intro hcts i hdeclared
    rw [hafter] at hdeclared ⊢
    exact Acsi.recordIn_extra htyped hnames.1 hnames.2 (hcause hcts)
      (declares_integer (hwrites.declares.mp hdeclared) _)

theorem recorded_cases (hready : h.before.Ready m) (hname : h.name = .ok reference) :
    let recorded := h.before.trackedWrite m h.assoc reference (h.result m)
    (h.before.tracking.candidates recorded = [] ∧
        SameTrackers h.before.control.ied (h.after m).control.ied) ∨
      ∃ base k, Acsi.Beside h.before base ∧ k ∈ h.before.tracking.candidates recorded ∧
        h.after m = base.recordIn k recorded
          ((h.before.writeDecoded m h.assoc h.now reference h.value).1.extraOf recorded h.value)
          h.now := by
  obtain ⟨hbeside, -⟩ :=
    Acsi.writeDecoded_beside hready.laid h.assoc h.now reference h.value
  have hafter := after_eq (m := m) hname
  generalize (h.before.writeDecoded m h.assoc h.now reference h.value).1 = written at hbeside hafter ⊢
  dsimp only
  have hevent := Acsi.trackedWrite_congr (m := m) hbeside.layout hbeside.peers h.assoc reference
    (h.result m)
  cases hempty : written.tracking.isEmpty with
  | true =>
    left
    rw [hbeside.tracking] at hempty
    have hnil : h.before.tracking.trackers = [] := List.isEmpty_iff.mp hempty
    constructor
    · rw [List.eq_nil_iff_forall_not_mem]
      intro k hk
      have hmem := Tracking.mem_trackers_of_mem_candidates hk
      rw [hnil] at hmem
      cases hmem
    · rw [hafter, Acsi.trackWrite, hbeside.tracking, if_pos hempty]
      exact hbeside.trackers
  | false =>
    rw [Acsi.trackWrite_eq _ _ _ _ _ hempty, hevent] at hafter
    have htaken := written.causeTaken_beside
      (h.before.trackedWrite m h.assoc reference (h.result m))
    have hboth := hbeside.trans htaken
    unfold Acsi.recordWith at hafter
    split at hafter
    · rename_i hselect
      left
      rw [hboth.tracking] at hselect
      refine ⟨Tracking.selectFor_eq_none hselect, ?_⟩
      rw [hafter]
      exact hboth.trackers
    · rename_i k hselect
      right
      rw [hboth.tracking] at hselect
      exact ⟨_, k, hboth, Tracking.mem_of_selectFor hselect, hafter⟩

/-- What a command tells of its refusal is the cause it was refused with. -/
theorem cause_mem_extraOf (hready : h.before.Ready m) (hname : h.name = .ok reference)
    (hcts : event.cdc = .cts) :
    (ascii "respAddCause", Value.integer ((h.cause).getD .unknown).toCode) ∈
      (h.before.writeDecoded m h.assoc h.now reference h.value).1.extraOf event h.value := by
  obtain ⟨-, hcause⟩ :=
    Acsi.writeDecoded_beside hready.laid h.assoc h.now reference h.value
  have heq : h.cause = h.before.causeOfWrite h.assoc h.now reference h.value := by
    unfold cause
    rw [hname]
  rw [hready.cause, Option.or_none, ← heq] at hcause
  unfold Acsi.extraOf
  rw [if_pos hcts]
  unfold Acsi.controlTrackingValues
  rw [hcause]
  exact List.mem_cons_self

theorem attributed (hready : h.before.Ready m) (hfits : h.Fits m) : h.Attributed m := by
  cases hname : h.name with
  | error code =>
    have hafter : h.after m = h.before := by
      unfold after Acsi.writeItem
      rw [hname]
    constructor
    · intro hcandidates
      cases hevent : h.event m with
      | none => exact absurd (by rw [candidates, hevent]; rfl) hcandidates
      | some event =>
        obtain ⟨reference, hok⟩ := (hfits event hevent hcandidates).single
        rw [hname] at hok
        cases hok
    · intro _ k hk
      apply keeps_of_same hready.laid hk
      rw [hafter]
      exact fun _ _ => rfl
  | ok reference =>
    have hreference : h.reference = some reference := by
      unfold Handled.reference
      rw [hname]
    have hevent : ∃ event, h.event m = some event := by
      unfold event
      rw [hreference]
      exact ⟨_, rfl⟩
    obtain ⟨event, hevent⟩ := hevent
    obtain ⟨reference', hreference', hcandidates, hrecorded⟩ := event_cases hevent
    rw [hreference] at hreference'
    cases hreference'
    rcases recorded_cases hready hname with ⟨hnone, hsame⟩ | ⟨base, k, hbeside, hk, hafter⟩
    · constructor
      · exact fun hne => absurd (hcandidates.trans hnone) hne
      · exact fun _ k hk => keeps_of_same hready.laid hk hsame
    · have hmem := Tracking.mem_trackers_of_mem_candidates hk
      rw [← hcandidates] at hk
      have hne : h.candidates m ≠ [] := List.ne_nil_of_mem hk
      constructor
      · intro _
        have htrackable := hfits event hevent hne
        have hsame := hrecorded (htrackable.immediate reference hname)
        rw [← hsame] at hafter
        refine ⟨event, k, hevent, hk, ?_, ?_⟩
        · apply tells_of_recorded hready hbeside htrackable hk hmem hafter
            (Acsi.extraOf_names _ event h.value)
          · intro hcts
            rw [Acsi.extraOf, if_neg hcts]
          · exact fun hcts => cause_mem_extraOf hready hname hcts
        · intro other hother hdiffers names
          have hwrites : Acsi.WritesIn k (fun _ => True) base (h.after m) := by
            rw [hafter]
            exact Acsi.recordIn_writesIn
          obtain ⟨ln, object, hshape⟩ := hready.laid.objects other hother
          rw [hwrites.leaves _ fun name _ =>
            ne_leafOf hready.laid hmem hother hdiffers names name]
          apply hbeside.trackers
          rw [hshape]
          rfl
      · exact fun hnil => absurd hnil hne

end Handled

/-! ### Between the items of a run -/

namespace Acsi

variable {a b c : Acsi} {m : Directory}

/-- The tree and the tracking objects are the same, the data has only been written to, and no cause
of a refusal has come or gone. -/
structure Steady (a b : Acsi) : Prop where
  layout : b.layout = a.layout
  tracking : b.tracking = a.tracking
  written : Overwritten a.control.ied b.control.ied
  cause : b.control.controls.lastCause = a.control.controls.lastCause

theorem Steady.trans (h : Steady a b) (h' : Steady b c) : Steady a c :=
  ⟨h'.layout.trans h.layout, h'.tracking.trans h.tracking, h.written.trans h'.written,
    h'.cause.trans h.cause⟩

theorem Ready.of_steady (h : a.Ready m) (hsteady : Steady a b) : b.Ready m :=
  ⟨h.laid.of_same hsteady.layout hsteady.tracking hsteady.written.node,
    hsteady.written.typed h.typed, hsteady.cause.trans h.cause⟩

theorem perform_steady {op : Operation}
    (h : op.writes = false ∨ ∃ r value, op = .write r value) : Steady a (a.perform op) := by
  have hwritten := a.perform_written op
  rcases h with hop | ⟨r, value, rfl⟩
  · cases op with
    | select assoc object now =>
      refine ⟨rfl, rfl, hwritten, ?_⟩
      have hselect : (a.control.controls.select assoc a.control.ied object now).1.lastCause =
          a.control.controls.lastCause := by
        unfold Control.Controls.select
        split <;> rfl
      exact hselect
    | createDataSet name specs => exact ⟨rfl, rfl, hwritten, rfl⟩
    | deleteDataSets scope names => exact ⟨rfl, rfl, hwritten, rfl⟩
    | _ => cases hop
  · exact ⟨rfl, rfl, hwritten, rfl⟩

theorem foldl_perform_steady {ops : List Operation}
    (h : ∀ op ∈ ops, op.writes = false ∨ ∃ r value, op = .write r value) :
    Steady a (ops.foldl perform a) := by
  induction ops generalizing a with
  | nil => exact ⟨rfl, rfl, .refl _, rfl⟩
  | cons op ops ih =>
    have hfirst : Steady a (a.perform op) := perform_steady (h op List.mem_cons_self)
    exact hfirst.trans (ih fun op' hop' => h op' (List.mem_cons_of_mem _ hop'))

theorem commit_steady (a : Acsi) (now : Now) : Steady a (a.commit now).1 :=
  ⟨rfl, rfl, a.commit_written now, rfl⟩

theorem trackReleased_steady (a : Acsi) (now : Now) : Steady a (a.trackReleased now) := by
  have hwritten := a.trackReleased_written now
  unfold trackReleased at hwritten ⊢
  split
  · exact ⟨rfl, rfl, .refl _, rfl⟩
  · rename_i htracks
    rw [if_neg htracks] at hwritten
    exact ⟨rfl, rfl, hwritten, rfl⟩

theorem onTimeout_steady (a : Acsi) (now : Now) : Steady a (a.onTimeout now).1 := by
  have htimeout : Steady a
      { a with
        control := a.control.next (.timeout now.mono)
        devices := a.devices.map fun d => d.next (.timeout now.mono) } :=
    ⟨rfl, rfl, a.control.next_written (by rintro ied ⟨⟩),
      Control.runAll_lastCause _ a.control.ied _⟩
  have htracked := htimeout.trans (trackReleased_steady _ now)
  exact htracked.trans ⟨rfl, rfl, .refl _, rfl⟩

theorem onAssociationClosed_steady (a : Acsi) (assoc : AssocId) (now : Now) :
    Steady a (a.onAssociationClosed assoc now) := by
  have hlost : Steady a
      { a with
        reports := a.reports.map fun r => { r with block := r.block.closed a.peers assoc now.mono }
        released := a.released ++
          (a.reports.filter fun r => r.block.rcb.owner = some assoc).map (·.block.reference) } :=
    ⟨rfl, rfl, .refl _, rfl⟩
  have htracked := hlost.trans (trackReleased_steady _ now)
  exact ⟨htracked.layout, htracked.tracking, a.onAssociationClosed_written assoc now,
    htracked.cause⟩

theorem next_steady {x : LoopEvent} (h : x.otherwise = true) : Steady a (a.next x) := by
  cases x with
  | request operations now =>
    have hops : ∀ op ∈ operations, op.writes = false ∨ ∃ r value, op = .write r value := by
      intro op hop
      left
      simpa using List.all_eq_true.mp h op hop
    exact (foldl_perform_steady hops).trans (commit_steady _ now)
  | transaction writes now =>
    rw [next]
    split
    · exact ⟨rfl, rfl, .refl _, rfl⟩
    · rw [foldl_writes]
      refine Steady.trans (foldl_perform_steady ?_) (commit_steady _ now)
      intro op hop
      obtain ⟨w, -, rfl⟩ := List.mem_map.mp hop
      exact Or.inr ⟨w.1, w.2, rfl⟩
  | timeout now => exact onTimeout_steady a now
  | opened assoc identity => exact ⟨rfl, rfl, .refl _, rfl⟩
  | negotiated assoc maxPdu => exact ⟨rfl, rfl, .refl _, rfl⟩
  | closed assoc now => exact onAssociationClosed_steady a assoc now

theorem trackedWrite_cdc {assoc : AssocId} {reference : Bytes} {result : Except Int Unit}
    (h : (a.trackedWrite m assoc reference result).cdc ≠ .cts) : a.controlAt reference = none := by
  unfold trackedWrite at h
  cases hcontrol : a.controlAt reference with
  | none => rfl
  | some p =>
    rw [hcontrol] at h
    exact absurd rfl h

theorem recordWith_steady (a : Acsi) (event : Tracked) (extra : List (Bytes × Value)) (now : Now) :
    Steady a (a.recordWith event extra now) := by
  unfold recordWith
  split
  · exact ⟨rfl, rfl, .refl _, rfl⟩
  · rename_i k _
    have hwrites : WritesIn k (fun _ => True) a (a.recordIn k event extra now) := recordIn_writesIn
    refine ⟨?_, hwrites.tracking, hwrites.written, ?_⟩
    · rw [hwrites.others]
    · rw [hwrites.others]

theorem writeItem_ready (h : a.Ready m) (assoc : AssocId) (now : Now) (name : Except Int Bytes)
    (t : Tlv) : (a.writeItem m assoc now name t).1.Ready m := by
  unfold writeItem
  cases name with
  | error code => exact h
  | ok reference =>
    obtain ⟨hbeside, hcause⟩ := writeDecoded_beside h.laid assoc now reference (decoded t)
    dsimp only
    generalize a.writeDecoded m assoc now reference (decoded t) = written at hbeside hcause ⊢
    obtain ⟨written, result⟩ := written
    dsimp only at hbeside hcause ⊢
    have hlaid := h.laid.of_same hbeside.layout hbeside.tracking hbeside.written.node
    have htyped := hbeside.written.typed h.typed
    rw [h.cause, Option.or_none] at hcause
    cases hempty : written.tracking.isEmpty with
    | true =>
      rw [trackWrite, if_pos hempty]
      exact ⟨hlaid.of_same rfl rfl rfl, htyped, rfl⟩
    | false =>
      rw [trackWrite_eq _ _ _ _ _ hempty]
      refine Ready.of_steady ?_ (recordWith_steady _ _ _ now)
      unfold causeTaken
      split
      · exact ⟨hlaid.of_same rfl rfl rfl, htyped, rfl⟩
      · rename_i hcts
        rw [trackedWrite_congr hbeside.layout hbeside.peers] at hcts
        have hnone : a.causeOfWrite assoc now reference (decoded t) = none := by
          unfold causeOfWrite
          rw [trackedWrite_cdc hcts]
        exact ⟨hlaid, htyped, hcause.trans hnone⟩

theorem writeItems_ready (h : a.Ready m) (assoc : AssocId) (now : Now)
    (items : List (Except Int Bytes × Tlv)) : (writeItems m assoc now a items).1.Ready m := by
  induction items generalizing a with
  | nil => exact h
  | cons item items ih => exact ih (writeItem_ready h assoc now item.1 item.2)

theorem write_ready (h : a.Ready m) (assoc : AssocId) (now : Now) (access : VariableAccess)
    (values : List Tlv) : (a.write m assoc now access values).1.Ready m := by
  unfold write
  split
  · exact h
  · split
    · exact h
    · exact writeItems_ready h assoc now _

theorem serve_ready (h : a.Ready m) {x : ServiceEvent} (hserve : a.serve m x = some b) :
    b.Ready m := by
  cases x with
  | write assoc access values now =>
    cases hserve
    exact (write_ready h assoc now access values).of_steady (commit_steady _ now)
  | loop x =>
    rw [serve] at hserve
    split at hserve
    · rename_i hother
      cases hserve
      exact h.of_steady (next_steady hother)
    · cases hserve

end Acsi

theorem handledItems_ready {m : Directory} {assoc : AssocId} {now : Now} {a : Acsi}
    (ha : a.Ready m) {items : List (Option Bytes × Except Int Bytes × Tlv)} :
    ∀ h ∈ handledItems m assoc now a items, h.before.Ready m := by
  induction items generalizing a with
  | nil => exact fun h hh => absurd hh List.not_mem_nil
  | cons item items ih =>
    intro h hh
    rw [handledItems] at hh
    rcases List.mem_cons.mp hh with rfl | hh
    · exact ha
    · exact ih (Acsi.writeItem_ready ha assoc now item.2.1 item.2.2) h hh

theorem handled_ready {m : Directory} {a : Acsi} (ha : a.Ready m) {x : ServiceEvent} :
    ∀ h ∈ handled m a x, h.before.Ready m := by
  intro h hh
  cases x with
  | write assoc access values now =>
    rw [handled] at hh
    split at hh
    · cases hh
    · split at hh
      · cases hh
      · exact handledItems_ready ha h hh
  | loop x => cases hh

/-- In a run whose items all fit, each of them is told by one tracking object of its class, where
its logical device has one, and by no other. -/
theorem writes_attributed {m : Directory} {a : Acsi} (ha : a.Ready m) {xs : List ServiceEvent}
    (hfits : Meets (Acsi.serve m) (fun a x => ∀ h ∈ handled m a x, h.Fits m) a xs) :
    Meets (Acsi.serve m) (fun a x => ∀ h ∈ handled m a x, h.Attributed m) a xs :=
  invariant_meets (fun _ _ _ ha _ hserve => Acsi.serve_ready ha hserve)
    (fun _ _ ha hfits h hh => Handled.attributed (handled_ready ha h hh) (hfits h hh)) ha hfits

/-! ### A switch that is tracked -/

/-- A leaf of the tracked server: where it is, its type, and the value it starts with. -/
structure Leaf where
  reference : Reference
  btype : BType
  value : Value

/-- The tracking object of the commands. -/
def switchTracker : Tracker where
  domain := ascii "LD"
  reference := ⟨ascii "LD", [ascii "LTRK1", ascii "SR", ascii "SpcTrk"]⟩
  cdc := .cts
  ctlVal := some .boolean
  leaves := [ascii "objRef", ascii "serviceType", ascii "errorCode", ascii "originatorID",
    ascii "t", ascii "respAddCause", ascii "ctlVal"]

/-- The leaves of a tracking object, and the control model of a switch. -/
def switchLeaves : List Leaf :=
  let tracked (name : Bytes) : Reference := Tracking.leafOf switchTracker.reference name
  [⟨tracked (ascii "objRef"), .objRef, .visibleString []⟩,
    ⟨tracked (ascii "serviceType"), .enum, .integer 0⟩,
    ⟨tracked (ascii "errorCode"), .enum, .integer 0⟩,
    ⟨tracked (ascii "originatorID"), .octet64, .octetString []⟩,
    ⟨tracked (ascii "t"), .timestamp, .utcTime ⟨0, 0, .synchronized⟩⟩,
    ⟨tracked (ascii "respAddCause"), .enum, .integer 0⟩,
    ⟨tracked (ascii "ctlVal"), .boolean, .boolean false⟩,
    ⟨⟨ascii "LD", [ascii "CSWI1", ascii "CF", ascii "Pos", ascii "ctlModel"]⟩, .enum, .integer 1⟩]

def switchStore : Store where
  node r := (switchLeaves.find? (·.reference = r)).map fun e => .leaf e.btype
  values r := (switchLeaves.find? (·.reference = r)).map (·.value)
  dirty _ := none

theorem switchStore_typed : switchStore.Typed := by
  intro r btype hnode
  obtain ⟨e, hfind, hleaf⟩ := Option.map_eq_some_iff.mp hnode
  cases hleaf
  have hall : ∀ e ∈ switchLeaves, accepts e.btype e.value = true := by
    unfold switchLeaves
    simp only [List.forall_mem_cons]
    exact ⟨rfl, rfl, rfl, rfl, rfl, rfl, rfl, rfl, fun e he => absurd he List.not_mem_nil⟩
  exact ⟨e.value, Option.map_eq_some_iff.mpr ⟨e, hfind, rfl⟩,
    hall e (List.mem_of_find?_eq_some hfind)⟩

/-- The command of the switch, by its name and as a variable. -/
def operItem : ObjectName := .domainSpecific (ascii "LD") (ascii "CSWI1$CO$Pos$Oper")

def operText : Bytes := fullReference (ascii "LD") (ascii "CSWI1$CO$Pos$Oper")

def operShape : Shape :=
  let component (names : List Bytes) : Shape :=
    .leaf (.data ⟨ascii "LD", [ascii "CSWI1", ascii "CO", ascii "Pos", ascii "Oper"] ++ names⟩)
  .struct
    [component [ascii "ctlVal"], component [ascii "operTm"],
      .struct [component [ascii "origin", ascii "orCat"], component [ascii "origin", ascii "orIdent"]],
      component [ascii "ctlNum"], component [ascii "T"], component [ascii "Test"],
      component [ascii "Check"]]

/-- A switch that is operated without a selection, with a tracking object for its commands. -/
def trackedSwitch : Acsi where
  control := ⟨.new, switchStore⟩
  devices := []
  reports := []
  released := []
  logs := ⟨[], ⟨fun _ => none, 4, Log.four_positive⟩⟩
  dataSets := ⟨[], List.nodup_nil⟩
  tree := ⟨fun _ => false, fun _ => false, fun _ => [], 0⟩
  layout text := if text = operText then some operShape else none
  tracking := ⟨[switchTracker], fun _ _ => none⟩
  peers := anonymous

/-- There is no control block, and no setting group. -/
def plainDirectory : Directory := ⟨[], fun _ => none⟩

theorem trackedSwitch_ready : trackedSwitch.Ready plainDirectory where
  laid :=
    { placed := by
        intro text shape fc r hlayout hfc hr
        have htext : text = operText ∧ operShape = shape := by
          simpa [trackedSwitch] using hlayout
        obtain ⟨rfl, rfl⟩ := htext
        have hco : constraintOf operText = some .co := by decide +kernel
        rw [hco] at hfc
        cases hfc
        have hplaces : ∀ p ∈ operShape.places, ∀ r, p = .data r → r.item[1]? = some Fc.co.asStr := by
          have hall : operShape.places.all fun p =>
              match p with
              | .data r => r.item[1]? = some Fc.co.asStr
              | _ => true := by decide +kernel
          rintro p hp r rfl
          simpa using List.all_eq_true.mp hall _ hp
        exact hplaces _ hr r rfl
      blocks := fun b hb => absurd hb List.not_mem_nil
      objects := by
        intro k hk
        cases List.mem_singleton.mp hk
        exact ⟨ascii "LTRK1", ascii "SpcTrk", rfl⟩
      leaves := by
        intro k hk name btype hnode
        cases List.mem_singleton.mp hk
        obtain ⟨e, hfind, -⟩ := Option.map_eq_some_iff.mp hnode
        have hreference : e.reference = Tracking.leafOf switchTracker.reference name := by
          simpa using List.find?_some hfind
        have hall : ∀ e ∈ switchLeaves.map (·.reference), e.item.dropLast =
            switchTracker.reference.item → ∀ n ∈ e.item.getLast?, n ∈ switchTracker.leaves := by
          decide +kernel
        have hmem := hall _ (List.mem_map_of_mem (List.mem_of_find?_eq_some hfind))
        rw [hreference] at hmem
        exact hmem rfl name rfl }
  typed := switchStore_typed
  cause := rfl

/-- A command of the switch as an element, behind its tag and its length. -/
def operContent (operTm : Option UtcTime) : Tlv :=
  let request := { ControlRequest.new (.boolean true) 1 ⟨0, 0, .synchronized⟩ with operTm }
  ⟨.contextConstructed 2, (request.toValue.encode.toOption.getD []).drop 2, 0, 2⟩

/-- A client operates the switch, at a time or at once. -/
def operates (operTm : Option UtcTime) : ServiceEvent :=
  .write 1 (.listOfVariable [.name operItem]) [operContent operTm] (Control.atSecond 0)

/-- A command that takes effect at once. -/
theorem writes_attributed_operate :
    Meets (Acsi.serve plainDirectory) (fun a x => ∀ h ∈ handled plainDirectory a x,
      h.Attributed plainDirectory) trackedSwitch [operates none] := by
  apply writes_attributed trackedSwitch_ready
  refine ⟨?_, fun _ _ => trivial⟩
  intro h hh event hevent _
  have heq := List.mem_singleton.mp (hh : h ∈ [_])
  subst heq
  constructor
  · exact ⟨operText, rfl⟩
  · intro reference hreference
    cases hreference
    decide +kernel
  · intro k hk
    have hmem : k ∈ [switchTracker] := Handled.mem_trackers _ hk
    cases List.mem_singleton.mp hmem
    constructor
    · exact fun _ => rfl
    · exact fun _ => rfl
    · exact fun _ => rfl
    · exact fun _ => rfl
  · exact fun _ b hb => absurd hb List.not_mem_nil

/-- A command with a time that it is to take effect at is told as one that takes effect at once. -/
theorem armed_not_attributed : trackedSwitch.Ready plainDirectory ∧
      ¬ Meets (Acsi.serve plainDirectory) (fun a x => ∀ h ∈ handled plainDirectory a x,
        h.Attributed plainDirectory) trackedSwitch [operates (some ⟨60, 0, .synchronized⟩)] := by
  refine ⟨trackedSwitch_ready, ?_⟩
  rintro ⟨hattributed, -⟩
  let armed : Handled :=
    ⟨trackedSwitch, 1, Control.atSecond 0, some operText, .ok operText,
      operContent (some ⟨60, 0, .synchronized⟩)⟩
  have hcandidates : (armed.candidates plainDirectory).isEmpty = false := by decide +kernel
  have hservice : (armed.event plainDirectory).map (·.service) = some timeActivatedOperate := by
    decide +kernel
  have htold : ((armed.after plainDirectory).attr switchTracker (ascii "serviceType")).bind
      Control.codeOf = some 45 := by
    decide +kernel
  obtain ⟨event, k, hevent, hk, htells, -⟩ := (hattributed armed List.mem_cons_self).one
    fun hnil => by rw [hnil] at hcandidates; cases hcandidates
  rw [hevent] at hservice
  have hlater : event.service = timeActivatedOperate := Option.some.inj hservice
  have hmem : k ∈ [switchTracker] := armed.mem_trackers hk
  cases List.mem_singleton.mp hmem
  rw [htells.serviceType, hlater] at htold
  cases htold

end Iec61850.Server
