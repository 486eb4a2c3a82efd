import Iec61850.Server.ControlGate
import Iec61850.Server.LogsAndReports
import Iec61850.Server.ServedSets
import Iec61850.Server.StoreWrites

/-!
# The write service

`write` of `server/acsi.rs`: the items of a request one after the other, what a write does in the
engine that a reference belongs to, and the record that the tracking objects keep of it.
-/

namespace Iec61850.Server

open Theory Ber Mms

/-! ### What a client may write -/

inductive BlockKind where
  | unbuffered
  | buffered
  | log
  | settingGroup
  | goose
  | sampledValue
  deriving DecidableEq, Repr

/-- `Block`, as far as a write looks at it. -/
structure Block where
  reference : Bytes
  kind : BlockKind

/-- `writable_block_attribute`. -/
def BlockKind.writable (kind : BlockKind) (name : Bytes) : Bool :=
  match kind with
  | .unbuffered | .buffered =>
    name ∈ [ascii "RptID", ascii "RptEna", ascii "Resv", ascii "ResvTms", ascii "DatSet",
      ascii "OptFlds", ascii "BufTm", ascii "TrgOps", ascii "IntgPd", ascii "GI",
      ascii "PurgeBuf", ascii "EntryID"]
  | .log => name ∈ [ascii "LogEna", ascii "DatSet", ascii "TrgOps", ascii "IntgPd"]
  | .settingGroup => name ∈ [ascii "ActSG", ascii "EditSG", ascii "CnfEdit", ascii "ResvTms"]
  | .goose => name = ascii "GoEna"
  | .sampledValue => name = ascii "SvEna"

def Fc.isClientWritable : Fc → Bool
  | .sp | .sv | .cf | .dc | .se | .bl | .rp | .br | .lg | .go | .gs | .ms | .us => true
  | .st | .mx | .sg | .sr | .or | .ex | .co | .xx => false

/-- The constraint in a reference (`split_item`). -/
def constraintOf (reference : Bytes) : Option Fc :=
  (splitOnce slash reference).bind fun p => (splitItem p.2).2.1

/-- What a write looks up beside the state of the engines: `Ied::blocks`, and the logical devices
with setting groups by their names (`SettingGroups::device`). -/
structure Directory where
  blocks : List Block
  device : Bytes → Option Nat

/-- The control block a reference names an attribute of, with the attribute. -/
def Directory.blockAt (m : Directory) (reference : Bytes) : Option (Block × Bytes) :=
  (rsplitOnce sep reference).bind fun p =>
    (m.blocks.find? (·.reference = p.1)).map fun b => (b, p.2)

/-! ### References -/

theorem rsplitOnce_eq_some {c : UInt8} {bs before after : Bytes}
    (h : rsplitOnce c bs = some (before, after)) : bs = before ++ c :: after := by
  obtain ⟨⟨after', before'⟩, hsplit, heq⟩ := Option.map_eq_some_iff.mp h
  cases heq
  have hreverse := (splitOnce_eq_some hsplit).1
  rw [← List.reverse_reverse bs, hreverse]
  simp

theorem splitItem_constraint (item : Bytes) :
    (splitItem item).2.1 = (item.splitOn sep).tail.head?.bind Fc.parse := by
  unfold splitItem
  cases item.splitOn sep with
  | nil => rfl
  | cons ln parts =>
    dsimp only
    rw [List.tail_cons]
    cases parts.head?.bind Fc.parse <;> rfl

theorem constraintOf_append {reference : Bytes} {fc : Fc} (h : constraintOf reference = some fc)
    (after : Bytes) : constraintOf (reference ++ sep :: after) = some fc := by
  obtain ⟨⟨domain, item⟩, hsplit, hfc⟩ := Option.bind_eq_some_iff.mp h
  obtain ⟨rfl, hslash⟩ := splitOnce_eq_some hsplit
  have htext : domain ++ slash :: item ++ sep :: after = domain ++ slash :: (item ++ sep :: after) := by
    rw [List.append_assoc, List.cons_append]
  rw [constraintOf, htext, ObjectReference.splitOnce_append hslash, Option.bind_some]
  rw [splitItem_constraint] at hfc
  rw [splitItem_constraint, List.splitOn_append_cons_self]
  cases hparts : item.splitOn sep with
  | nil => exact absurd hparts (List.splitOn_ne_nil sep item)
  | cons ln parts =>
    rw [hparts] at hfc
    cases parts with
    | nil => cases hfc
    | cons part parts => exact hfc

/-- A reference divided at its `/` and at each `$`. -/
def referenceAt (text : Bytes) : Reference :=
  match splitOnce slash text with
  | some (domain, item) => ⟨domain, item.splitOn sep⟩
  | none => ⟨text, []⟩

/-- The attributes of a controllable object that are services, by their names. -/
def Control.Attribute.parse (name : Bytes) : Option Control.Attribute :=
  if name = ascii "Oper" then some .oper
  else if name = ascii "SBOw" then some .sbow
  else if name = ascii "SBO" then some .sbo
  else if name = ascii "Cancel" then some .cancel
  else none

/-- `Controls::split`. -/
def Control.split (reference : Bytes) : Option (Bytes × Control.Attribute) :=
  (rsplitOnce sep reference).bind fun p => (Control.Attribute.parse p.2).map fun x => (p.1, x)

/-- The attributes of a report control block that have a name of their own. -/
def Attribute.named : List Attribute :=
  [.rptID, .rptEna, .resv, .datSet, .confRev, .optFlds, .bufTm, .sqNum, .trgOps, .intgPd, .gi,
    .purgeBuf, .entryID, .timeOfEntry, .resvTms, .owner]

/-- The attribute of a report control block with a name. -/
def Attribute.parse (name : Bytes) : Attribute :=
  (Attribute.named.find? (·.text = name)).getD (.other name)

/-! ### Writing into the engines -/

namespace Acsi

variable (a : Acsi) (m : Directory)

/-- `Ied::write_leaf`, at a place. -/
def writeLeaf (place : Place) (value : Value) : Acsi × Except Int Unit :=
  match place with
  | .data r =>
    let (ied, result) := a.control.ied.writeLeaf r value
    ({ a with control := { a.control with ied } }, result)
  | .setting j key =>
    match a.devices[j]? with
    | none => (a, .error dataAccessNonExistent)
    | some d =>
      let (ied, result) := d.ied.writeLeaf key value
      ({ a with devices := a.devices.set j { d with ied } }, result)
  | .report i x =>
    match a.reports[i]? with
    | none => (a, .error dataAccessNonExistent)
    | some r =>
      let (block, result) := r.block.writeLeaf x value
      ({ a with reports := a.reports.set i ⟨block, (r.attributes.writeLeaf x value).1.dirty⟩ },
        result)
  | .log i x =>
    match a.logs.controls[i]? with
    | none => (a, .error dataAccessNonExistent)
    | some b =>
      let (block, result) := b.writeLeaf x value
      ({ a with logs := { a.logs with controls := a.logs.controls.set i block } }, result)

mutual

/-- `Acsi::write_value`, below a reference. -/
def writeShape (a : Acsi) : Shape → Value → Acsi × Except Int Unit
  | .leaf place, value => a.writeLeaf place value
  | .struct components, .structure values =>
    if values.length ≠ components.length then (a, .error dataAccessTypeInconsistent)
    else writeShapes a components values
  | .struct _, _ => (a, .error dataAccessTypeInconsistent)
  | .array _, _ => (a, .error dataAccessNonExistent)

def writeShapes (a : Acsi) : List Shape → List Value → Acsi × Except Int Unit
  | component :: components, value :: values =>
    match writeShape a component value with
    | (a, .error code) => (a, .error code)
    | (a, .ok ()) => writeShapes a components values
  | _, _ => (a, .ok ())

end

def writeValue (reference : Bytes) (value : Value) : Acsi × Except Int Unit :=
  match a.layout reference with
  | none => (a, .error dataAccessNonExistent)
  | some shape => a.writeShape shape value

/-- `Ied::write_leaf`. -/
def writeAt (reference : Bytes) (value : Value) : Acsi × Except Int Unit :=
  match a.layout reference with
  | none => (a, .error dataAccessNonExistent)
  | some (.leaf place) => a.writeLeaf place value
  | some _ => (a, .error dataAccessTypeInconsistent)

/-- The constraint of the node at a reference. -/
def constraintAt (reference : Bytes) : Option Fc :=
  if (a.layout reference).isSome then constraintOf reference else none

/-- `Ied::client_write_allowed`. -/
def clientWriteAllowed (reference : Bytes) : Except Int Unit :=
  match m.blockAt reference with
  | some (b, name) =>
    if b.kind.writable name then .ok () else .error dataAccessDenied
  | none =>
    if (a.layout reference).isSome then
      if (a.constraintAt reference).any (·.isClientWritable) then .ok ()
      else .error dataAccessDenied
    else .error dataAccessNonExistent

/-- The object and the service of a reference, when the tree has it (`Controls::split`). -/
def controlAt (reference : Bytes) : Option (Bytes × Control.Attribute) :=
  if (a.layout reference).isSome then Control.split reference else none

/-- A write to a service of a controllable object. -/
def writeControl (assoc : AssocId) (object : Reference) (x : Control.Attribute) (value : Value)
    (now : Now) : Acsi × Except Int Unit :=
  let (controls, ied, result) := a.control.controls.write assoc a.control.ied object x value now
  ({ a with control := ⟨controls, ied⟩ }, result)

/-- A write to an attribute of a setting group control block. -/
def writeSettingBlock (j : Nat) (assoc : AssocId) (x : SgAttribute) (value : Value) (now : Now) :
    Acsi × Except Int Unit :=
  (a.writeSetting j assoc (.block x) value now,
    match a.devices[j]? with
    | some d => (d.writeBlock assoc x value now).2
    | none => .error dataAccessNonExistent)

/-- `SettingGroups::on_edit_write`. -/
def onEditWrite (assoc : AssocId) (reference : Bytes) : Except Int Unit :=
  match (splitOnce slash reference).bind fun p => (m.device p.1).bind (a.devices[·]?) with
  | some d => d.groups.onEditWrite assoc d.ied
  | none => .error dataAccessDenied

/-- The report control block a reference names an attribute of, with the attribute. -/
def reportAt (reference : Bytes) : Option (Nat × Attribute) :=
  (rsplitOnce sep reference).bind fun p =>
    (a.reports.findIdx? (·.block.reference = p.1)).map fun i => (i, Attribute.parse p.2)

/-- A write to an attribute of a report control block. -/
def writeReport (i : Nat) (assoc : AssocId) (x : Attribute) (value : Value) (now : Instant) :
    Acsi × Except Int Unit :=
  ({ a with reports := a.reports.modify i (·.write a.view a.peers assoc x value now) },
    match a.reports[i]? with
    | some r => (r.block.writeAttribute a.view a.peers assoc x value now).2
    | none => .error dataAccessNonExistent)

/-- The part of `Acsi::write_reference` that is about values: every reference but a control. -/
def writeServed (assoc : AssocId) (now : Now) (reference : Bytes) (value : Value) :
    Acsi × Except Int Unit :=
  match a.clientWriteAllowed m reference with
  | .error code => (a, .error code)
  | .ok () =>
    match a.layout reference with
    | some (.leaf (.setting j (.block x))) => a.writeSettingBlock j assoc x value now
    | _ =>
      match a.constraintAt reference with
      | some .sg => (a, .error dataAccessDenied)
      | some .se =>
        match a.onEditWrite m assoc reference with
        | .error code => (a, .error code)
        | .ok () => a.writeAt reference value
      | _ =>
        match a.reportAt reference with
        | some (i, x) => a.writeReport i assoc x value now.mono
        | none => a.writeValue reference value

def writeReference (assoc : AssocId) (now : Now) (reference : Bytes) (value : Value) :
    Acsi × Except Int Unit :=
  match a.controlAt reference with
  | some (object, x) => a.writeControl assoc (referenceAt object) x value now
  | none => a.writeServed m assoc now reference value

/-- The value of an item, when it can be decoded. -/
def decoded (t : Tlv) : Option Value :=
  (DataView.fromTlv t).toOption.bind fun view => (view.toOwned .default).toOption

/-- What the engines make of an item. -/
def writeDecoded (assoc : AssocId) (now : Now) (reference : Bytes) (value : Option Value) :
    Acsi × Except Int Unit :=
  match value with
  | some v => a.writeReference m assoc now reference v
  | none => (a, .error dataAccessTypeInconsistent)

end Acsi

/-! ### What the engines leave alone -/

/-- A leaf of a tracking object. -/
def Reference.IsTracking (r : Reference) : Prop := r.item[1]? = some Fc.sr.asStr

/-- The values of the tracking objects are as they were. -/
def SameTrackers (ied ied' : Store) : Prop :=
  ∀ r : Reference, r.IsTracking → ied'.values r = ied.values r

theorem SameTrackers.trans {ied ied' ied'' : Store} (h : SameTrackers ied ied')
    (h' : SameTrackers ied' ied'') : SameTrackers ied ied'' :=
  fun r hr => (h' r hr).trans (h r hr)

theorem writeLeaf_sameTrackers {r : Reference} (h : ¬ r.IsTracking) (ied : Store) (value : Value) :
    SameTrackers ied (ied.writeLeaf r value).1 := by
  intro r' hr'
  apply LeafStore.writeLeaf_values_ne
  rintro rfl
  exact h hr'

namespace Control

theorem writeStatus_sameTrackers (ied : Store) (object : Reference) (name : Bytes) (value : Value) :
    SameTrackers ied (writeStatus ied object name value) := by
  unfold writeStatus
  split
  · exact fun _ _ => rfl
  · rename_i status hstatus
    obtain ⟨path, -, rfl⟩ := Option.map_eq_some_iff.mp hstatus
    apply writeLeaf_sameTrackers
    intro htracking
    have hnames : ascii "ST" = Fc.sr.asStr := Option.some.inj htracking
    revert hnames
    decide

theorem apply_sameTrackers (ied : Store) (object : Reference) (request : ControlRequest)
    (wall : UtcTime) : SameTrackers ied (apply ied object request wall) :=
  (writeStatus_sameTrackers ied object _ _).trans (writeStatus_sameTrackers _ object _ _)

theorem Through.sameTrackers {hook : Option ControlHook} {ms : List Moment} {ied ied' : Store}
    (h : Through hook ms ied ied') : SameTrackers ied ied' := by
  induction ms generalizing ied with
  | nil =>
    rw [Through] at h
    rw [h]
    exact fun _ _ => rfl
  | cons m ms ih =>
    cases m with
    | accepted assoc object request model at' => exact ih h.2
    | applied a =>
      obtain ⟨rfl, -, hrest⟩ := h
      exact (apply_sameTrackers a.ied a.object a.request a.wall).trans (ih hrest)

end Control

/-- A place that is not in a tracking object. -/
def Place.Outside (place : Place) : Prop := ∀ r, place = .data r → ¬ r.IsTracking

namespace Acsi

/-- The tree, the tracking objects with their values, and the peers are as they were. -/
structure Beside (a b : Acsi) : Prop where
  layout : b.layout = a.layout
  tracking : b.tracking = a.tracking
  peers : b.peers = a.peers
  written : Overwritten a.control.ied b.control.ied
  trackers : SameTrackers a.control.ied b.control.ied

theorem Beside.trans {a b c : Acsi} (h : Beside a b) (h' : Beside b c) : Beside a c :=
  ⟨h'.layout.trans h.layout, h'.tracking.trans h.tracking, h'.peers.trans h.peers,
    h.written.trans h'.written, h.trackers.trans h'.trackers⟩

/-- And no command has been refused. -/
structure Aside (a b : Acsi) : Prop extends Beside a b where
  cause : b.control.controls.lastCause = a.control.controls.lastCause

theorem Aside.refl (a : Acsi) : Aside a a := ⟨⟨rfl, rfl, rfl, .refl _, fun _ _ => rfl⟩, rfl⟩

theorem Aside.trans {a b c : Acsi} (h : Aside a b) (h' : Aside b c) : Aside a c :=
  ⟨h.toBeside.trans h'.toBeside, h'.cause.trans h.cause⟩

theorem writeLeaf_aside {place : Place} (h : place.Outside) (a : Acsi) (value : Value) :
    Aside a (a.writeLeaf place value).1 := by
  cases place with
  | data r =>
    have htrackers := writeLeaf_sameTrackers (h r rfl) a.control.ied value
    exact ⟨⟨rfl, rfl, rfl, .writeLeaf _ r value, htrackers⟩, rfl⟩
  | setting j key =>
    unfold writeLeaf
    dsimp only
    split
    · exact .refl a
    · exact ⟨⟨rfl, rfl, rfl, .refl _, fun _ _ => rfl⟩, rfl⟩
  | report i x =>
    unfold writeLeaf
    dsimp only
    split
    · exact .refl a
    · exact ⟨⟨rfl, rfl, rfl, .refl _, fun _ _ => rfl⟩, rfl⟩
  | log i x =>
    unfold writeLeaf
    dsimp only
    split
    · exact .refl a
    · exact ⟨⟨rfl, rfl, rfl, .refl _, fun _ _ => rfl⟩, rfl⟩

mutual

theorem writeShape_aside : ∀ (shape : Shape), (∀ p ∈ shape.places, p.Outside) →
    ∀ (a : Acsi) (value : Value), Aside a (a.writeShape shape value).1
  | .leaf place, h, a, value => by
      rw [writeShape]
      exact writeLeaf_aside (h place (List.mem_singleton_self _)) a value
  | .struct components, h, a, value => by
      by_cases hvalue : ∃ values, value = .structure values
      · obtain ⟨values, rfl⟩ := hvalue
        rw [writeShape]
        split
        · exact .refl a
        · exact writeShapes_aside components h a values
      · rw [writeShape]
        · exact .refl a
        · exact fun values heq => hvalue ⟨values, heq⟩
  | .array elements, h, a, value => by
      rw [writeShape]
      exact .refl a

theorem writeShapes_aside : ∀ (shapes : List Shape),
    (∀ p ∈ Shape.placesAll shapes, p.Outside) → ∀ (a : Acsi) (values : List Value),
      Aside a (a.writeShapes shapes values).1
  | [], h, a, values => by
      rw [writeShapes]
      · exact .refl a
      · rintro _ _ _ _ ⟨⟩
  | shape :: shapes, h, a, [] => by
      rw [writeShapes]
      · exact .refl a
      · rintro _ _ _ _ - ⟨⟩
  | shape :: shapes, h, a, value :: values => by
      have hfirst := writeShape_aside shape (fun p hp => h p (List.mem_append_left _ hp)) a value
      rw [writeShapes]
      split
      · rename_i a' code heq
        rw [heq] at hfirst
        exact hfirst
      · rename_i a' heq
        rw [heq] at hfirst
        exact hfirst.trans (writeShapes_aside shapes
          (fun p hp => h p (List.mem_append_right _ hp)) a' values)

end

/-! ### A write of a reference -/

variable {a : Acsi} {m : Directory}

/-- The tree puts each leaf under the constraint of its reference, a control block is not under that
of the tracking objects, and each of these is there with all its leaves. -/
structure Laid (m : Directory) (a : Acsi) : Prop where
  placed : ∀ {text : Bytes} {shape : Shape} {fc : Fc} {r : Reference}, a.layout text = some shape →
    constraintOf text = some fc → .data r ∈ shape.places → r.item[1]? = some fc.asStr
  blocks : ∀ b ∈ m.blocks, ∃ fc, constraintOf b.reference = some fc ∧ fc ≠ .sr
  objects : ∀ k ∈ a.tracking.trackers, ∃ ln name,
    k.reference = ⟨k.domain, [ln, Fc.sr.asStr, name]⟩
  leaves : ∀ k ∈ a.tracking.trackers, ∀ name btype,
    a.control.ied.node (Tracking.leafOf k.reference name) = some (.leaf btype) → name ∈ k.leaves

/-- What is under another constraint is no tracking object. -/
theorem Laid.outside (h : Laid m a) {text : Bytes} {shape : Shape} {fc : Fc}
    (hlayout : a.layout text = some shape) (hfc : constraintOf text = some fc) (hne : fc ≠ .sr) :
    ∀ p ∈ shape.places, p.Outside := by
  rintro p hp r rfl htracking
  have hplaced := h.placed hlayout hfc hp
  exact hne (Fc.asStr_inj.mp (Option.some.inj (hplaced.symm.trans htracking)))

theorem Laid.constraint_of_allowed (h : Laid m a) {reference : Bytes}
    (hallowed : a.clientWriteAllowed m reference = .ok ()) :
    ∃ fc, constraintOf reference = some fc ∧ fc ≠ .sr := by
  unfold clientWriteAllowed at hallowed
  split at hallowed
  · rename_i b name hblock
    obtain ⟨⟨before, after⟩, hsplit, hfound⟩ := Option.bind_eq_some_iff.mp hblock
    obtain ⟨b', hfind, heq⟩ := Option.map_eq_some_iff.mp hfound
    cases heq
    obtain ⟨fc, hfc, hne⟩ := h.blocks b (List.mem_of_find?_eq_some hfind)
    have hreference : b.reference = before := by
      simpa using List.find?_some hfind
    rw [hreference] at hfc
    rw [rsplitOnce_eq_some hsplit]
    exact ⟨fc, constraintOf_append hfc after, hne⟩
  · split at hallowed
    · rename_i hnode
      split at hallowed
      · rename_i hwritable
        rw [constraintAt, if_pos hnode] at hwritable
        obtain ⟨fc, hfc, hclient⟩ := (Option.any_eq_true _ _).mp hwritable
        refine ⟨fc, hfc, ?_⟩
        rintro rfl
        cases hclient
      · cases hallowed
    · cases hallowed

theorem writeValue_aside (h : Laid m a) {reference : Bytes}
    (hallowed : a.clientWriteAllowed m reference = .ok ()) (value : Value) :
    Aside a (a.writeValue reference value).1 := by
  obtain ⟨fc, hfc, hne⟩ := h.constraint_of_allowed hallowed
  unfold writeValue
  split
  · exact .refl a
  · rename_i shape hlayout
    exact writeShape_aside shape (h.outside hlayout hfc hne) a value

theorem writeAt_aside (h : Laid m a) {reference : Bytes}
    (hallowed : a.clientWriteAllowed m reference = .ok ()) (value : Value) :
    Aside a (a.writeAt reference value).1 := by
  obtain ⟨fc, hfc, hne⟩ := h.constraint_of_allowed hallowed
  unfold writeAt
  split
  · exact .refl a
  · rename_i place hlayout
    exact writeLeaf_aside (h.outside hlayout hfc hne place (List.mem_singleton_self _)) a value
  · exact .refl a

theorem writeControl_beside (a : Acsi) (assoc : AssocId) (object : Reference)
    (x : Control.Attribute) (value : Value) (now : Now) :
    Beside a (a.writeControl assoc object x value now).1 := by
  have hx : ∀ ied, Control.Action.write assoc object x value now ≠ .store ied := by
    rintro ied ⟨⟩
  have hwritten := a.control.next_written hx
  have htrackers := (Control.through_next (s := a.control) hx).sameTrackers
  exact ⟨rfl, rfl, rfl, hwritten, htrackers⟩

theorem writeServed_aside (h : Laid m a) (assoc : AssocId) (now : Now) (reference : Bytes)
    (value : Value) : Aside a (a.writeServed m assoc now reference value).1 := by
  unfold writeServed
  cases hallowed : a.clientWriteAllowed m reference with
  | error code => exact .refl a
  | ok u =>
    dsimp only
    split
    · exact ⟨⟨rfl, rfl, rfl, .refl _, fun _ _ => rfl⟩, rfl⟩
    · split
      · exact .refl a
      · split
        · exact .refl a
        · exact writeAt_aside h hallowed value
      · split
        · exact ⟨⟨rfl, rfl, rfl, .refl _, fun _ _ => rfl⟩, rfl⟩
        · exact writeValue_aside h hallowed value

/-- The cause that the command in an item is refused with, if it is one and is refused with one. -/
def causeOfWrite (a : Acsi) (assoc : AssocId) (now : Now) (reference : Bytes)
    (value : Option Value) : Option AddCause :=
  match a.controlAt reference, value with
  | some (object, x), some v =>
    a.control.controls.commandCause assoc a.control.ied (referenceAt object) x v now
  | _, _ => none

/-- The engines change no tracking object, and leave the cause of a refusal. -/
theorem writeDecoded_beside (h : Laid m a) (assoc : AssocId) (now : Now) (reference : Bytes)
    (value : Option Value) : Beside a (a.writeDecoded m assoc now reference value).1 ∧
      (a.writeDecoded m assoc now reference value).1.control.controls.lastCause =
        (a.causeOfWrite assoc now reference value).or a.control.controls.lastCause := by
  cases value with
  | none =>
    have hcause : a.causeOfWrite assoc now reference none = none := by
      unfold causeOfWrite
      split
      · rename_i hsome
        cases hsome
      · rfl
    rw [hcause]
    exact ⟨(Aside.refl a).toBeside, rfl⟩
  | some value =>
    unfold writeDecoded writeReference causeOfWrite
    cases a.controlAt reference with
    | some p =>
      exact ⟨writeControl_beside a assoc _ p.2 value now,
        Control.Controls.write_lastCause _ assoc _ _ p.2 value now⟩
    | none =>
      have haside := writeServed_aside h assoc now reference value
      exact ⟨haside.toBeside, haside.cause⟩

end Acsi

/-! ### What is recorded of a write -/

/-- The service that a write of a control attribute is, in the first branch of `tracked_write`. -/
def controlService : Control.Attribute → Listed
  | .sbo => ⟨ascii "Select", 42⟩
  | .sbow => ⟨ascii "SelectWithValue", 43⟩
  | .cancel => ⟨ascii "Cancel", 44⟩
  | .oper => ⟨ascii "Operate", 45⟩

/-- The service that a write of an attribute of a setting group control block is. -/
def settingService (name : Bytes) : Listed :=
  if name = ascii "ActSG" then ⟨ascii "SelectActiveSG", 15⟩
  else if name = ascii "EditSG" then ⟨ascii "SelectEditSG", 16⟩
  else if name = ascii "CnfEdit" then ⟨ascii "ConfirmEditSGValues", 18⟩
  else ⟨ascii "GetSGCBValues", 20⟩

/-- `ServiceType::SetDataValues`. -/
def setDataValues : Listed := ⟨ascii "SetDataValues", 7⟩

/-- `ServiceType::SetEditSGValue`. -/
def setEditSGValue : Listed := ⟨ascii "SetEditSGValue", 17⟩

/-- `ServiceType::TimeActivatedOperate`. -/
def timeActivatedOperate : Listed := ⟨ascii "TimeActivatedOperate", 47⟩

def setService : Option Fc → Listed
  | some .br => ⟨ascii "SetBRCBValues", 23⟩
  | some .rp => ⟨ascii "SetURCBValues", 25⟩
  | some .lg => ⟨ascii "SetLCBValues", 27⟩
  | some .go => ⟨ascii "SetGoCBValues", 33⟩
  | some .ms => ⟨ascii "SetMSVCBValues", 38⟩
  | some .us => ⟨ascii "SetUSVCBValues", 41⟩
  | _ => setDataValues

/-- `ServiceError::from_data_access`. -/
def serviceErrorOf (code : Int) : Listed :=
  match code with
  | 0 | 4 | 10 => ⟨ascii "instance-not-available", 0⟩
  | 2 => ⟨ascii "access-not-allowed-in-current-state", 3⟩
  | 3 => ⟨ascii "access-violation", 2⟩
  | 5 | 11 => ⟨ascii "parameter-value-inappropriate", 4⟩
  | 6 | 7 => ⟨ascii "type-conflict", 9⟩
  | 8 => ⟨ascii "parameter-value-inconsistent", 5⟩
  | 9 => ⟨ascii "class-not-supported", 6⟩
  | _ => ⟨ascii "failed-due-to-server-constraint", 11⟩

def errorOf : Except Int Unit → Listed
  | .ok () => noError
  | .error code => serviceErrorOf code

namespace Tracking

variable (t : Tracking)

/-- The tracking objects of the class of a service in its logical device. -/
def candidates (event : Tracked) : List Tracker :=
  match domainOf event.objRef with
  | none => []
  | some domain => t.trackers.filter fun k => k.cdc = event.cdc && k.domain = domain

/-- `Tracking::select`. Several tracking objects of controls are told apart by the type of `ctlVal`,
which is given here where the controlled object has one that is a leaf. -/
def selectFor (ctlVal : Option BType) (event : Tracked) : Option Tracker :=
  match t.candidates event with
  | [] => none
  | [first] => some first
  | first :: _ =>
    if event.cdc ≠ .cts then some first
    else
      let matched := ctlVal.bind fun w =>
        (t.candidates event).find? fun k => k.ctlVal = some w
      some (matched.getD first)

variable {t : Tracking} {event : Tracked} {ctlVal : Option BType}

theorem mem_of_selectFor {k : Tracker} (h : t.selectFor ctlVal event = some k) :
    k ∈ t.candidates event := by
  unfold selectFor at h
  split at h
  · cases h
  · rename_i first hcandidates
    cases h
    rw [hcandidates]
    exact List.mem_singleton_self _
  · rename_i first rest _ hcandidates
    have hfirst : first ∈ t.candidates event := by
      rw [hcandidates]
      exact List.mem_cons_self
    split at h
    · cases h
      exact hfirst
    · cases h
      cases hmatched : ctlVal.bind fun w => (t.candidates event).find? fun k => k.ctlVal = some w with
      | none => exact hfirst
      | some k =>
        obtain ⟨w, -, hfind⟩ := Option.bind_eq_some_iff.mp hmatched
        exact List.mem_of_find?_eq_some hfind

theorem selectFor_eq_none (h : t.selectFor ctlVal event = none) : t.candidates event = [] := by
  unfold selectFor at h
  split at h
  · assumption
  · cases h
  · split at h <;> cases h

theorem mem_trackers_of_mem_candidates {k : Tracker} (h : k ∈ t.candidates event) :
    k ∈ t.trackers := by
  unfold candidates at h
  split at h
  · cases h
  · exact (List.mem_filter.mp h).1

theorem candidates_service (event : Tracked) (service : Listed) :
    t.candidates { event with service } = t.candidates event := rfl

end Tracking

namespace Acsi

variable (a : Acsi) (m : Directory)

/-- What the tree has at a place. -/
def node : Place → Option Node
  | .data r => a.control.ied.node r
  | .setting j key => (a.devices[j]?).bind (·.ied.node key)
  | .report i x => (a.reports[i]?).bind (·.attributes.node x)
  | .log i x => (a.logs.controls[i]?).bind (·.attributes.node x)

/-- The type of the leaf at a reference. -/
def leafType (reference : Bytes) : Option BType :=
  match a.layout reference with
  | some (.leaf place) =>
    match a.node place with
    | some (.leaf btype) => some btype
    | _ => none
  | _ => none

/-- `write` of `server/tracking.rs`. -/
def writeTracker (k : Tracker) (name : Bytes) (value : Value) : Acsi :=
  { a with control := { a.control with ied := Tracking.write a.control.ied k.reference name value } }

/-- One round of the loop of `Tracking::mirror`. -/
def mirrorOne (k : Tracker) (objRef name : Bytes) : Acsi :=
  { a with control := { a.control with
      ied := Tracking.mirrorOne a.valueAt k.reference objRef a.control.ied name } }

/-- `Tracking::record_with`, once the tracking object is selected. -/
def recordIn (k : Tracker) (event : Tracked) (extra : List (Bytes × Value)) (now : Now) : Acsi :=
  let a := a.writeTracker k (ascii "objRef") (.visibleString event.objRef)
  let a := a.writeTracker k (ascii "serviceType")
    (a.tracking.ordinal k.reference (ascii "serviceType") event.service)
  let a := a.writeTracker k (ascii "errorCode")
    (a.tracking.ordinal k.reference (ascii "errorCode") event.error)
  let a := a.writeTracker k (ascii "originatorID") (.octetString event.originator)
  let a := k.leaves.foldl (fun a name => a.mirrorOne k event.objRef name) a
  let a := extra.foldl (fun a e => a.writeTracker k e.1 e.2) a
  a.writeTracker k (ascii "t") (.utcTime now.wall)

/-- The type of the `ctlVal` of the object a service is about. -/
def ctlValType (event : Tracked) : Option BType :=
  a.leafType (event.objRef ++ ascii "$Oper$ctlVal")

/-- `Tracking::record_with`. -/
def recordWith (event : Tracked) (extra : List (Bytes × Value)) (now : Now) : Acsi :=
  match a.tracking.selectFor (a.ctlValType event) event with
  | none => a
  | some k => a.recordIn k event extra now

def trackedWrite (assoc : AssocId) (reference : Bytes) (result : Except Int Unit) : Tracked :=
  let originator := a.peers.identity assoc
  let error := errorOf result
  match a.controlAt reference with
  | some (object, x) => ⟨.cts, object, controlService x, error, originator⟩
  | none =>
    match m.blockAt reference with
    | some (b, name) =>
      let fc := constraintOf b.reference
      let service := if b.kind = .settingGroup then settingService name else setService fc
      ⟨classFor fc, b.reference, service, error, originator⟩
    | none =>
      let service :=
        if a.constraintAt reference = some .se then setEditSGValue else setDataValues
      ⟨.cst, reference, service, error, originator⟩

/-- `Controls::take_last_cause`, what it leaves. -/
def takeLastCause : Acsi := { a with control := a.control.next .takeLastCause }

/-- The request in the value of a write, when it is one of a control. -/
def requestOf (value : Option Value) : Option ControlRequest :=
  value.bind fun v => (ControlRequest.fromValue v).toOption

def controlTrackingValues (value : Option Value) : List (Bytes × Value) :=
  let cause := a.control.controls.lastCause.getD .unknown
  (ascii "respAddCause", .integer cause.toCode) ::
    match requestOf value with
    | none => []
    | some request =>
      (ascii "ctlVal", request.ctlVal) ::
        (request.operTm.map fun at' => (ascii "operTm", Value.utcTime at')).toList ++
        [(ascii "origin", request.origin.toValue),
          (ascii "ctlNum", .unsigned request.ctlNum.toNat), (ascii "T", .utcTime request.t),
          (ascii "Test", .boolean request.test), (ascii "Check", request.check.toValue)]

def trackWrite (assoc : AssocId) (now : Now) (reference : Bytes) (value : Option Value)
    (result : Except Int Unit) : Acsi :=
  if a.tracking.isEmpty then a.takeLastCause
  else
    let event := a.trackedWrite m assoc reference result
    if event.cdc = .cts then
      a.takeLastCause.recordWith event (a.controlTrackingValues value) now
    else a.recordWith event [] now

/-! ### The request -/

/-- One round of the loop of `Acsi::write`. An item that names nothing the server can write is
answered there, and not tracked. -/
def writeItem (assoc : AssocId) (now : Now) (name : Except Int Bytes) (t : Tlv) :
    Acsi × Except Int Unit :=
  match name with
  | .error code => (a, .error code)
  | .ok reference =>
    let (a, result) := a.writeDecoded m assoc now reference (decoded t)
    (a.trackWrite m assoc now reference (decoded t) result, result)

/-- The loop of `Acsi::write`. -/
def writeItems (m : Directory) (assoc : AssocId) (now : Now) :
    Acsi → List (Except Int Bytes × Tlv) → Acsi × List (Except Int Unit)
  | a, [] => (a, [])
  | a, (name, t) :: items =>
    let (a, result) := a.writeItem m assoc now name t
    let (a, results) := writeItems m assoc now a items
    (a, result :: results)

def accessNames : VariableAccess → Except DataSetAnswer (List (Except Int Bytes))
  | .listOfVariable list => .ok (list.map accessName)
  | .variableListName (.domainSpecific domain item) =>
    match a.dataSets.find (fullReference domain item) with
    | some ds => .ok (ds.references.map .ok)
    | none => .error .notFound
  | .variableListName _ => .error .notFound

def write (assoc : AssocId) (now : Now) (access : VariableAccess) (values : List Tlv) :
    Acsi × Except DataSetAnswer (List (Except Int Unit)) :=
  match a.accessNames access with
  | .error answer => (a, .error answer)
  | .ok names =>
    if names.length ≠ values.length then (a, .error (.error errorClassDefinition 0))
    else
      let (a, results) := writeItems m assoc now a (names.zip values)
      (a, .ok results)

end Acsi

/-! ### The server -/

/-- What the server does: a request to write, or what else its loop handles. -/
inductive ServiceEvent where
  | write (assoc : AssocId) (access : VariableAccess) (values : List Tlv) (now : Now)
  | loop (x : LoopEvent)

/-- The operations that only a request to write leads to. -/
def Operation.writes : Operation → Bool
  | .select .. | .createDataSet .. | .deleteDataSets .. => false
  | _ => true

/-- Something other than a request to write. -/
def LoopEvent.otherwise : LoopEvent → Bool
  | .request operations _ => operations.all fun op => !op.writes
  | _ => true

/-- The loop commits after each request. Writes of clients come in requests to write. -/
def Acsi.serve (m : Directory) (a : Acsi) : ServiceEvent → Option Acsi
  | .write assoc access values now =>
    some (((a.write m assoc now access values).1.commit now).1)
  | .loop x => if x.otherwise then a.step x else none

end Iec61850.Server
