import Iec61850.Server.Timeouts

/-!
# What is logged and what is reported

Both engines evaluate the triggers of a commit by themselves. What each of them makes of the changes
is told by the members that were hit, with their reasons: the log engine reads those that have a
value and combines their reasons, and the report engine gathers them in a window. Where nothing else
is in the window, the entry that is logged and the entry that is buffered say the same.
-/

namespace Iec61850.Server

open Theory Mms Log

/-! ### Members that were hit -/

/-- The members that the changes of a commit hit under some trigger options, with their reasons. -/
def hitMembers (dirty : Bytes → Option TrgOps) (trgOps : TrgOps) (members : List DataSetMember) :
    Reasons :=
  members.filterMap fun m =>
    let reason := ControlBlock.memberReason dirty trgOps m
    if reason = 0 then none else some (m.reference, reason)

theorem hitMembers_cons (dirty : Bytes → Option TrgOps) (trgOps : TrgOps) (m : DataSetMember)
    (members : List DataSetMember) : hitMembers dirty trgOps (m :: members) =
      if ControlBlock.memberReason dirty trgOps m = 0 then hitMembers dirty trgOps members
      else (m.reference, ControlBlock.memberReason dirty trgOps m) ::
        hitMembers dirty trgOps members := by
  unfold hitMembers
  rw [List.filterMap_cons]
  dsimp only
  by_cases hhit : ControlBlock.memberReason dirty trgOps m = 0
  · rw [if_pos hhit, if_pos hhit]
  · rw [if_neg hhit, if_neg hhit]

/-- The reasons of several members in one. -/
def combined (reasons : Reasons) : ReasonCode := reasons.foldl (fun c p => c ||| p.2) 0

theorem or_noReason (c : ReasonCode) : c ||| 0 = c := BitVec.or_zero

theorem noReason_or (c : ReasonCode) : 0 ||| c = c := BitVec.zero_or

theorem foldl_or_eq (reasons : Reasons) (c : ReasonCode) :
    reasons.foldl (fun c p => c ||| p.2) c = c ||| combined reasons := by
  unfold combined
  induction reasons generalizing c with
  | nil => exact (or_noReason c).symm
  | cons p reasons ih =>
    rw [List.foldl_cons, List.foldl_cons, ih (c ||| p.2), ih (0 ||| p.2), noReason_or,
      BitVec.or_assoc]

theorem combined_cons (p : Bytes × ReasonCode) (reasons : Reasons) :
    combined (p :: reasons) = p.2 ||| combined reasons := by
  have hfold : combined (p :: reasons) = reasons.foldl (fun c p => c ||| p.2) (0 ||| p.2) := rfl
  rw [hfold, foldl_or_eq, noReason_or]

/-! ### The log engine -/

theorem orReason_eq (x y : ReasonCode) : orReason x y = x ||| y := fromBitString_orInto x y

theorem logHit_eq (dirty : Bytes → Option TrgOps) (trgOps : TrgOps) (m : DataSetMember) :
    logHit dirty trgOps m = ControlBlock.memberReason dirty trgOps m := rfl

/-- The log engine reads the members that were hit, and combines their reasons. -/
theorem logMembers_eq (ied : Ied) (dirty : Bytes → Option TrgOps) (trgOps : TrgOps)
    (members : List DataSetMember) (values : List (Bytes × Value)) (reason : ReasonCode) :
    logMembers ied dirty trgOps members (values, reason) =
      (values ++ ControlBlock.valuesOf ied (hitMembers dirty trgOps members),
        reason ||| combined (hitMembers dirty trgOps members)) := by
  induction members generalizing values reason with
  | nil =>
    rw [logMembers]
    exact congrArg₂ Prod.mk (List.append_nil values).symm (or_noReason reason).symm
  | cons m members ih =>
    rw [logMembers]
    dsimp only
    by_cases hhit : ControlBlock.memberReason dirty trgOps m = 0
    · rw [logHit_eq, if_pos hhit, ih, hitMembers_cons, if_pos hhit]
    · rw [logHit_eq, if_neg hhit, ih, hitMembers_cons, if_neg hhit, combined_cons, orReason_eq,
        BitVec.or_assoc, List.append_assoc]
      refine congrArg₂ Prod.mk (congrArg (values ++ ·) ?_) rfl
      unfold ControlBlock.valuesOf
      rw [List.filterMap_cons]
      dsimp only
      cases ied.readReference m.reference with
      | none => rfl
      | some v => rfl

/-- The entry that an enabled block logs for a commit. -/
theorem entryFor_eq {l : LogBlock} {ied : Ied} {members : List DataSetMember}
    (henabled : l.enabled = true) (hmembers : l.members ied = some members)
    (dirty : Bytes → Option TrgOps) (wall : EntryTime) :
    l.entryFor ied dirty wall =
      let hits := hitMembers dirty l.trgOps members
      if (ControlBlock.valuesOf ied hits).isEmpty then none
      else some ⟨wall, ControlBlock.valuesOf ied hits,
        if l.reasonCode then some (combined hits) else none⟩ := by
  rw [LogBlock.entryFor, if_neg (not_not_intro henabled), hmembers]
  dsimp only
  rw [logMembers_eq, List.nil_append, noReason_or]

/-! ### The report engine -/

namespace ControlBlock

theorem combined_addReason (reasons : Reasons) (p : Bytes × ReasonCode) :
    combined (addReason reasons p) = combined reasons ||| p.2 := by
  obtain ⟨m, reason⟩ := p
  induction reasons with
  | nil =>
    rw [addReason, combined_cons, mergeReason_eq, noReason_or, BitVec.or_comm]
  | cons first reasons ih =>
    obtain ⟨m', reason'⟩ := first
    rw [addReason]
    split
    · rw [combined_cons, combined_cons, mergeReason_eq, BitVec.or_assoc, BitVec.or_assoc,
        BitVec.or_comm reason]
    · rw [combined_cons, combined_cons, ih, BitVec.or_assoc]

theorem combined_foldl_addReason (found reasons : Reasons) :
    combined (found.foldl addReason reasons) = combined reasons ||| combined found := by
  induction found generalizing reasons with
  | nil => exact (or_noReason _).symm
  | cons p found ih => rw [List.foldl_cons, ih, combined_addReason, combined_cons, BitVec.or_assoc]

variable {reasons : Reasons} {m : Bytes}

theorem mem_keys_addReason {p : Bytes × ReasonCode} :
    m ∈ (addReason reasons p).map (·.1) ↔ m ∈ reasons.map (·.1) ∨ m = p.1 := by
  obtain ⟨m₁, reason₁⟩ := p
  induction reasons with
  | nil => simp [addReason]
  | cons first reasons ih =>
    obtain ⟨m', reason'⟩ := first
    rw [addReason]
    split
    · rename_i heq
      subst heq
      rw [List.map_cons, List.map_cons, List.mem_cons]
      constructor
      · exact Or.inl
      · rintro (hmem | hsame)
        · exact hmem
        · exact Or.inl hsame
    · rw [List.map_cons, List.mem_cons, ih, List.map_cons, List.mem_cons, or_assoc]

theorem mem_keys_foldl_addReason {found : Reasons} : m ∈ (found.foldl addReason reasons).map (·.1) ↔
      m ∈ reasons.map (·.1) ∨ m ∈ found.map (·.1) := by
  induction found generalizing reasons with
  | nil => simp
  | cons p found ih =>
    rw [List.foldl_cons, ih, mem_keys_addReason, List.map_cons, List.mem_cons, or_assoc]

theorem mem_valuesOf {ied : Ied} {v : Value} :
    (m, v) ∈ valuesOf ied reasons ↔ m ∈ reasons.map (·.1) ∧ ied.readReference m = some v := by
  unfold valuesOf
  rw [List.mem_filterMap]
  constructor
  · rintro ⟨⟨m', reason⟩, hmem, hread⟩
    obtain ⟨v', hv', heq⟩ := Option.map_eq_some_iff.mp hread
    obtain ⟨rfl, rfl⟩ := Prod.mk.inj heq
    exact ⟨List.mem_map.mpr ⟨(m', reason), hmem, rfl⟩, hv'⟩
  · rintro ⟨hmem, hread⟩
    obtain ⟨⟨m', reason⟩, hmem', rfl⟩ := List.mem_map.mp hmem
    refine ⟨(m', reason), hmem', ?_⟩
    dsimp only
    rw [hread, Option.map_some]

end ControlBlock

/-! ### Entries that say the same -/

/-- An entry of a log and one of a report are of the same members with the same values, at the same
time; and the log's entry, if it says why, says what the reasons of the other one combine to. -/
structure SameEntry (reasonCode : Bool) (e : NewEntry) (x : Buffered) : Prop where
  members : ∀ m, m ∈ e.values.map (·.1) ↔ m ∈ x.reasons.map (·.1)
  values : ∀ m v, (m, v) ∈ e.values ↔ (m, v) ∈ x.values
  reason : e.reason = if reasonCode then some (combined x.reasons) else none
  time : e.occurred = x.madeAt

/-- A window that has gathered the members that were hit, and no others. -/
structure Gathered (hits pending : Reasons) : Prop where
  keys : ∀ m, m ∈ pending.map (·.1) ↔ m ∈ hits.map (·.1)
  reasons : combined pending = combined hits

theorem gathered_foldl (hits : Reasons) : Gathered hits (hits.foldl ControlBlock.addReason []) := by
  constructor
  · intro m
    rw [ControlBlock.mem_keys_foldl_addReason]
    simp
  · rw [ControlBlock.combined_foldl_addReason]
    exact noReason_or _

variable {hits pending : Reasons} {ied ied' : Ied}

/-- Every member that was hit has a value, and both engines read the same. -/
def ReadAlike (ied ied' : Ied) (hits : Reasons) : Prop :=
  ∀ m ∈ hits.map (·.1), ied'.readReference m = ied.readReference m ∧
    (ied.readReference m).isSome

theorem Gathered.entryFor_reasons (h : Gathered hits pending) (hread : ReadAlike ied ied' hits)
    (b : ControlBlock) (wall : EntryTime) : (b.entryFor ied' pending wall).reasons = pending := by
  apply List.filter_eq_self.mpr
  rintro ⟨m, reason⟩ hmem
  obtain ⟨hsame, hsome⟩ := hread m ((h.keys m).mp (List.mem_map.mpr ⟨_, hmem, rfl⟩))
  obtain ⟨v, hv⟩ := Option.isSome_iff_exists.mp hsome
  dsimp only
  rw [ControlBlock.lookup_valuesOf hmem (hsame.trans hv)]
  rfl

/-- What is logged of the members that were hit says the same as what is made of the window. -/
theorem Gathered.sameEntry (h : Gathered hits pending) (hread : ReadAlike ied ied' hits)
    (b : ControlBlock) (wall : EntryTime) (reasonCode : Bool) : SameEntry reasonCode
      ⟨wall, ControlBlock.valuesOf ied hits, if reasonCode then some (combined hits) else none⟩
      (b.entryFor ied' pending wall) := by
  have hreasons := h.entryFor_reasons hread b wall
  constructor
  · intro m
    rw [hreasons, h.keys m]
    constructor
    · intro hm
      obtain ⟨⟨m', v⟩, hmem, rfl⟩ := List.mem_map.mp hm
      exact (ControlBlock.mem_valuesOf.mp hmem).1
    · intro hm
      obtain ⟨v, hv⟩ := Option.isSome_iff_exists.mp (hread m hm).2
      exact List.mem_map.mpr ⟨(m, v), ControlBlock.mem_valuesOf.mpr ⟨hm, hv⟩, rfl⟩
  · intro m v
    have hvalues : (b.entryFor ied' pending wall).values = ControlBlock.valuesOf ied' pending := rfl
    rw [hvalues, ControlBlock.mem_valuesOf, ControlBlock.mem_valuesOf, h.keys m]
    constructor
    · rintro ⟨hm, hv⟩
      exact ⟨hm, (hread m hm).1.trans hv⟩
    · rintro ⟨hm, hv⟩
      exact ⟨hm, (hread m hm).1.symm.trans hv⟩
  · rw [hreasons, h.reasons]
  · rfl

theorem valuesOf_isEmpty (hread : ReadAlike ied ied' hits) :
    (ControlBlock.valuesOf ied hits).isEmpty = hits.isEmpty := by
  cases hits with
  | nil => rfl
  | cons p hits =>
    obtain ⟨v, hv⟩ := Option.isSome_iff_exists.mp (hread p.1 List.mem_cons_self).2
    have hmem : (p.1, v) ∈ ControlBlock.valuesOf ied (p :: hits) :=
      ControlBlock.mem_valuesOf.mpr ⟨List.mem_cons_self, hv⟩
    rw [List.isEmpty_cons]
    exact List.isEmpty_eq_false_iff.mpr (List.ne_nil_of_mem hmem)

/-! ### What a commit writes -/

namespace Acsi

variable (a : Acsi) (now : Now)

/-- The server when a commit has written into the logs. -/
def committedLogs : Acsi :=
  { a.takeDirty with logs := a.takeDirty.logs.commit a.takeDirty.view a.dirty now.entry }

/-- The server when a commit has gathered the changes for the reports. -/
def gathered : Acsi := (a.committedLogs now).gather a.dirty now.mono

/-- A block of reports when `emit_due` comes to its window. -/
def scanned (b : ControlBlock) : ControlBlock :=
  ((b.gather (a.committedLogs now).view a.dirty now.mono).emitInterrogation (a.gathered now).view
    a.peers now.entry).1.purge.emitIntegrity (a.gathered now).view a.peers now.entry now.mono |>.1

/-- The entry that a commit writes into the log of a block. -/
def entryLogged (l : LogBlock) : Option NewEntry :=
  if (a.logs.store.logs l.log).isSome then l.entryFor a.takeDirty.view a.dirty now.entry else none

/-- The entry that a commit makes of the window of a block. -/
def entryReported (b : ControlBlock) : Option Buffered :=
  if (a.scanned now b).rcb.due.any (· ≤ now.mono) then
    (a.scanned now b).entryMade (a.gathered now).view .change now.entry
  else none

end Acsi

/-! ### Data and control blocks -/

/-- A leaf that is not an attribute of a report or a log control block. -/
def Place.IsData : Place → Prop
  | .data _ | .setting _ _ => True
  | .report _ _ | .log _ _ => False

mutual

/-- The places of the leaves of a variable. -/
def Shape.places : Shape → List Place
  | .leaf place => [place]
  | .struct members => Shape.placesAll members
  | .array elements => Shape.placesAll elements

def Shape.placesAll : List Shape → List Place
  | [] => []
  | s :: rest => s.places ++ Shape.placesAll rest

end

mutual

theorem Shape.read_congr {value value' : Place → Option Value} (s : Shape)
    (h : ∀ p ∈ s.places, value' p = value p) : s.read value' = s.read value := by
  cases s with
  | leaf place => exact h place List.mem_cons_self
  | struct members => rw [Shape.read, Shape.read, Shape.readAll_congr members h]
  | array elements => rw [Shape.read, Shape.read, Shape.readAll_congr elements h]

theorem Shape.readAll_congr {value value' : Place → Option Value} (ss : List Shape)
    (h : ∀ p ∈ Shape.placesAll ss, value' p = value p) :
    Shape.readAll value' ss = Shape.readAll value ss := by
  cases ss with
  | nil => rfl
  | cons s rest =>
    rw [Shape.readAll, Shape.readAll,
      Shape.read_congr s fun p hp => h p (List.mem_append_left _ hp),
      Shape.readAll_congr rest fun p hp => h p (List.mem_append_right _ hp)]

end

namespace Acsi

variable {a : Acsi}

variable {p : Place} {dirty : Bytes → Option TrgOps} {trgOps : TrgOps}

theorem gathered_value (now : Now) (h : p.IsData) :
    (a.gathered now).value p = a.takeDirty.value p := by
  cases p with
  | data r => rfl
  | setting j key => rfl
  | report i x => cases h
  | log i x => cases h

theorem takeDirty_value (h : p.IsData) : a.takeDirty.value p = a.value p := by
  cases p with
  | data r => rfl
  | setting j key =>
    have hdevices : a.takeDirty.devices = a.devices.map fun d =>
      { d with ied := { d.ied with dirty := fun _ => none } } := rfl
    rw [value, value, hdevices, List.getElem?_map]
    cases a.devices[j]? with
    | none => rfl
    | some d => rfl
  | report i x => cases h
  | log i x => cases h

/-! ### The two entries of a commit -/

/-- The members of the data set that a block reports. -/
def membersOf (a : Acsi) (b : ControlBlock) : List DataSetMember :=
  ((b.dataSet a.view).map (·.2)).getD []

/-- A log control block and a buffered report control block over the same data set with the same
trigger options; the report control block has no gathering window. -/
structure Alike (l : LogBlock) (b : ControlBlock) : Prop where
  buffered : b.rcb.buffered = true
  dataSet : l.dataSetName = b.dataSetName
  trgOps : l.trgOps = b.trgOps
  bufTm : ((b.values .bufTm).bind unsignedOf).getD 0 = 0

/-- The log control block is enabled and the server keeps its log, and no window of the report control
block is open. The data set is of data, not of attributes of control blocks, and each of its members
that has changed has a value. -/
structure Paired (a : Acsi) (l : LogBlock) (b : ControlBlock) : Prop extends Alike l b where
  enabled : l.enabled = true
  known : (a.logs.store.logs l.log).isSome
  pending : b.rcb.pending = []
  due : b.rcb.due = none
  data : ∀ m ∈ a.membersOf b, ∀ s, a.layout m.reference = some s → ∀ p ∈ s.places, p.IsData
  readable : ∀ m ∈ a.membersOf b, (∃ leaf ∈ m.leaves, (a.dirty leaf).isSome) →
    (a.readReference m.reference).isSome

/-- Both entries are made and say the same, or neither is made. -/
def Agree (reasonCode : Bool) : Option NewEntry → Option Buffered → Prop
  | none, none => True
  | some e, some x => SameEntry reasonCode e x
  | _, _ => False

theorem Agree.sameEntry {reasonCode : Bool} {e : NewEntry} {o : Option Buffered}
    (h : Agree reasonCode (some e) o) : ∃ x, o = some x ∧ SameEntry reasonCode e x := by
  cases o with
  | none => cases h
  | some x => exact ⟨x, rfl, h⟩

theorem dirty_of_memberReason {m : DataSetMember} (h : ControlBlock.memberReason dirty trgOps m ≠ 0) :
    ∃ leaf ∈ m.leaves, (dirty leaf).isSome := by
  by_contra hclean
  apply h
  unfold ControlBlock.memberReason
  generalize m.leaves = leaves at hclean ⊢
  induction leaves with
  | nil => rfl
  | cons leaf leaves ih =>
    have hleaf : dirty leaf = none := by
      rw [← Option.not_isSome_iff_eq_none]
      exact fun hsome => hclean ⟨leaf, List.mem_cons_self, hsome⟩
    rw [List.foldl_cons, hleaf]
    apply ih
    rintro ⟨other, hmem, hsome⟩
    exact hclean ⟨other, List.mem_cons_of_mem _ hmem, hsome⟩

theorem mem_keys_hitMembers {members : List DataSetMember} {m : Bytes}
    (h : m ∈ (hitMembers dirty trgOps members).map (·.1)) :
    ∃ member ∈ members, member.reference = m ∧ ∃ leaf ∈ member.leaves, (dirty leaf).isSome := by
  obtain ⟨p, hp, rfl⟩ := List.mem_map.mp h
  obtain ⟨member, hmember, hhit⟩ := List.mem_filterMap.mp hp
  dsimp only at hhit
  split at hhit
  · cases hhit
  · rename_i hreason
    cases hhit
    exact ⟨member, hmember, rfl, dirty_of_memberReason hreason⟩

variable {l : LogBlock} {b : ControlBlock} {o : Option NewEntry} {o' : Option Buffered}

theorem Paired.readAlike (h : a.Paired l b) (now : Now) :
    ReadAlike a.takeDirty.view (a.gathered now).view
      (hitMembers a.dirty l.trgOps (a.membersOf b)) := by
  intro m hm
  obtain ⟨member, hmember, rfl, hdirty⟩ := mem_keys_hitMembers hm
  have hread : ∀ value : Place → Option Value, (∀ p : Place, p.IsData → value p = a.value p) →
      (a.layout member.reference).bind (Shape.read value) = a.readReference member.reference := by
    intro value hvalue
    rw [readReference]
    cases hlayout : a.layout member.reference with
    | none => rfl
    | some s => exact s.read_congr fun p hp => hvalue p (h.data member hmember s hlayout p hp)
  have hlogs : a.takeDirty.view.readReference member.reference =
      a.readReference member.reference := hread _ fun p hp => takeDirty_value hp
  have hreports : (a.gathered now).view.readReference member.reference =
      a.readReference member.reference :=
    hread _ fun p hp => (gathered_value now hp).trans (takeDirty_value hp)
  rw [hlogs, hreports]
  exact ⟨rfl, h.readable member hmember hdirty⟩

theorem scanned_sameWindow (now : Now) (b : ControlBlock) :
    ControlBlock.SameWindow (b.gather (a.committedLogs now).view a.dirty now.mono)
      (a.scanned now b) :=
  ((ControlBlock.emitInterrogation_sameWindow _ _ _ _).trans
    (ControlBlock.purge_sameWindow _)).trans (ControlBlock.emitIntegrity_sameWindow _ _ _ _ _)

theorem entryReported_of_not_hit {now : Now} (hdue : b.rcb.due = none)
    (hhits : b.hits (a.committedLogs now).view a.dirty = []) : a.entryReported now b = none := by
  have hgather : b.gather (a.committedLogs now).view a.dirty now.mono = b := by
    unfold ControlBlock.gather
    dsimp only
    rw [hhits]
    split
    · rfl
    · rfl
  have hnone : (a.scanned now b).rcb.due = none := by
    rw [(scanned_sameWindow now b).due, hgather, hdue]
  rw [entryReported, hnone]
  rfl

/-- A block that the changes hit, with no window open and none to wait for, makes an entry of them. -/
theorem entryReported_of_hit (now : Now) (h : a.Paired l b) {name : Bytes}
    {members : List DataSetMember} (hset : b.dataSet a.view = some (name, members))
    (hhits : hitMembers a.dirty l.trgOps members ≠ []) :
    ∃ c : ControlBlock, a.entryReported now b = some (c.entryFor (a.gathered now).view
      ((hitMembers a.dirty l.trgOps members).foldl ControlBlock.addReason []) now.entry) := by
  have hfound : b.hits (a.committedLogs now).view a.dirty = hitMembers a.dirty l.trgOps members := by
    have hset' : b.dataSet (a.committedLogs now).view = some (name, members) := hset
    rw [ControlBlock.hits, hset', h.trgOps]
    rfl
  have hgather : (b.gather (a.committedLogs now).view a.dirty now.mono).rcb.pending =
        (hitMembers a.dirty l.trgOps members).foldl ControlBlock.addReason [] ∧
      (b.gather (a.committedLogs now).view a.dirty now.mono).rcb.due =
        some (Instant.plusMillis now.mono 0) ∧
      (b.gather (a.committedLogs now).view a.dirty now.mono).values = b.values := by
    unfold ControlBlock.gather
    dsimp only
    rw [hfound, h.buffered, Bool.not_true, Bool.and_false, if_neg Bool.false_ne_true,
      if_neg (by rwa [List.isEmpty_iff]), h.pending, h.due, h.bufTm]
    exact ⟨rfl, rfl, rfl⟩
  obtain ⟨hpending, hdue, hvalues⟩ := hgather
  have hwindow := scanned_sameWindow (a := a) now b
  have hclosed : (a.scanned now b).rcb.due.any (· ≤ now.mono) = true := by
    rw [hwindow.due, hdue, Option.any_some, decide_eq_true_eq]
    exact Instant.plusMillis_zero_le now.mono
  have hsame : (a.scanned now b).dataSet (a.gathered now).view = some (name, members) := by
    rw [ControlBlock.dataSet_congr (hwindow.datSet.trans (congrFun hvalues .datSet))]
    exact hset
  refine ⟨a.scanned now b, ?_⟩
  rw [entryReported, if_pos hclosed, ControlBlock.entryMade, hsame, Option.bind_some]
  dsimp only
  have hreasons : (a.scanned now b).reasonsFor members .change =
      (hitMembers a.dirty l.trgOps members).foldl ControlBlock.addReason [] :=
    hwindow.pending.trans hpending
  rw [hreasons, if_neg]
  have hmembers : a.membersOf b = members := by
    rw [membersOf, hset]
    rfl
  have hread := h.readAlike now
  rw [hmembers] at hread
  rw [(gathered_foldl _).entryFor_reasons hread, List.isEmpty_iff]
  intro hnil
  obtain ⟨p, hits, hcons⟩ := List.exists_cons_of_ne_nil hhits
  have hmem : p.1 ∈ ([] : Reasons).map (·.1) := by
    rw [← hnil]
    apply ((gathered_foldl _).keys p.1).mpr
    rw [hcons]
    exact List.mem_cons_self
  cases hmem

theorem Paired.members (h : a.Paired l b) :
    l.members a.takeDirty.view = (b.dataSet a.view).map (·.2) := by
  have hname : l.dataSetName = (b.values .datSet).bind stringOf := h.dataSet
  rw [LogBlock.members, hname, ControlBlock.dataSet]
  cases (b.values .datSet).bind stringOf with
  | none => rfl
  | some name =>
    have hfind : a.takeDirty.view.dataSet name = a.view.dataSet name := rfl
    rw [Option.bind_some, Option.bind_some, hfind]
    cases a.view.dataSet name with
    | none => rfl
    | some members => rfl

/-- For every commit, and every enabled log control block and buffered report control block without a
gathering window over the same data set of data with the same trigger options: the entry that is
logged and the entry that is buffered are of the same members with the same values, with the same
reason if the log says why, or neither is made. -/
theorem commit_agree {l : LogBlock} {b : ControlBlock} (now : Now) (h : a.Paired l b) :
    Agree l.reasonCode (a.entryLogged now l) (a.entryReported now b) := by
  have hlogged : a.entryLogged now l = l.entryFor a.takeDirty.view a.dirty now.entry :=
    if_pos h.known
  have hmembers := h.members
  cases hset : b.dataSet a.view with
  | none =>
    rw [hset, Option.map_none] at hmembers
    have hhits : b.hits (a.committedLogs now).view a.dirty = [] := by
      have hnone : b.dataSet (a.committedLogs now).view = none := hset
      rw [ControlBlock.hits, hnone]
    rw [hlogged, LogBlock.entryFor, if_neg (not_not_intro h.enabled), hmembers,
      entryReported_of_not_hit h.due hhits]
    trivial
  | some set =>
    obtain ⟨name, members⟩ := set
    rw [hset, Option.map_some] at hmembers
    have hread := h.readAlike now
    rw [membersOf, hset, Option.map_some, Option.getD_some] at hread
    rw [hlogged, entryFor_eq h.enabled hmembers]
    dsimp only
    rw [valuesOf_isEmpty hread]
    by_cases hhits : hitMembers a.dirty l.trgOps members = []
    · have hnone : b.hits (a.committedLogs now).view a.dirty = [] := by
        have hset' : b.dataSet (a.committedLogs now).view = some (name, members) := hset
        rw [ControlBlock.hits, hset', ← hhits, h.trgOps]
        rfl
      rw [if_pos (List.isEmpty_iff.mpr hhits), entryReported_of_not_hit h.due hnone]
      trivial
    · obtain ⟨c, hc⟩ := entryReported_of_hit now h hset hhits
      rw [if_neg (by rwa [List.isEmpty_iff]), hc]
      exact (gathered_foldl _).sameEntry hread c now.entry l.reasonCode

/-! ### A switch that is logged and reported -/

/-- A report control block without a gathering window. -/
def immediate : ReportControl := { ControlBlock.gathering with bufTimeMs := 0 }

/-- A log control block for the same events. -/
def recording : LogControl := ⟨true, true, 0, ControlBlock.gathering.trgOps⟩

def positionText : Bytes := ascii "LD/CSWI1$ST$Pos$stVal"

/-- The attributes of the log control block, as one variable. -/
def logText : Bytes := ascii "LD/LLN0$LG$log"

/-- A switch whose status is logged and reported, by the two blocks as they are engineered. -/
def recordedServer (lcb : LogControl) (rcb : ReportControl) (members : List DataSetMember) : Acsi where
  control := ⟨.new, Control.switchgear 1 .boolean⟩
  devices := []
  reports :=
    [⟨.engineered rcb (ascii "LD/LLN0$BR$trip") (some (ascii "LD/events")) true, fun _ => none⟩]
  released := []
  logs := ⟨[.engineered lcb (ascii "LD/journal") (ascii "LD/events")],
    .forLogs [ascii "LD/journal"] 4⟩
  dataSets := ⟨[⟨ascii "LD/events", members, false⟩], List.nodup_singleton _⟩
  tree := ⟨fun _ => true, fun _ => true, fun text => [text], 1⟩
  layout text :=
    if text = positionText then some (.leaf (.data statusRef))
    else if text = logText ++ ascii "$IntgPd" then some (.leaf (.log 0 .intgPd))
    else if text = logText then some (.struct (lcbComponents.map fun c => .leaf (.log 0 c.1)))
    else none
  tracking := ⟨[], fun _ _ => none⟩
  peers := anonymous

/-- The status, as a data set has it. -/
def positionMember : DataSetMember := ⟨positionText, [positionText]⟩

/-- The log control block, as a data set has it. -/
def logMember : DataSetMember := ⟨logText, [logText ++ ascii "$IntgPd"]⟩

/-- The switch has closed. -/
def operatedServer (lcb : LogControl) (rcb : ReportControl) : Acsi :=
  (recordedServer lcb rcb [positionMember]).perform (.write statusRef (.boolean true))

/-- The status is logged and reported. -/
theorem commit_agree_operated : ∃ l ∈ (operatedServer recording immediate).logs.controls,
      ∃ r ∈ (operatedServer recording immediate).reports,
        Agree true ((operatedServer recording immediate).entryLogged (Control.atSecond 1) l)
            ((operatedServer recording immediate).entryReported (Control.atSecond 1) r.block) ∧
          ((operatedServer recording immediate).entryLogged (Control.atSecond 1) l).isSome := by
  refine ⟨_, List.mem_cons_self, _, List.mem_cons_self, ?_, by decide +kernel⟩
  apply commit_agree (l := LogBlock.engineered recording (ascii "LD/journal") (ascii "LD/events"))
  have hmembers : (operatedServer recording immediate).membersOf
      (.engineered immediate (ascii "LD/LLN0$BR$trip") (some (ascii "LD/events")) true) =
        [positionMember] := by
    decide +kernel
  constructor
  · constructor
    · rfl
    · decide +kernel
    · decide +kernel
    · decide +kernel
  · decide +kernel
  · decide +kernel
  · rfl
  · rfl
  · intro m hm s hs p hp
    rw [hmembers] at hm
    rw [List.mem_singleton.mp hm] at hs
    have hlayout : (operatedServer recording immediate).layout positionMember.reference =
        some (.leaf (.data statusRef)) := rfl
    rw [hlayout] at hs
    cases hs
    rw [List.mem_singleton.mp hp]
    trivial
  · intro m hm _
    rw [hmembers] at hm
    rw [List.mem_singleton.mp hm]
    decide +kernel

/-! ### Blocks that differ -/

/-- The switch has closed a moment ago, in a window of a tenth of a second, since when a client has
written `BufTm` down to 0; now it opens. -/
def waitingServer : Acsi :=
  (((recordedServer recording ControlBlock.gathering [positionMember]).next
    (.transaction [(statusRef, .boolean true)] (Control.atSecond 0))).perform
      (.report 0 1 .bufTm (.unsigned 0) 0)).perform (.write statusRef (.boolean false))

/-- A client has written a setting of the log control block, which is in the data set itself. -/
def introspectiveServer : Acsi :=
  (recordedServer recording immediate [logMember]).perform (.log 0 .intgPd (.unsigned 5))

/-- The log control block writes into a log that the server does not keep. -/
def unkeptServer : Acsi :=
  { operatedServer recording immediate with
    logs := { (operatedServer recording immediate).logs with store := .forLogs [] 4 } }

/-- There are two blocks that are alike, and a commit makes entries of them that differ. -/
def Differ (a : Acsi) (now : Now) : Prop :=
  ∃ l ∈ a.logs.controls, ∃ r ∈ a.reports, Alike l r.block ∧
    ¬ Agree true (a.entryLogged now l) (a.entryReported now r.block)

theorem differ_of_heads {a : Acsi} {now : Now} {r : ReportBlock} {ls : List LogBlock}
    {rs : List ReportBlock} (hl : a.logs.controls = l :: ls) (hr : a.reports = r :: rs)
    (halike : Alike l r.block)
    (h : ¬ Agree true (a.entryLogged now l) (a.entryReported now r.block)) : Differ a now :=
  ⟨l, by rw [hl]; exact List.mem_cons_self, r, by rw [hr]; exact List.mem_cons_self, halike, h⟩

theorem not_agree_of_isSome (h : o.isSome ≠ o'.isSome) : ¬ Agree true o o' := by
  intro hagree
  cases o with
  | none =>
    cases o' with
    | none => exact h rfl
    | some x => exact hagree
  | some e =>
    obtain ⟨x, rfl, -⟩ := hagree.sameEntry
    exact h rfl

theorem not_agree_of_reason (h : (o.any fun e => e.reason.isNone) = true) : ¬ Agree true o o' := by
  intro hagree
  obtain ⟨e, rfl, hnone⟩ := (Option.any_eq_true _ _).mp h
  obtain ⟨x, -, hsame⟩ := hagree.sameEntry
  rw [hsame.reason] at hnone
  cases hnone

/-- The value has an empty octet string in it, as the log control block of an empty log has. -/
def hasEmpty : Value → Bool
  | .structure members => members.any fun
      | .octetString [] => true
      | _ => false
  | _ => false

theorem not_agree_of_values (h : (o.any fun e => e.values.any fun p => hasEmpty p.2) = true)
    (h' : (o'.any fun x => x.values.any fun p => hasEmpty p.2) = false) : ¬ Agree true o o' := by
  intro hagree
  obtain ⟨e, rfl, hlogged⟩ := (Option.any_eq_true _ _).mp h
  obtain ⟨x, rfl, hsame⟩ := hagree.sameEntry
  obtain ⟨⟨m, v⟩, hmem, hempty⟩ := List.any_eq_true.mp hlogged
  have hreported : (x.values.any fun p => hasEmpty p.2) = true :=
    List.any_eq_true.mpr ⟨(m, v), (hsame.values m v).mp hmem, hempty⟩
  rw [Option.any_some, hreported] at h'
  cases h'

/-- The two engines differ where the log control block is not enabled, where it does not record
reasons, where its log is not kept, where a window has been opened before, and where the data set
shows what the log holds. -/
theorem blocks_differ :
    (¬ ∀ (a : Acsi) (now : Now), ∀ l ∈ a.logs.controls, ∀ r ∈ a.reports, Alike l r.block →
      Agree true (a.entryLogged now l) (a.entryReported now r.block)) ∧
    Differ (operatedServer { recording with logEna := false } immediate) (Control.atSecond 1) ∧
    Differ (operatedServer { recording with reasonCode := false } immediate) (Control.atSecond 1) ∧
    Differ unkeptServer (Control.atSecond 1) ∧
    Differ waitingServer (Control.atSecond 0) ∧
    Differ introspectiveServer (Control.atSecond 1) := by
  have hdisabled :
      Differ (operatedServer { recording with logEna := false } immediate) (Control.atSecond 1) := by
    apply differ_of_heads rfl rfl
    · refine ⟨rfl, ?_, ?_, ?_⟩
      all_goals decide +kernel
    · apply not_agree_of_isSome
      decide +kernel
  refine ⟨?_, hdisabled, ?_, ?_, ?_, ?_⟩
  · intro hclaim
    obtain ⟨l, hl, r, hr, halike, hdiffer⟩ := hdisabled
    exact hdiffer (hclaim _ _ l hl r hr halike)
  · apply differ_of_heads rfl rfl
    · refine ⟨rfl, ?_, ?_, ?_⟩
      all_goals decide +kernel
    · apply not_agree_of_reason
      decide +kernel
  · apply differ_of_heads rfl rfl
    · refine ⟨rfl, ?_, ?_, ?_⟩
      all_goals decide +kernel
    · apply not_agree_of_isSome
      decide +kernel
  · apply differ_of_heads rfl rfl
    · refine ⟨?_, ?_, ?_, ?_⟩
      all_goals decide +kernel
    · apply not_agree_of_isSome
      decide +kernel
  · apply differ_of_heads rfl rfl
    · refine ⟨rfl, ?_, ?_, ?_⟩
      all_goals decide +kernel
    · apply not_agree_of_values
      all_goals decide +kernel

end Acsi

end Iec61850.Server
