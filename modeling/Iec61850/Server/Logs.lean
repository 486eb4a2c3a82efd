import Iec61850.Server.Log
import Iec61850.Server.Rcb
import Iec61850.Server.Store

/-!
# The log engine

`Logs` of `server/log.rs`: the log control blocks with their attributes, what a client may write of
them, and the entries a commit writes into the logs. The engine evaluates the triggers of a change
by itself, member by member, and combines the reasons of all members into one.
-/

namespace Iec61850.Server

open Theory Mms Log

/-! ### Attributes of a log control block -/

/-- The attributes of a log control block; `other` is any name it has no attribute of. -/
inductive LogAttribute where
  | logEna
  | logRef
  | datSet
  | oldEntrTm
  | newEntrTm
  | oldEnt
  | newEnt
  | trgOps
  | intgPd
  | other (name : Bytes)
  deriving DecidableEq, Repr

def lcbComponents : List (LogAttribute × BType) :=
  [(.logEna, .boolean), (.logRef, .visString129), (.datSet, .visString129),
    (.oldEntrTm, .entryTime), (.newEntrTm, .entryTime), (.oldEnt, .entryID), (.newEnt, .entryID),
    (.trgOps, .trgOps), (.intgPd, .int32U)]

/-- `writable_block_attribute`, for a log control block. -/
def writableLogAttribute : LogAttribute → Bool
  | .logEna | .datSet | .trgOps | .intgPd => true
  | .logRef | .oldEntrTm | .newEntrTm | .oldEnt | .newEnt | .other _ => false

/-- The nodes below a log control block. -/
def logNode (a : LogAttribute) : Option Node := (lcbComponents.lookup a).map .leaf

/-- `LogControl`, as far as its block comes from it. -/
structure LogControl where
  logEna : Bool
  reasonCode : Bool
  intgPdMs : Nat
  trgOps : TrgOps
  deriving Repr

def lcbDefaults (lcb : LogControl) (log dataSet : Bytes) : List (LogAttribute × Value) :=
  [(.logEna, .boolean lcb.logEna), (.logRef, .visibleString log), (.datSet, .visibleString dataSet),
    (.oldEntrTm, .binaryTime (EntryTime.toOctets ⟨0, 0⟩)),
    (.newEntrTm, .binaryTime (EntryTime.toOctets ⟨0, 0⟩)), (.oldEnt, .octetString []),
    (.newEnt, .octetString []), (.trgOps, packedToValue lcb.trgOps),
    (.intgPd, .unsigned lcb.intgPdMs)]

theorem lcbDefaults_accepted (lcb : LogControl) (log dataSet : Bytes) :
    ∀ d ∈ lcbDefaults lcb log dataSet,
      ∃ t, lcbComponents.lookup d.1 = some t ∧ accepts t d.2 = true := by
  intro d hd
  simp only [lcbDefaults, List.mem_cons, List.not_mem_nil, or_false] at hd
  rcases hd with rfl | rfl | rfl | rfl | rfl | rfl | rfl | rfl | rfl
  all_goals exact ⟨_, rfl, rfl⟩

/-! ### A log control block -/

/-- `Control`, with the attributes of its block: the log it writes into, and whether its entries say
why they were made. -/
structure LogBlock where
  log : Bytes
  reasonCode : Bool
  attributes : LeafStore LogAttribute
  declared : attributes.node = logNode

namespace LogBlock

/-- A block with the values the file gives it. -/
def engineered (lcb : LogControl) (log dataSet : Bytes) : LogBlock where
  log
  reasonCode := lcb.reasonCode
  attributes :=
    { node := logNode
      values := fun a => (lcbDefaults lcb log dataSet).lookup a
      dirty := fun _ => none }
  declared := rfl

variable (b : LogBlock)

/-- `Ied::write_leaf`. -/
def writeLeaf (a : LogAttribute) (v : Value) : LogBlock × Except Int Unit :=
  ({ b with
      attributes := (b.attributes.writeLeaf a v).1
      declared := by rw [LeafStore.writeLeaf_node, b.declared] },
    (b.attributes.writeLeaf a v).2)

/-- `Ied::set_internal`, whose result every caller here drops. -/
def setInternal (a : LogAttribute) (v : Value) : LogBlock :=
  { b with
    attributes := (b.attributes.setInternal a v).1
    declared := by rw [LeafStore.setInternal_node, b.declared] }

/-- `Acsi::write_reference`, for an attribute of the block: no engine is asked. -/
def write (a : LogAttribute) (v : Value) : LogBlock × Except Int Unit :=
  if writableLogAttribute a then b.writeLeaf a v else (b, .error dataAccessDenied)

/-- The loop of `Acsi::write_value` over the components of a structure. -/
def writeLeaves : LogBlock → List (LogAttribute × Value) → LogBlock × Except Int Unit
  | b, [] => (b, .ok ())
  | b, (a, v) :: rest =>
    match b.writeLeaf a v with
    | (b, .error code) => (b, .error code)
    | (b, .ok ()) => writeLeaves b rest

/-- `Acsi::write_reference`, for the block as one structure. -/
def writeWhole (value : Value) : LogBlock × Except Int Unit :=
  match value with
  | .structure members =>
    if members.length ≠ lcbComponents.length then (b, .error dataAccessTypeInconsistent)
    else b.writeLeaves ((lcbComponents.map (·.1)).zip members)
  | _ => (b, .error dataAccessTypeInconsistent)

/-- `LogEna`. -/
def enabled : Bool := ((b.attributes.values .logEna).bind boolOf).getD false

/-- The name in `DatSet`; an empty one is none. -/
def dataSetName : Option Bytes := (b.attributes.values .datSet).bind stringOf

def trgOps : TrgOps := ((b.attributes.values .trgOps).bind (packedFromValue 6)).getD 0

/-- The members of the data set the block logs, when the server has it. -/
def members (ied : Ied) : Option (List DataSetMember) := b.dataSetName.bind ied.dataSet

end LogBlock

/-! ### The engine -/

def orReason (x y : ReasonCode) : ReasonCode :=
  fromBitString 6 (orInto (toBitString x).2 (toBitString y).2)

/-- Why one member is logged: the triggers of its leaves folded into one. -/
def logHit (dirty : Bytes → Option TrgOps) (trgOps : TrgOps) (m : DataSetMember) : ReasonCode :=
  m.leaves.foldl (fun hit leaf =>
    match dirty leaf with
    | some trigger => orReason hit (ControlBlock.reasonFor trigger trgOps)
    | none => hit) 0

/-- The loop of `Logs::commit` over the members: the values of those that were hit and have one,
and the reasons of all that were hit. -/
def logMembers (ied : Ied) (dirty : Bytes → Option TrgOps) (trgOps : TrgOps) :
    List DataSetMember → List (Bytes × Value) × ReasonCode → List (Bytes × Value) × ReasonCode
  | [], acc => acc
  | m :: rest, (values, reason) =>
    let hit := logHit dirty trgOps m
    if hit = 0 then logMembers ied dirty trgOps rest (values, reason)
    else
      let value := (ied.readReference m.reference).toList.map fun v => (m.reference, v)
      logMembers ied dirty trgOps rest (values ++ value, orReason reason hit)

/-- The entry a block writes for a commit. -/
def LogBlock.entryFor (b : LogBlock) (ied : Ied) (dirty : Bytes → Option TrgOps)
    (wall : EntryTime) : Option NewEntry :=
  if ¬ b.enabled then none
  else
    match b.members ied with
    | none => none
    | some members =>
      let (values, reason) := logMembers ied dirty b.trgOps members ([], 0)
      if values.isEmpty then none
      else some ⟨wall, values, if b.reasonCode then some reason else none⟩

/-- What a log holds, as the blocks that write into it show it. -/
def LogBlock.publish (bounds : LogBounds) (b : LogBlock) : LogBlock :=
  (((b.setInternal .oldEnt (.octetString (entryIdBytes bounds.oldest.1))).setInternal .oldEntrTm
    (.binaryTime bounds.oldest.2.toOctets)).setInternal .newEnt
      (.octetString (entryIdBytes bounds.newest.1))).setInternal .newEntrTm
        (.binaryTime bounds.newest.2.toOctets)

/-- `Logs`, over the default store. -/
structure Logs where
  controls : List LogBlock
  store : MemoryLog

namespace Logs

def append (l : Logs) (log : Bytes) (entry : NewEntry) : Logs :=
  match l.store.append log entry with
  | (store, none) => { l with store }
  | (store, some bounds) =>
    { store, controls := l.controls.map fun b => if b.log = log then b.publish bounds else b }

/-- The loop of `Logs::commit` over the control blocks. The attributes an entry is made from are
not among those that an earlier one moves, so that the blocks are looked at as they were. -/
def commitAll (ied : Ied) (dirty : Bytes → Option TrgOps) (wall : EntryTime) :
    Logs → List LogBlock → Logs
  | l, [] => l
  | l, b :: rest =>
    match b.entryFor ied dirty wall with
    | none => commitAll ied dirty wall l rest
    | some entry => commitAll ied dirty wall (l.append b.log entry) rest

def commit (l : Logs) (ied : Ied) (dirty : Bytes → Option TrgOps) (wall : EntryTime) : Logs :=
  l.commitAll ied dirty wall l.controls

end Logs

/-! ### What the engine leaves alone -/

theorem LogBlock.setInternal_values_ne (b : LogBlock) {a a' : LogAttribute} (v : Value)
    (h : a' ≠ a) : (b.setInternal a v).attributes.values a' = b.attributes.values a' :=
  LeafStore.setInternal_values_ne b.attributes a v h

/-- The attributes that say what a log holds. -/
def isLogBound : LogAttribute → Bool
  | .oldEntrTm | .newEntrTm | .oldEnt | .newEnt => true
  | _ => false

theorem LogBlock.publish_values (b : LogBlock) (bounds : LogBounds) {a : LogAttribute}
    (h : isLogBound a = false) :
    (b.publish bounds).attributes.values a = b.attributes.values a := by
  have hne : ∀ {a'}, isLogBound a' = true → a ≠ a' := by
    rintro a' ha' rfl
    rw [h] at ha'
    cases ha'
  unfold LogBlock.publish
  rw [setInternal_values_ne _ _ (hne rfl), setInternal_values_ne _ _ (hne rfl),
    setInternal_values_ne _ _ (hne rfl), setInternal_values_ne _ _ (hne rfl)]

theorem LogBlock.setInternal_dirty (b : LogBlock) (a : LogAttribute) (v : Value) :
    (b.setInternal a v).attributes.dirty = b.attributes.dirty :=
  LeafStore.setInternal_dirty b.attributes a v

theorem LogBlock.publish_dirty (b : LogBlock) (bounds : LogBounds) :
    (b.publish bounds).attributes.dirty = b.attributes.dirty := by
  unfold LogBlock.publish
  rw [setInternal_dirty, setInternal_dirty, setInternal_dirty, setInternal_dirty]

/-- The block writes into the same log, and has the same settings and marks. -/
structure LogBlock.Kept (b b' : LogBlock) : Prop where
  log : b'.log = b.log
  reasonCode : b'.reasonCode = b.reasonCode
  values : ∀ a, isLogBound a = false → b'.attributes.values a = b.attributes.values a
  dirty : b'.attributes.dirty = b.attributes.dirty

theorem LogBlock.Kept.refl (b : LogBlock) : Kept b b := ⟨rfl, rfl, fun _ _ => rfl, rfl⟩

theorem LogBlock.Kept.trans {b c d : LogBlock} (h : Kept b c) (h' : Kept c d) : Kept b d :=
  ⟨h'.log.trans h.log, h'.reasonCode.trans h.reasonCode,
    fun a ha => (h'.values a ha).trans (h.values a ha), h'.dirty.trans h.dirty⟩

theorem LogBlock.Kept.dataSetName {b b' : LogBlock} (h : Kept b b') :
    b'.dataSetName = b.dataSetName := by
  rw [LogBlock.dataSetName, LogBlock.dataSetName, h.values .datSet rfl]

theorem LogBlock.publish_kept (b : LogBlock) (bounds : LogBounds) : Kept b (b.publish bounds) :=
  ⟨rfl, rfl, fun _ ha => publish_values b bounds ha, publish_dirty b bounds⟩

namespace Logs

theorem append_kept (l : Logs) (log : Bytes) (entry : NewEntry) :
    ∀ b' ∈ (l.append log entry).controls, ∃ b ∈ l.controls, LogBlock.Kept b b' := by
  intro b' hb'
  unfold append at hb'
  split at hb'
  · exact ⟨b', hb', .refl b'⟩
  · rename_i store bounds _
    obtain ⟨b, hb, rfl⟩ := List.mem_map.mp hb'
    refine ⟨b, hb, ?_⟩
    split
    · exact LogBlock.publish_kept b bounds
    · exact .refl b

theorem commitAll_kept (ied : Ied) (dirty : Bytes → Option TrgOps) (wall : EntryTime) (l : Logs)
    (bs : List LogBlock) :
    ∀ b' ∈ (l.commitAll ied dirty wall bs).controls, ∃ b ∈ l.controls, LogBlock.Kept b b' := by
  induction bs generalizing l with
  | nil => exact fun b' hb' => ⟨b', hb', .refl b'⟩
  | cons b bs ih =>
    rw [commitAll]
    split
    · exact ih l
    · rename_i entry _
      intro b' hb'
      obtain ⟨c, hc, hkept⟩ := ih _ b' hb'
      obtain ⟨d, hd, hkept'⟩ := append_kept l _ entry c hc
      exact ⟨d, hd, hkept'.trans hkept⟩

theorem commit_kept (l : Logs) (ied : Ied) (dirty : Bytes → Option TrgOps) (wall : EntryTime) :
    ∀ b' ∈ (l.commit ied dirty wall).controls, ∃ b ∈ l.controls, LogBlock.Kept b b' :=
  commitAll_kept ied dirty wall l l.controls

end Logs

/-! ### What a write leaves in `DatSet` -/

namespace LogBlock

variable {b : LogBlock}

/-- What a write of one attribute leaves there. -/
theorem dataSetName_writeLeaf (b : LogBlock) (a : LogAttribute) (v : Value) :
    (b.writeLeaf a v).1.dataSetName = b.dataSetName ∨
      a = .datSet ∧ (b.writeLeaf a v).1.dataSetName = stringOf v := by
  by_cases ha : a = .datSet
  · subst ha
    have hself := LeafStore.writeLeaf_values_self b.attributes .datSet v
    by_cases htakes : b.attributes.takes .datSet v = true
    · right
      rw [if_pos htakes] at hself
      refine ⟨rfl, ?_⟩
      rw [dataSetName]
      exact congrArg (Option.bind · stringOf) hself
    · left
      rw [if_neg htakes] at hself
      rw [dataSetName, dataSetName]
      exact congrArg (Option.bind · stringOf) hself
  · left
    have hne := LeafStore.writeLeaf_values_ne b.attributes a v (Ne.symm ha)
    rw [dataSetName, dataSetName]
    exact congrArg (Option.bind · stringOf) hne

theorem dataSetName_write (b : LogBlock) (a : LogAttribute) (v : Value) :
    (b.write a v).1.dataSetName = b.dataSetName ∨
      a = .datSet ∧ (b.write a v).1.dataSetName = stringOf v := by
  unfold write
  split
  · exact dataSetName_writeLeaf b a v
  · exact Or.inl rfl

/-- The block has the attribute, and its type accepts the value. -/
def takes (b : LogBlock) (leaf : LogAttribute × Value) : Bool := b.attributes.takes leaf.1 leaf.2

theorem takes_writeLeaf (b : LogBlock) (a : LogAttribute) (v : Value) :
    (b.writeLeaf a v).1.takes = b.takes := by
  funext leaf
  unfold takes LeafStore.takes
  rw [(b.writeLeaf a v).1.declared, b.declared]

theorem writeLeaf_of_not_takes {b : LogBlock} {a : LogAttribute} {v : Value}
    (h : ¬ b.takes (a, v) = true) : (b.writeLeaf a v).1.attributes = b.attributes ∧
      ∃ code, (b.writeLeaf a v).2 = .error code := by
  obtain ⟨code, hcode⟩ := LeafStore.writeLeaf_refused b.attributes a v h
  exact ⟨congrArg Prod.fst hcode, code, congrArg Prod.snd hcode⟩

/-- The components are stored up to the first that is refused. -/
theorem dataSetName_writeLeaves (b : LogBlock) (leaves : List (LogAttribute × Value)) :
    (b.writeLeaves leaves).1.dataSetName = b.dataSetName ∨
      ∃ v, (.datSet, v) ∈ leaves.takeWhile b.takes ∧
        (b.writeLeaves leaves).1.dataSetName = stringOf v := by
  induction leaves generalizing b with
  | nil => exact Or.inl rfl
  | cons leaf rest ih =>
    obtain ⟨a, v⟩ := leaf
    have hsame := takes_writeLeaf b a v
    have hfirst := dataSetName_writeLeaf b a v
    rw [writeLeaves]
    by_cases htakes : b.takes (a, v) = true
    · have hok : (b.writeLeaf a v).2 = .ok () := (LeafStore.writeLeaf_ok _ _ _).mpr htakes
      rw [List.takeWhile_cons_of_pos htakes]
      rcases hw : b.writeLeaf a v with ⟨c, r⟩
      rw [hw] at hok hfirst hsame
      cases hok
      dsimp only
      rcases ih c with hkept | ⟨w, hmem, hset⟩
      · rw [hkept]
        rcases hfirst with hkept' | ⟨rfl, hset⟩
        · exact Or.inl hkept'
        · exact Or.inr ⟨v, List.mem_cons_self, hset⟩
      · rw [hsame] at hmem
        exact Or.inr ⟨w, List.mem_cons_of_mem _ hmem, hset⟩
    · left
      obtain ⟨hkept, code, hrefused⟩ := writeLeaf_of_not_takes htakes
      rcases hw : b.writeLeaf a v with ⟨c, r⟩
      rw [hw] at hkept hrefused
      cases hrefused
      dsimp only at hkept ⊢
      rw [dataSetName, dataSetName, hkept]

/-- The components that a write of the whole block stores. -/
def wholeComponents (b : LogBlock) (value : Value) : List (LogAttribute × Value) :=
  match value with
  | .structure members =>
    if members.length ≠ lcbComponents.length then []
    else ((lcbComponents.map (·.1)).zip members).takeWhile b.takes
  | _ => []

theorem dataSetName_writeWhole (b : LogBlock) (value : Value) :
    (b.writeWhole value).1.dataSetName = b.dataSetName ∨
      ∃ v, (.datSet, v) ∈ b.wholeComponents value ∧
        (b.writeWhole value).1.dataSetName = stringOf v := by
  unfold writeWhole wholeComponents
  split
  · split
    · exact Or.inl rfl
    · exact dataSetName_writeLeaves b _
  · exact Or.inl rfl

end LogBlock

end Iec61850.Server
