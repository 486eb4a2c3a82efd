import Iec61850.Server.Rcb

/-!
# What the operations of a control block can do

One lemma for each operation of the report engine: which parts of the block's state it leaves
alone, and what it does to the others.
-/

namespace Iec61850.Server.ControlBlock

open Theory Mms

variable {b b' : ControlBlock}

/-! ### Attributes -/

theorem writeLeaf_rcb (b : ControlBlock) (a : Attribute) (v : Value) :
    (b.writeLeaf a v).1.rcb = b.rcb := by
  unfold writeLeaf
  split
  · rfl
  · split <;> rfl

theorem writeLeaf_deferred (b : ControlBlock) (a : Attribute) (v : Value) :
    (b.writeLeaf a v).1.deferred = b.deferred := by
  unfold writeLeaf
  split
  · rfl
  · split <;> rfl

theorem writeLeaf_values (b : ControlBlock) (a : Attribute) (v : Value) {a' : Attribute}
    (hne : a' ≠ a) : (b.writeLeaf a v).1.values a' = b.values a' := by
  unfold writeLeaf
  split
  · rfl
  · split
    · exact Function.update_of_ne hne _ _
    · rfl

theorem writeLeaf_value (b : ControlBlock) (a : Attribute) (v : Value) :
    (b.writeLeaf a v).1.values a = b.values a ∨ (b.writeLeaf a v).1.values a = some v := by
  unfold writeLeaf
  split
  · exact Or.inl rfl
  · split
    · exact Or.inr (Function.update_self _ _ _)
    · exact Or.inl rfl

@[simp] theorem setInternal_rcb (b : ControlBlock) (a : Attribute) (v : Value) :
    (b.setInternal a v).rcb = b.rcb := writeLeaf_rcb b a v

@[simp] theorem setInternal_deferred (b : ControlBlock) (a : Attribute) (v : Value) :
    (b.setInternal a v).deferred = b.deferred := writeLeaf_deferred b a v

theorem setInternal_values (b : ControlBlock) (a : Attribute) (v : Value) {a' : Attribute}
    (hne : a' ≠ a) : (b.setInternal a v).values a' = b.values a' := writeLeaf_values b a v hne

theorem writeLeaf_reference (b : ControlBlock) (a : Attribute) (v : Value) :
    (b.writeLeaf a v).1.reference = b.reference := by
  unfold writeLeaf
  split
  · rfl
  · split <;> rfl

theorem setInternal_reference (b : ControlBlock) (a : Attribute) (v : Value) :
    (b.setInternal a v).reference = b.reference := writeLeaf_reference b a v

@[simp] theorem publishOwner_rcb (b : ControlBlock) (peers : Peers) :
    (b.publishOwner peers).rcb = b.rcb := by
  unfold publishOwner
  split
  · rfl
  · exact setInternal_rcb b _ _

@[simp] theorem publishOwner_deferred (b : ControlBlock) (peers : Peers) :
    (b.publishOwner peers).deferred = b.deferred := by
  unfold publishOwner
  split
  · rfl
  · exact setInternal_deferred b _ _

variable {a : Attribute} {assoc : AssocId} {now : Instant} {ied : Ied} {value : Value}
  {peers : Peers}

theorem publishOwner_values (b : ControlBlock) (peers : Peers) (ha : a ≠ .owner) :
    (b.publishOwner peers).values a = b.values a := by
  unfold publishOwner
  split
  · rfl
  · exact setInternal_values b _ _ ha

@[simp] theorem reset_rcb (b : ControlBlock) (r : Attribute × Value) : (b.reset r).rcb = b.rcb := by
  unfold reset
  split
  · exact setInternal_rcb b _ _
  · rfl

@[simp] theorem reset_deferred (b : ControlBlock) (r : Attribute × Value) :
    (b.reset r).deferred = b.deferred := by
  unfold reset
  split
  · exact setInternal_deferred b _ _
  · rfl

@[simp] theorem resetAll_rcb (b : ControlBlock) (resets : List (Attribute × Value)) :
    (b.resetAll resets).rcb = b.rcb := by
  unfold resetAll
  induction resets generalizing b with
  | nil => rfl
  | cons r rest ih => rw [List.foldl_cons, ih, reset_rcb]

@[simp] theorem resetAll_deferred (b : ControlBlock) (resets : List (Attribute × Value)) :
    (b.resetAll resets).deferred = b.deferred := by
  unfold resetAll
  induction resets generalizing b with
  | nil => rfl
  | cons r rest ih => rw [List.foldl_cons, ih, reset_deferred]

/-- An attribute keeps its value, or has one it is reset to. -/
theorem resetAll_values (b : ControlBlock) (resets : List (Attribute × Value)) (a : Attribute) :
    (b.resetAll resets).values a = b.values a ∨
      ∃ r ∈ resets, r.1 = a ∧ (b.resetAll resets).values a = some r.2 := by
  unfold resetAll
  induction resets generalizing b with
  | nil => exact Or.inl rfl
  | cons r rest ih =>
    rw [List.foldl_cons]
    rcases ih (b.reset r) with hsame | ⟨r', hr', ha, hvalue⟩
    · rw [hsame, reset]
      split
      · by_cases ha : a = r.1
        · rcases writeLeaf_value b r.1 r.2 with hkept | hset
          · exact Or.inl (ha ▸ hkept)
          · exact Or.inr ⟨r, List.mem_cons_self, ha.symm, ha ▸ hset⟩
        · exact Or.inl (setInternal_values b _ _ ha)
      · exact Or.inl rfl
    · exact Or.inr ⟨r', List.mem_cons_of_mem _ hr', ha, hvalue⟩

/-! ### Writes -/

/-- What the engine does to a block's state when it accepts a write. -/
inductive WriteEffect (b : ControlBlock) (assoc : AssocId) (a : Attribute) (value : Value) :
    Rcb → Prop
  | enabled (integrityDue : Option Instant) (ha : a = .rptEna) (hv : boolOf value = some true)
      (howned : b.ownedByOther assoc = false) (hreserved : b.reservedByOther assoc = false) :
      WriteEffect b assoc a value
        { b.rcb with owner := some assoc, pending := [], due := none, seq := 0, integrityDue }
  | disabled (ha : a = .rptEna) (hv : boolOf value ≠ some true)
      (howned : b.ownedByOther assoc = false) :
      WriteEffect b assoc a value
        { b.rcb with owner := none, integrityDue := none, pending := [], due := none }
  | reserved (lingerSecs : Option Nat) (ha : a = .resv ∨ a = .resvTms)
      (howned : b.ownedByOther assoc = false) (hreserved : b.reservedByOther assoc = false) :
      WriteEffect b assoc a value { b.rcb with reserved := some ⟨assoc, lingerSecs, none⟩ }
  | unreserved (ha : a = .resv ∨ a = .resvTms) :
      WriteEffect b assoc a value { b.rcb with reserved := none }
  | none (ha : a ≠ .rptEna) : WriteEffect b assoc a value b.rcb

theorem enable_ok (h : b.enable assoc now = .ok b') :
    b.ownedByOther assoc = false ∧ b.reservedByOther assoc = false ∧
      b'.deferred = b.deferred ∧ (∀ a, a ≠ .sqNum → b'.values a = b.values a) ∧
      ∃ integrityDue, b'.rcb =
        { b.rcb with owner := some assoc, pending := [], due := .none, seq := 0, integrityDue } := by
  unfold enable at h
  split at h
  · cases h
  · rename_i hfree
    rw [Bool.or_eq_true, not_or, Bool.not_eq_true, Bool.not_eq_true] at hfree
    cases h
    refine ⟨hfree.1, hfree.2, setInternal_deferred _ _ _, ?_, _, setInternal_rcb _ _ _⟩
    intro a ha
    exact setInternal_values _ _ _ ha

theorem disable_ok (h : b.disable assoc = .ok b') : b.ownedByOther assoc = false ∧ b' = { b with
      rcb := { b.rcb with owner := .none, integrityDue := .none, pending := [], due := .none } } := by
  unfold disable at h
  split at h
  · cases h
  · rename_i hfree
    cases h
    exact ⟨Bool.eq_false_iff.mpr hfree, rfl⟩

theorem changeDataSet_ok (h : b.changeDataSet ied value = .ok b') :
    b'.rcb = b.rcb ∧ b'.deferred = b.deferred ∧ ∀ a, a ≠ .confRev → b'.values a = b.values a := by
  unfold changeDataSet at h
  split at h
  · cases h
  split at h
  · cases h
  split at h
  · cases h
    exact ⟨setInternal_rcb _ _ _, setInternal_deferred _ _ _, fun a ha => setInternal_values _ _ _ ha⟩
  · cases h
    exact ⟨rfl, rfl, fun a _ => rfl⟩

/-- The engine's part of a write of one attribute: its effect on the block's state, and the only
attributes it changes on its own. -/
theorem onWrite_ok (h : b.onWrite ied assoc a value now = .ok b') :
    WriteEffect b assoc a value b'.rcb ∧ b'.deferred = b.deferred ∧
      ∀ x, x ≠ .sqNum → x ≠ .confRev → b'.values x = b.values x := by
  have hreserve : ∀ linger, a = .resv ∨ a = .resvTms → b.reserve assoc linger = .ok b' →
      WriteEffect b assoc a value b'.rcb ∧ b'.deferred = b.deferred ∧
        ∀ x, x ≠ .sqNum → x ≠ .confRev → b'.values x = b.values x := by
    intro linger ha hok
    have hne : a ≠ .rptEna := by rcases ha with rfl | rfl <;> decide
    unfold reserve at hok
    split at hok
    · split at hok
      · cases hok
      · rename_i secs hfree
        rw [Bool.or_eq_true, not_or, Bool.not_eq_true, Bool.not_eq_true] at hfree
        cases hok
        exact ⟨.reserved secs ha hfree.2 hfree.1, rfl, fun _ _ _ => rfl⟩
    · split at hok
      · cases hok
        exact ⟨.unreserved ha, rfl, fun _ _ _ => rfl⟩
      · cases hok
        exact ⟨.none hne, rfl, fun _ _ _ => rfl⟩
  have hrest : ∀ {a' : Attribute}, a = a' → a' ≠ .rptEna →
      (if b.enabled || b.ownedByOther assoc || b.reservedByOther assoc then
        Except.error dataAccessDenied else Except.ok b) = Except.ok b' →
      WriteEffect b assoc a value b'.rcb ∧ b'.deferred = b.deferred ∧
        ∀ x, x ≠ .sqNum → x ≠ .confRev → b'.values x = b.values x := by
    intro a' ha hne hok
    split at hok
    · cases hok
    · cases hok
      exact ⟨.none (ha ▸ hne), rfl, fun _ _ _ => rfl⟩
  cases a with
  | rptEna =>
    rw [onWrite] at h
    split at h
    · rename_i hwant
      have hv : boolOf value = some true := by
        cases hb : boolOf value with
        | none => rw [hb] at hwant; cases hwant
        | some w =>
          rw [hb] at hwant
          exact congrArg some hwant
      obtain ⟨howned, hreserved, hdeferred, hvalues, due, hrcb⟩ := enable_ok h
      refine ⟨?_, hdeferred, fun x hx _ => hvalues x hx⟩
      rw [hrcb]
      exact .enabled due rfl hv howned hreserved
    · rename_i hwant
      have hv : boolOf value ≠ some true := by
        intro hb
        rw [hb] at hwant
        exact hwant rfl
      obtain ⟨howned, rfl⟩ := disable_ok h
      exact ⟨.disabled rfl hv howned, rfl, fun _ _ _ => rfl⟩
  | gi | purgeBuf =>
    rw [onWrite] at h
    split at h
    · cases h
    · cases h
      exact ⟨.none (by decide), rfl, fun _ _ _ => rfl⟩
  | resv => exact hreserve _ (Or.inl rfl) h
  | resvTms => exact hreserve _ (Or.inr rfl) h
  | datSet =>
    rw [onWrite] at h
    split at h
    · cases h
    · obtain ⟨hrcb, hdeferred, hvalues⟩ := changeDataSet_ok h
      refine ⟨?_, hdeferred, fun x _ hx => hvalues x hx⟩
      rw [hrcb]
      exact .none (by decide)
  | rptID | confRev | optFlds | bufTm | sqNum | trgOps | intgPd | entryID | timeOfEntry | owner
  | other _ =>
    refine hrest rfl ?_ h
    intro heq
    cases heq

/-! ### Reports -/

@[simp] theorem publishEntry_rcb (b : ControlBlock) (entry : Buffered) (seq : UInt32) :
    (b.publishEntry entry seq).rcb = b.rcb := by
  rw [publishEntry, setInternal_rcb, setInternal_rcb, setInternal_rcb]

@[simp] theorem publishEntry_deferred (b : ControlBlock) (entry : Buffered) (seq : UInt32) :
    (b.publishEntry entry seq).deferred = b.deferred := by
  rw [publishEntry, setInternal_deferred, setInternal_deferred, setInternal_deferred]

/-- The attributes that sending a report changes. -/
def published : Attribute → Bool
  | .sqNum | .entryID | .timeOfEntry => true
  | _ => false

theorem publishEntry_values (b : ControlBlock) (entry : Buffered) (seq : UInt32)
    (ha : published a = false) : (b.publishEntry entry seq).values a = b.values a := by
  have hne : a ≠ .timeOfEntry ∧ a ≠ .entryID ∧ a ≠ .sqNum := by
    refine ⟨?_, ?_, ?_⟩
    all_goals
      intro heq
      subst heq
      cases ha
  rw [publishEntry, setInternal_values _ _ _ hne.1, setInternal_values _ _ _ hne.2.1,
    setInternal_values _ _ _ hne.2.2]

/-- What handing an entry over does: nothing without an owner; with one, the overflow flag goes
into the report. -/
theorem deliver_cases {dataSet : Bytes × List DataSetMember} {entry : Buffered} {ds : List Delivery}
    (h : b.deliver peers dataSet entry = (b', ds)) : (b.rcb.owner = none ∧ b' = b ∧ ds = []) ∨
      ∃ assoc, b.rcb.owner = some assoc ∧
        (∃ seq, b'.rcb = { b.rcb with overflowed := false, seq }) ∧ b'.deferred = b.deferred ∧
        (∀ a, published a = false → b'.values a = b.values a) ∧
        ds = [⟨assoc, entry, dataSet.2.map (·.reference),
          b.reportOf dataSet entry b.rcb.seq b.rcb.buffered b.rcb.overflowed,
          peers.budget assoc⟩] := by
  unfold deliver at h
  split at h
  · rename_i hnone
    cases h
    exact Or.inl ⟨hnone, rfl, rfl⟩
  · rename_i assoc howner
    right
    refine ⟨assoc, howner, ?_⟩
    cases h
    split
    · refine ⟨⟨_, publishEntry_rcb _ _ _⟩, publishEntry_deferred _ _ _, ?_, rfl⟩
      intro a ha
      exact publishEntry_values _ _ _ ha
    · refine ⟨⟨_, setInternal_rcb _ _ _⟩, setInternal_deferred _ _ _, ?_, rfl⟩
      intro a ha
      refine setInternal_values _ _ _ ?_
      intro heq
      subst heq
      cases ha

/-- The entry a report would be made from. -/
def entryMade (b : ControlBlock) (ied : Ied) (trigger : Trigger) (wall : EntryTime) :
    Option Buffered :=
  (b.dataSet ied).bind fun dataSet =>
    let entry := b.entryFor ied (b.reasonsFor dataSet.2 trigger) wall
    if entry.reasons.isEmpty then none else some entry

theorem takePending_nextEntry (b : ControlBlock) (trigger : Trigger) :
    (b.takePending trigger).rcb.nextEntry = b.rcb.nextEntry := by
  unfold takePending
  split <;> rfl

/-- The three ways building a report can go: there is no data set, there is nothing to report, or
an entry is made, filed and handed over. -/
theorem build_cases {trigger : Trigger} {wall : EntryTime} {ds : List Delivery}
    (h : b.build ied peers trigger wall = (b', ds)) :
    (b.dataSet ied = none ∧ b.entryMade ied trigger wall = none ∧ b' = b ∧ ds = []) ∨
      (b.dataSet ied ≠ none ∧ b.entryMade ied trigger wall = none ∧
        b' = b.takePending trigger ∧ ds = []) ∨ ∃ dataSet entry, b.dataSet ied = some dataSet ∧
        b.entryMade ied trigger wall = some entry ∧
        entry = b.entryFor ied (b.reasonsFor dataSet.2 trigger) wall ∧
        ((b.takePending trigger).file trigger entry).deliver peers dataSet entry = (b', ds) := by
  unfold build at h
  split at h
  · rename_i hnone
    cases h
    exact Or.inl ⟨hnone, by rw [entryMade, hnone]; rfl, rfl, rfl⟩
  · rename_i dataSet hsome
    have hentry : (b.takePending trigger).entryFor ied (b.reasonsFor dataSet.2 trigger) wall =
        b.entryFor ied (b.reasonsFor dataSet.2 trigger) wall := by
      rw [entryFor, entryFor, takePending_nextEntry]
    simp only [hentry] at h
    right
    split at h
    · rename_i hempty
      cases h
      refine Or.inl ⟨by rw [hsome]; simp, ?_, rfl, rfl⟩
      simp only [entryMade, hsome, Option.bind_some, if_pos hempty]
    · rename_i hfull
      refine Or.inr ⟨dataSet, _, hsome, ?_, rfl, h⟩
      simp only [entryMade, hsome, Option.bind_some, if_neg hfull]

theorem record_rcb (b : ControlBlock) (entry : Buffered) :
    (b.record entry).deferred = b.deferred ∧ (b.record entry).values = b.values ∧
      ∃ overflowed, (b.record entry).rcb =
        { b.rcb with buffer := (b.record entry).rcb.buffer, overflowed } := by
  unfold record
  split
  · exact ⟨rfl, rfl, true, rfl⟩
  · exact ⟨rfl, rfl, b.rcb.overflowed, rfl⟩

theorem file_rcb (b : ControlBlock) (trigger : Trigger) (entry : Buffered) :
    (b.file trigger entry).deferred = b.deferred ∧ (b.file trigger entry).values = b.values ∧
      ∃ buffer nextEntry overflowed, (b.file trigger entry).rcb =
        { b.rcb with buffer, nextEntry, overflowed } := by
  unfold file
  split
  · obtain ⟨hdeferred, hvalues, overflowed, hrcb⟩ := record_rcb b.number entry
    exact ⟨hdeferred, hvalues, _, _, overflowed, hrcb⟩
  · exact ⟨rfl, rfl, b.rcb.buffer, b.rcb.nextEntry + 1, b.rcb.overflowed, rfl⟩

theorem takePending_rcb (b : ControlBlock) (trigger : Trigger) :
    (b.takePending trigger).deferred = b.deferred ∧ (b.takePending trigger).values = b.values ∧
      ∃ pending due, (b.takePending trigger).rcb = { b.rcb with pending, due } := by
  unfold takePending
  split
  · exact ⟨rfl, rfl, [], none, rfl⟩
  · exact ⟨rfl, rfl, b.rcb.pending, b.rcb.due, rfl⟩

/-! ### Replay -/

/-- Replaying entries changes the sequence number and what a report publishes, and no other part
of the block. -/
theorem replay_frame (b : ControlBlock) (ied : Ied) (peers : Peers) (assoc : AssocId)
    (entry : Buffered) (overflowed : Bool) :
    (∃ seq, (b.replay ied peers assoc entry overflowed).1.rcb = { b.rcb with seq }) ∧
      (b.replay ied peers assoc entry overflowed).1.deferred = b.deferred ∧
      ∀ a, published a = false →
        (b.replay ied peers assoc entry overflowed).1.values a = b.values a := by
  have hseq : b.advance.rcb = { b.rcb with seq := b.advance.rcb.seq } := rfl
  have hvalues : ∀ a, b.advance.values a = b.values a := fun _ => rfl
  unfold replay
  split
  · exact ⟨⟨_, hseq⟩, rfl, fun _ _ => rfl⟩
  · dsimp only
    refine ⟨⟨_, (publishEntry_rcb b.advance entry b.rcb.seq).trans hseq⟩,
      publishEntry_deferred b.advance entry b.rcb.seq, ?_⟩
    intro a ha
    rw [← hvalues]
    exact publishEntry_values b.advance entry b.rcb.seq ha

theorem replayAll_frame (b : ControlBlock) (ied : Ied) (peers : Peers) (assoc : AssocId)
    (overflowed : Bool) (entries : List Buffered) :
    (∃ seq, (replayAll ied peers assoc b overflowed entries).1.rcb = { b.rcb with seq }) ∧
      (replayAll ied peers assoc b overflowed entries).1.deferred = b.deferred ∧
      ∀ a, published a = false →
        (replayAll ied peers assoc b overflowed entries).1.values a = b.values a := by
  induction entries generalizing b overflowed with
  | nil => exact ⟨⟨b.rcb.seq, rfl⟩, rfl, fun _ _ => rfl⟩
  | cons entry entries ih =>
    rw [replayAll]
    obtain ⟨⟨seq, hrcb⟩, hdeferred, hvalues⟩ := replay_frame b ied peers assoc entry overflowed
    obtain ⟨⟨seq', hrcb'⟩, hdeferred', hvalues'⟩ :=
      ih (b.replay ied peers assoc entry overflowed).1 false
    refine ⟨⟨seq', ?_⟩, hdeferred'.trans hdeferred, ?_⟩
    · rw [hrcb', hrcb]
    · intro a ha
      exact (hvalues' a ha).trans (hvalues a ha)

/-- Draining the buffer takes the overflow flag, and leaves the entries. -/
theorem drainBuffer_frame (b : ControlBlock) (ied : Ied) (peers : Peers) (after : Option UInt64) :
    (∃ seq overflowed, (b.drainBuffer ied peers after).1.rcb = { b.rcb with seq, overflowed }) ∧
      (b.drainBuffer ied peers after).1.deferred = b.deferred ∧ ∀ a, published a = false →
        (b.drainBuffer ied peers after).1.values a = b.values a := by
  unfold drainBuffer
  split
  · exact ⟨⟨b.rcb.seq, b.rcb.overflowed, rfl⟩, rfl, fun _ _ => rfl⟩
  · rename_i assoc _
    obtain ⟨⟨seq, hrcb⟩, hdeferred, hvalues⟩ := replayAll_frame
      { b with rcb := { b.rcb with overflowed := false } } ied peers assoc
      (b.rcb.overflowed || (b.resumePoint after).2) (b.rcb.buffer.drop (b.resumePoint after).1)
    exact ⟨⟨seq, false, hrcb⟩, hdeferred, hvalues⟩

theorem resume_frame (b : ControlBlock) (ied : Ied) (peers : Peers) :
    (∃ seq overflowed, (b.resume ied peers).rcb = { b.rcb with seq, overflowed }) ∧
      (b.resume ied peers).deferred =
        b.deferred ++ (b.drainBuffer ied peers ((b.values .entryID).bind entryIdOf)).2 ∧
      ∀ a, published a = false → (b.resume ied peers).values a = b.values a := by
  obtain ⟨hrcb, hdeferred, hvalues⟩ :=
    drainBuffer_frame b ied peers ((b.values .entryID).bind entryIdOf)
  refine ⟨hrcb, ?_, hvalues⟩
  rw [← hdeferred]
  rfl

/-! ### A client's write -/

/-- The three ways a write can go: it is refused and nothing happens, the engine accepts it and the
store refuses the value, or it is carried out, with the replay that enabling sets off. -/
theorem writeAttribute_cases {r : Except Int Unit}
    (h : b.writeAttribute ied peers assoc a value now = (b', r)) :
    (b' = b ∧ ∃ code, r = .error code) ∨ ∃ c, b.onWrite ied assoc a value now = .ok c ∧
        ((b' = c ∧ ∃ code, r = .error code) ∨
          r = .ok () ∧ ∃ d : ControlBlock, d.rcb = c.rcb ∧ d.deferred = c.deferred ∧
            (∀ x, x ≠ a → x ≠ .owner → d.values x = c.values x) ∧
            (a ≠ .owner → d.values a = c.values a ∨ d.values a = some value) ∧
            b' = if a = .rptEna && d.rcb.owner = some assoc then d.resume ied peers else d) := by
  unfold writeAttribute at h
  split at h
  · cases h
    exact Or.inl ⟨rfl, _, rfl⟩
  split at h
  · rename_i code _
    cases h
    exact Or.inl ⟨rfl, code, rfl⟩
  · rename_i c hc
    right
    refine ⟨c, hc, ?_⟩
    split at h
    · rename_i d code hleaf
      cases h
      refine Or.inl ⟨?_, code, rfl⟩
      unfold writeLeaf at hleaf
      split at hleaf
      · exact (Prod.mk.inj hleaf).1.symm
      · split at hleaf
        · cases hleaf
        · exact (Prod.mk.inj hleaf).1.symm
    · rename_i d hleaf
      have hd : d = (c.writeLeaf a value).1 := by rw [hleaf]
      obtain ⟨hb', hr⟩ := Prod.mk.inj h
      refine Or.inr
        ⟨hr.symm, if movesOwner a then d.publishOwner peers else d, ?_, ?_, ?_, ?_, ?_⟩
      · split
        · rw [publishOwner_rcb, hd, writeLeaf_rcb]
        · rw [hd, writeLeaf_rcb]
      · split
        · rw [publishOwner_deferred, hd, writeLeaf_deferred]
        · rw [hd, writeLeaf_deferred]
      · intro x hx howner
        split
        · rw [publishOwner_values _ _ howner, hd, writeLeaf_values _ _ _ hx]
        · rw [hd, writeLeaf_values _ _ _ hx]
      · intro howner
        split
        · rw [publishOwner_values _ _ howner, hd]
          exact writeLeaf_value c a value
        · rw [hd]
          exact writeLeaf_value c a value
      · exact hb'.symm

/-- What a write can do to the engine's state of the block. -/
theorem writeAttribute_rcb (b : ControlBlock) (ied : Ied) (peers : Peers) (assoc : AssocId)
    (a : Attribute) (value : Value) (now : Instant) :
    ∃ rcb, (rcb = b.rcb ∨ WriteEffect b assoc a value rcb) ∧ ∃ seq overflowed,
      (b.writeAttribute ied peers assoc a value now).1.rcb = { rcb with seq, overflowed } := by
  rcases writeAttribute_cases (Prod.eta (b.writeAttribute ied peers assoc a value now)).symm with
    ⟨hb', -⟩ | ⟨c, hc, ⟨hb', -⟩ | ⟨-, d, hrcb, -, -, -, hb'⟩⟩
  · rw [hb']
    exact ⟨b.rcb, Or.inl rfl, b.rcb.seq, b.rcb.overflowed, rfl⟩
  · rw [hb']
    exact ⟨c.rcb, Or.inr (onWrite_ok hc).1, c.rcb.seq, c.rcb.overflowed, rfl⟩
  · refine ⟨c.rcb, Or.inr (onWrite_ok hc).1, ?_⟩
    rw [hb', ← hrcb]
    split
    · exact (resume_frame d ied peers).1
    · exact ⟨d.rcb.seq, d.rcb.overflowed, rfl⟩

theorem writeLeaves_rcb (b : ControlBlock) (leaves : List (Attribute × Value)) :
    (writeLeaves b leaves).1.rcb = b.rcb ∧ (writeLeaves b leaves).1.deferred = b.deferred := by
  induction leaves generalizing b with
  | nil => exact ⟨rfl, rfl⟩
  | cons leaf rest ih =>
    have hrcb := writeLeaf_rcb b leaf.1 leaf.2
    have hdeferred := writeLeaf_deferred b leaf.1 leaf.2
    rw [writeLeaves]
    split
    · rename_i c code hleaf
      rw [hleaf] at hrcb hdeferred
      exact ⟨hrcb, hdeferred⟩
    · rename_i c hleaf
      rw [hleaf] at hrcb hdeferred
      exact ⟨(ih c).1.trans hrcb, (ih c).2.trans hdeferred⟩

theorem writeWhole_rcb (b : ControlBlock) (value : Value) :
    (b.writeWhole value).1.rcb = b.rcb ∧ (b.writeWhole value).1.deferred = b.deferred := by
  unfold writeWhole
  split
  · dsimp only
    split
    · exact ⟨rfl, rfl⟩
    · exact writeLeaves_rcb b _
  · exact ⟨rfl, rfl⟩

/-! ### Who holds the block -/

/-- The owner and the reservation are the same. -/
def SameHolder (r r' : Rcb) : Prop := r'.owner = r.owner ∧ r'.reserved = r.reserved

/-- Building a report changes no attribute but those it publishes. -/
theorem build_values (b : ControlBlock) (ied : Ied) (peers : Peers) (trigger : Trigger)
    (wall : EntryTime) (ha : published a = false) :
    (b.build ied peers trigger wall).1.values a = b.values a := by
  obtain ⟨-, htake, -⟩ := takePending_rcb b trigger
  rcases build_cases (Prod.eta (b.build ied peers trigger wall)).symm with
    ⟨-, -, hb', -⟩ | ⟨-, -, hb', -⟩ | ⟨dataSet, entry, -, -, -, hdeliver⟩
  · rw [hb']
  · rw [hb', htake]
  · obtain ⟨-, hfile, -⟩ := file_rcb (b.takePending trigger) trigger entry
    rcases deliver_cases hdeliver with ⟨-, hb', -⟩ | ⟨-, -, -, -, hvalues, -⟩
    · rw [hb', hfile, htake]
    · rw [hvalues a ha, hfile, htake]

/-- The parts of the state that building a report leaves alone, and the two ways it can leave the
gathering window. -/
theorem build_rcb (b : ControlBlock) (ied : Ied) (peers : Peers) (trigger : Trigger)
    (wall : EntryTime) : ∃ pending due buffer nextEntry overflowed seq,
      (b.build ied peers trigger wall).1.rcb =
        { b.rcb with pending, due, buffer, nextEntry, overflowed, seq } ∧
      (pending = b.rcb.pending ∨ pending = []) := by
  have htake : ∃ pending due, (b.takePending trigger).rcb = { b.rcb with pending, due } ∧
      (pending = b.rcb.pending ∨ pending = []) := by
    unfold takePending
    split
    · exact ⟨[], none, rfl, Or.inr rfl⟩
    · exact ⟨b.rcb.pending, b.rcb.due, rfl, Or.inl rfl⟩
  obtain ⟨pending, due, htake, hpending⟩ := htake
  rcases build_cases (Prod.eta (b.build ied peers trigger wall)).symm with
    ⟨-, -, hb', -⟩ | ⟨-, -, hb', -⟩ | ⟨dataSet, entry, -, -, -, hdeliver⟩
  · rw [hb']
    exact ⟨_, _, _, _, _, _, rfl, Or.inl rfl⟩
  · rw [hb', htake]
    exact ⟨pending, due, _, _, _, _, rfl, hpending⟩
  · obtain ⟨-, -, buffer, nextEntry, overflowed, hfile⟩ :=
      file_rcb (b.takePending trigger) trigger entry
    rw [htake] at hfile
    rcases deliver_cases hdeliver with ⟨-, hb', -⟩ | ⟨-, -, ⟨seq, hrcb⟩, -⟩
    · rw [hb', hfile]
      exact ⟨pending, due, buffer, nextEntry, overflowed, _, rfl, hpending⟩
    · rw [hrcb, hfile]
      exact ⟨pending, due, buffer, nextEntry, false, seq, rfl, hpending⟩

theorem build_sameHolder (b : ControlBlock) (ied : Ied) (peers : Peers) (trigger : Trigger)
    (wall : EntryTime) : SameHolder b.rcb (b.build ied peers trigger wall).1.rcb := by
  obtain ⟨pending, due, buffer, nextEntry, overflowed, seq, hrcb, -⟩ :=
    build_rcb b ied peers trigger wall
  rw [hrcb]
  exact ⟨rfl, rfl⟩

theorem gather_rcb (b : ControlBlock) (ied : Ied) (dirty : Bytes → Option TrgOps) (now : Instant) :
    (b.gather ied dirty now).deferred = b.deferred ∧ (b.gather ied dirty now).values = b.values ∧
      ∃ pending due, (b.gather ied dirty now).rcb = { b.rcb with pending, due } := by
  unfold gather
  split
  · exact ⟨rfl, rfl, b.rcb.pending, b.rcb.due, rfl⟩
  · dsimp only
    split
    · exact ⟨rfl, rfl, b.rcb.pending, b.rcb.due, rfl⟩
    · exact ⟨rfl, rfl, _, _, rfl⟩

theorem purge_rcb (b : ControlBlock) : b.purge.deferred = b.deferred ∧
    ∃ buffer overflowed, b.purge.rcb = { b.rcb with buffer, overflowed } := by
  unfold purge
  split
  · refine ⟨setInternal_deferred _ _ _, [], false, ?_⟩
    dsimp only
    rw [setInternal_rcb]
  · exact ⟨rfl, b.rcb.buffer, b.rcb.overflowed, rfl⟩

/-! ### The end of an association -/

/-- What the end of an association does to the owner. -/
theorem releaseOwner_rcb (b : ControlBlock) (assoc : AssocId) :
    (b.releaseOwner assoc).deferred = b.deferred ∧ (b.releaseOwner assoc).rcb =
        if b.rcb.owner = some assoc then released b.rcb else b.rcb := by
  unfold releaseOwner
  split
  · exact ⟨resetAll_deferred _ _, resetAll_rcb _ _⟩
  · exact ⟨rfl, rfl⟩

theorem lingerReservation_rcb (b : ControlBlock) (assoc : AssocId) (now : Instant) :
    (b.lingerReservation assoc now).deferred = b.deferred ∧
      ∃ reserved, (b.lingerReservation assoc now).rcb = { b.rcb with reserved } ∧
        ∀ r, reserved = some r → ∃ r', b.rcb.reserved = some r' ∧ r.assoc = r'.assoc := by
  unfold lingerReservation
  split
  · rename_i held secs lapses hreserved
    split
    · rename_i heq
      refine ⟨rfl, _, rfl, ?_⟩
      intro r hr
      cases hr
      exact ⟨_, hreserved, heq.symm⟩
    · exact ⟨rfl, b.rcb.reserved, rfl, fun r hr => ⟨r, hr, rfl⟩⟩
  · split
    · refine ⟨resetAll_deferred _ _, none, resetAll_rcb _ _, ?_⟩
      intro r hr
      cases hr
    · exact ⟨rfl, b.rcb.reserved, rfl, fun r hr => ⟨r, hr, rfl⟩⟩
  · exact ⟨rfl, b.rcb.reserved, rfl, fun r hr => ⟨r, hr, rfl⟩⟩

/-- The end of an association releases what it owned, and makes no new reservation. -/
theorem closed_rcb (b : ControlBlock) (peers : Peers) (assoc : AssocId) (now : Instant) :
    (b.closed peers assoc now).deferred = b.deferred ∧ ∃ reserved, (b.closed peers assoc now).rcb =
          { (if b.rcb.owner = some assoc then released b.rcb else b.rcb) with reserved } ∧
        ∀ r, reserved = some r → ∃ r', b.rcb.reserved = some r' ∧ r.assoc = r'.assoc := by
  obtain ⟨hdeferred, hrcb⟩ := releaseOwner_rcb b assoc
  obtain ⟨hdeferred', reserved, hrcb', hreserved⟩ :=
    lingerReservation_rcb (b.releaseOwner assoc) assoc now
  have hsame : (b.releaseOwner assoc).rcb.reserved = b.rcb.reserved := by
    rw [hrcb]
    split <;> rfl
  rw [hrcb] at hrcb'
  rw [hsame] at hreserved
  have hclosed : (b.closed peers assoc now).rcb =
        ((b.releaseOwner assoc).lingerReservation assoc now).rcb ∧
      (b.closed peers assoc now).deferred =
        ((b.releaseOwner assoc).lingerReservation assoc now).deferred := by
    unfold closed
    simp only
    split
    · exact ⟨publishOwner_rcb _ _, publishOwner_deferred _ _⟩
    · exact ⟨rfl, rfl⟩
  exact ⟨hclosed.2.trans (hdeferred'.trans hdeferred), reserved, hclosed.1.trans hrcb', hreserved⟩

/-- The attributes that the end of a reservation resets. -/
def holding : Attribute → Bool
  | .resv | .resvTms | .owner => true
  | _ => false

theorem releaseReservation_values (b : ControlBlock) (ha : holding a = false) :
    b.releaseReservation.values a = b.values a := by
  rcases resetAll_values b [(.resv, .boolean false), (.resvTms, .integer 0),
      (.owner, .octetString [])] a with hsame | ⟨r, hr, rfl, -⟩
  · exact hsame
  · rw [List.mem_cons, List.mem_cons, List.mem_singleton] at hr
    rcases hr with rfl | rfl | rfl <;> cases ha

theorem closed_values {b : ControlBlock} (h : b.rcb.owner ≠ some assoc) (ha : holding a = false)
    (peers : Peers) (now : Instant) : (b.closed peers assoc now).values a = b.values a := by
  have hlinger : ((b.releaseOwner assoc).lingerReservation assoc now).values a = b.values a := by
    rw [releaseOwner, if_neg h]
    unfold lingerReservation
    split
    · split <;> rfl
    · split
      · exact releaseReservation_values _ ha
      · rfl
    · rfl
  have howner : a ≠ .owner := by
    rintro rfl
    cases ha
  unfold closed
  dsimp only
  split
  · rw [publishOwner_values _ _ howner, hlinger]
  · exact hlinger

theorem expire_rcb (b : ControlBlock) (now : Instant) : (b.expire now).deferred = b.deferred ∧
      ∃ reserved, (b.expire now).rcb = { b.rcb with reserved } ∧
        (reserved = b.rcb.reserved ∨ reserved = none) := by
  unfold expire
  split
  · exact ⟨resetAll_deferred _ _, none, resetAll_rcb _ _, Or.inr rfl⟩
  · exact ⟨rfl, b.rcb.reserved, rfl, Or.inl rfl⟩

end Iec61850.Server.ControlBlock
