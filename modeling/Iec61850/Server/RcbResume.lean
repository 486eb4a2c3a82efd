import Iec61850.Server.RcbLedger
import Iec61850.Theory.Resume

/-!
# Resuming after the last report received

What a client is handed when it enables a block with the `EntryID` of the last report it has
received: exactly what was recorded since, as long as that report's entry is in the buffer and the
overflow flag is not raised. A general interrogation's entry never is.
-/

namespace Iec61850.Server.ControlBlock

open Theory Mms

/-! ### What a report is assembled from -/

/-- The blocks make the same reports. -/
structure SameReports (b b' : ControlBlock) : Prop where
  reference : b'.reference = b.reference
  values : ∀ a, a = .rptID ∨ a = .optFlds ∨ a = .confRev ∨ a = .datSet → b'.values a = b.values a

variable {b b' : ControlBlock} {a : Attribute} {x : Action}

theorem SameReports.trans {c d : ControlBlock} (h : SameReports b c) (h' : SameReports c d) :
    SameReports b d :=
  ⟨h'.reference.trans h.reference, fun a ha => (h'.values a ha).trans (h.values a ha)⟩

theorem SameReports.dataSet {b b' : ControlBlock} (h : SameReports b b') (ied : Ied) :
    b'.dataSet ied = b.dataSet ied := by
  have hvalue := h.values .datSet (Or.inr (Or.inr (Or.inr rfl)))
  rw [ControlBlock.dataSet, ControlBlock.dataSet, hvalue]

theorem SameReports.optFlds (h : SameReports b b') : b'.optFlds = b.optFlds := by
  have hvalue := h.values .optFlds (Or.inr (Or.inl rfl))
  rw [ControlBlock.optFlds, ControlBlock.optFlds, hvalue]

theorem SameReports.reportOf (h : SameReports b b') (dataSet : Bytes × List DataSetMember)
    (entry : Buffered) (seq : UInt32) (buffered overflowed : Bool) :
    b'.reportOf dataSet entry seq buffered overflowed =
      b.reportOf dataSet entry seq buffered overflowed := by
  have hrptID := h.values .rptID (Or.inl rfl)
  have hconfRev := h.values .confRev (Or.inr (Or.inr (Or.inl rfl)))
  rw [ControlBlock.reportOf, ControlBlock.reportOf, hrptID, hconfRev, h.optFlds, h.reference]

theorem sameReports_replay (b : ControlBlock) (ied : Ied) (peers : Peers) (assoc : AssocId)
    (entry : Buffered) (overflowed : Bool) :
    SameReports b (b.replay ied peers assoc entry overflowed).1 := by
  constructor
  · unfold replay
    split
    · rfl
    · dsimp only
      rw [publishEntry, setInternal_reference, setInternal_reference, setInternal_reference]
      rfl
  · intro a ha
    refine (replay_frame b ied peers assoc entry overflowed).2.2 a ?_
    rcases ha with rfl | rfl | rfl | rfl <;> rfl

/-- The block's `OptFlds` ask for `BufOvfl`. -/
def asksOverflow (b : ControlBlock) : Bool := b.optFlds.bufferOverflow

theorem bufOvfl_reportOf (b : ControlBlock) (dataSet : Bytes × List DataSetMember)
    (entry : Buffered) (seq : UInt32) (overflowed : Bool) :
    (b.reportOf dataSet entry seq true overflowed).bufOvfl =
      if b.asksOverflow then some overflowed else none := by
  have hflag : (effectiveFlags b.optFlds true).bufferOverflow = b.asksOverflow :=
    OptFlds.getLsbD_withSegmentation b.optFlds false (by decide)
  rw [← hflag]
  rfl

/-! ### The replay -/

/-- The replay of some entries is one report for each, in order. -/
theorem replayAll_entries {b : ControlBlock} {ied : Ied} {dataSet : Bytes × List DataSetMember}
    (h : b.dataSet ied = some dataSet) (peers : Peers) (assoc : AssocId) (overflowed : Bool)
    (entries : List Buffered) :
    (replayAll ied peers assoc b overflowed entries).2.map (·.entry) = entries := by
  induction entries generalizing b overflowed with
  | nil => rfl
  | cons entry entries ih =>
    have hnext := (sameReports_replay b ied peers assoc entry overflowed).dataSet ied
    rw [replayAll]
    dsimp only
    rw [List.map_append, ih (hnext.trans h), replay, h]
    rfl

/-- Each report of a replay is one the block makes of its entry. -/
theorem replayAll_report {b : ControlBlock} {ied : Ied} {dataSet : Bytes × List DataSetMember}
    (h : b.dataSet ied = some dataSet) (peers : Peers) (assoc : AssocId) (overflowed : Bool)
    (entries : List Buffered) :
    ∀ d ∈ (replayAll ied peers assoc b overflowed entries).2, d.budget = peers.budget assoc ∧
      ∃ seq flag, d.report = b.reportOf dataSet d.entry seq true flag := by
  induction entries generalizing b overflowed with
  | nil =>
    intro d hd
    cases hd
  | cons entry entries ih =>
    have hsame := sameReports_replay b ied peers assoc entry overflowed
    intro d hd
    rw [replayAll] at hd
    dsimp only at hd
    rw [List.mem_append] at hd
    rcases hd with hd | hd
    · rw [replay, h] at hd
      rw [List.mem_singleton.mp hd]
      exact ⟨rfl, b.rcb.seq, overflowed, rfl⟩
    · obtain ⟨hbudget, seq, flag, hreport⟩ := ih ((hsame.dataSet ied).trans h) false d hd
      exact ⟨hbudget, seq, flag, hreport.trans (hsame.reportOf _ _ _ _ _)⟩

/-- A replay says that the buffer overflowed when it is to say so and there is a report to say it
in. -/
theorem replayAll_overflow {b : ControlBlock} {ied : Ied} {dataSet : Bytes × List DataSetMember}
    (h : b.dataSet ied = some dataSet) (peers : Peers) (assoc : AssocId) (overflowed : Bool)
    (entries : List Buffered) :
    (∀ d ∈ (replayAll ied peers assoc b overflowed entries).2, d.report.bufOvfl ≠ some true) ↔
      overflowed = false ∨ entries = [] ∨ b.asksOverflow = false := by
  induction entries generalizing b overflowed with
  | nil =>
    constructor
    · intro _
      exact Or.inr (Or.inl rfl)
    · intro _ d hd
      cases hd
  | cons entry entries ih =>
    have hsame := sameReports_replay b ied peers assoc entry overflowed
    have hrest := (ih ((hsame.dataSet ied).trans h) false).mpr (Or.inl rfl)
    have hfirst : (b.replay ied peers assoc entry overflowed).2 =
        [⟨assoc, entry, dataSet.2.map (·.reference),
          b.reportOf dataSet entry b.rcb.seq true overflowed, peers.budget assoc⟩] := by
      rw [replay, h]
    rw [replayAll]
    dsimp only
    rw [hfirst, List.singleton_append, List.forall_mem_cons, bufOvfl_reportOf]
    constructor
    · rintro ⟨hflag, -⟩
      cases overflowed with
      | false => exact Or.inl rfl
      | true =>
        right
        right
        cases hasks : b.asksOverflow with
        | false => rfl
        | true =>
          rw [hasks] at hflag
          exact absurd rfl hflag
    · intro hcond
      refine ⟨?_, hrest⟩
      rcases hcond with rfl | hnil | hasks
      · split
        · decide
        · decide
      · cases hnil
      · simp [hasks]

/-! ### The enabling write -/

theorem typeOf_rptEna (b : ControlBlock) : b.typeOf .rptEna = some .boolean := by
  unfold typeOf
  cases b.rcb.buffered <;> cases b.reservation <;> rfl

theorem sameReports_writeLeaf (b : ControlBlock) (v : Value)
    (ha : a ≠ .rptID ∧ a ≠ .optFlds ∧ a ≠ .confRev ∧ a ≠ .datSet) :
    SameReports b (b.writeLeaf a v).1 := by
  refine ⟨writeLeaf_reference b a v, ?_⟩
  intro x hx
  apply writeLeaf_values
  rintro rfl
  rcases hx with rfl | rfl | rfl | rfl
  · exact ha.1 rfl
  · exact ha.2.1 rfl
  · exact ha.2.2.1 rfl
  · exact ha.2.2.2 rfl

/-- A write that enables the block is carried out, and sets off the replay. -/
theorem writeAttribute_enables {assoc : AssocId} {value : Value}
    (h : b.enables assoc a value = true) (ied : Ied) (peers : Peers) (now : Instant) :
    ∃ d, b.writeAttribute ied peers assoc a value now = (d.resume ied peers, .ok ()) ∧
      (∃ integrityDue, d.rcb = { b.rcb with
        owner := some assoc, pending := [], due := none, seq := 0, integrityDue }) ∧
      d.deferred = b.deferred ∧ SameReports b d ∧ d.values .entryID = b.values .entryID ∧
      d.values .rptEna = some (.boolean true) := by
  rw [enables, Bool.and_eq_true, Bool.and_eq_true, Bool.and_eq_true, decide_eq_true_eq,
    Bool.not_eq_true', Bool.not_eq_true', beq_iff_eq] at h
  obtain ⟨⟨⟨rfl, hv⟩, howned⟩, hreserved⟩ := h
  have hvalue : value = .boolean true := by
    cases value <;> simp [boolOf] at hv
    rw [hv]
  subst hvalue
  -- the engine's part
  obtain ⟨c, hc⟩ : ∃ c, b.enable assoc now = .ok c := by
    unfold enable
    rw [howned, hreserved]
    exact ⟨_, rfl⟩
  obtain ⟨-, -, hdeferred, hvalues, integrityDue, hrcb⟩ := enable_ok hc
  have hreference : c.reference = b.reference := by
    unfold enable at hc
    rw [howned, hreserved] at hc
    cases hc
    exact setInternal_reference _ _ _
  have hsame : SameReports b c := by
    refine ⟨hreference, ?_⟩
    intro x hx
    apply hvalues
    rintro rfl
    rcases hx with hx | hx | hx | hx <;> cases hx
  -- the store's part
  have hleaf : c.writeLeaf .rptEna (.boolean true) =
      ((c.writeLeaf .rptEna (.boolean true)).1, .ok ()) := by
    rw [writeLeaf, typeOf_rptEna]
    rfl
  generalize hd : (c.writeLeaf .rptEna (.boolean true)).1 = d at hleaf
  have howner : d.rcb.owner = some assoc := by
    rw [← hd, writeLeaf_rcb, hrcb]
  refine ⟨d.publishOwner peers, ?_, ⟨integrityDue, ?_⟩, ?_, ?_, ?_, ?_⟩
  · have hon : b.onWrite ied assoc .rptEna (.boolean true) now = .ok c := hc
    rw [writeAttribute, if_neg (by decide), hon]
    simp only [hleaf]
    simp [movesOwner, howner]
  · rw [publishOwner_rcb, ← hd, writeLeaf_rcb, hrcb]
  · rw [publishOwner_deferred, ← hd, writeLeaf_deferred, hdeferred]
  · refine hsame.trans ?_
    have hleafSame : SameReports c d := by
      rw [← hd]
      exact sameReports_writeLeaf c _ (by decide)
    refine hleafSame.trans ?_
    unfold publishOwner
    split
    · exact ⟨rfl, fun _ _ => rfl⟩
    · exact sameReports_writeLeaf d _ (by decide)
  · rw [publishOwner_values _ _ (by decide), ← hd, writeLeaf_values _ _ _ (by decide)]
    exact hvalues .entryID (by decide)
  · rw [publishOwner_values _ _ (by decide), ← hd, writeLeaf, typeOf_rptEna]
    exact Function.update_self Attribute.rptEna (some (Value.boolean true)) c.values

/-! ### What is handed over -/

theorem resumePoint_some (b : ControlBlock) (id : UInt64) :
    b.resumePoint (some id) = (resumeAt (fun e => decide (e.entryId = id)) b.rcb.buffer,
      (b.rcb.buffer.findIdx? fun e => decide (e.entryId = id)).isNone) := by
  unfold resumePoint resumeAt
  cases h : b.rcb.buffer.findIdx? fun e => decide (e.entryId = id) with
  | none => simp only [h, Option.isNone_none]
  | some i => simp only [h, Option.isNone_some]

/-- The condition for a client to be handed, after the report with this number, exactly the entries
recorded since, without being told of an overflow. Without a data set nothing is handed over.
Otherwise the report's entry is in the buffer, right before those entries, and the overflow flag
is not raised, or there is nothing to say it in; or the entry is not in the buffer, the buffer has
nothing but those entries, and there is nothing to say it in that the resume point is gone. -/
def Resumable (b : ControlBlock) (ied : Ied) (id : UInt64) (since : List Buffered) : Prop :=
  match b.dataSet ied with
  | none => since = []
  | some _ =>
    (∃ before x, b.rcb.buffer = before ++ x :: since ∧ x.entryId = id ∧
      (∀ y ∈ before, y.entryId ≠ id) ∧
      (b.rcb.overflowed = false ∨ since = [] ∨ b.asksOverflow = false)) ∨
    b.rcb.buffer = since ∧ (∀ y ∈ since, y.entryId ≠ id) ∧
      (since = [] ∨ b.asksOverflow = false)

/-- Every entry of the buffer makes a report that can go out, whatever its sequence number and
whether or not it tells of an overflow. -/
def Reportable (b : ControlBlock) (ied : Ied) (budget : Nat) : Prop :=
  ∀ dataSet, b.dataSet ied = some dataSet → ∀ e ∈ b.rcb.buffer, ∀ seq flag,
    segments (b.reportOf dataSet e seq true flag) budget ≠ []

/-- Without a data set nothing is replayed. -/
theorem replayAll_none {b : ControlBlock} {ied : Ied} (h : b.dataSet ied = none) (peers : Peers)
    (assoc : AssocId) (overflowed : Bool) (entries : List Buffered) :
    (replayAll ied peers assoc b overflowed entries).2 = [] := by
  induction entries generalizing b overflowed with
  | nil => rfl
  | cons entry entries ih =>
    have hnext := (sameReports_replay b ied peers assoc entry overflowed).dataSet ied
    rw [replayAll]
    dsimp only
    rw [ih (hnext.trans h), replay, h]
    rfl

theorem Reportable.pdus_ne_nil {b d : ControlBlock} {ied : Ied} {peers : Peers} {assoc : AssocId}
    (h : b.Reportable ied (peers.budget assoc)) (hsame : SameReports b d) (overflowed : Bool)
    (start : Nat) : ∀ r ∈ (replayAll ied peers assoc d overflowed (b.rcb.buffer.drop start)).2,
      r.pdus ≠ [] := by
  intro r hr
  cases hds : b.dataSet ied with
  | none =>
    rw [replayAll_none ((hsame.dataSet ied).trans hds)] at hr
    cases hr
  | some dataSet =>
    have hd := (hsame.dataSet ied).trans hds
    obtain ⟨hbudget, seq, flag, hreport⟩ := replayAll_report hd peers assoc overflowed _ r hr
    have hmem : r.entry ∈ b.rcb.buffer.drop start := by
      rw [← replayAll_entries hd peers assoc overflowed (b.rcb.buffer.drop start)]
      exact List.mem_map_of_mem hr
    rw [Delivery.pdus, hbudget, hreport, hsame.reportOf]
    exact h dataSet hds r.entry (List.mem_of_mem_drop hmem) seq flag

/-- What an enabling write hands over: the entries from the resume point on. -/
theorem deferred_enables {assoc : AssocId} {value : Value} (h : b.enables assoc a value = true)
    (ied : Ied) (peers : Peers) (now : Instant) :
    (b.next (.write ied peers assoc a value now)).rcb.overflowed = false ∧
    ∃ d, SameReports b d ∧ d.rcb.seq = 0 ∧ (b.next (.write ied peers assoc a value now)).deferred =
        b.deferred ++ (replayAll ied peers assoc d (b.rcb.overflowed || b.resumeLost)
          (b.rcb.buffer.drop (b.resumePoint ((b.values .entryID).bind entryIdOf)).1)).2 := by
  obtain ⟨d, hwrite, ⟨integrityDue, hrcb⟩, hdeferred, hsame, hentryID, -⟩ :=
    writeAttribute_enables h ied peers now
  have howner : d.rcb.owner = some assoc := by rw [hrcb]
  have hoverflowed : d.rcb.overflowed = b.rcb.overflowed := by rw [hrcb]
  have hbuffer : d.rcb.buffer = b.rcb.buffer := by rw [hrcb]
  have hpoint : ∀ after, d.resumePoint after = b.resumePoint after := by
    intro after
    unfold resumePoint
    rw [hbuffer]
  have hdrain : d.drainBuffer ied peers ((b.values .entryID).bind entryIdOf) =
      replayAll ied peers assoc { d with rcb := { d.rcb with overflowed := false } }
        (b.rcb.overflowed || b.resumeLost)
        (b.rcb.buffer.drop (b.resumePoint ((b.values .entryID).bind entryIdOf)).1) := by
    rw [drainBuffer, howner]
    dsimp only
    rw [hpoint, hoverflowed, hbuffer, resumeLost]
  constructor
  · obtain ⟨⟨seq, hreplayed⟩, -, -⟩ := replayAll_frame
      { d with rcb := { d.rcb with overflowed := false } } ied peers assoc
      (b.rcb.overflowed || b.resumeLost)
      (b.rcb.buffer.drop (b.resumePoint ((b.values .entryID).bind entryIdOf)).1)
    rw [next, hwrite]
    dsimp only
    rw [resume, hentryID, hdrain]
    dsimp only
    rw [hreplayed]
  · refine ⟨{ d with rcb := { d.rcb with overflowed := false } }, ?_, ?_, ?_⟩
    · exact hsame.trans ⟨rfl, fun _ _ => rfl⟩
    · dsimp only
      rw [hrcb]
    · rw [next, hwrite, (resume_frame d ied peers).2.1, hentryID, hdrain, hdeferred]

/-- The reports handed over are exactly those of the entries recorded since, in order, and none says
that the buffer overflowed, if and only if the block is resumable there. -/
theorem resumable_iff {b : ControlBlock} {assoc : AssocId} {a : Attribute} {value : Value}
    (h : b.enables assoc a value = true) {id : UInt64}
    (hid : (b.values .entryID).bind entryIdOf = some id) (ied : Ied) (peers : Peers)
    (now : Instant) (since : List Buffered) :
    ∃ reports, (b.next (.write ied peers assoc a value now)).deferred = b.deferred ++ reports ∧
      (b.Reportable ied (peers.budget assoc) → ∀ d ∈ reports, d.pdus ≠ []) ∧
      ((reports.map (·.entry) = since ∧ ∀ d ∈ reports, d.report.bufOvfl ≠ some true) ↔
        b.Resumable ied id since) := by
  obtain ⟨-, d, hsame, -, hdeferred⟩ := deferred_enables h ied peers now
  refine ⟨_, hdeferred, fun h => h.pdus_ne_nil hsame _ _, ?_⟩
  rw [resumeLost, hid, resumePoint_some]
  dsimp only
  cases hds : b.dataSet ied with
  | none =>
    rw [replayAll_none ((hsame.dataSet ied).trans hds), Resumable, hds]
    constructor
    · rintro ⟨hnil, -⟩
      exact hnil.symm
    · rintro rfl
      refine ⟨rfl, ?_⟩
      intro x hx
      cases hx
  | some dataSet =>
    have hd := (hsame.dataSet ied).trans hds
    have hasks : d.asksOverflow = b.asksOverflow := by rw [asksOverflow, hsame.optFlds]; rfl
    rw [replayAll_entries hd, replayAll_overflow hd, hasks, Resumable, hds]
    dsimp only
    have hfound : ∀ {before : List Buffered} {x : Buffered},
        b.rcb.buffer = before ++ x :: since → x.entryId = id →
        (b.rcb.buffer.findIdx? fun e => decide (e.entryId = id)).isNone = false := by
      intro before x hbuffer hx
      rw [Option.isNone_eq_false_iff, List.findIdx?_isSome, List.any_eq_true]
      refine ⟨x, ?_, decide_eq_true hx⟩
      rw [hbuffer]
      exact List.mem_append_right _ List.mem_cons_self
    constructor
    · rintro ⟨hdrop, hquiet⟩
      rw [hdrop] at hquiet
      rcases drop_resumeAt_iff.mp hdrop with ⟨before, x, hbuffer, hx, hbefore⟩ | ⟨hbuffer, hnone⟩
      · left
        rw [decide_eq_true_eq] at hx
        rw [hfound hbuffer hx, Bool.or_false] at hquiet
        exact ⟨before, x, hbuffer, hx, fun y hy => of_decide_eq_false (hbefore y hy), hquiet⟩
      · right
        rw [List.findIdx?_eq_none_iff.mpr hnone, Option.isNone_none, Bool.or_true] at hquiet
        refine ⟨hbuffer, ?_, hquiet.resolve_left (by decide)⟩
        intro y hy
        exact of_decide_eq_false (hnone y (hbuffer ▸ hy))
    · rintro (⟨before, x, hbuffer, hx, hbefore, hquiet⟩ | ⟨hbuffer, hnone, hquiet⟩)
      · have hdrop := drop_resumeAt_iff.mpr (Or.inl ⟨before, x, hbuffer, decide_eq_true hx,
          fun y hy => decide_eq_false (hbefore y hy)⟩)
        refine ⟨hdrop, ?_⟩
        rw [hdrop, hfound hbuffer hx, Bool.or_false]
        exact hquiet
      · have hdrop := drop_resumeAt_iff.mpr (Or.inr ⟨hbuffer, fun y hy =>
          decide_eq_false (p := y.entryId = id) (hnone y (hbuffer ▸ hy))⟩)
        refine ⟨hdrop, ?_⟩
        rw [hdrop]
        exact Or.inr hquiet

/-! ### What is recorded and what is lost -/

/-- The entries a journal says were put into the buffer. -/
def recorded (log : List Event) : List Buffered :=
  log.filterMap fun
    | .made e true => some e
    | _ => none

/-- The entries a journal says were taken out of it. -/
def removed (log : List Event) : List Buffered :=
  log.filterMap fun
    | .evicted e _ => some e
    | .purged e => some e
    | _ => none

/-- The reports a journal says went out. -/
def delivered (log : List Event) : List Delivery :=
  log.filterMap fun
    | .sent d => some d
    | _ => none

theorem recorded_append (log log' : List Event) :
    recorded (log ++ log') = recorded log ++ recorded log' := List.filterMap_append

theorem removed_append (log log' : List Event) :
    removed (log ++ log') = removed log ++ removed log' := List.filterMap_append

theorem delivered_append (log log' : List Event) :
    delivered (log ++ log') = delivered log ++ delivered log' := List.filterMap_append

theorem sends_only (deliveries : List Delivery) :
    recorded (sends deliveries) = [] ∧ removed (sends deliveries) = [] := by
  constructor
  · refine List.filterMap_eq_nil_iff.mpr ?_
    intro ev hev
    obtain ⟨d, rfl⟩ := mem_sends_sent hev
    rfl
  · refine List.filterMap_eq_nil_iff.mpr ?_
    intro ev hev
    obtain ⟨d, rfl⟩ := mem_sends_sent hev
    rfl

theorem delivered_sends (deliveries : List Delivery) :
    delivered (sends deliveries) = deliveries.filter fun d => !d.pdus.isEmpty := by
  unfold sends delivered
  rw [List.filterMap_map]
  exact List.filterMap_some

theorem removed_purged (es : List Buffered) :
    removed (es.map .purged) = es ∧ recorded (es.map .purged) = [] := by
  unfold removed recorded
  rw [List.filterMap_map, List.filterMap_map]
  exact ⟨List.filterMap_some, List.filterMap_eq_nil_iff.mpr fun _ _ => rfl⟩

/-- Keeping an entry: what was there and the entry are what was evicted and what is there now. -/
theorem conserved_record (b : ControlBlock) (entry : Buffered) : b.rcb.buffer ++ [entry] =
      removed (b.evictions entry) ++ (b.record entry).rcb.buffer ∧
    recorded (b.evictions entry) = [] := by
  rw [evictions_eq]
  unfold record
  split
  · cases hbuffer : b.rcb.buffer with
    | nil => exact ⟨rfl, rfl⟩
    | cons old rest => exact ⟨rfl, rfl⟩
  · exact ⟨rfl, rfl⟩

/-- Of the entries put into the buffer and those that were there, the ones taken out come first, and
the others are left. -/
def Conserved (b : ControlBlock) (log : List Event) (b' : ControlBlock) : Prop :=
  b.rcb.buffer ++ recorded log = removed log ++ b'.rcb.buffer

theorem conserved_of_eq (h : b'.rcb.buffer = b.rcb.buffer) : Conserved b [] b' := by
  rw [Conserved, h]
  exact List.append_nil _

theorem conserved_build (b : ControlBlock) (ied : Ied) (peers : Peers) (trigger : Trigger)
    (wall : EntryTime) :
    Conserved b (b.buildEvents ied peers trigger wall) (b.build ied peers trigger wall).1 := by
  unfold buildEvents
  rcases build_cases (Prod.eta (b.build ied peers trigger wall)).symm with
    ⟨-, hmade, hb', -⟩ | ⟨-, hmade, hb', -⟩ | ⟨dataSet, entry, -, hmade, -, hdeliver⟩
  · rw [hmade, hb']
    exact conserved_of_eq rfl
  · rw [hmade, hb']
    exact conserved_of_eq (takePending_buffer b trigger)
  · rw [hmade]
    dsimp only
    rw [Conserved, recorded_append, recorded_append, removed_append, removed_append,
      (sends_only _).1, (sends_only _).2, (deliver_buffer hdeliver).1, file, takePending_keeps]
    cases hkeeps : b.keeps trigger with
    | true =>
      obtain ⟨hconserved, hnone⟩ := conserved_record (b.takePending trigger).number entry
      rw [evictions_number, evictions_congr entry (takePending_buffer b trigger)] at hconserved hnone
      have hbuffer : (b.takePending trigger).number.rcb.buffer = b.rcb.buffer :=
        takePending_buffer b trigger
      rw [hbuffer] at hconserved
      rw [if_pos rfl, if_pos rfl, hnone]
      simpa [recorded, removed] using hconserved
    | false =>
      rw [if_neg (by decide), if_neg (by decide)]
      have hbuffer : (b.takePending trigger).number.rcb.buffer = b.rcb.buffer :=
        takePending_buffer b trigger
      rw [hbuffer]
      simp [recorded, removed]

/-- An action that moves no entry leaves nothing of the kind in the journal. -/
theorem conserved_of_silent {log : List Event} (h : b'.rcb.buffer = b.rcb.buffer)
    (hlog : ∀ ev ∈ log, ev = .released ∨ ev = .lost ∨ (∃ assoc, ev = .purgeRequested assoc) ∨
      (∃ m reason, ev = .hit m reason) ∨ ∃ d, ev = .sent d) : Conserved b log b' := by
  have hrecorded : recorded log = [] := by
    refine List.filterMap_eq_nil_iff.mpr ?_
    intro ev hev
    rcases hlog ev hev with rfl | rfl | ⟨assoc, rfl⟩ | ⟨m, reason, rfl⟩ | ⟨d, rfl⟩ <;> rfl
  have hremoved : removed log = [] := by
    refine List.filterMap_eq_nil_iff.mpr ?_
    intro ev hev
    rcases hlog ev hev with rfl | rfl | ⟨assoc, rfl⟩ | ⟨m, reason, rfl⟩ | ⟨d, rfl⟩ <;> rfl
  rw [Conserved, hrecorded, hremoved, h]
  exact List.append_nil _

theorem conserved_write (b : ControlBlock) (ied : Ied) (peers : Peers) (assoc : AssocId)
    (a : Attribute) (value : Value) (now : Instant) :
    Conserved b (b.events (.write ied peers assoc a value now))
      (b.next (.write ied peers assoc a value now)) := by
  obtain ⟨rcb, heffect, seq, overflowed, hrcb⟩ :=
    writeAttribute_rcb b ied peers assoc a value now
  apply conserved_of_silent
  · rw [next, hrcb]
    rcases heffect with rfl | heffect
    · rfl
    · cases heffect <;> rfl
  · intro ev hev
    rw [events] at hev
    dsimp only at hev
    rw [List.mem_append, List.mem_append] at hev
    rcases hev with (hreq | hrel) | hlost
    · split at hreq
      · exact Or.inr (Or.inr (Or.inl ⟨assoc, List.mem_singleton.mp hreq⟩))
      · cases hreq
    · exact Or.inl (mem_releases hrel)
    · split at hlost
      · exact Or.inr (Or.inl (List.mem_singleton.mp hlost))
      · cases hlost

theorem conserved_emits (hx : b.Emits x) : Conserved b (b.events x) (b.next x) := by
  rcases hx with ⟨hnext, hevents⟩ | ⟨c, ied, peers, trigger, wall, hprepared, hnext, hevents⟩
  · rw [hnext, hevents]
    exact conserved_of_eq rfl
  · obtain ⟨integrityDue, hrcb⟩ := hprepared.rcb
    have hbuild := conserved_build c ied peers trigger wall
    rw [Conserved, hrcb] at hbuild
    rw [hnext, hevents]
    exact hbuild

theorem conserved_next (hbuffered : b.rcb.buffered = true) (x : Action) :
    Conserved b (b.events x) (b.next x) := by
  cases x with
  | write ied peers assoc a value now => exact conserved_write b ied peers assoc a value now
  | writeWhole assoc value =>
    apply conserved_of_silent
    · rw [next, (writeWhole_rcb b value).1]
    · intro ev hev
      rw [events] at hev
      split at hev
      · exact Or.inr (Or.inr (Or.inl ⟨assoc, List.mem_singleton.mp hev⟩))
      · cases hev
  | gather ied dirty now =>
    obtain ⟨-, -, pending, due, hrcb⟩ := gather_rcb b ied dirty now
    apply conserved_of_silent
    · rw [next, hrcb]
    · intro ev hev
      rw [events] at hev
      split at hev
      · cases hev
      · rw [List.mem_map] at hev
        obtain ⟨⟨m, reason⟩, -, rfl⟩ := hev
        exact Or.inr (Or.inr (Or.inr (Or.inl ⟨m, reason, rfl⟩)))
  | interrogate ied peers wall => exact conserved_emits (emits_interrogate b ied peers wall)
  | purge =>
    rw [next, purge, events, purgeAsked]
    split
    · rw [Conserved, (removed_purged _).1, (removed_purged _).2]
    · exact conserved_of_eq rfl
  | integrity ied peers wall now => exact conserved_emits (emits_integrity b ied peers wall now)
  | change ied peers wall now => exact conserved_emits (emits_change b ied peers wall now)
  | flush =>
    apply conserved_of_silent
    · rfl
    · intro ev hev
      exact Or.inr (Or.inr (Or.inr (Or.inr (mem_sends_sent hev))))
  | closed peers assoc now =>
    obtain ⟨-, reserved, hrcb, -⟩ := closed_rcb b peers assoc now
    apply conserved_of_silent
    · rw [next, hrcb]
      dsimp only
      split
      · rw [released, hbuffered]
        rfl
      · rfl
    · intro ev hev
      exact Or.inl (mem_releases hev)
  | expire now =>
    obtain ⟨-, reserved, hrcb, -⟩ := expire_rcb b now
    apply conserved_of_eq
    rw [next, hrcb]

theorem Conserved.trans {c d : ControlBlock} {log log' : List Event} (h : Conserved b log c)
    (h' : Conserved c log' d) : Conserved b (log ++ log') d := by
  rw [Conserved] at h h' ⊢
  rw [recorded_append, removed_append, ← List.append_assoc, h, List.append_assoc, h',
    List.append_assoc]

theorem conserved_run {xs : List Action} (hbuffered : b.rcb.buffered = true)
    (hrun : run step b xs = some b') : Conserved b (journal step events b xs) b' := by
  have hrule := journal_run (J := fun log s => Conserved b log s ∧ s.rcb.buffered = true)
    (C := fun _ _ => True) (T := [])
    (fun log s x s' hs _ hstep => by
      cases hstep
      have hidle : s.Idle := fun hnot => absurd (hs.2.symm.trans hnot) (by decide)
      exact ⟨hs.1.trans (conserved_next hs.2 x), (idle_next hidle x).2.trans hs.2⟩)
    ⟨conserved_of_eq rfl, hbuffered⟩ (meets_of_forall (fun _ _ => trivial) _ _) hrun
  exact hrule.1

theorem made_kept {e : Buffered} (h : .made e true ∈ b.events x) :
    ∃ before, (b.next x).rcb.buffer = before ++ [e] := by
  cases writes_of_mem h with
  | built _ c ied peers trigger wall hprepared hnext _ hmem =>
    rw [hnext]
    unfold buildEvents at hmem
    rcases build_cases (Prod.eta (c.build ied peers trigger wall)).symm with
      ⟨-, hmade, -, -⟩ | ⟨-, hmade, -, -⟩ | ⟨dataSet, entry, -, hmade, -, hdeliver⟩
    · rw [hmade] at hmem
      cases hmem
    · rw [hmade] at hmem
      cases hmem
    · rw [hmade] at hmem
      dsimp only at hmem
      rw [List.mem_append, List.mem_append, List.mem_singleton] at hmem
      rcases hmem with (hev | heq) | hsent
      · rw [evictions_eq] at hev
        split at hev
        · split at hev
          · rw [List.mem_map] at hev
            obtain ⟨old, -, hold⟩ := hev
            cases hold
          · cases hev
        · cases hev
      · obtain ⟨rfl, hkeeps⟩ := Event.made.inj heq
        rw [(deliver_buffer hdeliver).1, file, takePending_keeps, ← hkeeps, if_pos rfl]
        unfold record
        split
        · exact ⟨_, rfl⟩
        · exact ⟨_, rfl⟩
      · obtain ⟨d, hd⟩ := mem_sends_sent hsent
        cases hd

/-! ### Resuming -/

/-- Nothing is reported or recorded, and the reports that wait go on waiting. -/
def Quiet (b : ControlBlock) (x : Action) : Prop :=
  delivered (b.events x) = [] ∧ recorded (b.events x) = [] ∧ (b.next x).deferred = b.deferred

theorem quiet_run {xs : List Action} (hquiet : Meets step Quiet b xs)
    (hrun : run step b xs = some b') :
    delivered (journal step events b xs) = [] ∧ b'.deferred = b.deferred := by
  have hrule := journal_run
    (J := fun log s => delivered log = [] ∧ s.deferred = b.deferred) (T := [])
    (fun log s x s' hs hx hstep => by
      cases hstep
      refine ⟨?_, hx.2.2.trans hs.2⟩
      rw [delivered_append, hs.1, hx.1]
      rfl)
    ⟨rfl, rfl⟩ hquiet hrun
  exact hrule

theorem exists_run (b : ControlBlock) (xs : List Action) : ∃ b', run step b xs = some b' :=
  @exists_run_of_total _ _ step (fun b x => ⟨b.next x, rfl⟩) b xs

theorem delivered_write (b : ControlBlock) (ied : Ied) (peers : Peers) (assoc : AssocId)
    (a : Attribute) (value : Value) (now : Instant) :
    delivered (b.events (.write ied peers assoc a value now)) = [] := by
  refine List.filterMap_eq_nil_iff.mpr ?_
  intro ev hev
  rw [events] at hev
  dsimp only at hev
  rw [List.mem_append, List.mem_append] at hev
  rcases hev with (hreq | hrel) | hlost
  · split at hreq
    · rw [List.mem_singleton.mp hreq]
    · cases hreq
  · rw [mem_releases hrel]
  · split at hlost
    · rw [List.mem_singleton.mp hlost]
    · cases hlost

/-- The reports an enabling write hands over go out with the next flush, in order, when each of
them can go out and nothing else is reported first. -/
theorem delivered_enables {zs : List Action} {reports : List Delivery}
    (hx : delivered (b.events x) = []) (hreports : (b.next x).deferred = reports)
    (hout : ∀ d ∈ reports, d.pdus ≠ []) (hquiet : Meets step Quiet (b.next x) zs) :
    delivered (journal step events b (x :: (zs ++ [.flush]))) = reports := by
  obtain ⟨c, hc⟩ := exists_run (b.next x) zs
  obtain ⟨hsilent, hdeferred⟩ := quiet_run hquiet hc
  have hjournal : journal step events b (x :: (zs ++ [.flush])) =
      b.events x ++ (journal step events (b.next x) zs ++ (sends c.deferred ++ [])) := by
    have hparts := @journal_append _ _ step _ events _ _ _ hc [.flush]
    rw [journal]
    dsimp only [step]
    rw [hparts]
    rfl
  rw [hjournal, List.append_nil, delivered_append, delivered_append, hx, hsilent, delivered_sends,
    hdeferred, hreports, List.nil_append, List.nil_append, List.filter_eq_self]
  intro d hd
  rw [Bool.not_eq_true', List.isEmpty_eq_false_iff]
  exact hout d hd

/-- A client that has received a report enables the block with that report's `EntryID`. As long as no
entry recorded since has been taken out of the buffer, these are at its end, after the report's own
entry if that was kept and is still there. What goes out next, up to the flush of the next commit,
is then exactly a report of each of them, in order and without `BufOvfl`, if and only if the block
is resumable there. -/
theorem resume_exact {b₀ b : ControlBlock} {y : Action} {ys zs : List Action} {e : Buffered}
    {kept : Bool} {assoc : AssocId} {value : Value} (ied : Ied) (peers : Peers) (now : Instant)
    (hbuffered : b₀.rcb.buffered = true) (hmade : .made e kept ∈ b₀.events y)
    (hrun : run step (b₀.next y) ys = some b)
    (hheld : ∀ r ∈ recorded (journal step events (b₀.next y) ys),
      r ∉ removed (journal step events (b₀.next y) ys))
    (hid : (b.values .entryID).bind entryIdOf = some e.entryId)
    (henables : b.enables assoc .rptEna value = true) (hwaiting : b.deferred = [])
    (hout : b.Reportable ied (peers.budget assoc))
    (hquiet : Meets step Quiet (b.next (.write ied peers assoc .rptEna value now)) zs) :
    let since := recorded (journal step events (b₀.next y) ys)
    let reports := delivered (journal step events b
      (.write ied peers assoc .rptEna value now :: (zs ++ [.flush])))
    (∃ old, b.rcb.buffer = old ++ since ∧
      (kept = true → e ∉ removed (journal step events (b₀.next y) ys) →
        ∃ before, old = before ++ [e])) ∧
    ((reports.map (·.entry) = since ∧ ∀ d ∈ reports, d.report.bufOvfl ≠ some true) ↔
      b.Resumable ied e.entryId since) := by
  intro since reports
  have hidle : b₀.Idle := fun hnot => absurd (hbuffered.symm.trans hnot) (by decide)
  have hconserved := conserved_run ((idle_next hidle y).2.trans hbuffered) hrun
  constructor
  · by_cases hstays : kept = true ∧ e ∉ removed (journal step events (b₀.next y) ys)
    · obtain ⟨rfl, hstays⟩ := hstays
      obtain ⟨before, hbefore⟩ := made_kept hmade
      rw [Conserved, hbefore, List.append_assoc] at hconserved
      obtain ⟨old, hold⟩ := suffix_of_conserved hconserved (by
        intro r hr
        rw [List.singleton_append, List.mem_cons] at hr
        rcases hr with rfl | hr
        · exact hstays
        · exact hheld r hr)
      refine ⟨old ++ [e], ?_, fun _ _ => ⟨old, rfl⟩⟩
      rw [hold, List.append_assoc]
    · obtain ⟨old, hold⟩ := suffix_of_conserved hconserved hheld
      exact ⟨old, hold, fun hkept hin => absurd ⟨hkept, hin⟩ hstays⟩
  · obtain ⟨handed, hdeferred, hgo, hiff⟩ := resumable_iff henables hid ied peers now since
    rw [hwaiting, List.nil_append] at hdeferred
    have hreports : reports = handed := delivered_enables
      (delivered_write b ied peers assoc .rptEna value now) hdeferred (hgo hout) hquiet
    rw [hreports]
    exact hiff

theorem sequenceNumber_effectiveFlags (o : OptFlds) :
    (effectiveFlags o true).sequenceNumber = o.sequenceNumber :=
  o.getLsbD_withSegmentation false (by decide)

/-- Whether a block is reportable can be computed when its reports are not numbered. -/
theorem reportable_of_check {ied : Ied} {budget : Nat} (hopt : b.optFlds.sequenceNumber = false)
    (h : ((b.dataSet ied).all fun dataSet => b.rcb.buffer.all fun e => [true, false].all fun flag =>
        !(segments (b.reportOf dataSet e 0 true flag) budget).isEmpty) = true) :
    b.Reportable ied budget := by
  intro dataSet hds e he seq flag
  have hseq : b.reportOf dataSet e seq true flag = b.reportOf dataSet e 0 true flag := by
    rw [reportOf, reportOf, assemble, assemble]
    dsimp only
    rw [sequenceNumber_effectiveFlags, hopt]
    rfl
  rw [hds, Option.all_some, List.all_eq_true] at h
  have hflag := h e he
  rw [List.all_eq_true] at hflag
  have hsegments := hflag flag (by cases flag <;> simp)
  rw [Bool.not_eq_true', List.isEmpty_eq_false_iff] at hsegments
  rw [hseq]
  exact hsegments

/-- A buffered block whose reports have their `EntryID` and tell of an overflow, without a gathering
window. -/
def numbered : ReportControl where
  rptId := none
  buffered := true
  confRev := 1
  optFlds := OptFlds.withEntryId (OptFlds.withBufferOverflow 0 true) true
  bufTimeMs := 0
  trgOps := withBit (withBit 0 bitDataChange true) bitGeneralInterrogation true
  intgPdMs := 0

def firstEntry : Buffered :=
  ⟨1, ⟨0, 0⟩, [([112], withBit 0 bitDataChange true)], [([112], .boolean true)]⟩

/-- The block is enabled, and its member has changed. -/
def changed : ControlBlock :=
  ((engineered numbered [] (some [100]) true).next
    (.write onePosition anonymous 1 .rptEna (.boolean true) 0)).next (.gather onePosition moved 0)

/-- The client receives the report of the change, is gone for another change, and comes back. -/
theorem resume_exact_once :
    let y := Action.change onePosition anonymous ⟨0, 0⟩ 0
    let ys := [Action.closed anonymous 1 0, .gather onePosition moved 0,
      .change onePosition anonymous ⟨0, 0⟩ 0]
    let b := (((changed.next y).next (.closed anonymous 1 0)).next
      (.gather onePosition moved 0)).next (.change onePosition anonymous ⟨0, 0⟩ 0)
    let since := recorded (journal step events (changed.next y) ys)
    let reports := delivered (journal step events b
      [.write onePosition anonymous 2 .rptEna (.boolean true) 0, .flush])
    (∃ old, b.rcb.buffer = old ++ since ∧
      (true = true → firstEntry ∉ removed (journal step events (changed.next y) ys) →
        ∃ before, old = before ++ [firstEntry])) ∧
    ((reports.map (·.entry) = since ∧ ∀ d ∈ reports, d.report.bufOvfl ≠ some true) ↔
      b.Resumable onePosition firstEntry.entryId since) := by
  intro y ys b since reports
  have hrun : run step (changed.next y) ys = some b := by
    simp only [ys, b, run, step, Option.bind_some]
  obtain ⟨rest, hmade⟩ : ∃ rest, changed.events y = .made firstEntry true :: rest := ⟨_, rfl⟩
  have hnone : (removed (journal step events (changed.next y) ys)).length = 0 := by
    decide +kernel
  have hid : (b.values .entryID).bind entryIdOf = some 1 := by decide +kernel
  have henables : b.enables 2 .rptEna (.boolean true) = true := by decide +kernel
  have hwaiting : b.deferred.length = 0 := by decide +kernel
  have hout : b.Reportable onePosition (anonymous.budget 2) := by
    apply reportable_of_check
    · decide +kernel
    · decide +kernel
  have hheld : ∀ r ∈ recorded (journal step events (changed.next y) ys),
      r ∉ removed (journal step events (changed.next y) ys) := by
    intro r _
    rw [List.length_eq_zero_iff.mp hnone]
    exact List.not_mem_nil
  have hmem : Event.made firstEntry true ∈ changed.events y := by
    rw [hmade]
    exact List.mem_cons_self
  exact @resume_exact changed b y ys [] firstEntry true 2 (.boolean true) onePosition anonymous 0
    (by decide +kernel) hmem hrun hheld hid henables (List.length_eq_zero_iff.mp hwaiting) hout
    trivial

/-- The client has received the report of the change, and asks for a general interrogation. -/
def interrogating : ControlBlock :=
  (changed.next (.change onePosition anonymous ⟨0, 0⟩ 0)).next
    (.write onePosition anonymous 1 .gi (.boolean true) 0)

/-- The last report the client receives is of a general interrogation. When it comes back with the
`EntryID` of that report, nothing has been recorded since, but it is sent the change again, with
`BufOvfl`. -/
theorem interrogation_not_resumable :
    ¬ ∀ (rcb : ReportControl) (reference : Bytes) (dataSet : Option Bytes) (reservation : Bool)
        (xs ys zs : List Action) (b₀ b : ControlBlock) (y : Action) (d : Delivery) (kept : Bool)
        (assoc : AssocId) (value : Value) (ied : Ied) (peers : Peers) (now : Instant),
      rcb.buffered = true →
      run step (engineered rcb reference dataSet reservation) xs = some b₀ →
      .made d.entry kept ∈ b₀.events y → .sent d ∈ b₀.events y →
      run step (b₀.next y) ys = some b →
      (∀ r ∈ recorded (journal step events (b₀.next y) ys),
        r ∉ removed (journal step events (b₀.next y) ys)) →
      (b.values .entryID).bind entryIdOf = some d.entry.entryId →
      b.enables assoc .rptEna value = true → b.deferred = [] →
      b.Reportable ied (peers.budget assoc) →
      Meets step Quiet (b.next (.write ied peers assoc .rptEna value now)) zs →
      let reports := delivered (journal step events b
        (.write ied peers assoc .rptEna value now :: (zs ++ [.flush])))
      reports.map (·.entry) = recorded (journal step events (b₀.next y) ys) ∧
        ∀ r ∈ reports, r.report.bufOvfl ≠ some true := by
  intro hclaim
  let y := Action.interrogate onePosition anonymous ⟨0, 0⟩
  let b := (interrogating.next y).next (.closed anonymous 1 0)
  obtain ⟨d, hlast⟩ : ∃ d, interrogating.events y = [.made d.entry false, .sent d] := by
    obtain ⟨e, d, hentry, hlast⟩ : ∃ e d, d.entry = e ∧
        interrogating.events y = [.made e false, .sent d] := by
      refine ⟨_, _, ?_, rfl⟩
      rfl
    exact ⟨d, hentry ▸ hlast⟩
  have hdelivered : (delivered (interrogating.events y)).map (·.entry.entryId) = [2] := by
    decide +kernel
  rw [hlast] at hdelivered
  have hnumber : d.entry.entryId = 2 := (List.cons.inj hdelivered).1
  have hid : (b.values .entryID).bind entryIdOf = some 2 := by decide +kernel
  have hwaiting : b.deferred.length = 0 := by decide +kernel
  have hout : b.Reportable onePosition (anonymous.budget 2) := by
    apply reportable_of_check
    · decide +kernel
    · decide +kernel
  have hnone : (recorded (journal step events (interrogating.next y)
      [.closed anonymous 1 0])).length = 0 := by decide +kernel
  have hreplayed : (delivered (journal step events b
      [.write onePosition anonymous 2 .rptEna (.boolean true) 0, .flush])).length = 1 := by
    decide +kernel
  have hsame := (hclaim numbered [] (some [100]) true
    [.write onePosition anonymous 1 .rptEna (.boolean true) 0, .gather onePosition moved 0,
      .change onePosition anonymous ⟨0, 0⟩ 0,
      .write onePosition anonymous 1 .gi (.boolean true) 0]
    [.closed anonymous 1 0] [] interrogating b y d false 2 (.boolean true) onePosition anonymous 0
    rfl rfl (by rw [hlast]; exact List.mem_cons_self)
    (by rw [hlast]; exact List.mem_cons_of_mem _ List.mem_cons_self) rfl
    (by rw [List.length_eq_zero_iff.mp hnone]; exact fun r hr => absurd hr List.not_mem_nil)
    (by rw [hnumber]; exact hid) (by decide +kernel) (List.length_eq_zero_iff.mp hwaiting) hout
    trivial).1
  have hlength := congrArg List.length hsame
  rw [List.length_map, hnone] at hlength
  exact absurd (hreplayed.symm.trans hlength) (by decide)

end Iec61850.Server.ControlBlock
