import Iec61850.Server.RcbResume

/-!
# Integrity reports and who they are for

An owner that disables a block takes the integrity deadline with it; an owner whose association
ends leaves it behind. Along every run in which no association ends with the deadline of a block it
owns pending, the deadline is pending only while the block is enabled by an owner, and only then is
an integrity report made.
-/

namespace Iec61850.Server.ControlBlock

open Theory Mms

/-- While an integrity deadline is pending, the block is enabled by an owner. -/
def Armed (b : ControlBlock) : Prop :=
  b.rcb.integrityDue.isSome = true → b.rcb.owner.isSome = true ∧ b.enabled = true

/-- Integrity reports are made only while the block is enabled by an owner, and without an owner no
integrity deadline is pending. -/
structure ScansForOwner (b : ControlBlock) : Prop where
  report : ∀ ied peers wall now entry kept,
    .made entry kept ∈ b.events (.integrity ied peers wall now) →
    b.rcb.owner.isSome = true ∧ b.enabled = true
  deadline : b.rcb.owner = none → b.rcb.integrityDue = none

/-- No association ends with the integrity deadline of a block it owns pending, and while one is
pending, no write of the block as a whole takes back `RptEna`. -/
def KeepsOwner (b : ControlBlock) : Action → Prop
  | .closed _ assoc _ => b.rcb.owner = some assoc → b.rcb.integrityDue = none
  | .writeWhole _ value =>
    b.rcb.integrityDue.isSome = true → (b.writeWhole value).1.enabled = true
  | _ => True

/-! ### One action -/

variable {b : ControlBlock}

theorem Armed.scansForOwner (h : b.Armed) : b.ScansForOwner := by
  constructor
  · intro ied peers wall now entry kept hmade
    apply h
    rw [events] at hmade
    split at hmade
    · rename_i hdue
      cases hpending : b.rcb.integrityDue with
      | none =>
        rw [hpending] at hdue
        cases hdue
      | some due => rfl
    · cases hmade
  · intro hnone
    cases hpending : b.rcb.integrityDue with
    | none => rfl
    | some due =>
      obtain ⟨howner, -⟩ := h (by rw [hpending]; rfl)
      rw [hnone] at howner
      cases howner

/-- An action that leaves the deadline, the owner and `RptEna` alone. -/
theorem Armed.of_same {b' : ControlBlock} (h : b.Armed)
    (hdue : b'.rcb.integrityDue = b.rcb.integrityDue) (howner : b'.rcb.owner = b.rcb.owner)
    (hena : b'.values .rptEna = b.values .rptEna) : b'.Armed := by
  intro hpending
  rw [hdue] at hpending
  rw [howner, enabled, hena]
  exact h hpending

theorem armed_of_none (h : b.rcb.integrityDue = none) : b.Armed := by
  intro hpending
  rw [h] at hpending
  cases hpending

theorem Armed.build (h : b.Armed) (ied : Ied) (peers : Peers) (trigger : Trigger)
    (wall : EntryTime) : (b.build ied peers trigger wall).1.Armed := by
  obtain ⟨pending, due, buffer, nextEntry, overflowed, seq, hrcb, -⟩ :=
    build_rcb b ied peers trigger wall
  apply h.of_same
  · rw [hrcb]
  · rw [hrcb]
  · exact build_values b ied peers trigger wall rfl

theorem Armed.write (h : b.Armed) (ied : Ied) (peers : Peers) (assoc : AssocId) (a : Attribute)
    (value : Value) (now : Instant) : (b.writeAttribute ied peers assoc a value now).1.Armed := by
  by_cases henables : b.enables assoc a value = true
  · obtain ⟨d, hwrite, ⟨integrityDue, hrcb⟩, -, -, -, hena⟩ :=
      writeAttribute_enables henables ied peers now
    obtain ⟨⟨seq, overflowed, hresumed⟩, -, hvalues⟩ := resume_frame d ied peers
    rw [hwrite]
    intro _
    rw [hresumed, hrcb, enabled, hvalues .rptEna rfl, hena]
    exact ⟨rfl, rfl⟩
  rcases writeAttribute_cases (Prod.eta (b.writeAttribute ied peers assoc a value now)).symm with
    ⟨hb', -⟩ | ⟨c, hc, hrest⟩
  · rw [hb']
    exact h
  obtain ⟨heffect, -, hcvalues⟩ := onWrite_ok hc
  have hena : c.values .rptEna = b.values .rptEna := hcvalues .rptEna (by decide) (by decide)
  -- a write that does not enable the block disables it, or is not one of `RptEna`
  have hkinds : c.rcb.integrityDue = none ∧ c.rcb.owner = none ∨
      a ≠ .rptEna ∧ c.rcb.integrityDue = b.rcb.integrityDue ∧ c.rcb.owner = b.rcb.owner := by
    have hclaim : a = .resv ∨ a = .resvTms → a ≠ .rptEna := by
      rintro (rfl | rfl) <;> decide
    generalize c.rcb = rcb at heffect
    cases heffect with
    | enabled integrityDue ha hv howned hreserved =>
      refine absurd ?_ henables
      rw [enables, ha, hv, howned, hreserved]
      rfl
    | disabled ha hv howned => exact Or.inl ⟨rfl, rfl⟩
    | reserved lingerSecs ha howned hreserved => exact Or.inr ⟨hclaim ha, rfl, rfl⟩
    | unreserved ha => exact Or.inr ⟨hclaim ha, rfl, rfl⟩
    | none ha => exact Or.inr ⟨ha, rfl, rfl⟩
  rcases hrest with ⟨hb', -⟩ | ⟨-, d, hrcb, -, hvalues, -, hb'⟩
  · rw [hb']
    rcases hkinds with ⟨hnone, -⟩ | ⟨-, hdue, howner⟩
    · exact armed_of_none hnone
    · exact h.of_same hdue howner hena
  · rcases hkinds with ⟨hnone, hreleased⟩ | ⟨ha, hdue, howner⟩
    · rw [hb', hrcb, hreleased, if_neg (by simp)]
      exact armed_of_none (hrcb ▸ hnone)
    · rw [hb', if_neg (by simp [ha])]
      refine h.of_same (hrcb ▸ hdue) (hrcb ▸ howner) ?_
      rw [hvalues .rptEna (Ne.symm ha) (by decide), hena]

theorem Armed.closed (h : b.Armed) {assoc : AssocId}
    (hcond : b.rcb.owner = some assoc → b.rcb.integrityDue = none) (peers : Peers) (now : Instant) :
    (b.closed peers assoc now).Armed := by
  obtain ⟨-, reserved, hrcb, -⟩ := closed_rcb b peers assoc now
  by_cases howner : b.rcb.owner = some assoc
  · apply armed_of_none
    rw [hrcb, if_pos howner]
    exact hcond howner
  · apply h.of_same
    · rw [hrcb, if_neg howner]
    · rw [hrcb, if_neg howner]
    · exact closed_values howner rfl peers now

theorem Armed.next (h : b.Armed) {x : Action} (hx : b.KeepsOwner x) : (b.next x).Armed := by
  cases x with
  | write ied peers assoc a value now => exact h.write ied peers assoc a value now
  | writeWhole assoc value =>
    obtain ⟨hrcb, -⟩ := writeWhole_rcb b value
    intro hpending
    rw [ControlBlock.next, hrcb] at hpending ⊢
    exact ⟨(h hpending).1, hx hpending⟩
  | gather ied dirty now =>
    obtain ⟨-, hvalues, pending, due, hrcb⟩ := gather_rcb b ied dirty now
    apply h.of_same
    · rw [ControlBlock.next, hrcb]
    · rw [ControlBlock.next, hrcb]
    · rw [ControlBlock.next, hvalues]
  | interrogate ied peers wall =>
    rw [ControlBlock.next, emitInterrogation]
    split
    · apply Armed.build
      apply h.of_same
      · rw [setInternal_rcb]
      · rw [setInternal_rcb]
      · exact setInternal_values b _ _ (by decide)
    · exact h
  | purge =>
    obtain ⟨-, buffer, overflowed, hrcb⟩ := purge_rcb b
    apply h.of_same
    · rw [ControlBlock.next, hrcb]
    · rw [ControlBlock.next, hrcb]
    · rw [ControlBlock.next, purge]
      split
      · exact setInternal_values b _ _ (by decide)
      · rfl
  | integrity ied peers wall now =>
    rw [ControlBlock.next, emitIntegrity]
    split
    · rename_i hdue
      apply Armed.build
      intro _
      cases hpending : b.rcb.integrityDue with
      | none =>
        rw [hpending] at hdue
        cases hdue
      | some due => exact h (by rw [hpending]; rfl)
    · exact h
  | change ied peers wall now =>
    rw [ControlBlock.next, emitChange]
    split
    · exact h.build ied peers .change wall
    · exact h
  | flush => exact h.of_same rfl rfl rfl
  | closed peers assoc now => exact h.closed hx peers now
  | expire now =>
    obtain ⟨-, reserved, hrcb, -⟩ := expire_rcb b now
    apply h.of_same
    · rw [ControlBlock.next, hrcb]
    · rw [ControlBlock.next, hrcb]
    · rw [ControlBlock.next, expire]
      split
      · exact releaseReservation_values _ rfl
      · rfl

/-! ### Runs -/

/-- Along every run in which no association ends with the integrity deadline of the block it owns
pending, integrity reports are made only while the block is enabled by an owner, and a block without
an owner has no integrity deadline. -/
theorem run_scansForOwner (reference : Bytes) (buffered reservation : Bool)
    (values : Attribute → Option Value) {xs : List Action}
    (hxs : Meets step KeepsOwner (new reference buffered reservation values) xs) :
    ∀ b ∈ states step (new reference buffered reservation values) xs, b.ScansForOwner := by
  intro b hb
  refine Armed.scansForOwner ?_
  refine invariant_states (I := Armed) (C := KeepsOwner) ?_ (armed_of_none rfl) hxs b hb
  intro b x b' harmed hx hstep
  cases hstep
  exact harmed.next hx

/-- A block that scans its data set every second. -/
def scanning : ReportControl where
  rptId := none
  buffered := true
  confRev := 1
  optFlds := 0
  bufTimeMs := 0
  trgOps := withBit 0 bitIntegrity true
  intgPdMs := 1000

/-- An association enables the block, a period passes, and the association disables the block. -/
def scanned : List Action :=
  [.write onePosition anonymous 1 .rptEna (.boolean true) 0,
    .integrity onePosition anonymous ⟨0, 0⟩ 1000000000,
    .write onePosition anonymous 1 .rptEna (.boolean false) 1500000000]

/-- The block after that run. -/
def disabledBlock : ControlBlock :=
  scanned.foldl next (engineered scanning [] (some [100]) true)

theorem run_scansForOwner_disabled : disabledBlock.ScansForOwner := by
  refine @run_scansForOwner [] true true
    (fun a => (rcbDefaults scanning [] (some [100]) true).lookup a) scanned ?_ _ ?_
  · refine ⟨trivial, ?_⟩
    intro b hb
    refine ⟨trivial, ?_⟩
    intro c hc
    exact ⟨trivial, fun _ _ => trivial⟩
  · refine List.mem_cons_of_mem _ (List.mem_cons_of_mem _ (List.mem_cons_of_mem _ ?_))
    exact List.mem_cons_self

/-- The association that enabled the block ends; a second later the block, which nobody owns, makes
an integrity report. -/
theorem closed_leaves_deadline :
    ¬ ∀ (rcb : ReportControl) (reference : Bytes) (dataSet : Option Bytes) (reservation : Bool)
      (xs : List Action), ∀ b ∈ states step (engineered rcb reference dataSet reservation) xs,
      b.ScansForOwner := by
  intro hall
  have hscans := hall scanning [] (some [100]) true
    [.write onePosition anonymous 1 .rptEna (.boolean true) 0, .closed anonymous 1 500000000] _
    (List.mem_cons_of_mem _ (List.mem_cons_of_mem _ List.mem_cons_self))
  obtain ⟨howner, -⟩ := hscans.report onePosition anonymous ⟨0, 0⟩ 1000000000 _ _
    (List.mem_cons_self)
  revert howner
  decide +kernel

end Iec61850.Server.ControlBlock
