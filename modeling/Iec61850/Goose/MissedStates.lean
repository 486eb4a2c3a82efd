import Iec61850.Ber.Reread
import Iec61850.Goose.Acceptance
import Iec61850.Goose.Rejection
import Iec61850.Theory.Wraparound

/-!
# States that were missed

How many states a subscriber counts as missed when it accepts a new one. Ahead of the last
state it counts the values between the two; behind it, after a wrap, it counts the values from
`1` on and leaves out those that were left before the top.
-/

namespace Iec61850.Goose.Subscriber

open Theory Ber

/-! ### Ranges -/

/-- The counters are in the range of their fields. -/
structure InRange (s : Subscriber) : Prop where
  missed : s.stats.statesMissed ≤ u64Max
  stNum : ∀ last, s.state = some last → last.stNum ≤ u32Max

theorem GoosePduView.stNum_le {apdu : Bytes} {v : GoosePduView}
    (h : GoosePduView.parse apdu = .ok v) : v.stNum ≤ u32Max := by
  unfold GoosePduView.parse at h
  obtain ⟨⟨pdu, c₀⟩, -, h⟩ := bind_ok h
  obtain ⟨⟨t₁, c₁⟩, -, h⟩ := bind_ok h
  obtain ⟨gocbRef, -, h⟩ := bind_ok h
  obtain ⟨⟨t₂, c₂⟩, -, h⟩ := bind_ok h
  obtain ⟨ttl, -, h⟩ := bind_ok h
  obtain ⟨⟨t₃, c₃⟩, -, h⟩ := bind_ok h
  obtain ⟨datSet, -, h⟩ := bind_ok h
  obtain ⟨⟨t₄, c₄⟩, -, h⟩ := bind_ok h
  obtain ⟨goId, -, h⟩ := bind_ok h
  obtain ⟨⟨t₅, c₅⟩, -, h⟩ := bind_ok h
  obtain ⟨time, -, h⟩ := bind_ok h
  obtain ⟨⟨t₆, c₆⟩, ht₆, h⟩ := bind_ok h
  obtain ⟨stNum, hstNum, h⟩ := bind_ok h
  obtain ⟨⟨t₇, c₇⟩, -, h⟩ := bind_ok h
  obtain ⟨sqNum, -, h⟩ := bind_ok h
  obtain ⟨⟨t₈, c₈⟩, -, h⟩ := bind_ok h
  obtain ⟨simulation, -, h⟩ := bind_ok h
  obtain ⟨⟨t₉, c₉⟩, -, h⟩ := bind_ok h
  obtain ⟨confRev, -, h⟩ := bind_ok h
  obtain ⟨⟨t₁₀, c₁₀⟩, -, h⟩ := bind_ok h
  obtain ⟨ndsCom, -, h⟩ := bind_ok h
  obtain ⟨⟨t₁₁, c₁₁⟩, -, h⟩ := bind_ok h
  obtain ⟨entries, -, h⟩ := bind_ok h
  obtain ⟨⟨allData, c₁₂⟩, -, h⟩ := bind_ok h
  obtain ⟨⟨security, c₁₃⟩, -, h⟩ := bind_ok h
  obtain ⟨-, -, h⟩ := bind_ok h
  cases h
  exact unsignedLenientU32_le ⟨t₆, (nextTag_ok ht₆).2, hstNum⟩

variable {frame : Bytes} {pdu : GoosePduView} {s s' : Subscriber}

theorem streamPdu_stNum_le {key : SubscriptionKey} (h : streamPdu key frame = some pdu) :
    pdu.stNum ≤ u32Max := by
  unfold streamPdu at h
  split at h
  · cases h
  split at h
  · cases h
  split at h
  · cases h
  rename_i v hparse
  split at h
  · cases h
  split at h
  · cases h
  split at h
  · cases h
  cases h
  exact GoosePduView.stNum_le hparse

/-- Nothing is counted as missed, and no other state is accepted. -/
def Keeps (s s' : Subscriber) : Prop :=
  s'.stats.statesMissed = s.stats.statesMissed ∧ (s'.state = s.state ∨ s'.state = none)

theorem Keeps.trans {t u : Subscriber} (h : Keeps s t) (h' : Keeps t u) : Keeps s u := by
  refine ⟨h'.1.trans h.1, ?_⟩
  rcases h'.2 with hsame | hnone
  · rw [hsame]
    exact h.2
  · exact Or.inr hnone

theorem InRange.keeps (h : InRange s) (hkeeps : Keeps s s') : InRange s' := by
  refine ⟨by rw [hkeeps.1]; exact h.missed, fun last hlast => ?_⟩
  rcases hkeeps.2 with hsame | hnone
  · rw [hsame] at hlast
    exact h.stNum last hlast
  · rw [hnone] at hlast
    cases hlast

theorem checkExpiry_keeps (now : Instant) (s : Subscriber) : Keeps s (s.checkExpiry now) := by
  unfold checkExpiry
  split
  · split
    · exact ⟨rfl, Or.inl rfl⟩
    · exact ⟨rfl, Or.inl rfl⟩
  · exact ⟨rfl, Or.inl rfl⟩

theorem reject_keeps (why : Invalid) (s : Subscriber) : Keeps s (s.reject why) := by
  cases why <;> exact ⟨rfl, Or.inl rfl⟩

theorem simulationPolicyAdmits_keeps (simulated : Bool) (s : Subscriber) :
    Keeps s (s.simulationPolicyAdmits simulated).2 := by
  unfold simulationPolicyAdmits
  cases s.cfg.simulation <;> cases simulated <;> simp only
  · exact ⟨rfl, Or.inl rfl⟩
  · split <;> exact ⟨rfl, Or.inl rfl⟩
  · split <;> exact ⟨rfl, Or.inl rfl⟩
  · split
    · exact ⟨rfl, Or.inl rfl⟩
    · exact ⟨rfl, Or.inr rfl⟩

theorem confRevAdmits_keeps (confRev : Nat) (s : Subscriber) :
    Keeps s (s.confRevAdmits confRev).2 := by
  unfold confRevAdmits
  split
  · split
    · exact ⟨rfl, Or.inl rfl⟩
    · simp only
      split <;> exact ⟨rfl, Or.inl rfl⟩
  · exact ⟨rfl, Or.inl rfl⟩

theorem noteCommissioning_missed (ndsCom : Bool) (s : Subscriber) :
    (s.noteCommissioning ndsCom).stats.statesMissed = s.stats.statesMissed ∧
      (s.noteCommissioning ndsCom).state = s.state := by
  unfold noteCommissioning
  split
  · exact ⟨rfl, rfl⟩
  · simp only
    split
    · exact ⟨rfl, rfl⟩
    · exact ⟨rfl, rfl⟩

theorem accept_missed (now : Instant) (pdu : GoosePduView) (stateChange : Bool) (s : Subscriber) :
    (s.accept now pdu stateChange).stats.statesMissed = s.stats.statesMissed ∧
      (s.accept now pdu stateChange).state = some (accepted now pdu) :=
  noteCommissioning_missed pdu.ndsCom _

theorem acceptNew_missed (now : Instant) (pdu : GoosePduView) (values : List Value)
    (s : Subscriber) : (s.acceptNew now pdu values).stats.statesMissed =
      (s.countMissedStates pdu.stNum).stats.statesMissed :=
  (accept_missed now pdu true _).1

theorem countMissedStates_le {stNum : Nat} (h : s.stats.statesMissed ≤ u64Max) :
    (s.countMissedStates stNum).stats.statesMissed ≤ u64Max := by
  unfold countMissedStates
  split
  · simp only
    split
    · exact Nat.min_le_left _ _
    · exact h
  · exact h

theorem InRange.step {op : Op} (h : InRange s) (hstep : step s op = some s') : InRange s' := by
  cases op with
  | timeout now =>
    cases hstep
    exact h.keeps (checkExpiry_keeps now s)
  | poll =>
    cases hstep
    exact h.keeps ⟨rfl, Or.inl rfl⟩
  | resetSimulation =>
    cases hstep
    exact h.keeps ⟨rfl, Or.inr rfl⟩
  | frame now frame =>
    cases hstep
    have h₀ := h.keeps (checkExpiry_keeps now s)
    unfold onFrame
    generalize s.checkExpiry now = s₀ at h₀
    have hreception := onLink_cases now frame s₀
    generalize s₀.onLink now frame = s' at hreception ⊢
    cases hreception with
    | other => exact h₀.keeps ⟨rfl, Or.inl rfl⟩
    | rejected why => exact h₀.keeps (reject_keeps why s₀)
    | policies pdu hpdu =>
      have hsim := simulationPolicyAdmits_keeps pdu.simulation s₀
      have htreatment := onPdu_cases now pdu s₀
      generalize s₀.onPdu now pdu = s' at htreatment ⊢
      cases htreatment with
      | simulationDropped _ ht =>
        rw [ht] at hsim
        exact h₀.keeps hsim
      | confRevDropped t _ ht hu =>
        have hconf := confRevAdmits_keeps pdu.confRev t
        rw [ht] at hsim
        rw [hu] at hconf
        exact h₀.keeps (hsim.trans hconf)
      | admitted t u ht hu =>
        have hconf := confRevAdmits_keeps pdu.confRev t
        rw [ht] at hsim
        rw [hu] at hconf
        have h₁ := h₀.keeps (hsim.trans hconf)
        have hstNum : ∀ last, some (accepted now pdu) = some last → last.stNum ≤ u32Max := by
          rintro _ ⟨⟩
          exact streamPdu_stNum_le hpdu
        have hdecision := onAdmitted_cases now pdu u
        generalize u.onAdmitted now pdu = s' at hdecision ⊢
        cases hdecision with
        | replay => exact h₁.keeps (reject_keeps _ u)
        | undecodable e => exact h₁.keeps (reject_keeps _ u)
        | new values =>
          refine ⟨?_, by rw [acceptNew, (accept_missed now pdu true _).2]; exact hstNum⟩
          rw [acceptNew_missed]
          exact countMissedStates_le h₁.missed
        | retransmission =>
          refine ⟨?_, by
            rw [acceptRetransmission, (accept_missed now pdu false _).2]; exact hstNum⟩
          rw [acceptRetransmission, (accept_missed now pdu false _).1]
          exact h₁.missed

theorem inRange_run {cfg : SubscriberConfig} {ops : List Op}
    (hrun : run step (new cfg) ops = some s) : InRange s := by
  have hnew : InRange (new cfg) := ⟨Nat.zero_le _, fun last hlast => by cases hlast⟩
  exact invariant_run (C := fun _ _ => True) (fun _ _ _ h _ hstep => h.step hstep) hnew
    (meets_of_forall (fun _ _ => trivial) _ _) hrun

/-! ### The count -/

/-- A frame whose state is accepted while the state before it is live: it is another state of
the same source. -/
structure Succeeds (now : Instant) (frame : Bytes) (last : Accepted) (pdu : GoosePduView)
    (s : Subscriber) : Prop where
  state : s.state = some last
  live : s.expired = false
  alive : now < last.expiresAt
  shown : streamPdu s.cfg.key frame = some pdu
  source : ¬ (s.cfg.simulation = .preferred ∧ s.simulationActive = false ∧ pdu.simulation = true)
  accepted : (s.onFrame now frame).state = some (Subscriber.accepted now pdu)
  other : pdu.stNum ≠ last.stNum

theorem Succeeds.counts {now : Instant} {last : Accepted} (h : Succeeds now frame last pdu s)
    (hrange : InRange s) : (pdu.stNum > last.stNum ∨ wrapped last.stNum pdu.stNum = true) ∧
      (s.onFrame now frame).stats.statesMissed =
        min u64Max (s.stats.statesMissed + missedStates last.stNum pdu.stNum) := by
  have haccepted := h.accepted
  have halive : ∀ l, s.state = some l → now < l.expiresAt := by
    intro l hl
    rw [h.state] at hl
    cases hl
    exact h.alive
  rw [onFrame, checkExpiry_alive halive, onLink_of_streamPdu h.shown] at haccepted ⊢
  have hnot : ∀ t : Subscriber, t.state = some last ∨ t.state = none →
      t.state ≠ some (Subscriber.accepted now pdu) := by
    rintro t (ht | ht) heq
    · rw [ht] at heq
      exact h.other (congrArg Accepted.stNum (Option.some.inj heq)).symm
    · rw [ht] at heq
      cases heq
  have hsim := simulationPolicyAdmits_keeps pdu.simulation s
  have hsimBeliefs := simulationPolicyAdmits_beliefs pdu.simulation s
  rw [if_neg h.source] at hsimBeliefs
  have htreatment := onPdu_cases now pdu s
  generalize s.onPdu now pdu = s' at htreatment haccepted ⊢
  cases htreatment with
  | simulationDropped _ ht =>
    rw [ht] at hsim
    exact absurd haccepted (hnot _ (h.state ▸ hsim.2))
  | confRevDropped t _ ht hu =>
    have hconf := confRevAdmits_keeps pdu.confRev t
    rw [ht] at hsim
    rw [hu] at hconf
    exact absurd haccepted (hnot _ (h.state ▸ (hsim.trans hconf).2))
  | admitted t u ht hu =>
    have hconf := confRevAdmits_keeps pdu.confRev t
    have hconfBeliefs := confRevAdmits_beliefs pdu.confRev t
    rw [ht] at hsim hsimBeliefs
    rw [hu] at hconf hconfBeliefs
    have hkeeps := hsim.trans hconf
    have hbeliefs := hconfBeliefs.trans hsimBeliefs
    have hstate : u.state = some last := (congrArg Beliefs.state hbeliefs).trans h.state
    have hexpired : u.expired = false := (congrArg Beliefs.expired hbeliefs).trans h.live
    have hdecision := onAdmitted_cases now pdu u
    generalize u.onAdmitted now pdu = s' at hdecision haccepted ⊢
    cases hdecision with
    | replay =>
      exact absurd haccepted (hnot _ (h.state ▸ (hkeeps.trans (reject_keeps _ u)).2))
    | undecodable e =>
      exact absurd haccepted (hnot _ (h.state ▸ (hkeeps.trans (reject_keeps _ u)).2))
    | retransmission hverdict =>
      rw [verdict, hstate, hexpired] at hverdict
      simp only [judge, if_neg h.other] at hverdict
      split at hverdict <;> cases hverdict
    | new values hverdict =>
      rw [verdict, hstate, hexpired] at hverdict
      simp only [judge, if_neg h.other] at hverdict
      split at hverdict
      · rename_i hnew
        refine ⟨hnew, ?_⟩
        rw [acceptNew_missed, countMissedStates, hstate, hexpired, ← hkeeps.1]
        simp only
        split
        · rfl
        · rename_i hzero
          have hle := hkeeps.1 ▸ hrange.missed
          rw [Nat.eq_zero_of_not_pos hzero, Nat.add_zero, Nat.min_eq_right hle]
      · cases hverdict

/-- In every run: the amount added for a state accepted while the one before it is live is the
number of values between the two if and only if the new value is ahead, or the last one was
the top of its range, or the counter is at its own top either way. -/
theorem statesMissed_between_iff {cfg : SubscriberConfig} {ops : List Op} {s : Subscriber}
    {now : Instant} {frame : Bytes} {last : Accepted} {pdu : GoosePduView}
    (hrun : run step (new cfg) ops = some s) (h : Succeeds now frame last pdu s) :
    (s.onFrame now frame).stats.statesMissed =
        min u64Max (s.stats.statesMissed + (passed u32Max last.stNum pdu.stNum).card) ↔
      last.stNum < pdu.stNum ∨ last.stNum = u32Max ∨
        u64Max ≤ s.stats.statesMissed + (pdu.stNum - 1) := by
  have hrange := inRange_run hrun
  have hlast := hrange.stNum last h.state
  obtain ⟨htaken, hcount⟩ := h.counts hrange
  rw [hcount, missedStates]
  rcases Nat.lt_or_gt_of_ne h.other with hbehind | hahead
  · have hwrapped : wrapped last.stNum pdu.stNum = true := by
      rcases htaken with hgt | hwrapped
      · exact absurd hgt (Nat.not_lt.mpr (Nat.le_of_lt hbehind))
      · exact hwrapped
    rw [if_pos hwrapped, card_passed_round hbehind hlast]
    omega
  · have hwrapped : ¬ wrapped last.stNum pdu.stNum = true := by
      have hnew := streamPdu_stNum_le h.shown
      rw [wrapped, decide_eq_true_eq]
      unfold u32Max seqWrapWindow at *
      omega
    rw [if_neg hwrapped, card_passed_ahead hahead (streamPdu_stNum_le h.shown)]
    omega

/-- Two states further on, one is missed. -/
theorem statesMissed_between_iff_ahead :
    let s := (new { key := ⟨.gooseBase, 1, ascii "ref"⟩ }).onFrame 0 (sampleFrame 5 0 false 1)
    let t := s.onFrame 0 (sampleFrame 7 0 false 1)
    ∃ (last : Accepted) (pdu : GoosePduView), last.stNum = 5 ∧ pdu.stNum = 7 ∧
      (t.stats.statesMissed =
          min u64Max (s.stats.statesMissed + (passed u32Max last.stNum pdu.stNum).card) ↔
        last.stNum < pdu.stNum ∨ last.stNum = u32Max ∨
          u64Max ≤ s.stats.statesMissed + (pdu.stNum - 1)) := by
  intro s t
  refine ⟨s.state.get (by decide +kernel),
    (streamPdu s.cfg.key (sampleFrame 7 0 false 1)).get (by decide +kernel),
    by decide +kernel, by decide +kernel, ?_⟩
  have hrun : run step (new { key := ⟨.gooseBase, 1, ascii "ref"⟩ })
      [.frame 0 (sampleFrame 5 0 false 1)] = some s := rfl
  have hnext : Succeeds 0 (sampleFrame 7 0 false 1) (s.state.get (by decide +kernel))
      ((streamPdu s.cfg.key (sampleFrame 7 0 false 1)).get (by decide +kernel)) s :=
    ⟨(Option.some_get _).symm, by decide +kernel, by decide +kernel, (Option.some_get _).symm,
      by decide +kernel, by decide +kernel, by decide +kernel⟩
  exact statesMissed_between_iff hrun hnext

/-- After a wrap from the value below the top, the top itself is not counted. -/
theorem statesMissed_skips_top :
    let s := (new { key := ⟨.gooseBase, 1, ascii "ref"⟩ }).onFrame 0
      (sampleFrame 4294967294 0 false 1)
    let t := s.onFrame 0 (sampleFrame 1 0 false 1)
    s.state.map Accepted.stNum = some 4294967294 ∧ t.state.map Accepted.stNum = some 1 ∧
      s.stats.statesMissed = 0 ∧ t.stats.statesMissed = 0 ∧
      (passed u32Max 4294967294 1).card = 1 := by
  refine ⟨by decide +kernel, by decide +kernel, by decide +kernel, by decide +kernel, ?_⟩
  rw [card_passed_round (by decide) (by decide)]
  rfl

end Iec61850.Goose.Subscriber
