import Iec61850.Goose.Counters

/-!
# The effect of a frame

What a frame does to what the subscriber believes of its source, and to the events
(`FrameEffect`): a frame that is not judged changes little and raises no acceptance; one that
is accepted was judged against the beliefs that the expiry check and the simulation policy
left.
-/

namespace Iec61850.Goose.Subscriber

open Theory Ber Link

/-- What a subscriber believes of the source it follows, its `confRev` apart. -/
structure Beliefs where
  state : Option Accepted
  ndsCom : Bool
  simulationActive : Bool
  stateChangedAt : Option Instant
  expired : Bool

def beliefs (s : Subscriber) : Beliefs :=
  ⟨s.state, s.ndsCom, s.simulationActive, s.stateChangedAt, s.expired⟩

/-- Nothing is believed of the source that takes over. -/
def Beliefs.takenOver : Beliefs := ⟨none, false, true, none, false⟩

/-- The `timeAllowedtoLive` of the last accepted state has run out. -/
def due (now : Instant) (s : Subscriber) : Bool :=
  match s.state with
  | some last => decide (now ≥ last.expiresAt)
  | none => false

/-! ### What each part leaves alone -/

variable (now : Instant)

theorem checkExpiry_beliefs (s : Subscriber) :
    (s.checkExpiry now).beliefs = { s.beliefs with expired := s.expired || s.due now } := by
  unfold checkExpiry due beliefs
  cases hstate : s.state with
  | none => simp [hstate]
  | some last =>
    by_cases hdue : (!s.expired) = true ∧ now ≥ last.expiresAt
    · simp only [if_pos hdue, emit]
      simp [hdue.2]
    · simp only [if_neg hdue, hstate]
      cases hexpired : s.expired
      · simp only [hexpired, Bool.not_false, true_and] at hdue
        simp [hdue]
      · simp

theorem checkExpiry_confRev (s : Subscriber) :
    (s.checkExpiry now).confRev = s.confRev := by
  unfold checkExpiry
  split
  · split <;> rfl
  · rfl

theorem checkExpiry_cfg (s : Subscriber) : (s.checkExpiry now).cfg = s.cfg := by
  unfold checkExpiry
  split
  · split <;> rfl
  · rfl

/-- Nothing is accepted from one state to the other. -/
def Quiet (s s' : Subscriber) : Prop :=
  ∃ es, s'.events.history = s.events.history ++ es ∧ ∀ e ∈ es, e.isAcceptance = false

theorem quiet_of_events {s s' : Subscriber} (h : s'.events = s.events) : Quiet s s' :=
  ⟨[], by rw [h, List.append_nil], by simp⟩

theorem Quiet.trans {s t u : Subscriber} (h : Quiet s t) (h' : Quiet t u) : Quiet s u := by
  obtain ⟨es, hes, hquiet⟩ := h
  obtain ⟨fs, hfs, hquiet'⟩ := h'
  refine ⟨es ++ fs, by rw [hfs, hes, List.append_assoc], fun e he => ?_⟩
  rcases List.mem_append.mp he with he | he
  · exact hquiet e he
  · exact hquiet' e he

theorem Quiet.raised {s s' : Subscriber} (h : Quiet s s') :
    ∀ e ∈ raised s s', e.isAcceptance = false := by
  obtain ⟨es, hes, hquiet⟩ := h
  rw [Subscriber.raised, hes, List.drop_left]
  exact hquiet

theorem Quiet.grows {s s' : Subscriber} (h : Quiet s s') :
    s.events.history <+: s'.events.history := by
  obtain ⟨es, hes, -⟩ := h
  exact ⟨es, hes.symm⟩

theorem checkExpiry_quiet (s : Subscriber) : Quiet s (s.checkExpiry now) := by
  unfold checkExpiry
  split
  · split
    · exact ⟨[.expired], rfl, by simp [SubscriberEvent.isAcceptance, SubscriberEvent.isNewState,
        SubscriberEvent.isRetransmission]⟩
    · exact quiet_of_events rfl
  · exact quiet_of_events rfl

theorem Inert.quiet {s s' : Subscriber} (h : Inert s s') : Quiet s s' := by
  rcases h.events with ⟨hevents, -⟩ | ⟨e, he, hevents, -⟩
  · exact quiet_of_events hevents
  · refine ⟨[e], by rw [hevents]; rfl, ?_⟩
    simp only [SubscriberEvent.isRemark, Bool.and_eq_true, Bool.not_eq_true'] at he
    simpa using he.1

/-- The simulation policy lets the first simulated frame take over, and changes nothing else. -/
theorem simulationPolicyAdmits_beliefs (simulated : Bool) (s : Subscriber) :
    (s.simulationPolicyAdmits simulated).2.beliefs =
      if s.cfg.simulation = .preferred ∧ s.simulationActive = false ∧ simulated = true then
        Beliefs.takenOver else s.beliefs := by
  unfold simulationPolicyAdmits
  cases s.cfg.simulation <;> cases simulated <;> simp only
  · rfl
  · split <;> rfl
  · simp only [Bool.false_eq_true, and_false, if_false]
    split <;> rfl
  · split
    · rename_i hactive
      simp [hactive]
    · rename_i hactive
      simp only [Bool.not_eq_true] at hactive
      simp [hactive, beliefs, Beliefs.takenOver, emit, forgetSource]

theorem simulationPolicyAdmits_confRev (simulated : Bool) (s : Subscriber) :
    (s.simulationPolicyAdmits simulated).2.confRev = s.confRev := by
  unfold simulationPolicyAdmits
  cases s.cfg.simulation <;> cases simulated <;> simp only
  · split <;> rfl
  · split <;> rfl
  · split <;> rfl

theorem confRevAdmits_beliefs (confRev : Nat) (s : Subscriber) :
    (s.confRevAdmits confRev).2.beliefs = s.beliefs := by
  unfold confRevAdmits
  split
  · split
    · rfl
    · simp only
      split <;> rfl
  · rfl

theorem confRevAdmits_confRev (confRev : Nat) (s : Subscriber) :
    (s.confRevAdmits confRev).2.confRev = some (s.confRev.getD confRev) := by
  unfold confRevAdmits
  split
  · rename_i expected hexpected
    rw [hexpected]
    split
    · rfl
    · simp only
      split <;> rfl
  · rename_i hnone
    rw [hnone]
    rfl

/-! ### An accepted frame shows -/

theorem acceptNew_history (pdu : GoosePduView) (values : List Value)
    (s : Subscriber) : ∃ more, (s.acceptNew now pdu values).events.history =
      s.events.history ++ .newState pdu.stNum pdu.t values pdu.simulation :: more := by
  have hmissed : (s.countMissedStates pdu.stNum).events = s.events := by
    unfold countMissedStates
    split
    · simp only
      split <;> rfl
    · rfl
  obtain ⟨more, hmore⟩ := (noteCommissioning_inert pdu.ndsCom _).quiet.grows
  refine ⟨more, ?_⟩
  rw [acceptNew, accept, ← hmore]
  simp [emit, hmissed]

theorem acceptRetransmission_history (pdu : GoosePduView) (s : Subscriber) :
    ∃ more, (s.acceptRetransmission now pdu).events.history =
      s.events.history ++ .retransmission pdu.stNum pdu.sqNum :: more := by
  obtain ⟨more, hmore⟩ := (noteCommissioning_inert pdu.ndsCom _).quiet.grows
  refine ⟨more, ?_⟩
  rw [acceptRetransmission, accept, ← hmore]
  simp [emit]

/-! ### The effect -/

/-- The subscriber that judges a frame: both policies admitted it. -/
structure Judging (now : Instant) (pdu : GoosePduView) (s u : Subscriber) : Prop where
  beliefs : u.beliefs = ((s.checkExpiry now).simulationPolicyAdmits pdu.simulation).2.beliefs
  confRev : u.confRev = some (s.confRev.getD pdu.confRev)
  quiet : Quiet s u

/-- What a frame does: it never gets to the policies, it gets there and is not accepted, or it
is accepted. -/
inductive FrameEffect (now : Instant) (frame : Bytes) (s : Subscriber) : Subscriber → Prop
  | unseen (s' : Subscriber) (hpdu : streamPdu s.cfg.key frame = none) (hquiet : Quiet s s')
      (hbeliefs : s'.beliefs = (s.checkExpiry now).beliefs) (hconf : s'.confRev = s.confRev) :
      FrameEffect now frame s s'
  | dropped (pdu : GoosePduView) (s' : Subscriber) (hpdu : streamPdu s.cfg.key frame = some pdu)
      (hquiet : Quiet s s')
      (hbeliefs : s'.beliefs =
        ((s.checkExpiry now).simulationPolicyAdmits pdu.simulation).2.beliefs)
      (hconf : s'.confRev = s.confRev ∨ s'.confRev = some (s.confRev.getD pdu.confRev)) :
      FrameEffect now frame s s'
  | newState (pdu : GoosePduView) (u : Subscriber) (values : List Value)
      (hpdu : streamPdu s.cfg.key frame = some pdu) (hjudging : Judging now pdu s u)
      (hverdict : u.verdict pdu = .new) : FrameEffect now frame s (u.acceptNew now pdu values)
  | retransmission (pdu : GoosePduView) (u : Subscriber)
      (hpdu : streamPdu s.cfg.key frame = some pdu) (hjudging : Judging now pdu s u)
      (hverdict : u.verdict pdu = .retransmission) :
      FrameEffect now frame s (u.acceptRetransmission now pdu)

theorem onFrame_effect (frame : Bytes) (s : Subscriber) :
    FrameEffect now frame s (s.onFrame now frame) := by
  have hcfg : (s.checkExpiry now).cfg.key = s.cfg.key := by rw [checkExpiry_cfg]
  have hconf := checkExpiry_confRev now s
  have hquiet := checkExpiry_quiet now s
  unfold onFrame
  generalize hs₀ : s.checkExpiry now = s₀ at *
  have hreception := onLink_cases now frame s₀
  generalize s₀.onLink now frame = s' at hreception ⊢
  cases hreception with
  | other hnone =>
    rw [hcfg] at hnone
    exact .unseen _ hnone (hquiet.trans s₀.other_inert.quiet) (by rw [hs₀]; rfl) hconf
  | rejected why hnone =>
    rw [hcfg] at hnone
    exact .unseen _ hnone (hquiet.trans (s₀.reject_inert why).quiet) (by rw [hs₀]; rfl) hconf
  | policies pdu hpdu =>
    rw [hcfg] at hpdu
    have hsim := s₀.simulationPolicyAdmits_inert pdu.simulation
    have hsimConf := simulationPolicyAdmits_confRev pdu.simulation s₀
    have htreatment := onPdu_cases now pdu s₀
    generalize s₀.onPdu now pdu = s' at htreatment ⊢
    cases htreatment with
    | simulationDropped _ h =>
      rw [h] at hsim hsimConf
      exact .dropped pdu _ hpdu (hquiet.trans hsim.quiet) (by rw [hs₀, h])
        (Or.inl (hsimConf.trans hconf))
    | confRevDropped t _ h h' =>
      have hbeliefs := confRevAdmits_beliefs pdu.confRev t
      have hadopted := confRevAdmits_confRev pdu.confRev t
      have hinert := t.confRevAdmits_inert pdu.confRev
      rw [h] at hsim hsimConf
      rw [h'] at hbeliefs hadopted hinert
      rw [hsimConf, hconf] at hadopted
      exact .dropped pdu _ hpdu ((hquiet.trans hsim.quiet).trans hinert.quiet)
        (by rw [hs₀, h]; exact hbeliefs) (Or.inr hadopted)
    | admitted t u h h' =>
      have hbeliefs := confRevAdmits_beliefs pdu.confRev t
      have hadopted := confRevAdmits_confRev pdu.confRev t
      have hinert := t.confRevAdmits_inert pdu.confRev
      rw [h] at hsim hsimConf
      rw [h'] at hbeliefs hadopted hinert
      rw [hsimConf, hconf] at hadopted
      have hjudging : Judging now pdu s u :=
        ⟨by rw [hs₀, h]; exact hbeliefs, hadopted, (hquiet.trans hsim.quiet).trans hinert.quiet⟩
      have hdecision := onAdmitted_cases now pdu u
      generalize u.onAdmitted now pdu = s' at hdecision ⊢
      cases hdecision with
      | replay =>
        exact .dropped pdu _ hpdu (hjudging.quiet.trans (u.reject_inert _).quiet)
          hjudging.beliefs (Or.inr hadopted)
      | undecodable e =>
        exact .dropped pdu _ hpdu (hjudging.quiet.trans (u.reject_inert _).quiet)
          hjudging.beliefs (Or.inr hadopted)
      | new values hverdict => exact .newState pdu u values hpdu hjudging hverdict
      | retransmission hverdict => exact .retransmission pdu u hpdu hjudging hverdict

end Iec61850.Goose.Subscriber
