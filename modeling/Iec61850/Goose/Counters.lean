import Iec61850.Goose.SubscriberSteps
import Iec61850.Theory.Runs
import Iec61850.Theory.Separation

/-!
# The subscriber's counters

Every frame moves exactly one of the outcome counters (`onFrame_bumps`). Over runs, the
counters of accepted frames agree with the events raised, every expiry is followed by an
acceptance before the next one, and no event is lost without being counted
(`Accounted`, `counters_conserved`).
-/

namespace Iec61850.Goose

open Theory Ber Link

/-! ### One counter for each frame -/

/-- How a frame can end, each with a counter of its own. -/
inductive Tally where
  | accepted
  | replay
  | malformed
  | simulationMismatch
  | memberCountMismatch
  | simulationDropped
  | confRevDropped
  | otherStream
  deriving DecidableEq, Repr

/-- The counter of an outcome. -/
def Tally.of (st : SubscriberStats) : Tally → Nat
  | .accepted => st.accepted
  | .replay => st.replays
  | .malformed => st.malformed
  | .simulationMismatch => st.simulationMismatches
  | .memberCountMismatch => st.memberCountMismatches
  | .simulationDropped => st.simulationDropped
  | .confRevDropped => st.confRevDropped
  | .otherStream => st.otherStream

/-- The outcome a rejection is counted under. -/
def Invalid.tally : Invalid → Tally
  | .malformed _ => .malformed
  | .simulationMismatch => .simulationMismatch
  | .replay _ _ => .replay
  | .memberCountMismatch => .memberCountMismatch

namespace Subscriber

/-- No outcome counter moves. -/
def SameTallies (s s' : Subscriber) : Prop := ∀ k : Tally, k.of s'.stats = k.of s.stats

/-- One outcome counter moves, by one. -/
def Bumps (k : Tally) (s s' : Subscriber) : Prop :=
  ∀ k' : Tally, k'.of s'.stats = if k' = k then satInc (k'.of s.stats) else k'.of s.stats

theorem SameTallies.bumps {k : Tally} {s t u : Subscriber} (h : SameTallies s t) (h' : Bumps k t u) :
    Bumps k s u := by
  intro k'
  rw [h' k', h k']

theorem Bumps.same {k : Tally} {s t u : Subscriber} (h : Bumps k s t) (h' : SameTallies t u) :
    Bumps k s u := by
  intro k'
  rw [h' k', h k']

theorem checkExpiry_same (now : Instant) (s : Subscriber) : SameTallies s (s.checkExpiry now) := by
  intro k
  unfold checkExpiry
  split
  · split
    · cases k <;> rfl
    · rfl
  · rfl

theorem other_bumps (s : Subscriber) : Bumps .otherStream s s.other := by
  intro k
  cases k <;> rfl

theorem reject_bumps (why : Invalid) (s : Subscriber) : Bumps why.tally s (s.reject why) := by
  intro k
  cases why <;> cases k <;> rfl

theorem dropSimulation_bumps (s : Subscriber) : Bumps .simulationDropped s s.dropSimulation := by
  intro k
  cases k <;> rfl

theorem simulationPolicyAdmits_tally (simulated : Bool) (s : Subscriber) :
    ((s.simulationPolicyAdmits simulated).1 = true ∧
        SameTallies s (s.simulationPolicyAdmits simulated).2) ∨
      ((s.simulationPolicyAdmits simulated).1 = false ∧
        Bumps .simulationDropped s (s.simulationPolicyAdmits simulated).2) := by
  unfold simulationPolicyAdmits
  cases s.cfg.simulation <;> cases simulated
  · exact Or.inl ⟨rfl, fun k => by cases k <;> rfl⟩
  · simp only
    split
    · exact Or.inr ⟨rfl, s.dropSimulation_bumps⟩
    · exact Or.inr ⟨rfl, fun k => by cases k <;> rfl⟩
  · simp only
    split
    · exact Or.inr ⟨rfl, s.dropSimulation_bumps⟩
    · exact Or.inl ⟨rfl, fun _ => rfl⟩
  · simp only
    split
    · exact Or.inl ⟨rfl, fun _ => rfl⟩
    · exact Or.inl ⟨rfl, fun k => by cases k <;> rfl⟩

theorem confRevAdmits_tally (confRev : Nat) (s : Subscriber) :
    ((s.confRevAdmits confRev).1 = true ∧ SameTallies s (s.confRevAdmits confRev).2) ∨
      ((s.confRevAdmits confRev).1 = false ∧
        Bumps .confRevDropped s (s.confRevAdmits confRev).2) := by
  unfold confRevAdmits
  cases s.confRev with
  | none => exact Or.inl ⟨rfl, fun k => by cases k <;> rfl⟩
  | some expected =>
    simp only
    split
    · exact Or.inl ⟨rfl, fun k => by cases k <;> rfl⟩
    · split
      · exact Or.inr ⟨rfl, fun k => by cases k <;> rfl⟩
      · exact Or.inr ⟨rfl, fun k => by cases k <;> rfl⟩

theorem countMissedStates_same (stNum : Nat) (s : Subscriber) :
    SameTallies s (s.countMissedStates stNum) := by
  intro k
  unfold countMissedStates
  split
  · simp only
    split
    · cases k <;> rfl
    · rfl
  · rfl

theorem noteCommissioning_same (ndsCom : Bool) (s : Subscriber) :
    SameTallies s (s.noteCommissioning ndsCom) := by
  intro k
  unfold noteCommissioning
  split
  · rfl
  · simp only
    split
    · cases k <;> rfl
    · cases k <;> rfl

theorem accept_bumps (now : Instant) (pdu : GoosePduView) (stateChange : Bool) (s : Subscriber) :
    Bumps .accepted s (s.accept now pdu stateChange) := by
  refine Bumps.same (fun k => ?_) (noteCommissioning_same pdu.ndsCom _)
  cases k <;> rfl

theorem acceptNew_bumps (now : Instant) (pdu : GoosePduView) (values : List Value)
    (s : Subscriber) : Bumps .accepted s (s.acceptNew now pdu values) := by
  refine SameTallies.bumps (fun k => ?_) (accept_bumps now pdu true _)
  rw [← countMissedStates_same pdu.stNum s k]
  cases k <;> rfl

theorem acceptRetransmission_bumps (now : Instant) (pdu : GoosePduView) (s : Subscriber) :
    Bumps .accepted s (s.acceptRetransmission now pdu) := by
  refine SameTallies.bumps (fun k => ?_) (accept_bumps now pdu false _)
  cases k <;> rfl

theorem onFrame_bumps (now : Instant) (frame : Bytes) (s : Subscriber) :
    ∃ k, Bumps k s (s.onFrame now frame) := by
  suffices h : ∃ k, Bumps k (s.checkExpiry now) (s.onFrame now frame) by
    obtain ⟨k, hk⟩ := h
    exact ⟨k, (checkExpiry_same now s).bumps hk⟩
  unfold onFrame
  generalize s.checkExpiry now = s
  have hreception := onLink_cases now frame s
  generalize s.onLink now frame = s' at hreception ⊢
  cases hreception with
  | other => exact ⟨_, s.other_bumps⟩
  | rejected why => exact ⟨_, s.reject_bumps why⟩
  | policies pdu =>
    have hsim := s.simulationPolicyAdmits_tally pdu.simulation
    have htreatment := onPdu_cases now pdu s
    generalize s.onPdu now pdu = s' at htreatment ⊢
    cases htreatment with
    | simulationDropped _ h =>
      rw [h] at hsim
      exact ⟨_, (hsim.resolve_left (by simp)).2⟩
    | confRevDropped t _ h h' =>
      have hconf := t.confRevAdmits_tally pdu.confRev
      rw [h] at hsim
      rw [h'] at hconf
      exact ⟨_, (hsim.resolve_right (by simp)).2.bumps (hconf.resolve_left (by simp)).2⟩
    | admitted t u h h' =>
      have hconf := t.confRevAdmits_tally pdu.confRev
      rw [h] at hsim
      rw [h'] at hconf
      have hsame : SameTallies s u := by
        intro k
        rw [(hconf.resolve_right (by simp)).2 k, (hsim.resolve_right (by simp)).2 k]
      have hdecision := onAdmitted_cases now pdu u
      generalize u.onAdmitted now pdu = s' at hdecision ⊢
      cases hdecision with
      | replay => exact ⟨_, hsame.bumps (u.reject_bumps _)⟩
      | undecodable e => exact ⟨_, hsame.bumps (u.reject_bumps _)⟩
      | new values => exact ⟨_, hsame.bumps (acceptNew_bumps now pdu values u)⟩
      | retransmission => exact ⟨_, hsame.bumps (acceptRetransmission_bumps now pdu u)⟩

end Subscriber

/-! ### Events and counters -/

namespace Subscriber

open SubscriberEvent

/-- What is done with a subscriber. -/
inductive Op where
  | frame (now : Instant) (bytes : Bytes)
  | timeout (now : Instant)
  | poll
  | resetSimulation
  deriving DecidableEq

/-- One call. -/
def step (s : Subscriber) : Op → Option Subscriber
  | .frame now bytes => some (s.onFrame now bytes)
  | .timeout now => some (s.onTimeout now)
  | .poll => some s.pollEvent.2
  | .resetSimulation => some s.resetSimulation

/-- The event a call hands to the application. -/
def polled (s : Subscriber) : Op → List SubscriberEvent
  | .poll => s.pollEvent.1.toList
  | _ => []

/-- Between any two expiries something was accepted. -/
def ExpiriesApart (history : List SubscriberEvent) : Prop :=
  Separated (fun e => e.isExpired = true) (fun e => e.isAcceptance = true) history

/-- Since every expiry something was accepted. -/
def Revived (history : List SubscriberEvent) : Prop :=
  Settled (fun e => e.isExpired = true) (fun e => e.isAcceptance = true) history

/-- The counters, the events and the liveness of a subscriber of which `taken` events have
been polled agree. -/
structure Accounted (taken : Nat) (s : Subscriber) : Prop where
  eventsDropped : s.stats.eventsDropped = s.events.dropped
  conserved : s.events.Conserved taken
  stateChanges : s.stats.stateChanges = min u64Max (s.events.history.countP isNewState)
  retransmissions :
    s.stats.retransmissions = min u64Max (s.events.history.countP isRetransmission)
  accepted : s.stats.accepted = min u64Max
    (s.events.history.countP isNewState + s.events.history.countP isRetransmission)
  expiries : s.stats.expiries = min u64Max (s.events.history.countP isExpired)
  apart : ExpiriesApart s.events.history
  revived : s.isLive = true → Revived s.events.history

theorem accounted_new (cfg : SubscriberConfig) : Accounted 0 (new cfg) where
  eventsDropped := rfl
  conserved := EventQueue.conserved_new _
  stateChanges := rfl
  retransmissions := rfl
  accepted := rfl
  expiries := rfl
  apart := separated_nil
  revived := fun _ => settled_nil

/-- A step that accepts nothing and lets nothing expire: at most one remark is raised. -/
structure Inert (s s' : Subscriber) : Prop where
  events : (s'.events = s.events ∧ s'.stats.eventsDropped = s.stats.eventsDropped) ∨
    ∃ e : SubscriberEvent, e.isRemark = true ∧ s'.events = s.events.push e ∧
      s'.stats.eventsDropped = (s.events.push e).dropped
  stateChanges : s'.stats.stateChanges = s.stats.stateChanges
  retransmissions : s'.stats.retransmissions = s.stats.retransmissions
  accepted : s'.stats.accepted = s.stats.accepted
  expiries : s'.stats.expiries = s.stats.expiries
  live : s'.isLive = true → s.isLive = true

variable {taken : Nat} {s s' : Subscriber}

theorem Accounted.inert (h : Accounted taken s) (hstep : Inert s s') : Accounted taken s' := by
  obtain ⟨hevents, hchanges, hretransmissions, haccepted, hexpiries, hlive⟩ := hstep
  rcases hevents with ⟨hevents, hdropped⟩ | ⟨e, he, hevents, hdropped⟩
  · refine ⟨?_, ?_, ?_, ?_, ?_, ?_, ?_, fun hl => ?_⟩
    · rw [hdropped, hevents]
      exact h.eventsDropped
    · rw [hevents]
      exact h.conserved
    · rw [hchanges, hevents]
      exact h.stateChanges
    · rw [hretransmissions, hevents]
      exact h.retransmissions
    · rw [haccepted, hevents]
      exact h.accepted
    · rw [hexpiries, hevents]
      exact h.expiries
    · rw [hevents]
      exact h.apart
    · rw [hevents]
      exact h.revived (hlive hl)
  · simp only [isRemark, isAcceptance, Bool.and_eq_true, Bool.not_eq_true', Bool.or_eq_false_iff]
      at he
    obtain ⟨⟨hnew, hretransmission⟩, hexpired⟩ := he
    have hquiet : ¬ e.isExpired = true := by simp [hexpired]
    refine ⟨?_, ?_, ?_, ?_, ?_, ?_, ?_, fun hl => ?_⟩
    · rw [hdropped, hevents]
    · rw [hevents]
      exact h.conserved.push e
    · rw [hchanges, hevents, h.stateChanges]
      simp [hnew]
    · rw [hretransmissions, hevents, h.retransmissions]
      simp [hretransmission]
    · rw [haccepted, hevents, h.accepted]
      simp [hnew, hretransmission]
    · rw [hexpiries, hevents, h.expiries]
      simp [hexpired]
    · rw [hevents]
      exact h.apart.concat hquiet
    · rw [hevents]
      exact (h.revived (hlive hl)).concat hquiet

/-- The step that accepts a frame raises the event of the acceptance and moves two counters. -/
theorem Accounted.acceptance {e : SubscriberEvent} (h : Accounted taken s)
    (he : e.isAcceptance = true) (hexpired : e.isExpired = false)
    (hevents : s'.events = s.events.push e)
    (hdropped : s'.stats.eventsDropped = (s.events.push e).dropped)
    (hchanges : s'.stats.stateChanges =
      if e.isNewState then satInc s.stats.stateChanges else s.stats.stateChanges)
    (hretransmissions : s'.stats.retransmissions =
      if e.isNewState then s.stats.retransmissions else satInc s.stats.retransmissions)
    (haccepted : s'.stats.accepted = satInc s.stats.accepted)
    (hexpiries : s'.stats.expiries = s.stats.expiries)
    (hkind : e.isRetransmission = !e.isNewState) : Accounted taken s' := by
  have hquiet : ¬ e.isExpired = true := by simp [hexpired]
  refine ⟨?_, ?_, ?_, ?_, ?_, ?_, ?_, fun _ => ?_⟩
  · rw [hdropped, hevents]
  · rw [hevents]
    exact h.conserved.push e
  · rw [hchanges, hevents, h.stateChanges, EventQueue.push_history, List.countP_append,
      List.countP_singleton, satInc]
    cases e.isNewState <;> simp
    omega
  · rw [hretransmissions, hevents, h.retransmissions, EventQueue.push_history, List.countP_append,
      List.countP_singleton, satInc, hkind]
    cases e.isNewState <;> simp
    omega
  · rw [haccepted, hevents, h.accepted, EventQueue.push_history, List.countP_append,
      List.countP_append, List.countP_singleton, List.countP_singleton, satInc, hkind]
    cases e.isNewState <;> simp <;> omega
  · rw [hexpiries, hevents, h.expiries]
    simp [hexpired]
  · rw [hevents]
    exact h.apart.concat hquiet
  · rw [hevents]
    exact settled_concat he hquiet

theorem other_inert (s : Subscriber) : Inert s s.other :=
  ⟨Or.inl ⟨rfl, rfl⟩, rfl, rfl, rfl, rfl, id⟩

theorem reject_inert (why : Invalid) (s : Subscriber) : Inert s (s.reject why) := by
  refine ⟨Or.inr ⟨.invalid why, rfl, rfl, rfl⟩, ?_, ?_, ?_, ?_, id⟩ <;> cases why <;> rfl

theorem simulationPolicyAdmits_inert (simulated : Bool) (s : Subscriber) :
    Inert s (s.simulationPolicyAdmits simulated).2 := by
  unfold simulationPolicyAdmits
  cases s.cfg.simulation <;> cases simulated <;> simp only
  · exact ⟨Or.inl ⟨rfl, rfl⟩, rfl, rfl, rfl, rfl, id⟩
  · split
    · exact ⟨Or.inl ⟨rfl, rfl⟩, rfl, rfl, rfl, rfl, id⟩
    · exact ⟨Or.inr ⟨.ignoredSimulation, rfl, rfl, rfl⟩, rfl, rfl, rfl, rfl, id⟩
  · split
    · exact ⟨Or.inl ⟨rfl, rfl⟩, rfl, rfl, rfl, rfl, id⟩
    · exact ⟨Or.inl ⟨rfl, rfl⟩, rfl, rfl, rfl, rfl, id⟩
  · split
    · exact ⟨Or.inl ⟨rfl, rfl⟩, rfl, rfl, rfl, rfl, id⟩
    · exact ⟨Or.inr ⟨.simulationTakeover, rfl, rfl, rfl⟩, rfl, rfl, rfl, rfl, fun hl => by
        simp [isLive, emit, forgetSource] at hl⟩

theorem confRevAdmits_inert (confRev : Nat) (s : Subscriber) :
    Inert s (s.confRevAdmits confRev).2 := by
  unfold confRevAdmits
  cases s.confRev with
  | none => exact ⟨Or.inl ⟨rfl, rfl⟩, rfl, rfl, rfl, rfl, id⟩
  | some expected =>
    simp only
    split
    · exact ⟨Or.inl ⟨rfl, rfl⟩, rfl, rfl, rfl, rfl, id⟩
    · split
      · exact ⟨Or.inl ⟨rfl, rfl⟩, rfl, rfl, rfl, rfl, id⟩
      · exact ⟨Or.inr ⟨.confRevMismatch confRev expected, rfl, rfl, rfl⟩, rfl, rfl, rfl, rfl, id⟩

theorem countMissedStates_inert (stNum : Nat) (s : Subscriber) :
    Inert s (s.countMissedStates stNum) := by
  unfold countMissedStates
  split
  · simp only
    split
    · exact ⟨Or.inl ⟨rfl, rfl⟩, rfl, rfl, rfl, rfl, id⟩
    · exact ⟨Or.inl ⟨rfl, rfl⟩, rfl, rfl, rfl, rfl, id⟩
  · exact ⟨Or.inl ⟨rfl, rfl⟩, rfl, rfl, rfl, rfl, id⟩

theorem noteCommissioning_inert (ndsCom : Bool) (s : Subscriber) :
    Inert s (s.noteCommissioning ndsCom) := by
  unfold noteCommissioning
  split
  · exact ⟨Or.inl ⟨rfl, rfl⟩, rfl, rfl, rfl, rfl, id⟩
  · simp only
    split
    · exact ⟨Or.inr ⟨.needsCommissioning, rfl, rfl, rfl⟩, rfl, rfl, rfl, rfl, id⟩
    · exact ⟨Or.inl ⟨rfl, rfl⟩, rfl, rfl, rfl, rfl, id⟩

theorem resetSimulation_inert (s : Subscriber) : Inert s s.resetSimulation :=
  ⟨Or.inl ⟨rfl, rfl⟩, rfl, rfl, rfl, rfl, fun hl => by
    simp [isLive, resetSimulation, forgetSource] at hl⟩

theorem Accounted.checkExpiry (h : Accounted taken s) (now : Instant) :
    Accounted taken (s.checkExpiry now) := by
  unfold Subscriber.checkExpiry
  cases hstate : s.state with
  | none => exact h
  | some last =>
    simp only
    split
    · rename_i hdue
      simp only [Bool.not_eq_eq_eq_not, Bool.not_true] at hdue
      -- The state that expires was live, so the expiry before it has been answered.
      have hlive : s.isLive = true := by simp [isLive, hstate, hdue.1]
      refine ⟨rfl, h.conserved.push .expired, ?_, ?_, ?_, ?_, ?_, fun hl => ?_⟩
      · simpa [emit, isNewState] using h.stateChanges
      · simpa [emit, isRetransmission] using h.retransmissions
      · simpa [emit, isNewState, isRetransmission] using h.accepted
      · simp only [emit, EventQueue.push_history, List.countP_append, h.expiries, satInc]
        simp [isExpired]
        omega
      · exact h.apart.concat_settled (h.revived hlive)
      · simp [isLive, emit] at hl
    · exact h

theorem Accounted.acceptNew (h : Accounted taken s) (now : Instant) (pdu : GoosePduView)
    (values : List Value) : Accounted taken (s.acceptNew now pdu values) := by
  have hmissed := h.inert (countMissedStates_inert pdu.stNum s)
  refine Accounted.inert ?_ (noteCommissioning_inert _ _)
  exact hmissed.acceptance (e := .newState pdu.stNum pdu.t values pdu.simulation)
    rfl rfl rfl rfl rfl rfl rfl rfl rfl

theorem Accounted.acceptRetransmission (h : Accounted taken s) (now : Instant)
    (pdu : GoosePduView) : Accounted taken (s.acceptRetransmission now pdu) := by
  refine Accounted.inert ?_ (noteCommissioning_inert _ _)
  exact h.acceptance (e := .retransmission pdu.stNum pdu.sqNum) rfl rfl rfl rfl rfl rfl rfl
    rfl rfl

theorem Accounted.onFrame (h : Accounted taken s) (now : Instant) (frame : Bytes) :
    Accounted taken (s.onFrame now frame) := by
  unfold Subscriber.onFrame
  replace h := h.checkExpiry now
  revert h
  generalize s.checkExpiry now = s
  intro h
  have hreception := onLink_cases now frame s
  generalize s.onLink now frame = s' at hreception ⊢
  cases hreception with
  | other => exact h.inert s.other_inert
  | rejected why => exact h.inert (s.reject_inert why)
  | policies pdu =>
    have hsim := h.inert (s.simulationPolicyAdmits_inert pdu.simulation)
    have htreatment := onPdu_cases now pdu s
    generalize s.onPdu now pdu = s' at htreatment ⊢
    cases htreatment with
    | simulationDropped _ h =>
      rw [h] at hsim
      exact hsim
    | confRevDropped t _ h h' =>
      rw [h] at hsim
      have hconf := hsim.inert (t.confRevAdmits_inert pdu.confRev)
      rw [h'] at hconf
      exact hconf
    | admitted t u h h' =>
      rw [h] at hsim
      have hconf := hsim.inert (t.confRevAdmits_inert pdu.confRev)
      rw [h'] at hconf
      have hdecision := onAdmitted_cases now pdu u
      generalize u.onAdmitted now pdu = s' at hdecision ⊢
      cases hdecision with
      | replay => exact hconf.inert (u.reject_inert _)
      | undecodable e => exact hconf.inert (u.reject_inert _)
      | new values => exact hconf.acceptNew now pdu values
      | retransmission => exact hconf.acceptRetransmission now pdu

theorem Accounted.step {taken : List SubscriberEvent} {op : Op} (h : Accounted taken.length s)
    (hstep : Subscriber.step s op = some s') : Accounted (taken ++ polled s op).length s' := by
  cases op with
  | frame now bytes =>
    cases hstep
    simpa [polled] using h.onFrame now bytes
  | timeout now =>
    cases hstep
    simpa [polled, onTimeout] using h.checkExpiry now
  | poll =>
    cases hstep
    rw [List.length_append]
    exact ⟨rfl, h.conserved.pop, h.stateChanges, h.retransmissions, h.accepted, h.expiries, h.apart,
      h.revived⟩
  | resetSimulation =>
    cases hstep
    simpa [polled] using h.inert s.resetSimulation_inert

/-- The conservation law of a subscriber from which the events `taken` were polled, as long as
no counter has reached the top of its range. -/
structure CountersAgree (taken : List SubscriberEvent) (s : Subscriber) : Prop where
  accepted : s.stats.accepted < u64Max →
    s.stats.accepted = s.stats.stateChanges + s.stats.retransmissions
  expiries : s.stats.expiries = min u64Max (s.events.history.countP isExpired)
  apart : ∀ pre mid post, s.events.history = pre ++ .expired :: mid ++ .expired :: post →
    ∃ e ∈ mid, e.isAcceptance = true
  dropped : s.stats.eventsDropped < u64Max →
    s.stats.eventsDropped + taken.length + s.events.items.length = s.events.history.length
  oneEach : ∀ now frame, (∀ k : Tally, k.of s.stats < u64Max) →
    ∃ k : Tally, k.of (s.onFrame now frame).stats = k.of s.stats + 1 ∧
      ∀ k', k' ≠ k → k'.of (s.onFrame now frame).stats = k'.of s.stats

/-- The conservation law holds after every run, and for every further frame. -/
theorem counters_conserved (cfg : SubscriberConfig) (ops : List Op) (s : Subscriber)
    (hrun : run step (new cfg) ops = some s) :
    CountersAgree (journal step polled (new cfg) ops) s := by
  have hall : Meets step (fun _ _ => True) (new cfg) ops := meets_of_forall (fun _ _ => trivial) _ _
  have h : Accounted ([] ++ journal step polled (new cfg) ops).length s :=
    journal_run (J := fun taken s => Accounted taken.length s)
      (fun _ _ _ _ hJ _ hstep => hJ.step hstep) (accounted_new cfg) hall hrun
  rw [List.nil_append] at h
  refine ⟨?_, h.expiries, ?_, ?_, ?_⟩
  · intro hlt
    rw [h.accepted] at hlt ⊢
    rw [h.stateChanges, h.retransmissions]
    omega
  · intro pre mid post hsplit
    exact h.apart pre .expired mid .expired post hsplit rfl rfl
  · intro hlt
    obtain ⟨lost, hdropped, hsum⟩ := h.conserved
    rw [h.eventsDropped] at hlt ⊢
    omega
  · intro now frame hlt
    obtain ⟨k, hk⟩ := s.onFrame_bumps now frame
    refine ⟨k, ?_, fun k' hne => ?_⟩
    · have hbelow := hlt k
      rw [hk k, if_pos rfl, satInc]
      omega
    · rw [hk k', if_neg hne]

/-- A frame of other traffic, a tick and a poll. -/
theorem counters_conserved_other_traffic :
    ∃ s, run step (new { key := ⟨.gooseBase, 1, []⟩ }) [.frame 0 [], .timeout 1, .poll] = some s ∧
      CountersAgree
        (journal step polled (new { key := ⟨.gooseBase, 1, []⟩ }) [.frame 0 [], .timeout 1, .poll])
        s :=
  ⟨_, rfl, counters_conserved { key := ⟨.gooseBase, 1, []⟩ } [.frame 0 [], .timeout 1, .poll] _ rfl⟩

end Subscriber

end Iec61850.Goose
