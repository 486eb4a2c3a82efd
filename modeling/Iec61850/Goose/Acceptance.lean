import Iec61850.Goose.Codec
import Iec61850.Goose.Counters

/-!
# Frames a subscriber is waiting for

A live subscriber that has seen everything so far is ready for exactly one continuation of the
stream (`Ready`): the next `sqNum` of the state it is in, or the first frame of the next state.
Such a frame is accepted without any counter of trouble moving (`onFrame_accepts`).
-/

namespace Iec61850.Goose.Subscriber

open Theory Ber Link SubscriberEvent

/-- The counters of everything that can go wrong. -/
def troubles (s : Subscriber) : List Nat :=
  [s.stats.replays, s.stats.stateGaps, s.stats.statesMissed, s.stats.malformed,
    s.stats.simulationMismatches, s.stats.memberCountMismatches, s.stats.simulationDropped,
    s.stats.confRevDropped, s.stats.expiries, s.stats.otherStream]

/-! ### Steps on the way to an acceptance -/

/-- Nothing but remarks comes of a step, and the last accepted state stays as it is. -/
structure Eases (s t : Subscriber) : Prop where
  cfg : t.cfg = s.cfg
  state : t.state = s.state
  expired : t.expired = s.expired
  accepted : t.stats.accepted = s.stats.accepted
  troubles : t.troubles = s.troubles
  remarks : ∃ es, t.events.history = s.events.history ++ es ∧ ∀ e ∈ es, e.isRemark = true

variable {s t : Subscriber} {last new : Nat} {now : Instant} {v : GoosePduView}

theorem eases_of_events (hcfg : t.cfg = s.cfg) (hstate : t.state = s.state)
    (hexpired : t.expired = s.expired) (haccepted : t.stats.accepted = s.stats.accepted)
    (htroubles : t.troubles = s.troubles) (hevents : t.events = s.events) : Eases s t :=
  ⟨hcfg, hstate, hexpired, haccepted, htroubles, [], by rw [hevents, List.append_nil], by simp⟩

theorem Eases.trans {u : Subscriber} (h : Eases s t) (h' : Eases t u) : Eases s u := by
  obtain ⟨es, hes, hremarks⟩ := h.remarks
  obtain ⟨fs, hfs, hremarks'⟩ := h'.remarks
  refine ⟨h'.cfg.trans h.cfg, h'.state.trans h.state, h'.expired.trans h.expired,
    h'.accepted.trans h.accepted, h'.troubles.trans h.troubles, es ++ fs, ?_, fun e he => ?_⟩
  · rw [hfs, hes, List.append_assoc]
  · rcases List.mem_append.mp he with he | he
    · exact hremarks e he
    · exact hremarks' e he

theorem noteCommissioning_eases (ndsCom : Bool) (s : Subscriber) :
    Eases s (s.noteCommissioning ndsCom) := by
  unfold noteCommissioning
  split
  · exact eases_of_events rfl rfl rfl rfl rfl rfl
  · simp only
    split
    · exact ⟨rfl, rfl, rfl, rfl, rfl, [.needsCommissioning], rfl, by
        simp [isRemark, isAcceptance, isNewState, isRetransmission, isExpired]⟩
    · exact eases_of_events rfl rfl rfl rfl rfl rfl

theorem noteCommissioning_source (ndsCom : Bool) (s : Subscriber) :
    (s.noteCommissioning ndsCom).confRev = s.confRev ∧
      (s.noteCommissioning ndsCom).simulationActive = s.simulationActive := by
  unfold noteCommissioning
  split
  · exact ⟨rfl, rfl⟩
  · simp only
    split <;> exact ⟨rfl, rfl⟩

/-- The simulation policy lets in what it is configured for: a simulated stream only where it
is preferred, and then either from the start or as the one it has followed. -/
theorem simulationPolicyAdmits_eases {simulated : Bool}
    (hmode : simulated = true → s.cfg.simulation = .preferred)
    (hsource : s.cfg.simulation = .preferred → s.simulationActive = simulated ∨
        s.state = none ∧ s.expired = false ∧ s.simulationActive = false) :
    ∃ t, s.simulationPolicyAdmits simulated = (true, t) ∧ Eases s t ∧ t.confRev = s.confRev ∧
      (s.cfg.simulation = .preferred → t.simulationActive = simulated) := by
  unfold simulationPolicyAdmits
  cases hcfg : s.cfg.simulation with
  | off =>
    cases simulated with
    | false => exact ⟨_, rfl, eases_of_events rfl rfl rfl rfl rfl rfl, rfl, by simp⟩
    | true =>
      have hpreferred := hmode rfl
      rw [hcfg] at hpreferred
      cases hpreferred
  | preferred =>
    cases simulated with
    | false =>
      have hactive : s.simulationActive = false := by
        rcases hsource hcfg with h | ⟨-, -, h⟩ <;> exact h
      refine ⟨s, ?_, eases_of_events rfl rfl rfl rfl rfl rfl, rfl, fun _ => hactive⟩
      simp [hactive]
    | true =>
      rcases hsource hcfg with hactive | ⟨hstate, hexpired, hactive⟩
      · refine ⟨s, ?_, eases_of_events rfl rfl rfl rfl rfl rfl, rfl, fun _ => hactive⟩
        simp [hactive]
      · refine ⟨emit .simulationTakeover
          ({ s with simulationActive := true } : Subscriber).forgetSource, ?_, ⟨rfl, hstate.symm,
          hexpired.symm, rfl, rfl, [.simulationTakeover], rfl, ?_⟩, rfl, fun _ => rfl⟩
        · simp [hactive]
        · simp [isRemark, isAcceptance, isNewState, isRetransmission, isExpired]

theorem confRevAdmits_eases {confRev : Nat} (h : s.confRev = none ∨ s.confRev = some confRev) :
    ∃ t, s.confRevAdmits confRev = (true, t) ∧ Eases s t ∧ t.confRev = some confRev ∧
      t.simulationActive = s.simulationActive := by
  unfold confRevAdmits
  rcases h with h | h
  · rw [h]
    exact ⟨_, rfl, eases_of_events rfl rfl rfl rfl rfl rfl, rfl, rfl⟩
  · rw [h]
    simp only [if_true]
    exact ⟨_, rfl, eases_of_events rfl rfl rfl rfl rfl rfl, rfl, rfl⟩

/-! ### The continuation of a stream -/

/-- The next value of a counter that wraps to one at the top of its range. -/
def Follows (last new : Nat) : Prop :=
  (last < u32Max ∧ new = last + 1) ∨ (last = u32Max ∧ new = 1)

theorem Follows.ne (h : Follows last new) : new ≠ last := by
  unfold Follows u32Max at h
  omega

theorem Follows.taken (h : Follows last new) : new > last ∨ wrapped last new = true := by
  rcases h with ⟨-, rfl⟩ | ⟨rfl, rfl⟩
  · exact Or.inl (Nat.lt_succ_self last)
  · exact Or.inr (by decide)

theorem Follows.misses_none (h : Follows last new) : missedStates last new = 0 := by
  unfold missedStates
  rcases h with ⟨hlt, rfl⟩ | ⟨rfl, rfl⟩
  · have hwrapped : wrapped last (last + 1) = false := by
      refine decide_eq_false ?_
      simp only [u32Max, seqWrapWindow] at hlt ⊢
      omega
    rw [hwrapped]
    simp
  · decide

/-- The subscriber waits for a frame that shows this, and `opens` says whether it opens a
state. -/
structure Ready (now : Instant) (v : GoosePduView) (opens : Bool) (s : Subscriber) : Prop where
  expired : s.expired = false
  alive : ∀ last, s.state = some last → now < last.expiresAt
  simulated : v.simulation = true → s.cfg.simulation = .preferred
  source : s.cfg.simulation = .preferred →
    s.simulationActive = v.simulation ∨ s.state = none ∧ s.simulationActive = false
  confRev : s.confRev = none ∨ s.confRev = some v.confRev
  values : opens = true → ∃ values, v.allDataOwned s.cfg.limits = .ok values
  next : (s.state = none ∧ opens = true) ∨ ∃ last, s.state = some last ∧
    if opens then Follows last.stNum v.stNum
    else v.stNum = last.stNum ∧ Follows last.sqNum v.sqNum

/-- A frame was accepted, as the first of a state or as a retransmission, and nothing else
happened that counts. -/
structure Accepting (now : Instant) (v : GoosePduView) (opens : Bool) (s s' : Subscriber) : Prop where
  cfg : s'.cfg = s.cfg
  state : s'.state = some (accepted now v)
  expired : s'.expired = false
  confRev : s'.confRev = some v.confRev
  source : s.cfg.simulation = .preferred → s'.simulationActive = v.simulation
  accepted : s'.stats.accepted = satInc s.stats.accepted
  troubles : s'.troubles = s.troubles
  shown : ∃ es e fs, s'.events.history = s.events.history ++ (es ++ e :: fs) ∧
    (∀ x ∈ es ++ fs, x.isRemark = true) ∧ e.isAcceptance = true ∧ e.isExpired = false ∧
    e.isNewState = opens

theorem checkExpiry_alive (h : ∀ last, s.state = some last → now < last.expiresAt) :
    s.checkExpiry now = s := by
  unfold checkExpiry
  cases hstate : s.state with
  | none => rfl
  | some last =>
    have hlt := h last hstate
    simp only
    rw [if_neg]
    rintro ⟨-, hge⟩
    exact absurd hlt (Nat.not_lt.mpr hge)

theorem onLink_of_streamPdu {frame : Bytes} (h : streamPdu s.cfg.key frame = some v) :
    s.onLink now frame = s.onPdu now v := by
  have hreception := onLink_cases now frame s
  generalize s.onLink now frame = s' at hreception ⊢
  cases hreception with
  | other hnone =>
    rw [h] at hnone
    cases hnone
  | rejected why hnone =>
    rw [h] at hnone
    cases hnone
  | policies pdu hpdu =>
    rw [h] at hpdu
    cases hpdu
    rfl

/-- The end of an acceptance, behind its event. -/
theorem accept_accepting {e : SubscriberEvent} {opens : Bool} {u : Subscriber} (hease : Eases s t)
    (hconf : t.confRev = some v.confRev)
    (hsource : s.cfg.simulation = .preferred → t.simulationActive = v.simulation)
    (hu : u.cfg = t.cfg ∧ u.confRev = t.confRev ∧ u.simulationActive = t.simulationActive ∧
      u.stats.accepted = t.stats.accepted ∧ u.troubles = t.troubles)
    (hevents : u.events.history = t.events.history ++ [e]) (he : e.isAcceptance = true)
    (hexpired : e.isExpired = false) (hopens : e.isNewState = opens) :
    Accepting now v opens s (u.accept now v opens) := by
  obtain ⟨hcfg, huconf, husource, haccepted, htroubles⟩ := hu
  obtain ⟨es, hes, hremarks⟩ := hease.remarks
  unfold accept
  generalize hbase : ({ u with
    stats := { u.stats with accepted := satInc u.stats.accepted }
    deltas := u.frameDeltas now v
    stateChangedAt := if opens then some now else u.stateChangedAt
    state := some (Subscriber.accepted now v)
    expired := false } : Subscriber) = base
  have hnote := noteCommissioning_eases v.ndsCom base
  have hnoted := noteCommissioning_source v.ndsCom base
  obtain ⟨fs, hfs, hremarks'⟩ := hnote.remarks
  subst hbase
  refine ⟨hnote.cfg.trans (hcfg.trans hease.cfg), hnote.state, hnote.expired,
    hnoted.1.trans (huconf.trans hconf), fun hmode => ?_, ?_, ?_, es, e, fs, ?_, ?_, he, hexpired,
    hopens⟩
  · rw [hnoted.2, ← hsource hmode]
    exact husource
  · rw [hnote.accepted, ← hease.accepted, ← haccepted]
  · rw [hnote.troubles, ← hease.troubles, ← htroubles]
    rfl
  · rw [hfs, ← List.append_assoc, ← hes]
    change u.events.history ++ fs = _
    rw [hevents]
    simp
  · intro x hx
    rcases List.mem_append.mp hx with hx | hx
    · exact hremarks x hx
    · exact hremarks' x hx

theorem onFrame_accepts {frame : Bytes} {opens : Bool} (hpdu : streamPdu s.cfg.key frame = some v)
    (h : Ready now v opens s) : Accepting now v opens s (s.onFrame now frame) := by
  obtain ⟨t, hsim, hease, hconf, hsource⟩ := simulationPolicyAdmits_eases h.simulated
    (fun hmode => (h.source hmode).imp_right fun hnone => ⟨hnone.1, h.expired, hnone.2⟩)
  obtain ⟨u, hrev, hease', hconf', hsource'⟩ := confRevAdmits_eases (by
    rw [hconf]
    exact h.confRev)
  have heases := hease.trans hease'
  have husource : s.cfg.simulation = .preferred → u.simulationActive = v.simulation := by
    intro hmode
    rw [hsource', hsource hmode]
  have hexpired : u.expired = false := heases.expired.trans h.expired
  rw [onFrame, checkExpiry_alive h.alive, onLink_of_streamPdu hpdu, onPdu, hsim]
  simp only [Bool.not_true, Bool.false_eq_true, if_false, hrev]
  unfold onAdmitted
  cases opens with
  | true =>
    have hverdict : u.verdict v = .new ∧ u.countMissedStates v.stNum = u := by
      unfold verdict countMissedStates
      rw [heases.state, hexpired]
      rcases h.next with ⟨hnone, -⟩ | ⟨last, hlast, hnext⟩
      · rw [hnone]
        exact ⟨rfl, rfl⟩
      · rw [if_pos rfl] at hnext
        rw [hlast]
        refine ⟨?_, ?_⟩
        · simp only [judge]
          rw [if_neg hnext.ne, if_pos hnext.taken]
        · simp only [hnext.misses_none]
          rfl
    obtain ⟨values, hvalues⟩ := h.values rfl
    rw [← heases.cfg] at hvalues
    simp only [hverdict.1, hvalues]
    unfold acceptNew
    rw [hverdict.2]
    exact accept_accepting heases hconf' husource ⟨rfl, rfl, rfl, rfl, rfl⟩ rfl rfl rfl rfl
  | false =>
    obtain ⟨last, hlast, hnext⟩ : ∃ last, s.state = some last ∧
        v.stNum = last.stNum ∧ Follows last.sqNum v.sqNum := by
      rcases h.next with ⟨-, hopens⟩ | ⟨last, hlast, hnext⟩
      · cases hopens
      · exact ⟨last, hlast, by simpa using hnext⟩
    have hverdict : u.verdict v = .retransmission := by
      unfold verdict
      rw [heases.state, hexpired, hlast]
      simp only [judge]
      rw [if_pos hnext.1, if_pos hnext.2.taken]
    simp only [hverdict]
    exact accept_accepting heases hconf' husource ⟨rfl, rfl, rfl, rfl, rfl⟩ rfl rfl rfl rfl

end Iec61850.Goose.Subscriber
