import Iec61850.Goose.FrameEffect

/-!
# A frame that is not accepted

Such a frame leaves what the subscriber believes of its source alone, with two exceptions that
the source documents: in Preferred mode the first simulated frame takes the stream over as
soon as it is seen, and a subscriber without a `confRev` adopts the first one it sees
(`rejected_frame_unmoved`). Both happen before the frame is judged.
-/

namespace Iec61850.Goose.Subscriber

open Theory Ber Link

/-- The frame is the first simulated one that gets as far as the simulation policy of a
subscriber that prefers simulated frames. -/
def FirstSimulated (frame : Bytes) (s : Subscriber) : Prop :=
  s.cfg.simulation = .preferred ∧ s.simulationActive = false ∧
    ∃ pdu, streamPdu s.cfg.key frame = some pdu ∧ pdu.simulation = true

/-- What is left of a subscriber by a frame it does not accept. -/
structure Unmoved (now : Instant) (frame : Bytes) (s s' : Subscriber) : Prop where
  source : ¬ s.FirstSimulated frame → s'.state = s.state ∧ s'.ndsCom = s.ndsCom ∧
    s'.simulationActive = s.simulationActive ∧ s'.stateChangedAt = s.stateChangedAt ∧
    s'.expired = (s.expired || s.due now)
  takenOver : s.FirstSimulated frame → s'.beliefs = Beliefs.takenOver
  confRev : ∀ c, s.confRev = some c → s'.confRev = some c
  adopted : s.confRev = none → ∀ c, s'.confRev = some c →
    ∃ pdu, streamPdu s.cfg.key frame = some pdu ∧ pdu.confRev = c

/-- A frame that never gets to the policies. -/
theorem unmoved_of_beliefs {now : Instant} {frame : Bytes} {s s' : Subscriber}
    (hnone : streamPdu s.cfg.key frame = none) (hbeliefs : s'.beliefs = (s.checkExpiry now).beliefs)
    (hconf : s'.confRev = s.confRev) : Unmoved now frame s s' := by
  rw [checkExpiry_beliefs] at hbeliefs
  simp only [beliefs, Beliefs.mk.injEq] at hbeliefs
  obtain ⟨hstate, hnds, hsim, hchanged, hexpired⟩ := hbeliefs
  refine ⟨fun _ => ⟨hstate, hnds, hsim, hchanged, hexpired⟩, ?_, fun c hc => hconf.trans hc, ?_⟩
  · rintro ⟨-, -, pdu, hpdu, -⟩
    rw [hnone] at hpdu
    cases hpdu
  · intro hc c hs'
    rw [hconf, hc] at hs'
    cases hs'

/-- A frame that gets to the policies, whatever comes of it short of acceptance. -/
theorem unmoved_of_policies {now : Instant} {frame : Bytes} {s s' : Subscriber}
    {pdu : GoosePduView} (hpdu : streamPdu s.cfg.key frame = some pdu) (hbeliefs : s'.beliefs =
      ((s.checkExpiry now).simulationPolicyAdmits pdu.simulation).2.beliefs)
    (hconf : s'.confRev = s.confRev ∨ s'.confRev = some (s.confRev.getD pdu.confRev)) :
    Unmoved now frame s s' := by
  have hactive : (s.checkExpiry now).simulationActive = s.simulationActive :=
    congrArg Beliefs.simulationActive (checkExpiry_beliefs now s)
  have hfirst : s.FirstSimulated frame ↔ s.cfg.simulation = .preferred ∧
      s.simulationActive = false ∧ pdu.simulation = true := by
    refine ⟨?_, fun ⟨hmode, hoff, hsim⟩ => ⟨hmode, hoff, pdu, hpdu, hsim⟩⟩
    rintro ⟨hmode, hoff, pdu', hpdu', hsim⟩
    rw [hpdu, Option.some.injEq] at hpdu'
    exact ⟨hmode, hoff, hpdu' ▸ hsim⟩
  rw [simulationPolicyAdmits_beliefs, checkExpiry_cfg, hactive] at hbeliefs
  refine ⟨fun hnot => ?_, fun htakes => ?_, fun c hc => ?_, fun hc c hs' => ?_⟩
  · rw [hfirst] at hnot
    rw [if_neg hnot, checkExpiry_beliefs] at hbeliefs
    simpa only [beliefs, Beliefs.mk.injEq] using hbeliefs
  · rw [if_pos (hfirst.mp htakes)] at hbeliefs
    exact hbeliefs
  · rcases hconf with hsame | hadopted
    · rw [hsame, hc]
    · rw [hadopted, hc]
      rfl
  · rcases hconf with hsame | hadopted
    · rw [hsame, hc] at hs'
      cases hs'
    · rw [hadopted, hc] at hs'
      exact ⟨pdu, hpdu, Option.some.inj hs'⟩

/-- Whatever the state, the frame and the time: a frame that raises neither `NewState` nor
`Retransmission` leaves the subscriber as `Unmoved` says. -/
theorem rejected_frame_unmoved (s : Subscriber) (now : Instant) (frame : Bytes)
    (hrejected : ∀ e ∈ raised s (s.onFrame now frame), e.isAcceptance = false) :
    Unmoved now frame s (s.onFrame now frame) := by
  have heffect := onFrame_effect now frame s
  generalize s.onFrame now frame = s' at heffect hrejected ⊢
  cases heffect with
  | unseen _ hpdu _ hbeliefs hconf => exact unmoved_of_beliefs hpdu hbeliefs hconf
  | dropped pdu _ hpdu _ hbeliefs hconf => exact unmoved_of_policies hpdu hbeliefs hconf
  | newState pdu u values _ hjudging =>
    obtain ⟨more, hmore⟩ := acceptNew_history now pdu values u
    have hshows := hrejected _ (mem_raised hjudging.quiet.grows hmore)
    cases hshows
  | retransmission pdu u _ hjudging =>
    obtain ⟨more, hmore⟩ := acceptRetransmission_history now pdu u
    have hshows := hrejected _ (mem_raised hjudging.quiet.grows hmore)
    cases hshows

/-- A frame of one stream without members, alive for 100 ms. -/
def sampleFrame (stNum sqNum : UInt32) (simulation : Bool) (confRev : UInt32) : Bytes :=
  let header : GooseHeader :=
    ⟨ascii "ref", 100, ascii "ds", none, ⟨100, 0, .synchronized⟩, stNum, sqNum, simulation, confRev,
      false, 0⟩
  let link : FrameHeader :=
    ⟨.gooseBase, ⟨[2, 0, 0, 0, 0, 1], MacAddr.host_length⟩, none, ethertypeGoose, 1,
      if simulation then reserved1Simulation else 0, 0⟩
  ((encodeInto header [] >>= link.write).toOption).getD []

/-- In Preferred mode, a simulated frame with another `confRev` is dropped, and the live state
of the real source is gone. -/
theorem rejected_frame_forgets_state :
    let s := (new ⟨⟨.gooseBase, 1, ascii "ref"⟩, some 1, .preferred, Limits.default, 64⟩).onFrame 0
      (sampleFrame 5 0 false 1)
    let s' := s.onFrame 0 (sampleFrame 1 0 true 2)
    (∀ e ∈ raised s s', e.isAcceptance = false) ∧ s.due 0 = false ∧
      s.state.map Accepted.stNum = some 5 ∧ s'.state = none := by
  decide +kernel

/-- A replay is rejected, and the state it repeats is still there. -/
theorem rejected_frame_unmoved_replay :
    let s := (new { key := ⟨.gooseBase, 1, ascii "ref"⟩ }).onFrame 0 (sampleFrame 5 0 false 1)
    Unmoved 0 (sampleFrame 5 0 false 1) s (s.onFrame 0 (sampleFrame 5 0 false 1)) :=
  rejected_frame_unmoved _ 0 (sampleFrame 5 0 false 1) (by decide +kernel)

end Iec61850.Goose.Subscriber
