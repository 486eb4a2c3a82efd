import Iec61850.Goose.Publisher

/-!
# A publish that fails

When is the publisher as it was after a call that returned an error? `publish` encodes into
the body it sends from, so only where what had been encoded by then happens to be that body;
`publish_if_changed` encodes into a scratch buffer, so whenever it is a value that cannot be
encoded. That a frame cannot be built is found out too late by both: the state has advanced.
-/

namespace Iec61850.Goose.Publisher

open Theory Ber Link

/-- Everything the publisher sends from, and its schedule, are as they were. -/
structure Kept (p p' : Publisher) : Prop where
  cfg : p'.cfg = p.cfg
  simulation : p'.simulation = p.simulation
  body : p'.body = p.body
  members : p'.members = p.members
  stNum : p'.stNum = p.stNum
  sqNum : p'.sqNum = p.sqNum
  t : p'.t = p.t
  sentInState : p'.sentInState = p.sentInState
  nextSend : p'.nextSend = p.nextSend

theorem Kept.nextFrame {p p' : Publisher} (h : Kept p p') : p'.nextFrame = p.nextFrame := by
  unfold Publisher.nextFrame header link
  rw [h.cfg, h.simulation, h.body, h.members, h.stNum, h.sqNum, h.t, h.sentInState]

/-- A frame for these values as a new state can be built. -/
def Sendable (values : List Value) (body : Bytes) (t : UtcTime) (p : Publisher) : Prop :=
  ∃ frame, (nextState t { p with body, members := UInt32.ofNat values.length }).nextFrame = .ok frame

/-- `publish` with these values does no harm: what was encoded before a value that cannot be
encoded is the body that is being sent; and if all can be, so can the frame. -/
def PublishHarmless (values : List Value) (t : UtcTime) (p : Publisher) : Prop :=
  match (Value.encodeAllInto values).2 with
  | .error _ => (Value.encodeAllInto values).1 = p.body
  | .ok () => p.Sendable values (Value.encodeAllInto values).1 t

/-- `publish_if_changed` with these values does no harm: they cannot be encoded, or they are
the ones being sent, or the frame can be built. -/
def PublishIfChangedHarmless (values : List Value) (t : UtcTime) (p : Publisher) : Prop :=
  match (Value.encodeAllInto values).2 with
  | .error _ => True
  | .ok () =>
    (p.members.toNat = values.length ∧ (Value.encodeAllInto values).1 = p.body) ∨
      p.Sendable values (Value.encodeAllInto values).1 t

theorem wrapToOne_ne (n : UInt32) : wrapToOne n ≠ n := by
  unfold wrapToOne
  split
  · rename_i hmax
    rw [hmax]
    decide
  · intro hsame
    have hvalue := congrArg UInt32.toNat hsame
    have hbound := n.toNat_lt
    rw [UInt32.toNat_add] at hvalue
    simp only [UInt32.toNat_one] at hvalue
    omega

/-- A new state that could not be built has replaced the old one. -/
theorem advanceState_error (now : Instant) {t : UtcTime} {p : Publisher} {e : Error}
    (h : (p.nextState t).nextFrame = .error e) :
    (p.advanceState now t).2 = .error e ∧ (p.advanceState now t).1.stNum = wrapToOne p.stNum := by
  obtain ⟨frame, hbuild⟩ := build_error now h
  rw [advanceState, hbuild]
  exact ⟨rfl, rfl⟩

theorem advanceState_ok {now : Instant} {t : UtcTime} {p : Publisher} {frame : Bytes}
    (h : (p.nextState t).nextFrame = .ok frame) : (p.advanceState now t).2 = .ok () := by
  rw [advanceState, build_ok now h]

/-- A state that replaces the old one leaves it alone on failure only by not failing. -/
theorem advanceState_keeps_iff (now : Instant) (t : UtcTime) {p : Publisher} (next : Publisher)
    (hst : next.stNum = p.stNum) :
    (∀ e, (next.advanceState now t).2 = .error e → Kept p (next.advanceState now t).1) ↔
      ∃ frame, (next.nextState t).nextFrame = .ok frame := by
  constructor
  · intro h
    cases hframe : (next.nextState t).nextFrame with
    | ok frame => exact ⟨frame, rfl⟩
    | error e =>
      obtain ⟨hresult, hadvanced⟩ := advanceState_error now hframe
      have hkept := (h e hresult).stNum
      rw [hadvanced, hst] at hkept
      exact absurd hkept (wrapToOne_ne _)
  · rintro ⟨frame, hframe⟩ e he
    rw [advanceState_ok hframe] at he
    cases he

theorem publish_keeps_iff (p : Publisher) (now : Instant) (values : List Value) (t : UtcTime) :
    (∀ e, (p.publish now values t).2 = .error e → Kept p (p.publish now values t).1) ↔
      p.PublishHarmless values t := by
  unfold PublishHarmless
  cases hwritten : (Value.encodeAllInto values).2 with
  | error e =>
    have hpublish : p.publish now values t =
        ({ p with body := (Value.encodeAllInto values).1 }, .error e) := by
      simp only [publish, hwritten]
    rw [hpublish]
    constructor
    · intro h
      exact (h e rfl).body
    · intro hbody e' _
      exact ⟨rfl, rfl, hbody, rfl, rfl, rfl, rfl, rfl, rfl⟩
  | ok =>
    have hpublish : p.publish now values t = advanceState now t { p with
        body := (Value.encodeAllInto values).1
        members := UInt32.ofNat values.length } := by
      simp only [publish, hwritten]
    rw [hpublish]
    exact advanceState_keeps_iff now t _ rfl

theorem publishIfChanged_keeps_iff (p : Publisher) (now : Instant) (values : List Value)
    (t : UtcTime) : (∀ e, (p.publishIfChanged now values t).2 = .error e →
        Kept p (p.publishIfChanged now values t).1) ↔ p.PublishIfChangedHarmless values t := by
  unfold PublishIfChangedHarmless
  cases hwritten : (Value.encodeAllInto values).2 with
  | error e =>
    have hpublish : p.publishIfChanged now values t =
        ({ p with scratch := (Value.encodeAllInto values).1 }, .error e) := by
      simp only [publishIfChanged, hwritten]
    rw [hpublish]
    simp only [iff_true]
    intro e' _
    exact ⟨rfl, rfl, rfl, rfl, rfl, rfl, rfl, rfl, rfl⟩
  | ok =>
    by_cases hsame : p.members.toNat = values.length ∧ (Value.encodeAllInto values).1 = p.body
    · have hpublish : p.publishIfChanged now values t =
          ({ p with scratch := (Value.encodeAllInto values).1 }, .ok false) := by
        simp only [publishIfChanged, hwritten, if_pos hsame]
      rw [hpublish]
      simp [hsame]
    · have hpublish : p.publishIfChanged now values t =
          (let o := advanceState now t { p with
            body := (Value.encodeAllInto values).1
            scratch := p.body
            members := UInt32.ofNat values.length }
          (o.1, o.2.map fun _ => true)) := by
        simp only [publishIfChanged, hwritten, if_neg hsame]
      rw [hpublish]
      simp only [hsame, false_or]
      have hkeeps := advanceState_keeps_iff now t (p := p) { p with
        body := (Value.encodeAllInto values).1
        scratch := p.body
        members := UInt32.ofNat values.length } rfl
      refine Iff.trans ?_ hkeeps
      refine forall_congr' fun e => imp_congr_left ?_
      cases (advanceState now t _).2 with
      | error e' => simp [Except.map]
      | ok => simp [Except.map]

/-- The failing calls of a publisher. `publish` and `publish_if_changed` leave it as it was
exactly where they do no harm, and then the next retransmission is the same to the octet. -/
theorem failed_publish_keeps (p : Publisher) (now : Instant) (values : List Value) (t : UtcTime) :
    ((∀ e, (p.publish now values t).2 = .error e → Kept p (p.publish now values t).1) ↔
      p.PublishHarmless values t) ∧ ((∀ e, (p.publishIfChanged now values t).2 = .error e →
        Kept p (p.publishIfChanged now values t).1) ↔ p.PublishIfChangedHarmless values t) ∧
    ∀ p', Kept p p' → p'.nextFrame = p.nextFrame ∧ p'.members = p.members ∧ p'.body = p.body :=
  ⟨p.publish_keeps_iff now values t, p.publishIfChanged_keeps_iff now values t,
    fun _ h => ⟨h.nextFrame, h.members, h.body⟩⟩

/-- The second of two values cannot be encoded: the first is in the body, under the old state
and the old count of members, and the next retransmission carries it. -/
theorem failed_publish_changes : let link : FrameHeader :=
      ⟨.gooseBase, ⟨[2, 0, 0, 0, 0, 1], MacAddr.host_length⟩, none, ethertypeGoose, 1, 0, 0⟩
    let cfg : PublisherConfig := { header := link, gocbRef := ascii "ref", datSet := ascii "ds" }
    ∃ p, (new cfg [.boolean true, .boolean true] ⟨100, 0, .synchronized⟩).toOption = some p ∧
      let o := p.publish 0 [.boolean false, .visibleString [195, 169]] ⟨101, 0, .synchronized⟩
      o.2 = .error (.encode "VisibleString must be ASCII") ∧
        o.1.body = [131, 1, 0] ∧ p.body = [131, 1, 1, 131, 1, 1] ∧ o.1.members = 2 ∧
        o.1.stNum = p.stNum ∧ (o.1.onTimeout 0).2 = .ok () ∧
        (o.1.onTimeout 0).1.frame ≠ (p.onTimeout 0).1.frame := by
  refine ⟨_, rfl, ?_⟩
  decide +kernel

end Iec61850.Goose.Publisher
