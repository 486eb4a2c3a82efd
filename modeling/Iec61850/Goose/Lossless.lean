import Iec61850.Goose.Stream

/-!
# A stream without loss

Of a stream that arrives whole and in order every frame is accepted, none is a replay, malformed
or behind a gap, nothing expires, and exactly the frames that open a state are new states
(`lossless_stream`), through the wraps of both counters. The longest interval that can be
written is the exception: the time allowed to live saturates at the interval itself
(`longest_interval_expires`).
-/

namespace Iec61850.Goose

open Theory Ber Link Subscriber

/-- What the subscriber has made of the frames: each was accepted, nothing else was counted,
nothing expired, and the acceptances are new states exactly where a state was opened. -/
structure Lossless (sends : List Transmission) (s : Subscriber) : Prop where
  accepted : s.stats.accepted = min u64Max sends.length
  troubles : s.troubles = List.replicate 10 0
  unexpired : ∀ e ∈ s.events.history, e.isExpired = false
  states : (s.events.history.filter SubscriberEvent.isAcceptance).map SubscriberEvent.isNewState =
    openings sends

theorem lossless_new (config : SubscriberConfig) : Lossless [] (Subscriber.new config) :=
  ⟨rfl, rfl, by simp [Subscriber.new], rfl⟩

theorem openings_concat (sends : List Transmission) (x : Transmission) :
    openings (sends ++ [x]) = openings sends ++ [opensNext sends x.call] := by
  cases sends with
  | nil => rfl
  | cons y ys => simp [openings, opensNext]

theorem filter_remarks {es : List SubscriberEvent} (h : ∀ e ∈ es, e.isRemark = true) :
    es.filter SubscriberEvent.isAcceptance = [] := by
  rw [List.filter_eq_nil_iff]
  intro e he hacceptance
  have hremark := h e he
  rw [SubscriberEvent.isRemark, hacceptance] at hremark
  cases hremark

/-- One more frame. -/
theorem Lossless.step {sends : List Transmission} {s s' : Subscriber} {now : Instant}
    {v : GoosePduView} {x : Transmission} (h : Lossless sends s)
    (hstep : Accepting now v (opensNext sends x.call) s s') : Lossless (sends ++ [x]) s' := by
  obtain ⟨es, e, fs, hhistory, hremarks, hacceptance, hexpired, hopens⟩ := hstep.shown
  have hes : ∀ y ∈ es, y.isRemark = true := fun y hy => hremarks y (List.mem_append_left fs hy)
  have hfs : ∀ y ∈ fs, y.isRemark = true := fun y hy => hremarks y (List.mem_append_right es hy)
  have hremark : ∀ y : SubscriberEvent, y.isRemark = true → y.isExpired = false := by
    intro y hy
    rw [SubscriberEvent.isRemark, Bool.and_eq_true, Bool.not_eq_true', Bool.not_eq_true'] at hy
    exact hy.2
  constructor
  · rw [hstep.accepted, h.accepted, satInc, List.length_append, List.length_singleton]
    omega
  · rw [hstep.troubles, h.troubles]
  · intro y hy
    rw [hhistory, List.mem_append, List.mem_append, List.mem_cons] at hy
    rcases hy with hy | hy | rfl | hy
    · exact h.unexpired y hy
    · exact hremark y (hes y hy)
    · exact hexpired
    · exact hremark y (hfs y hy)
  · rw [hhistory, List.filter_append, List.filter_append, filter_remarks hes, List.nil_append,
      List.filter_cons_of_pos hacceptance, filter_remarks hfs, List.map_append, h.states,
      openings_concat, List.map_singleton, hopens]

section Run

variable {config : SubscriberConfig} {delay : Nat} {p₀ p : Publisher} {sends : List Transmission}

/-- By induction on the run: the two sides stay in step, and nothing was lost. -/
theorem stream_run (hsub : Subscribed config p₀)
    (hfactor : 2 ≤ p₀.cfg.retransmission.talFactor.toNat)
    (htop : p₀.cfg.retransmission.top < u32Max) (hstart : Sound config.limits p₀ p₀)
    (hrun : Transmits p₀ sends p)
    (hreceivable : ∀ x ∈ sends, ∀ values t, x.call = .publish values t →
      Receivable config.limits values) (hclock : ∀ x ∈ sends, x.sentAt + delay < u64Max) :
    Sound config.limits p₀ p ∧
      Waiting config delay p₀ sends p (received delay (Subscriber.new config) sends) ∧
      Lossless sends (received delay (Subscriber.new config) sends) := by
  induction hrun with
  | start => exact ⟨hstart, Or.inl ⟨rfl, rfl⟩, lossless_new config⟩
  | send run honTime hcall hpolled ih =>
    rename_i sends p p' p'' now c frame
    obtain ⟨hsound, hwaiting, hlossless⟩ :=
      ih (fun x hx => hreceivable x (List.mem_append_left _ hx))
        (fun x hx => hclock x (List.mem_append_left _ hx))
    have hlast : (⟨now, c, frame⟩ : Transmission) ∈ sends ++ [⟨now, c, frame⟩] := by simp
    obtain ⟨hframe, rfl, hencoded⟩ := Publisher.call_sent hsound.pending hcall hpolled
    have hprepared := prepare_sound hsound hencoded (hreceivable _ hlast)
    have hsubscribed := subscribed_of_sound hsub hprepared
    obtain ⟨values, hholds, hvalues⟩ := hprepared.holds
    obtain ⟨v, hpdu, hshows⟩ := streamPdu_of_nextFrame hframe hsubscribed hholds
    have hready := ready_of_waiting hwaiting hsub honTime (hclock _ hlast) hprepared hshows
    have hcfg : (received delay (Subscriber.new config) sends).cfg = config := by
      rcases hwaiting with ⟨-, hfresh⟩ | ⟨-, hstep⟩
      · rw [hfresh]
        rfl
      · exact hstep.cfg
    rw [← hcfg] at hpdu
    have haccepting := onFrame_accepts hpdu hready
    have hreceived : received delay (Subscriber.new config) (sends ++ [⟨now, c, frame⟩]) =
        (received delay (Subscriber.new config) sends).onFrame (now + delay) frame := by
      simp [received]
    rw [hreceived]
    refine ⟨⟨hprepared.cfg, hprepared.simulation, rfl, values,
      ⟨hholds.tags, hholds.body, hholds.members⟩, hvalues⟩, Or.inr ⟨by simp, ?_⟩, ?_⟩
    · exact inStep_of_accepting hfactor htop hcfg hprepared hshows haccepting
    · exact hlossless.step haccepting

/-- A publisher that starts with values and nothing to collect, whatever its counters, and a
subscriber of its stream. Whatever is published and retransmitted in time, all frames are
accepted and none is counted as trouble; a new state is raised for each frame that opens one
and for no other; and until the next frame is there the subscription does not expire. -/
theorem lossless_stream (hsub : Subscribed config p₀)
    (hfactor : 2 ≤ p₀.cfg.retransmission.talFactor.toNat)
    (htop : p₀.cfg.retransmission.top < u32Max) (hpending : p₀.pending = false)
    (hvalues : ∃ values, p₀.Holds values ∧ Receivable config.limits values)
    (hrun : Transmits p₀ sends p)
    (hreceivable : ∀ x ∈ sends, ∀ values t, x.call = .publish values t →
      Receivable config.limits values) (hclock : ∀ x ∈ sends, x.sentAt + delay < u64Max) :
    Lossless sends (received delay (Subscriber.new config) sends) ∧
      ∀ due t, sends ≠ [] → p.nextSend = some due → t ≤ due + delay → t < u64Max →
        (received delay (Subscriber.new config) sends).onTimeout t =
          received delay (Subscriber.new config) sends := by
  obtain ⟨-, hwaiting, hlossless⟩ :=
    stream_run hsub hfactor htop ⟨rfl, rfl, hpending, hvalues⟩ hrun hreceivable hclock
  refine ⟨hlossless, fun due t hsent hdue ht hlt => checkExpiry_alive fun last hlast => ?_⟩
  rcases hwaiting with ⟨hnil, -⟩ | ⟨-, hstep⟩
  · exact absurd hnil hsent
  · obtain ⟨last', hlast', -, -, due', hdue', halive⟩ := hstep.counters
    rw [hlast] at hlast'
    rw [hdue] at hdue'
    cases hlast'
    cases hdue'
    exact halive t ht hlt

end Run

/-- A publisher whose counters are at the top. -/
def topPublisher (r : Retransmission) : Publisher where
  cfg := {
    header := ⟨.gooseBase, ⟨[2, 0, 0, 0, 0, 1], MacAddr.host_length⟩, none, ethertypeGoose, 1, 0, 0⟩
    gocbRef := ascii "ref"
    datSet := ascii "ds"
    retransmission := r }
  stNum := 4294967295
  sqNum := 4294967295
  t := ⟨100, 0, .synchronized⟩
  simulation := false
  sentInState := 0
  body := [131, 1, 1]
  members := 1
  scratch := []
  frame := []
  pending := false
  nextSend := some 0
  dropped := 0

/-- A subscriber of its stream. -/
def topSubscription : SubscriberConfig := { key := ⟨.gooseBase, 1, ascii "ref"⟩ }

theorem topSubscription_subscribed (r : Retransmission) :
    Subscribed topSubscription (topPublisher r) :=
  ⟨rfl, rfl, rfl, rfl, by simp [topPublisher], by simp [topSubscription]⟩

theorem boolean_receivable (b : Bool) : Receivable Limits.default [.boolean b] := by
  refine receivable_of_within (Nat.succ_le_of_lt (by decide)) ?_
  simp only [Value.AllWithin, Value.Within]
  exact ⟨by decide, trivial, trivial⟩

/-- A call that succeeds, and its frame is collected. -/
theorem Transmits.next {p₀ p : Publisher} {sends : List Transmission} (now : Instant) (c : Call)
    (run : Transmits p₀ sends p) (onTime : OnTime sends p now c)
    (hok : (p.call now c).2 = .ok ()) (hpending : (p.call now c).1.pending = true) :
    Transmits p₀ (sends ++ [⟨now, c, (p.call now c).1.frame⟩])
      { (p.call now c).1 with pending := false } := by
  refine .send run onTime (Prod.ext rfl hok) ?_
  rw [Publisher.pollTransmit, if_pos hpending]

/-- Both counters wrap: `sqNum` with the second frame, `stNum` with the third. -/
theorem lossless_stream_wraps :
    ∃ sends p, Transmits (topPublisher .default) sends p ∧ sends.length = 3 ∧ p.stNum = 1 ∧
      Lossless sends (received 7 (Subscriber.new topSubscription) sends) := by
  have hone : Transmits (topPublisher .default) _ _ :=
    Transmits.next 5 .timeout .start (Or.inl rfl) (by decide +kernel) (by decide +kernel)
  have htwo := Transmits.next 4000005 .timeout hone (Or.inr (by decide +kernel))
    (by decide +kernel) (by decide +kernel)
  have hthree := Transmits.next 4000006 (.publish [.boolean false] ⟨101, 0, .synchronized⟩) htwo
    (Or.inr ⟨8000005, by decide +kernel, by decide⟩) (by decide +kernel) (by decide +kernel)
  refine ⟨_, _, hthree, rfl, by decide +kernel, ?_⟩
  refine (lossless_stream (topSubscription_subscribed _) (by decide) (by decide) rfl
    ⟨[.boolean true], ⟨by simp [Value.TagFits], rfl, rfl⟩, boolean_receivable true⟩ hthree ?_ ?_).1
  · intro x hx values t hcall
    simp only [List.nil_append, List.cons_append, List.mem_cons, List.not_mem_nil, or_false] at hx
    rcases hx with rfl | rfl | rfl
    · cases hcall
    · cases hcall
    · cases hcall
      exact boolean_receivable false
  · intro x hx
    simp only [List.nil_append, List.cons_append, List.mem_cons, List.not_mem_nil, or_false] at hx
    rcases hx with rfl | rfl | rfl <;> decide

/-- With the longest interval that can be written, the first retransmission comes when the
subscription expires. -/
theorem longest_interval_expires :
    ∃ sends p, Transmits (topPublisher ⟨4294967295, 4294967295, 2⟩) sends p ∧
      Subscribed topSubscription (topPublisher ⟨4294967295, 4294967295, 2⟩) ∧
      (∀ x ∈ sends, x.sentAt + 7 < u64Max ∧ x.call.isPublish = false) ∧ sends.length = 2 ∧
      (received 7 (Subscriber.new topSubscription) sends).stats.expiries = 1 ∧
      openings sends = [true, false] ∧
      ((received 7 (Subscriber.new topSubscription) sends).events.history.map
        SubscriberEvent.isNewState) = [true, false, true] := by
  have hone : Transmits (topPublisher ⟨4294967295, 4294967295, 2⟩) _ _ :=
    Transmits.next 5 .timeout .start (Or.inl rfl) (by decide +kernel) (by decide +kernel)
  have htwo := Transmits.next 4294967295000005 .timeout hone (Or.inr (by decide +kernel))
    (by decide +kernel) (by decide +kernel)
  refine ⟨_, _, htwo, topSubscription_subscribed _, ?_, rfl, by decide +kernel, rfl,
    by decide +kernel⟩
  intro x hx
  simp only [List.nil_append, List.cons_append, List.mem_cons, List.not_mem_nil, or_false] at hx
  rcases hx with rfl | rfl
  · exact ⟨by decide, rfl⟩
  · exact ⟨by decide, rfl⟩

end Iec61850.Goose
