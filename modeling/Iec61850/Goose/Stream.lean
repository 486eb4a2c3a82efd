import Iec61850.Goose.Acceptance

/-!
# A publisher and a subscriber

A publisher is driven by its own clock: values are published at any time up to the next
timeout, retransmissions are taken exactly then (`Transmits`). Its frames reach a subscriber in
order, each one the same delay later (`received`). How the two sides stay in step is said by
`InStep`: the subscriber has accepted the last frame, the counters of the publisher are the
ones it waits for, and it waits longer than the publisher does.
-/

namespace Iec61850.Goose

open Theory Ber Link Subscriber

/-! ### The curve -/

namespace Retransmission

variable (r : Retransmission)

theorem base_pos : 0 < r.base := by
  unfold base
  split
  · exact Nat.one_pos
  · rename_i hne
    exact Nat.pos_of_ne_zero fun hzero => hne (UInt32.toNat_inj.mp hzero)

theorem base_le_top : r.base ≤ r.top := by
  unfold top
  split <;> omega

theorem intervalAfter_pos (n : Nat) : 0 < r.intervalAfter n := by
  have hbase := r.base_pos
  have htop := r.base_le_top
  unfold intervalAfter
  split
  · exact hbase
  · simp only
    split
    · omega
    · split
      · omega
      · exact Nat.mul_pos hbase (Nat.pow_pos (by decide))

theorem intervalAfter_le_top (n : Nat) : r.intervalAfter n ≤ r.top := by
  have htop := r.base_le_top
  unfold intervalAfter
  split
  · exact htop
  · simp only
    split
    · exact Nat.le_refl _
    · split <;> omega

theorem talAfter_le (n : Nat) : r.talAfter n ≤ u32Max := by
  unfold talAfter
  exact Nat.min_le_left _ _

theorem talAfter_eq {r : Retransmission} (h : 2 ≤ r.talFactor.toNat) (n : Nat) :
    r.talAfter n = min u32Max (r.intervalAfter n * r.talFactor.toNat) := by
  unfold talAfter
  have hne : r.talFactor ≠ 0 := by
    intro hzero
    rw [hzero] at h
    exact absurd h (by decide)
  simp only [if_neg hne]

/-- With a factor of two the time allowed to live outlasts the interval, as long as the
interval is not the longest that can be written. -/
theorem intervalAfter_lt_talAfter {r : Retransmission} (hfactor : 2 ≤ r.talFactor.toNat)
    (htop : r.top < u32Max) (n : Nat) : r.intervalAfter n < r.talAfter n := by
  have hpos := r.intervalAfter_pos n
  have hle := r.intervalAfter_le_top n
  have hmul : r.intervalAfter n * 2 ≤ r.intervalAfter n * r.talFactor.toNat :=
    Nat.mul_le_mul_left _ hfactor
  rw [talAfter_eq hfactor]
  omega

end Retransmission

/-! ### The publisher's run -/

/-- A call that makes a publisher send. -/
inductive Call where
  | publish (values : List Value) (t : UtcTime)
  | timeout

namespace Publisher

def call (now : Instant) (p : Publisher) : Call → Publisher × Except Error Unit
  | .publish values t => p.publish now values t
  | .timeout => p.onTimeout now

/-- The publisher whose next frame a call sends. -/
def prepare (p : Publisher) : Call → Publisher
  | .publish values t =>
    nextState t { p with
      body := (Value.encodeAllInto values).1
      members := UInt32.ofNat values.length }
  | .timeout => p

theorem build_sent {now : Instant} {p p' p'' : Publisher} {frame : Bytes}
    (hbuild : p.build now = (p', .ok ())) (hpoll : p'.pollTransmit = (some frame, p'')) :
    p.nextFrame = .ok frame ∧ p'' = { p.sent now frame with pending := false } := by
  cases hframe : p.nextFrame with
  | error e =>
    obtain ⟨bytes, herror⟩ := build_error now hframe
    rw [herror] at hbuild
    cases hbuild
  | ok bytes =>
    rw [build_ok now hframe] at hbuild
    cases hbuild
    unfold pollTransmit at hpoll
    simp only [sent, if_true] at hpoll
    cases hpoll
    exact ⟨rfl, rfl⟩

theorem encodeAll_of_into {values : List Value} (h : (Value.encodeAllInto values).2 = .ok ()) :
    Value.encodeAll values = .ok (Value.encodeAllInto values).1 := by
  rw [← Value.encodeAllInto_result, Written.result, h]
  rfl

/-- A call of which a frame came: what was sent, and what is left. -/
theorem call_sent {now : Instant} {p p' p'' : Publisher} {c : Call} {frame : Bytes}
    (hpending : p.pending = false) (hcall : p.call now c = (p', .ok ()))
    (hpoll : p'.pollTransmit = (some frame, p'')) :
    (p.prepare c).nextFrame = .ok frame ∧
      p'' = { (p.prepare c).sent now frame with pending := false } ∧
      ∀ values t, c = .publish values t → Value.encodeAll values = .ok (p.prepare c).body := by
  cases c with
  | publish values t =>
    rw [call, publish] at hcall
    simp only at hcall
    split at hcall
    · cases hcall
    · rename_i hwritten
      obtain ⟨hframe, hleft⟩ := build_sent hcall hpoll
      refine ⟨hframe, hleft, fun values' t' hc => ?_⟩
      cases hc
      exact encodeAll_of_into hwritten
  | timeout =>
    have hidle : ∀ q : Publisher, q.pending = false → q.pollTransmit ≠ (some frame, p'') := by
      intro q hq hsome
      unfold pollTransmit at hsome
      rw [hq] at hsome
      cases hsome
    rw [call, onTimeout] at hcall
    split at hcall
    · split at hcall
      · obtain ⟨hframe, hleft⟩ := build_sent hcall hpoll
        exact ⟨hframe, hleft, by simp⟩
      · cases hcall
        exact absurd hpoll (hidle _ hpending)
    · cases hcall
      exact absurd hpoll (hidle _ hpending)

end Publisher

/-- A frame as it leaves the publisher: when, after which call, and its octets. -/
structure Transmission where
  sentAt : Instant
  call : Call
  frame : Bytes

/-- When a call is made: a publication up to the next timeout, a retransmission exactly then;
the first frame goes out at any time. -/
def OnTime (sends : List Transmission) (p : Publisher) (now : Instant) : Call → Prop
  | .publish _ _ => sends = [] ∨ ∃ due, p.nextSend = some due ∧ now ≤ due
  | .timeout => sends = [] ∨ p.nextSend = some now

/-- What a publisher has sent, each frame collected before the next call. -/
inductive Transmits (p₀ : Publisher) : List Transmission → Publisher → Prop
  | start : Transmits p₀ [] p₀
  | send {sends : List Transmission} {p p' p'' : Publisher} {now : Instant} {c : Call}
      {frame : Bytes} (run : Transmits p₀ sends p) (onTime : OnTime sends p now c)
      (sent : p.call now c = (p', .ok ())) (polled : p'.pollTransmit = (some frame, p'')) :
      Transmits p₀ (sends ++ [⟨now, c, frame⟩]) p''

/-- The subscriber's side: the frames in order, each one the same delay after it was sent. -/
def received (delay : Nat) (s : Subscriber) (sends : List Transmission) : Subscriber :=
  sends.foldl (fun s x => s.onFrame (x.sentAt + delay) x.frame) s

/-- Whether a call begins a state. -/
def Call.isPublish : Call → Bool
  | .publish _ _ => true
  | .timeout => false

/-- Which of the frames open a state: the first one, and the ones that were published. -/
def openings : List Transmission → List Bool
  | [] => []
  | _ :: xs => true :: xs.map fun x => x.call.isPublish

/-! ### Values a subscriber can decode -/

/-- The subscriber decodes the values, wherever in the frame they sit. -/
structure Receivable (limits : Limits) (values : List Value) : Prop where
  tags : ∀ v ∈ values, v.TagFits
  decodes : ∀ body, Value.encodeAll values = .ok body →
    ∀ offset, ∃ decoded, collect ⟨body, offset⟩ limits = .ok decoded

/-- Values within the limits of the subscriber are among them. -/
theorem receivable_of_within {limits : Limits} {values : List Value}
    (hcount : values.length ≤ limits.maxDatasetMembers)
    (h : Value.AllWithin limits (limits.maxDepth + 1) values) : Receivable limits values := by
  refine ⟨h.tagFits, fun body hbody offset => ⟨values, ?_⟩⟩
  rw [collect, collectDepth_eq]
  exact (Value.encodeAll_renders values _ h).collects hbody offset _ hcount

/-! ### In step -/

/-- The two sides after the frames that have been sent, of which at least one was. -/
structure InStep (config : SubscriberConfig) (delay : Nat) (p₀ p : Publisher) (s : Subscriber) :
    Prop where
  cfg : s.cfg = config
  expired : s.expired = false
  confRev : s.confRev = some p₀.cfg.confRev.toNat
  source : config.simulation = .preferred → s.simulationActive = p₀.simulation
  counters : ∃ last, s.state = some last ∧ last.stNum = p.stNum.toNat ∧
    Follows last.sqNum p.sqNum.toNat ∧ ∃ due, p.nextSend = some due ∧
      ∀ now, now ≤ due + delay → now < u64Max → now < last.expiresAt

/-- What stays as it is at the publisher, and what it holds. -/
structure Sound (limits : Limits) (p₀ p : Publisher) : Prop where
  cfg : p.cfg = p₀.cfg
  simulation : p.simulation = p₀.simulation
  pending : p.pending = false
  holds : ∃ values, p.Holds values ∧ Receivable limits values

theorem wrapToOne_follows (n : UInt32) : Follows n.toNat (Publisher.wrapToOne n).toNat := by
  have hlt := n.toNat_lt
  unfold Publisher.wrapToOne Follows u32Max
  split
  · rename_i hmax
    rw [hmax]
    exact Or.inr ⟨by decide, by decide⟩
  · rename_i hne
    have hvalue : n.toNat ≠ 4294967295 := fun heq => hne (UInt32.toNat_inj.mp heq)
    left
    rw [UInt32.toNat_add]
    simp only [UInt32.toNat_one]
    omega

theorem arrives_alive {now delay interval tal t : Nat} (hlt : interval < tal)
    (ht : t ≤ Instant.plusMillis now interval + delay) (hclock : t < u64Max) :
    t < Instant.plusMillis (now + delay) tal := by
  unfold Instant.plusMillis at *
  omega

theorem subscribed_of_sound {config : SubscriberConfig} {limits : Limits} {p₀ p : Publisher}
    (h : Subscribed config p₀) (hsound : Sound limits p₀ p) : Subscribed config p := by
  obtain ⟨hdst, happid, hgocbRef, hethertype, hsimulation, hconf⟩ := h
  rw [← hsound.cfg] at hdst happid hgocbRef hethertype hconf
  rw [← hsound.simulation] at hsimulation
  exact ⟨hdst, happid, hgocbRef, hethertype, hsimulation, hconf⟩

/-- Before the first frame, or in step. -/
def Waiting (config : SubscriberConfig) (delay : Nat) (p₀ : Publisher) (sends : List Transmission)
    (p : Publisher) (s : Subscriber) : Prop :=
  (sends = [] ∧ s = Subscriber.new config) ∨ (sends ≠ [] ∧ InStep config delay p₀ p s)

/-- Whether the next frame opens a state. -/
def opensNext (sends : List Transmission) (c : Call) : Bool := sends.isEmpty || c.isPublish

section Step

variable {config : SubscriberConfig} {delay : Nat} {p₀ p : Publisher} {s : Subscriber}
  {sends : List Transmission} {now : Instant} {c : Call}

theorem prepare_sound (hsound : Sound config.limits p₀ p)
    (hencoded : ∀ values t, c = .publish values t → Value.encodeAll values = .ok (p.prepare c).body)
    (hreceivable : ∀ values t, c = .publish values t → Receivable config.limits values) :
    Sound config.limits p₀ (p.prepare c) := by
  cases c with
  | timeout => exact hsound
  | publish values t =>
    have hvalues := hreceivable values t rfl
    exact ⟨hsound.cfg, hsound.simulation, hsound.pending, values,
      ⟨hvalues.tags, hencoded values t rfl, rfl⟩, hvalues⟩

/-- The subscriber waits for the frame of the next call. -/
theorem ready_of_waiting {v : GoosePduView} (hwaiting : Waiting config delay p₀ sends p s)
    (hsub : Subscribed config p₀) (honTime : OnTime sends p now c) (hclock : now + delay < u64Max)
    (hsound : Sound config.limits p₀ (p.prepare c))
    (hshows : Shows (p.prepare c).header (p.prepare c).body v) :
    Ready (now + delay) v (opensNext sends c) s := by
  have hsimulation : v.simulation = p₀.simulation := hshows.simulation.trans hsound.simulation
  have hconf : v.confRev = p₀.cfg.confRev.toNat := by
    rw [hshows.confRev]
    change (p.prepare c).cfg.confRev.toNat = _
    rw [hsound.cfg]
  have hvalues : ∀ config' : SubscriberConfig, config'.limits = config.limits →
      ∃ values, v.allDataOwned config'.limits = .ok values := by
    intro config' hlimits
    obtain ⟨values, hholds, hreceivable⟩ := hsound.holds
    rw [GoosePduView.allDataOwned, Tlv.children, hshows.allData, hlimits]
    exact hreceivable.decodes _ hholds.body _
  rcases hwaiting with ⟨hnil, rfl⟩ | ⟨hsent, hstep⟩
  · refine ⟨rfl, by simp [Subscriber.new], fun hv => ?_, fun _ => Or.inr ⟨rfl, rfl⟩, ?_,
      fun _ => hvalues config rfl, Or.inl ⟨rfl, by simp [opensNext, hnil]⟩⟩
    · exact hsub.simulation (hsimulation ▸ hv)
    · change config.expectedConfRev = none ∨ config.expectedConfRev = some v.confRev
      cases hexpected : config.expectedConfRev with
      | none => exact Or.inl rfl
      | some rev => exact Or.inr (by rw [hconf, hsub.confRev rev hexpected])
  · obtain ⟨last, hlast, hst, hsq, due, hdue, halive⟩ := hstep.counters
    have hempty : sends.isEmpty = false := List.isEmpty_eq_false_iff.mpr hsent
    have hle : now ≤ due := by
      cases c with
      | timeout =>
        have hnow := honTime.resolve_left hsent
        rw [hdue] at hnow
        cases hnow
        exact Nat.le_refl _
      | publish values t =>
        obtain ⟨due', hdue', hle⟩ := honTime.resolve_left hsent
        rw [hdue] at hdue'
        cases hdue'
        exact hle
    refine ⟨hstep.expired, fun last' hlast' => ?_, fun hv => ?_, fun hmode => ?_,
      Or.inr (by rw [hstep.confRev, hconf]), fun _ => hvalues s.cfg (by rw [hstep.cfg]),
      Or.inr ⟨last, hlast, ?_⟩⟩
    · rw [hlast] at hlast'
      cases hlast'
      exact halive _ (Nat.add_le_add_right hle delay) hclock
    · rw [hstep.cfg]
      exact hsub.simulation (hsimulation ▸ hv)
    · rw [hstep.cfg] at hmode
      exact Or.inl ((hstep.source hmode).trans hsimulation.symm)
    · cases c with
      | timeout =>
        simp only [opensNext, hempty, Call.isPublish, Bool.or_self, Bool.false_eq_true, if_false]
        rw [hshows.stNum, hshows.sqNum]
        exact ⟨hst.symm, hsq⟩
      | publish values t =>
        simp only [opensNext, Call.isPublish, Bool.or_true, if_true]
        rw [hshows.stNum, hst]
        exact wrapToOne_follows p.stNum

/-- What was accepted keeps the two sides in step. -/
theorem inStep_of_accepting {q : Publisher} {v : GoosePduView} {s' : Subscriber} {frame : Bytes}
    {opens : Bool} (hfactor : 2 ≤ p₀.cfg.retransmission.talFactor.toNat)
    (htop : p₀.cfg.retransmission.top < u32Max) (hcfg : s.cfg = config)
    (hsound : Sound config.limits p₀ q) (hshows : Shows q.header q.body v)
    (h : Accepting (now + delay) v opens s s') :
    InStep config delay p₀ { q.sent now frame with pending := false } s' := by
  have hconf : v.confRev = p₀.cfg.confRev.toNat := by
    rw [hshows.confRev]
    change q.cfg.confRev.toNat = _
    rw [hsound.cfg]
  have htal : v.timeAllowedToLive = q.cfg.retransmission.talAfter q.sentInState := by
    have hle := q.cfg.retransmission.talAfter_le q.sentInState
    rw [hshows.timeAllowedToLive]
    change (UInt32.ofNat _).toNat = _
    rw [UInt32.toNat_ofNat', Nat.mod_eq_of_lt]
    unfold u32Max at hle
    omega
  have hlt : q.cfg.retransmission.intervalAfter q.sentInState <
      q.cfg.retransmission.talAfter q.sentInState := by
    rw [hsound.cfg]
    exact Retransmission.intervalAfter_lt_talAfter hfactor htop _
  refine ⟨h.cfg.trans hcfg, h.expired, by rw [h.confRev, hconf], fun hmode => ?_, _, h.state,
    hshows.stNum, ?_, _, rfl, fun t ht hclock => ?_⟩
  · rw [h.source (by rw [hcfg]; exact hmode), hshows.simulation]
    exact hsound.simulation
  · change Follows v.sqNum (Publisher.wrapToOne q.sqNum).toNat
    rw [hshows.sqNum]
    exact wrapToOne_follows q.sqNum
  · change t < Instant.plusMillis (now + delay) v.timeAllowedToLive
    rw [htal]
    exact arrives_alive hlt ht hclock

end Step

end Iec61850.Goose
