import Iec61850.Goose.Lossless
import Iec61850.Goose.Replay

/-!
# One frame lost

A frame arrives, the one after it is lost, and the subscriber waits for the third
(`OneLost`). It is still live then exactly when the time allowed to live of the frame that
arrived exceeds both intervals together. Over a whole curve that takes a factor of four, or of
three where the curve does not double, and a last interval below `2 ^ 31` ms
(`one_loss_survived_iff`): the conventional factor of two is never enough.
-/

namespace Iec61850.Goose

open Theory Ber Link Subscriber

/-! ### Two intervals and one time allowed to live -/

namespace Retransmission

/-- The time allowed to live covers this interval and the next, everywhere on the curve. -/
def Covers (r : Retransmission) : Prop :=
  ∀ n, r.intervalAfter n + r.intervalAfter (n + 1) < r.talAfter n

/-- A factor and a curve for which one lost frame does no harm. -/
def LossProof (r : Retransmission) : Prop :=
  r.top < 2 ^ 31 ∧ (4 ≤ r.talFactor.toNat ∨ r.talFactor.toNat = 3 ∧ r.top < 2 * r.base)

variable {r : Retransmission} {n : Nat}

theorem intervalAfter_first (h : n ≤ 1) : r.intervalAfter n = r.base := by
  rw [intervalAfter, if_pos h]

theorem intervalAfter_late (h : 32 ≤ n) : r.intervalAfter n = r.top := by
  rw [intervalAfter, if_neg (by omega)]
  simp only
  rw [if_pos (by omega)]

theorem intervalAfter_doubling {k : Nat} (hpos : 0 < k) (hlt : k < 31) :
    r.intervalAfter (k + 1) = min r.top (r.base * 2 ^ k) := by
  rw [intervalAfter, if_neg (by omega)]
  simp only [Nat.add_sub_cancel]
  rw [if_neg (by omega)]
  split <;> omega

/-- The interval doubles at most, as long as the last one is not behind a leap: the curve goes
straight to it after thirty doublings. -/
theorem intervalAfter_succ_le (htop : r.top < 2 ^ 31) (n : Nat) :
    r.intervalAfter (n + 1) ≤ 2 * r.intervalAfter n := by
  have hbase := r.base_pos
  match n with
  | 0 =>
    rw [intervalAfter_first (Nat.le_refl 1), intervalAfter_first (Nat.zero_le 1)]
    omega
  | 1 =>
    rw [intervalAfter_first (Nat.le_refl 1), intervalAfter_doubling Nat.one_pos (by decide)]
    omega
  | k + 2 =>
    change r.intervalAfter (k + 3) ≤ 2 * r.intervalAfter (k + 2)
    have hle := r.intervalAfter_le_top (k + 3)
    by_cases hlate : 32 ≤ k + 2
    · rw [intervalAfter_late hlate]
      omega
    have hhere : r.intervalAfter (k + 2) = min r.top (r.base * 2 ^ (k + 1)) :=
      intervalAfter_doubling (Nat.succ_pos k) (by omega)
    rw [hhere]
    by_cases hthirty : k + 1 = 30
    · have hpow : 2 ^ 30 ≤ r.base * 2 ^ (k + 1) := by
        rw [hthirty]
        exact Nat.le_mul_of_pos_left _ hbase
      omega
    · have hnext : r.intervalAfter (k + 3) = min r.top (r.base * 2 ^ (k + 2)) :=
        intervalAfter_doubling (Nat.succ_pos _) (by omega)
      have hpow : r.base * 2 ^ (k + 2) = 2 * (r.base * 2 ^ (k + 1)) := by
        rw [Nat.pow_succ (n := 2) (m := k + 1)]
        ring
      rw [hnext, hpow]
      omega

theorem base_le_intervalAfter (r : Retransmission) (n : Nat) : r.base ≤ r.intervalAfter n := by
  have htop := r.base_le_top
  unfold intervalAfter
  split
  · exact Nat.le_refl _
  · simp only
    split
    · exact htop
    · split
      · exact htop
      · exact Nat.le_mul_of_pos_right _ (Nat.pow_pos (by decide))

theorem covers_of_lossProof (hfactor : 2 ≤ r.talFactor.toNat) (h : r.LossProof) : r.Covers := by
  intro n
  obtain ⟨htop, hcurve⟩ := h
  have hpos := r.intervalAfter_pos n
  have hle := r.intervalAfter_le_top n
  have hle' := r.intervalAfter_le_top (n + 1)
  rw [talAfter_eq hfactor]
  unfold u32Max
  rcases hcurve with hfour | ⟨hthree, hflat⟩
  · have hsucc := intervalAfter_succ_le htop n
    have hmul : r.intervalAfter n * 4 ≤ r.intervalAfter n * r.talFactor.toNat :=
      Nat.mul_le_mul_left _ hfour
    omega
  · have hbase := r.base_le_intervalAfter n
    rw [hthree]
    omega

theorem lossProof_of_covers (hfactor : 2 ≤ r.talFactor.toNat)
    (h : ∀ n ∈ [0, 1, 32], r.intervalAfter n + r.intervalAfter (n + 1) < r.talAfter n) :
    r.LossProof := by
  have hbase := r.base_pos
  have hfirst := h 0 (by simp)
  have hsecond := h 1 (by simp)
  have hlate := h 32 (by simp)
  have htwo : r.intervalAfter 2 = min r.top (r.base * 2 ^ 1) :=
    intervalAfter_doubling Nat.one_pos (by decide)
  rw [talAfter_eq hfactor, intervalAfter_first (Nat.le_refl 1), intervalAfter_first (Nat.zero_le 1)]
    at hfirst
  rw [talAfter_eq hfactor, intervalAfter_first (Nat.le_refl 1), htwo] at hsecond
  rw [talAfter_eq hfactor, intervalAfter_late (Nat.le_refl 32), intervalAfter_late (by omega)]
    at hlate
  unfold u32Max at *
  have hthree : 3 ≤ r.talFactor.toNat := by
    by_contra hlow
    have heq : r.talFactor.toNat = 2 := by omega
    rw [heq] at hfirst
    omega
  refine ⟨by omega, ?_⟩
  by_cases hfour : 4 ≤ r.talFactor.toNat
  · exact Or.inl hfour
  · have heq : r.talFactor.toNat = 3 := by omega
    rw [heq] at hsecond
    exact Or.inr ⟨heq, by omega⟩

end Retransmission

/-! ### The frame that arrived -/

variable {p p₀ : Publisher} {frame : Bytes} {now : Instant} {s : Subscriber}
  {sends all : List Transmission} {x : Transmission}

/-- Whatever of a frame of the publisher gets as far as the policies shows what was sent. -/
theorem streamPdu_shows {key : SubscriptionKey} {v : GoosePduView} (h : p.nextFrame = .ok frame)
    (hethertype : p.cfg.header.ethertype = ethertypeGoose) (hpdu : streamPdu key frame = some v) :
    Shows p.header p.body v := by
  obtain ⟨fr, v', hframe, hv, hshows, -⟩ := parse_nextFrame h hethertype
  unfold streamPdu at hpdu
  simp only [hframe, hv] at hpdu
  split at hpdu
  · cases hpdu
  · split at hpdu
    · cases hpdu
    · split at hpdu
      · cases hpdu
      · split at hpdu
        · cases hpdu
        · cases hpdu
          exact hshows

/-- Of an accepted frame the subscriber keeps the time at which it expires. -/
theorem accepted_state (h : ∃ e ∈ raised s (s.onFrame now frame), e.isAcceptance = true) :
    ∃ v, streamPdu s.cfg.key frame = some v ∧ (s.onFrame now frame).state = some (accepted now v) ∧
      (s.onFrame now frame).expired = false := by
  obtain ⟨e, he, hacceptance⟩ := h
  have heffect := onFrame_effect now frame s
  generalize s.onFrame now frame = s' at heffect he ⊢
  cases heffect with
  | unseen _ _ hquiet =>
    rw [hquiet.raised e he] at hacceptance
    cases hacceptance
  | dropped pdu _ _ hquiet =>
    rw [hquiet.raised e he] at hacceptance
    cases hacceptance
  | newState pdu u values hpdu =>
    have hbeliefs := acceptNew_beliefs now pdu values u
    exact ⟨pdu, hpdu, congrArg Beliefs.state hbeliefs, congrArg Beliefs.expired hbeliefs⟩
  | retransmission pdu u hpdu =>
    have hbeliefs := acceptRetransmission_beliefs now pdu u
    exact ⟨pdu, hpdu, congrArg Beliefs.state hbeliefs, congrArg Beliefs.expired hbeliefs⟩

theorem isLive_onTimeout {last : Accepted} (hstate : s.state = some last)
    (hexpired : s.expired = false) : (s.onTimeout now).isLive = true ↔ now < last.expiresAt := by
  have hbeliefs := checkExpiry_beliefs now s
  have hafter : (s.onTimeout now).expired = decide (now ≥ last.expiresAt) := by
    have hflag := congrArg Beliefs.expired hbeliefs
    rw [onTimeout]
    refine hflag.trans ?_
    change (s.expired || s.due now) = _
    rw [hexpired, due, hstate, Bool.false_or]
  have hkept : (s.onTimeout now).state = some last :=
    (congrArg Beliefs.state hbeliefs).trans hstate
  rw [isLive, hkept, hafter]
  simp

/-! ### The frame that was lost -/

theorem transmits_idle (h : Transmits p₀ sends p) (hidle : p₀.pending = false) :
    p.pending = false := by
  cases h with
  | start => exact hidle
  | send run onTime hcall hpolled =>
    unfold Publisher.pollTransmit at hpolled
    split at hpolled
    · cases hpolled
      rfl
    · cases hpolled

/-- The last of the frames a publisher sent. -/
theorem transmits_last {p'' : Publisher} (h : Transmits p₀ all p'') (hall : all = sends ++ [x])
    (hidle : p₀.pending = false) : ∃ p, Transmits p₀ sends p ∧ OnTime sends p x.sentAt x.call ∧
      (p.prepare x.call).nextFrame = .ok x.frame ∧
      p'' = { (p.prepare x.call).sent x.sentAt x.frame with pending := false } := by
  cases h with
  | start => simp at hall
  | send run onTime hcall hpolled =>
    obtain ⟨rfl, hx⟩ := List.append_inj' hall rfl
    cases hx
    obtain ⟨hframe, hleft, -⟩ := Publisher.call_sent (transmits_idle run hidle) hcall hpolled
    exact ⟨_, run, onTime, hframe, hleft⟩

theorem transmits_nil (h : Transmits p₀ all p) (hall : all = []) : p = p₀ := by
  cases h with
  | start => rfl
  | send => simp at hall

/-- Two frames, the second one in time. -/
theorem transmits_pair {p₂ : Publisher} {y : Transmission} (h : Transmits p [x, y] p₂)
    (hidle : p.pending = false) : (p.prepare x.call).nextFrame = .ok x.frame ∧
      ∃ p₁ : Publisher,
        p₁ = { (p.prepare x.call).sent x.sentAt x.frame with pending := false } ∧
        OnTime [x] p₁ y.sentAt y.call ∧
        p₂ = { (p₁.prepare y.call).sent y.sentAt y.frame with pending := false } := by
  have htwo : [x, y] = [x] ++ [y] := rfl
  have hone : [x] = [] ++ [x] := rfl
  obtain ⟨p₁, hrun, honTime, -, hp₂⟩ := transmits_last h htwo hidle
  obtain ⟨p', hstart, -, hframe, hp₁⟩ := transmits_last hrun hone hidle
  have hp := transmits_nil hstart rfl
  subst hp
  exact ⟨hframe, p₁, hp₁, honTime, hp₂⟩

theorem prepare_cfg (p : Publisher) (c : Call) : (p.prepare c).cfg = p.cfg := by
  cases c <;> rfl

/-- A frame that arrives and is accepted, and one of the same publisher, sent in time, that is
lost. The next one is due at `nextAt`, within the clock. -/
structure OneLost (r : Retransmission) (delay : Nat) where
  p : Publisher
  p₂ : Publisher
  heard : Transmission
  lost : Transmission
  nextAt : Instant
  s : Subscriber
  curve : p.cfg.retransmission = r
  idle : p.pending = false
  stream : Subscribed s.cfg p
  run : Transmits p [heard, lost] p₂
  accepted : ∃ e ∈ raised s (s.onFrame (heard.sentAt + delay) heard.frame),
    e.isAcceptance = true
  next : p₂.nextSend = some nextAt
  clock : nextAt + delay < u64Max

namespace OneLost

variable {r : Retransmission} {delay : Nat}

/-- The subscriber is live when the frame after the lost one arrives. -/
def Survives (l : OneLost r delay) : Prop :=
  ((l.s.onFrame (l.heard.sentAt + delay) l.heard.frame).onTimeout (l.nextAt + delay)).isLive = true

/-- Where on the curve the frame sits that arrived. -/
def position (l : OneLost r delay) : Nat := (l.p.prepare l.heard.call).sentInState

theorem survives_iff_lt (l : OneLost r delay) : l.Survives ↔
    l.nextAt + delay < Instant.plusMillis (l.heard.sentAt + delay) (r.talAfter l.position) := by
  obtain ⟨v, hpdu, hstate, hexpired⟩ := accepted_state l.accepted
  obtain ⟨hframe, -⟩ := transmits_pair l.run l.idle
  have hcfg := prepare_cfg l.p l.heard.call
  have hshows := streamPdu_shows hframe (by rw [hcfg]; exact l.stream.ethertype) hpdu
  have htal : v.timeAllowedToLive = r.talAfter l.position := by
    have hle := r.talAfter_le l.position
    rw [hshows.timeAllowedToLive]
    change (UInt32.ofNat
      ((l.p.prepare l.heard.call).cfg.retransmission.talAfter l.position)).toNat = _
    rw [hcfg, l.curve, UInt32.toNat_ofNat', Nat.mod_eq_of_lt]
    unfold u32Max at hle
    omega
  rw [Survives, isLive_onTimeout hstate hexpired]
  change _ < Instant.plusMillis (l.heard.sentAt + delay) v.timeAllowedToLive ↔ _
  rw [htal]

/-- When the next frame is due: one interval of the curve after the one that was lost, and that
one was sent at the end of its interval or, if it was published, before. -/
theorem nextAt_cases (l : OneLost r delay) : (l.lost.call = .timeout ∧ l.nextAt = Instant.plusMillis
      (Instant.plusMillis l.heard.sentAt (r.intervalAfter l.position))
      (r.intervalAfter (min u32Max (l.position + 1)))) ∨ (l.lost.call.isPublish = true ∧ ∃ lostAt,
      lostAt ≤ Instant.plusMillis l.heard.sentAt (r.intervalAfter l.position) ∧
      l.nextAt = Instant.plusMillis lostAt r.base) := by
  obtain ⟨-, p₁, hp₁, honTime, hp₂⟩ := transmits_pair l.run l.idle
  have hnext := l.next
  have hcfg := prepare_cfg l.p l.heard.call
  have hdue : p₁.nextSend =
      some (Instant.plusMillis l.heard.sentAt (r.intervalAfter l.position)) := by
    rw [hp₁]
    change some (Instant.plusMillis l.heard.sentAt
      ((l.p.prepare l.heard.call).cfg.retransmission.intervalAfter l.position)) = _
    rw [hcfg, l.curve]
  have hcurve : p₁.cfg.retransmission = r := by
    rw [hp₁]
    change (l.p.prepare l.heard.call).cfg.retransmission = r
    rw [hcfg, l.curve]
  have hposition : p₁.sentInState = min u32Max (l.position + 1) := by
    rw [hp₁]
    rfl
  rw [hp₂] at hnext
  cases hcall : l.lost.call with
  | timeout =>
    rw [hcall] at honTime hnext
    have hat := honTime.resolve_left (by simp)
    rw [hdue, Option.some.injEq] at hat
    change some (Instant.plusMillis l.lost.sentAt
      (p₁.cfg.retransmission.intervalAfter p₁.sentInState)) = _ at hnext
    rw [hcurve, hposition, ← hat, Option.some.injEq] at hnext
    exact Or.inl ⟨rfl, hnext.symm⟩
  | publish values t =>
    rw [hcall] at honTime hnext
    obtain ⟨due, hdue', hle⟩ := honTime.resolve_left (by simp)
    rw [hdue, Option.some.injEq] at hdue'
    change some (Instant.plusMillis l.lost.sentAt
      (p₁.cfg.retransmission.intervalAfter 0)) = _ at hnext
    rw [hcurve, Retransmission.intervalAfter_first (Nat.zero_le 1), Option.some.injEq] at hnext
    exact Or.inr ⟨rfl, l.lost.sentAt, hdue' ▸ hle, hnext.symm⟩

theorem intervalAfter_capped (r : Retransmission) (n : Nat) :
    r.intervalAfter (min u32Max n) = r.intervalAfter n := by
  by_cases h : n ≤ u32Max
  · rw [Nat.min_eq_right h]
  · rw [Nat.min_eq_left (by omega), Retransmission.intervalAfter_late (by decide),
      Retransmission.intervalAfter_late (by unfold u32Max at h; omega)]

theorem intervalAfter_le (r : Retransmission) (n : Nat) : r.intervalAfter n ≤ u32Max := by
  have hle := r.intervalAfter_le_top n
  have hmin := r.minTimeMs.toNat_lt
  have hmax := r.maxTimeMs.toNat_lt
  have htop : r.top ≤ u32Max := by
    unfold Retransmission.top Retransmission.base u32Max
    split <;> split <;> omega
  omega

variable {t ms at' sent i j nextAt : Nat}

theorem plusMillis_exact (hms : ms ≤ u32Max) (hat : at' = Instant.plusMillis t ms)
    (h : at' < u64Max) : at' = t + ms * 1000000 := by
  unfold Instant.plusMillis u64Max at *
  unfold u32Max at hms
  omega

theorem plusMillis_le (hat : at' = Instant.plusMillis t ms) : at' ≤ t + ms * 1000000 := by
  unfold Instant.plusMillis at hat
  omega

theorem le_plusMillis (hat : at' = Instant.plusMillis t ms) (h : at' < u64Max) : t ≤ at' := by
  unfold Instant.plusMillis u64Max at *
  omega

theorem lt_plusMillis (hms : ms ≤ u32Max) (h : t < u64Max) :
    t < Instant.plusMillis sent ms ↔ t < sent + ms * 1000000 := by
  unfold Instant.plusMillis u64Max at *
  unfold u32Max at hms
  omega

theorem twice_in_clock (hi : i ≤ u32Max) (hj : j ≤ u32Max)
    (hnext : nextAt = Instant.plusMillis (Instant.plusMillis 0 i) j) : nextAt + 0 < u64Max := by
  have honce := plusMillis_le (rfl : (Instant.plusMillis 0 i : Nat) = _)
  have htwice := plusMillis_le hnext
  generalize (Instant.plusMillis 0 i : Nat) = lostAt at honce htwice
  unfold u32Max at hi hj
  unfold u64Max
  omega

/-- Within the clock, waiting twice is waiting for the sum. -/
theorem waits_twice_iff {wait tal lostAt : Nat} (hi : i ≤ u32Max) (hj : j ≤ u32Max)
    (htal : tal ≤ u32Max) (hlost : lostAt = Instant.plusMillis sent i)
    (hnext : nextAt = Instant.plusMillis lostAt j) (hclock : nextAt + wait < u64Max) :
    nextAt + wait < Instant.plusMillis (sent + wait) tal ↔ i + j < tal := by
  have hle := le_plusMillis hnext (by omega)
  have htwo := plusMillis_exact hj hnext (by omega)
  have hone := plusMillis_exact hi hlost (by omega)
  rw [lt_plusMillis htal hclock]
  omega

theorem waits_less {wait lostAt tal : Nat} (htal : tal ≤ u32Max)
    (hlost : lostAt ≤ Instant.plusMillis sent i) (hnext : nextAt = Instant.plusMillis lostAt j)
    (hclock : nextAt + wait < u64Max) (hsum : i + j < tal) :
    nextAt + wait < Instant.plusMillis (sent + wait) tal := by
  have hone := plusMillis_le (rfl : (Instant.plusMillis sent i : Nat) = _)
  have htwo := plusMillis_le hnext
  rw [lt_plusMillis htal hclock]
  generalize Instant.plusMillis sent i = due at hlost hone
  omega

theorem survives_of_covers (h : r.Covers) (l : OneLost r delay) : l.Survives := by
  have hcovers := h l.position
  have hclock := l.clock
  have hhere := intervalAfter_le r l.position
  have htal := r.talAfter_le l.position
  rw [survives_iff_lt]
  rcases l.nextAt_cases with ⟨-, hnext⟩ | ⟨-, lostAt, hle, hnext⟩
  · rw [intervalAfter_capped] at hnext
    exact (waits_twice_iff hhere (intervalAfter_le r _) htal rfl hnext hclock).mpr hcovers
  · have hbase := r.base_le_intervalAfter (l.position + 1)
    exact waits_less htal hle hnext hclock (by omega)

theorem covers_at_of_survives (l : OneLost r delay) (hlost : l.lost.call = .timeout)
    (h : l.Survives) :
    r.intervalAfter l.position + r.intervalAfter (l.position + 1) < r.talAfter l.position := by
  have hclock := l.clock
  have hhere := intervalAfter_le r l.position
  have htal := r.talAfter_le l.position
  rw [survives_iff_lt] at h
  rcases l.nextAt_cases with ⟨-, hnext⟩ | ⟨hpublish, -⟩
  · rw [intervalAfter_capped] at hnext
    exact (waits_twice_iff hhere (intervalAfter_le r _) htal rfl hnext hclock).mp h
  · rw [hlost] at hpublish
    cases hpublish

end OneLost

/-! ### A loss at every place of a curve -/

variable {p : Publisher} {now : Instant} {frame : Bytes} {r : Retransmission}

theorem call_timeout (hdue : p.nextSend = some now) (hframe : p.nextFrame = .ok frame) :
    p.call now .timeout = (p.sent now frame, .ok ()) := by
  rw [Publisher.call, Publisher.onTimeout, hdue]
  simp only
  rw [if_pos (Nat.le_refl now), Publisher.build_ok now hframe]

theorem nextFrame_at (hcfg : p.cfg = (topPublisher r).cfg) (hbody : p.body = [131, 1, 1]) :
    ∃ frame, p.nextFrame = .ok frame := by
  have href : isAscii (ascii "ref") = true ∧ (ascii "ref").length ≤ 129 := by decide
  have hds : isAscii (ascii "ds") = true ∧ (ascii "ds").length ≤ 129 := by decide
  refine nextFrame_of_small ?_ ?_ ?_ ?_ ?_ ?_
  · rw [hcfg]
    exact href.1
  · rw [hcfg]
    exact href.2
  · rw [hcfg]
    exact hds.1
  · rw [hcfg]
    exact hds.2
  · intro s hs
    rw [hcfg] at hs
    cases hs
  · rw [hbody]
    exact Nat.le_of_ble_eq_true rfl

theorem top_holds (hbody : p.body = [131, 1, 1]) (hmembers : p.members = 1) :
    p.Holds [.boolean true] :=
  ⟨by simp [Value.TagFits], by rw [hbody]; rfl, by rw [hmembers]; rfl⟩

/-- A fresh subscriber accepts it. -/
theorem topSubscription_accepts (hsound : Sound topSubscription.limits (topPublisher r) p)
    (hholds : p.Holds [.boolean true]) (hframe : p.nextFrame = .ok frame) (hclock : now < u64Max) :
    ∃ e ∈ raised (Subscriber.new topSubscription)
      ((Subscriber.new topSubscription).onFrame now frame), e.isAcceptance = true := by
  have hsub := subscribed_of_sound (topSubscription_subscribed r) hsound
  obtain ⟨v, hpdu, hshows⟩ := streamPdu_of_nextFrame hframe hsub hholds
  have hwaiting : Waiting topSubscription 0 (topPublisher r) [] p (Subscriber.new topSubscription) :=
    Or.inl ⟨rfl, rfl⟩
  have honTime : OnTime [] p now .timeout := Or.inl rfl
  have hready : Ready now v true (Subscriber.new topSubscription) :=
    ready_of_waiting hwaiting (topSubscription_subscribed r) honTime hclock hsound hshows
  have haccepting := onFrame_accepts hpdu hready
  obtain ⟨es, e, fs, hhistory, -, hacceptance, -, -⟩ := haccepting.shown
  refine ⟨e, ?_, hacceptance⟩
  rw [raised, hhistory, List.drop_left]
  simp

/-- The `n`-th frame of a state arrives as the first one, and the retransmission behind it is
lost. -/
theorem lossAt (r : Retransmission) (n : Nat) :
    ∃ l : OneLost r 0, l.position = n ∧ l.lost.call = .timeout := by
  obtain ⟨p, hp⟩ : ∃ p : Publisher, p = { topPublisher r with sentInState := n } := ⟨_, rfl⟩
  have hcfg : p.cfg = (topPublisher r).cfg := by rw [hp]
  have hbody : p.body = [131, 1, 1] := by rw [hp]; rfl
  have hidle : p.pending = false := by rw [hp]; rfl
  have hstart : p.nextSend = some 0 := by rw [hp]; rfl
  have hsimulation : p.simulation = false := by rw [hp]; rfl
  have hmembers : p.members = 1 := by rw [hp]; rfl
  have hposition : p.sentInState = n := by rw [hp]
  obtain ⟨frame, hframe⟩ := nextFrame_at hcfg hbody
  obtain ⟨p₁, hp₁⟩ : ∃ p₁ : Publisher, p₁ = { p.sent 0 frame with pending := false } := ⟨_, rfl⟩
  have hcfg₁ : p₁.cfg = (topPublisher r).cfg := by
    rw [hp₁]
    exact hcfg
  have hbody₁ : p₁.body = [131, 1, 1] := by
    rw [hp₁]
    exact hbody
  have hdue : p₁.nextSend = some (Instant.plusMillis 0 (r.intervalAfter n)) := by
    rw [hp₁, ← hposition]
    change some (Instant.plusMillis 0 (p.cfg.retransmission.intervalAfter _)) = _
    rw [hcfg]
    rfl
  obtain ⟨frame', hframe'⟩ := nextFrame_at hcfg₁ hbody₁
  have hone : Transmits p [⟨0, .timeout, frame⟩] p₁ := by
    rw [hp₁]
    exact .send .start (Or.inl rfl) (call_timeout hstart hframe) rfl
  have htwo : Transmits p [⟨0, .timeout, frame⟩, ⟨_, .timeout, frame'⟩] _ :=
    .send hone (Or.inr hdue) (call_timeout hdue hframe') rfl
  have hnext := OneLost.intervalAfter_le p₁.cfg.retransmission p₁.sentInState
  have hfirst := OneLost.intervalAfter_le r n
  have hholds := top_holds hbody hmembers
  have hsound : Sound topSubscription.limits (topPublisher r) p :=
    ⟨hcfg, hsimulation, hidle, _, hholds, boolean_receivable true⟩
  refine ⟨⟨p, _, _, _, _, Subscriber.new topSubscription, by rw [hcfg]; rfl, hidle,
    subscribed_of_sound (topSubscription_subscribed r) hsound, htwo, ?_, rfl, ?_⟩, hposition, rfl⟩
  · exact topSubscription_accepts hsound hholds hframe (show 0 < u64Max by decide)
  · exact OneLost.twice_in_clock hfirst hnext rfl

/-- Every loss of a single frame is survived exactly on a loss-proof curve. -/
theorem one_loss_survived_iff (r : Retransmission) (hfactor : 2 ≤ r.talFactor.toNat) :
    (∀ delay, ∀ l : OneLost r delay, l.Survives) ↔ r.LossProof := by
  constructor
  · intro h
    refine Retransmission.lossProof_of_covers hfactor fun n hn => ?_
    obtain ⟨l, hposition, hlost⟩ := lossAt r n
    have hcovers := l.covers_at_of_survives hlost (h 0 l)
    rw [hposition] at hcovers
    exact hcovers
  · intro h delay l
    exact OneLost.survives_of_covers (Retransmission.covers_of_lossProof hfactor h) l

theorem one_loss_survived_four : ∃ l : OneLost ⟨4, 1000, 4⟩ 0, l.position = 5 ∧ l.Survives := by
  obtain ⟨l, hposition, -⟩ := lossAt ⟨4, 1000, 4⟩ 5
  exact ⟨l, hposition,
    (one_loss_survived_iff ⟨4, 1000, 4⟩ (by decide)).mpr ⟨by decide, Or.inl (by decide)⟩ 0 l⟩

/-- With the default curve the subscription expires at the very time at which the frame behind
the lost one arrives. -/
theorem default_loss_expires : ∃ l : OneLost .default 7, l.p = topPublisher .default ∧
      [l.heard.sentAt, l.lost.sentAt, l.nextAt] = [5, 4000005, 8000005] ∧ ¬ l.Survives := by
  have hone : Transmits (topPublisher .default) _ _ :=
    Transmits.next 5 .timeout .start (Or.inl rfl) (by decide +kernel) (by decide +kernel)
  have htwo := Transmits.next 4000005 .timeout hone (Or.inr (by decide +kernel))
    (by decide +kernel) (by decide +kernel)
  refine ⟨⟨topPublisher .default, _, _, _, 8000005, Subscriber.new topSubscription, rfl, rfl,
    topSubscription_subscribed _, htwo, ?_, by decide +kernel, by decide⟩, rfl, rfl, ?_⟩
  · exact List.any_eq_true.mp (by decide +kernel)
  · change ¬ (((Subscriber.new topSubscription).onFrame 12
      ((topPublisher .default).call 5 .timeout).1.frame).onTimeout 8000012).isLive = true
    decide +kernel

end Iec61850.Goose
