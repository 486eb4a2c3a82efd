import Iec61850.Sv.FrameCounts
import Iec61850.Sv.PublisherRuns
import Iec61850.Theory.SwapRemove

/-!
# Counting what is lost of a stream

Frames of a publisher reach a subscriber or are lost. The subscriber sees the counts of the samples
only, which wrap; as long as fewer than a wrap's worth are lost in a row, it counts every loss and
every sample lost between two frames that arrive (`losses_counted`).
-/

namespace Iec61850.Sv

open Theory Ber Link

/-! ### The account of a stream -/

/-- What a stream remembers of the counts it has seen. -/
structure Account where
  last : Option Nat
  gaps : Nat
  lost : Nat

def Stream.account (st : Stream) : Account :=
  ⟨st.state.lastSmpCnt, st.state.gaps, st.state.samplesLost⟩

/-- A further sample with this count. -/
def Account.note (wrap : Nat) (a : Account) (cnt : Nat) : Account :=
  match a.last with
  | none => { a with last := some cnt }
  | some last =>
    if cnt = (last + 1) % wrap then { a with last := some cnt }
    else ⟨some cnt, satInc a.gaps, min u64Max (a.lost + (cnt + wrap - (last + 1) % wrap) % wrap)⟩

variable {i : Nat} {st : Stream} {asdu : AsduView}

theorem Stream.take_account (now : Instant) :
    (st.take i now asdu).stream.account = st.account.note st.cfg.wrap asdu.smpCnt := by
  have hbounds : 0 < st.cfg.wrap ∧ st.cfg.wrap ≤ 65536 := smpCntWrap_bounds _
  unfold Stream.take Stream.account Account.note Stream.gapOf
  cases st.state.lastSmpCnt with
  | none => rfl
  | some last =>
    have hlt := Nat.mod_lt (last + 1) hbounds.1
    have hexpected : (last + 1) % st.cfg.wrap % 65536 = (last + 1) % st.cfg.wrap :=
      Nat.mod_eq_of_lt (by omega)
    simp only [Option.bind_some, hexpected]
    by_cases hnext : asdu.smpCnt = (last + 1) % st.cfg.wrap
    · simp only [if_pos hnext]
      rfl
    · simp only [if_neg hnext]
      rfl

theorem Stream.confRevAdmits_of (st : Stream) {rev : Nat}
    (hrev : st.cfg.admitsConfRev rev = true) :
    ∃ st', st.confRevAdmits i rev = ⟨true, st', []⟩ ∧ st'.cfg = st.cfg ∧ st'.state = st.state := by
  unfold Stream.confRevAdmits
  unfold StreamConfig.admitsConfRev at hrev
  cases hexpected : st.cfg.expectedConfRev with
  | none => exact ⟨_, rfl, rfl, rfl⟩
  | some expected =>
    rw [hexpected] at hrev
    exact ⟨_, if_pos (of_decide_eq_true hrev), rfl, rfl⟩

theorem Stream.layoutAdmits_of (st : Stream) {len : Nat}
    (hlen : st.cfg.admitsLength len = true) :
    ∃ st', st.layoutAdmits i len = ⟨true, st', []⟩ ∧ st'.cfg = st.cfg ∧ st'.state = st.state := by
  unfold Stream.layoutAdmits
  unfold StreamConfig.admitsLength at hlen
  cases hexpected : st.cfg.layout with
  | none => exact ⟨_, rfl, rfl, rfl⟩
  | some layout =>
    rw [hexpected] at hlen
    exact ⟨_, if_pos hlen, rfl, rfl⟩

/-- A stream that takes what is not simulated takes an ASDU of the revision and the length it is
configured for. -/
theorem Stream.settle_account (now : Instant) (hoff : st.cfg.simulation = .off)
    (hrev : st.cfg.admitsConfRev asdu.confRev = true)
    (hlen : st.cfg.admitsLength asdu.sample.length = true) :
    (st.settle i now asdu false).admitted = true ∧
      (st.settle i now asdu false).stream.cfg = st.cfg ∧
      (st.settle i now asdu false).stream.account =
        st.account.note st.cfg.wrap asdu.smpCnt := by
  have hpolicy : st.simulationPolicyAdmits i false =
      ⟨true, { st with simulationReported := false }, []⟩ := by
    unfold Stream.simulationPolicyAdmits
    rw [hoff]
  obtain ⟨st1, h1, hcfg1, hstate1⟩ :=
    Stream.confRevAdmits_of { st with simulationReported := false } (i := i) hrev
  obtain ⟨st2, h2, hcfg2, hstate2⟩ := st1.layoutAdmits_of (i := i) (hcfg1 ▸ hlen)
  rw [hcfg1] at hcfg2
  have hsettle : st.settle i now asdu false =
      ⟨true, (st2.take i now asdu).stream, (st2.take i now asdu).events⟩ := by
    rw [Stream.settle, hpolicy, Outcome.andThen, if_pos rfl, Stream.accept, h1]
    simp only [Outcome.andThen, if_true, h2, List.nil_append]
    rfl
  have haccount : st2.account = st.account := by
    rw [Stream.account, hstate2.trans hstate1, Stream.account]
  rw [hsettle]
  refine ⟨rfl, hcfg2, ?_⟩
  rw [← haccount, ← hcfg2]
  exact st2.take_account now

/-! ### Frames that arrive and frames that do not -/

/-- What is lost of a stream: the samples since the last frame that arrived, and what was lost
between frames that arrived. -/
structure Losses where
  pending : Option Nat
  gaps : Nat
  lost : Nat

/-- A frame of `n` samples. -/
def Losses.frame (n : Nat) (l : Losses) (arrives : Bool) : Losses :=
  if arrives then
    let run := l.pending.getD 0
    ⟨some 0, if run = 0 then l.gaps else l.gaps + 1, l.lost + run⟩
  else { l with pending := l.pending.map (· + n) }

/-- The account shows the losses; the next sample has this count. -/
structure Losses.Shown (wrap cnt : Nat) (l : Losses) (a : Account) : Prop where
  gaps : a.gaps = min u64Max l.gaps
  lost : a.lost = min u64Max l.lost
  last : a.last = none ∧ l.pending = none ∨
    ∃ last k, a.last = some last ∧ l.pending = some k ∧ (last + 1 + k) % wrap = cnt

variable {wrap cnt n : Nat} {a : Account} {l : Losses}

/-- How far a count is behind another one, if it is not behind by a wrap. -/
theorem behind {e k : Nat} (he : e < wrap) (hk : k < wrap) (hcnt : (e + k) % wrap = cnt) :
    (cnt = e ↔ k = 0) ∧ (cnt + wrap - e) % wrap = k := by
  by_cases hlow : e + k < wrap
  · rw [Nat.mod_eq_of_lt hlow] at hcnt
    have hdiff : cnt + wrap - e = k + wrap := by omega
    rw [hdiff, Nat.add_mod_right, Nat.mod_eq_of_lt hk]
    exact ⟨by omega, rfl⟩
  · rw [Nat.mod_eq_sub_mod (by omega), Nat.mod_eq_of_lt (by omega)] at hcnt
    have hdiff : cnt + wrap - e = k := by omega
    rw [hdiff, Nat.mod_eq_of_lt hk]
    exact ⟨by omega, rfl⟩

/-- The samples of a frame behind the first one are never missed. -/
theorem foldl_note (hcnt : cnt < wrap) (hlast : a.last = some cnt) (n : Nat) :
    ((List.range n).map fun j => (cnt + 1 + j) % wrap).foldl (Account.note wrap) a =
      { a with last := some ((cnt + n) % wrap) } := by
  induction n with
  | zero =>
    simp only [Nat.add_zero, Nat.mod_eq_of_lt hcnt, ← hlast]
    rfl
  | succ n ih =>
    have hnext : (cnt + 1 + n) % wrap = ((cnt + n) % wrap + 1) % wrap := by
      rw [Nat.mod_add_mod, Nat.add_right_comm]
    rw [List.range_succ, List.map_append, List.foldl_append, ih]
    simp only [List.map_cons, List.map_nil, List.foldl_cons, List.foldl_nil, Account.note]
    rw [if_pos hnext, Nat.add_right_comm, Nat.add_assoc]

namespace Losses.Shown

variable (h : l.Shown wrap cnt a)

include h

theorem misses (n : Nat) : (l.frame n false).Shown wrap ((cnt + n) % wrap) a := by
  refine ⟨h.gaps, h.lost, ?_⟩
  rcases h.last with ⟨hnone, hpending⟩ | ⟨last, k, hlast, hpending, hcnt⟩
  · exact Or.inl ⟨hnone, congrArg (Option.map (· + n)) hpending⟩
  · refine Or.inr ⟨last, k + n, hlast, congrArg (Option.map (· + n)) hpending, ?_⟩
    rw [← hcnt, Nat.mod_add_mod, ← Nat.add_assoc]

/-- The first sample of a frame that arrives tells what was lost before it. -/
theorem first (hwrap : 0 < wrap) (hshort : l.pending.getD 0 < wrap) :
    (a.note wrap cnt).last = some cnt ∧
      (a.note wrap cnt).gaps = min u64Max (l.frame n true).gaps ∧
      (a.note wrap cnt).lost = min u64Max (l.frame n true).lost := by
  unfold Account.note Losses.frame
  rcases h.last with ⟨hnone, hpending⟩ | ⟨last, k, hlast, hpending, hcnt⟩
  · rw [hnone, hpending]
    exact ⟨rfl, h.gaps, h.lost⟩
  · rw [hpending, Option.getD_some] at hshort
    rw [← Nat.mod_add_mod] at hcnt
    obtain ⟨hsame, hfar⟩ := behind (Nat.mod_lt (last + 1) hwrap) hshort hcnt
    have hgaps := h.gaps
    have hlost := h.lost
    simp only [hlast, hpending, Option.getD_some, if_true]
    by_cases hk : k = 0
    · rw [if_pos (hsame.mpr hk), if_pos hk, hk]
      exact ⟨rfl, hgaps, hlost⟩
    · rw [if_neg (mt hsame.mp hk), if_neg hk, hfar]
      refine ⟨rfl, ?_, ?_⟩
      · simp only [satInc]
        omega
      · simp only
        omega

theorem arrives (hwrap : 0 < wrap) (hcnt : cnt < wrap) (hn : 0 < n)
    (hshort : l.pending.getD 0 < wrap) :
    (l.frame n true).Shown wrap ((cnt + n) % wrap)
      (((List.range n).map fun j => (cnt + j) % wrap).foldl (Account.note wrap) a) := by
  obtain ⟨m, rfl⟩ := Nat.exists_eq_add_one.mpr hn
  obtain ⟨hlast, hgaps, hlost⟩ := h.first (n := m + 1) hwrap hshort
  have hrest : ((List.range (m + 1)).map fun j => (cnt + j) % wrap) =
      cnt :: (List.range m).map fun j => (cnt + 1 + j) % wrap := by
    rw [List.range_succ_eq_map, List.map_cons, List.map_map, Nat.add_zero, Nat.mod_eq_of_lt hcnt]
    congr 1
    exact List.map_congr_left fun j _ => congrArg (· % wrap) (Nat.add_right_comm cnt j 1)
  rw [hrest, List.foldl_cons, foldl_note hcnt hlast]
  refine ⟨hgaps, hlost, Or.inr ⟨_, 0, rfl, rfl, ?_⟩⟩
  rw [Nat.add_zero, Nat.mod_add_mod, Nat.add_assoc]

end Losses.Shown

/-! ### A frame at a subscriber -/

namespace Subscriber

variable {s : Subscriber} {w : Walk} {fr : Frame} {svId : Bytes}

/-- The stream of the ASDUs of this name in a frame. -/
def Hears (fr : Frame) (svId : Bytes) (i : Nat) (configs : List StreamConfig) : Prop :=
  configs.findIdx? (fun cfg =>
    cfg.key.dst == fr.dst && cfg.key.appid == fr.appid && cfg.key.svId == svId) = some i

/-- What a stream takes of a publisher that is not simulated. -/
structure Takes (cfg : StreamConfig) (u : AsduView) : Prop where
  confRev : cfg.admitsConfRev u.confRev = true
  length : cfg.admitsLength u.sample.length = true

theorem onAsdu_account (now : Instant) (hsim : fr.simulation = false)
    (hears : Hears fr asdu.svId i (w.sub.streams.map Stream.cfg)) (hst : w.sub.streams[i]? = some st)
    (hoff : st.cfg.simulation = .off) (htakes : Takes st.cfg asdu) :
    (w.onAsdu now fr asdu).sub.limits = w.sub.limits ∧
      ∃ st', (w.onAsdu now fr asdu).sub.streams = w.sub.streams.set i st' ∧ st'.cfg = st.cfg ∧
        st'.account = st.account.note st.cfg.wrap asdu.smpCnt := by
  have hof : w.sub.streamOf fr asdu = some i := by
    rw [Hears, List.findIdx?_map] at hears
    exact hears
  obtain ⟨hadmitted, hcfg, haccount⟩ :=
    st.settle_account (i := i) now hoff htakes.confRev htakes.length
  have hlt := (List.getElem?_eq_some_iff.mp hst).1
  rw [Walk.onAsdu_of_some hof hst, onStream_eq hst, hsim]
  generalize st.settle i now asdu false = o at hadmitted hcfg haccount ⊢
  dsimp only
  rw [if_pos hadmitted]
  by_cases hcounted : w.counted = some i
  · rw [if_neg (not_not_intro hcounted)]
    exact ⟨rfl, o.stream, rfl, hcfg, haccount⟩
  · rw [if_pos hcounted]
    refine ⟨rfl, { o.stream with state := { o.stream.state with
      frames := satInc o.stream.state.frames } }, ?_, hcfg, haccount⟩
    rw [countFrame]
    dsimp only
    rw [List.modify_eq_set_getElem?, List.getElem?_set_self hlt]
    exact List.set_set ..

/-- The loop over the ASDUs of a frame notes their counts. -/
theorem foldl_account (now : Instant) (hsim : fr.simulation = false) (views : List AsduView)
    (hears : Hears fr svId i (w.sub.streams.map Stream.cfg)) (hst : w.sub.streams[i]? = some st)
    (hoff : st.cfg.simulation = .off)
    (htakes : ∀ u ∈ views, u.svId = svId ∧ Takes st.cfg u) :
    (walkAsdus now fr (views.map .ok) w).1.limits = w.sub.limits ∧
      (walkAsdus now fr (views.map .ok) w).1.streams.map Stream.cfg = w.sub.streams.map Stream.cfg ∧
      ∃ st', (walkAsdus now fr (views.map .ok) w).1.streams[i]? = some st' ∧
        st'.account = (views.map AsduView.smpCnt).foldl (Account.note st.cfg.wrap) st.account := by
  induction views generalizing w st with
  | nil =>
    rw [List.map_nil, walkAsdus]
    split <;> exact ⟨rfl, rfl, st, hst, rfl⟩
  | cons u views ih =>
    rw [List.forall_mem_cons] at htakes
    obtain ⟨⟨rfl, htake⟩, htakes⟩ := htakes
    obtain ⟨hlimits, st', hstreams, hcfg, haccount⟩ :=
      onAsdu_account now hsim hears hst hoff htake
    have hcfgs : (w.onAsdu now fr u).sub.streams.map Stream.cfg = w.sub.streams.map Stream.cfg := by
      rw [hstreams]
      exact map_set_key hst hcfg
    have hst' : (w.onAsdu now fr u).sub.streams[i]? = some st' := by
      rw [hstreams]
      exact List.getElem?_set_self (List.getElem?_eq_some_iff.mp hst).1
    obtain ⟨hrest, hsame, last, hlast, hfold⟩ := ih (hcfgs.symm ▸ hears) hst' (hcfg.symm ▸ hoff)
      (hcfg.symm ▸ htakes)
    rw [List.map_cons, walkAsdus]
    refine ⟨hrest.trans hlimits, hsame.trans hcfgs, last, hlast, ?_⟩
    rw [hfold, haccount, hcfg]
    rfl

/-- A frame of the stream is noted, whatever the time. -/
theorem onFrame_account {frame : Bytes} {v : SavPduView} {views : List AsduView} (now : Instant)
    (hframe : Frame.parse frame = .ok fr) (hsv : fr.ethertype = ethertypeSv)
    (hsim : fr.simulation = false) (hpdu : SavPduView.parse fr.apdu s.limits = .ok v)
    (hasdus : v.asdus = views.map .ok) (hears : Hears fr svId i (s.streams.map Stream.cfg))
    (hst : s.streams[i]? = some st) (hoff : st.cfg.simulation = .off)
    (htakes : ∀ u ∈ views, u.svId = svId ∧ Takes st.cfg u) :
    (s.onFrame now frame).1.limits = s.limits ∧
      (s.onFrame now frame).1.streams.map Stream.cfg = s.streams.map Stream.cfg ∧
      ∃ st', (s.onFrame now frame).1.streams[i]? = some st' ∧
        st'.account = (views.map AsduView.smpCnt).foldl (Account.note st.cfg.wrap) st.account := by
  have haddressed : s.addressed fr.dst fr.appid = true := by
    rw [Hears, List.findIdx?_map] at hears
    obtain ⟨hlt, hkey, -⟩ := List.findIdx?_eq_some_iff_getElem.mp hears
    have hmem := List.getElem_mem hlt
    rw [addressed, List.any_eq_true]
    refine ⟨_, hmem, ?_⟩
    rw [Function.comp_apply, Bool.and_eq_true] at hkey
    exact hkey.1
  have hcarried : s.carried frame = some (fr, v) := by
    rw [carried, hframe]
    dsimp only
    rw [if_neg (by simp [hsv, haddressed]), hpdu]
    rfl
  obtain ⟨touch, hstreams, htouch⟩ : ∃ touch : Stream → Stream,
      (s.checkStale now).streams = s.streams.map touch ∧
        ∀ st, (touch st).cfg = st.cfg ∧ (touch st).account = st.account := by
    refine ⟨_, rfl, fun st => ?_⟩
    dsimp only
    split <;> exact ⟨rfl, rfl⟩
  have hcfgs : (s.checkStale now).streams.map Stream.cfg = s.streams.map Stream.cfg := by
    rw [hstreams, List.map_map]
    exact List.map_congr_left fun st _ => (htouch st).1
  have hst' : (s.checkStale now).streams[i]? = some (touch st) := by
    rw [hstreams, List.getElem?_map, hst]
    rfl
  obtain ⟨hcfg, haccount⟩ := htouch st
  obtain ⟨hlimits, hsame, last, hlast, hfold⟩ :=
    foldl_account (w := ⟨s.checkStale now, false, none, []⟩) now hsim views (hcfgs.symm ▸ hears)
      hst' (hcfg.symm ▸ hoff) (hcfg.symm ▸ htakes)
  rw [onFrame_of_some now hcarried, hasdus]
  refine ⟨hlimits, hsame.trans hcfgs, last, hlast, ?_⟩
  rw [hfold, haccount, hcfg]

end Subscriber

/-! ### A publisher and a subscriber -/

/-- A publisher sends a frame, behind calls that leave its count alone, and the frame is lost or
arrives at some time. -/
structure Round where
  calls : List Call
  now : Instant
  blocks : List Bytes
  arrival : Option Instant

/-- The calls that leave the count alone. -/
def Call.Beside : Call → Prop
  | .publish _ _ | .publishRepeating _ _ | .setSmpCnt _ => False
  | _ => True

structure Round.Regular (cfg : PublisherConfig) (r : Round) : Prop where
  calls : ∀ c ∈ r.calls, c.Beside
  count : r.blocks.length = cfg.asdusPerFrame
  length : ∀ b ∈ r.blocks, b.length = cfg.sampleLen

/-- Both ends of a stream. -/
structure Line where
  publisher : Publisher
  subscriber : Subscriber

def Line.round (line : Line) (r : Round) : Line :=
  let sent := ((r.calls.foldl Publisher.call line.publisher).publish r.now r.blocks).1.pollTransmit
  ⟨sent.1, (sent.2.bind fun octets => r.arrival.map fun time =>
    (line.subscriber.onFrame time octets).1).getD line.subscriber⟩

/-- A publisher of sampled values that are not simulated, and a stream of a subscriber that takes
them. -/
structure Subscribes (cfg : PublisherConfig) (configs : List StreamConfig) (i : Nat)
    (stream : StreamConfig) : Prop where
  ethertype : cfg.header.ethertype = ethertypeSv
  real : cfg.simulation = false
  few : cfg.asdusPerFrame ≤ Limits.default.maxAsdus
  placed : configs[i]? = some stream
  key : configs.findIdx? (fun c => c.key.dst == cfg.header.dst && c.key.appid == cfg.header.appid &&
    c.key.svId == cfg.svId) = some i
  rate : stream.samplesPerSecond = cfg.profile.samplesPerSecond.toNat
  off : stream.simulation = .off
  confRev : stream.admitsConfRev cfg.confRev.toNat = true
  length : stream.admitsLength cfg.sampleLen = true

/-- What holds of both ends after some rounds. -/
structure Tracks (cfg : PublisherConfig) (configs : List StreamConfig) (i : Nat) (l : Losses)
    (line : Line) : Prop where
  publishes : ∃ q, Holds cfg line.publisher q
  limits : line.subscriber.limits = Limits.default
  configs : line.subscriber.streams.map Stream.cfg = configs
  shown : ∃ st, line.subscriber.streams[i]? = some st ∧
    l.Shown cfg.profile.wrap line.publisher.smpCnt st.account

variable {cfg : PublisherConfig} {configs : List StreamConfig} {stream : StreamConfig} {line : Line}
  {r : Round}

theorem Plain.smpCnt_call {c : Call} (hc : c.Beside) (q : Plain) :
    (q.call cfg c).smpCnt = q.smpCnt := by
  cases c with
  | publish now blocks => cases hc
  | publishRepeating now block => cases hc
  | setSmpCnt n => cases hc
  | setSmpSynch s =>
    rw [Plain.call, Plain.setSmpSynch]
    split
    · rfl
    · split <;> rfl
  | setRefrTm t => rfl
  | setGmIdentity id => rfl
  | pollTransmit => rfl

theorem Plain.smpCnt_run {calls : List Call} (hcalls : ∀ c ∈ calls, c.Beside) (q : Plain) :
    (calls.foldl (Plain.call cfg) q).smpCnt = q.smpCnt := by
  induction calls generalizing q with
  | nil => rfl
  | cons c calls ih =>
    rw [List.forall_mem_cons] at hcalls
    exact (ih hcalls.2 _).trans (q.smpCnt_call hcalls.1)

theorem smpCnt_round {q : Plain} (hq : Holds cfg line.publisher q) (hpos : 0 < cfg.asdusPerFrame)
    (hr : r.Regular cfg) :
    (r.calls.foldl Publisher.call line.publisher).smpCnt = line.publisher.smpCnt ∧
      (line.round r).publisher.smpCnt =
        (line.publisher.smpCnt + cfg.asdusPerFrame) % cfg.profile.wrap := by
  have hrun := hq.run hpos r.calls
  have hcnt := hrun.count.trans (q.smpCnt_run hr.calls)
  rw [← hq.count] at hcnt
  have hnext := ((hrun.publish r.now r.blocks).call hpos .pollTransmit).count
  rw [Plain.call, Plain.publish, if_pos ⟨hr.count, hr.length⟩] at hnext
  refine ⟨hcnt, ?_⟩
  rw [← hcnt, hrun.count]
  exact hnext

theorem map_smpCnt {views : List AsduView} (hn : views.length = n)
    (hall : ∀ j u, views[j]? = some u → u.smpCnt = (cnt + j) % wrap) :
    views.map AsduView.smpCnt = (List.range n).map fun j => (cnt + j) % wrap := by
  apply List.ext_getElem?
  intro j
  rw [List.getElem?_map, List.getElem?_map]
  cases hu : views[j]? with
  | none =>
    rw [List.getElem?_eq_none_iff, hn] at hu
    rw [List.getElem?_eq_none (List.length_range.symm ▸ hu)]
    rfl
  | some u =>
    have hj := (List.getElem?_eq_some_iff.mp hu).1
    rw [List.getElem?_range (hn ▸ hj), Option.map_some, Option.map_some, hall j u hu]

theorem Tracks.round (hsub : Subscribes cfg configs i stream) (hpos : 0 < cfg.asdusPerFrame)
    (h : Tracks cfg configs i l line) (hr : r.Regular cfg)
    (hshort : l.pending.getD 0 < cfg.profile.wrap) :
    Tracks cfg configs i (l.frame cfg.asdusPerFrame r.arrival.isSome) (line.round r) := by
  obtain ⟨q, hq⟩ := h.publishes
  have hrun := hq.run hpos r.calls
  have hsent := (hrun.publish r.now r.blocks).call hpos .pollTransmit
  obtain ⟨hcnt, hnext⟩ := smpCnt_round hq hpos hr
  obtain ⟨st, hst, hshown⟩ := h.shown
  obtain ⟨octets, f, v, views, hoctets, hframe, hdst, hsv, happid, hsim, hv, hviews, hn, hall⟩ :=
    hrun.reads (hsub.ethertype ▸ rfl) (h.limits.symm ▸ hsub.few) r.now hr.count hr.length
  have hsubscriber : (line.round r).subscriber = (r.arrival.map fun time =>
      (line.subscriber.onFrame time octets).1).getD line.subscriber := by
    rw [Line.round, hoctets]
    rfl
  have hcfg : st.cfg = stream := by
    have hget := hsub.placed
    rw [← h.configs, List.getElem?_map, hst] at hget
    exact Option.some.inj hget
  have hwrap : st.cfg.wrap = cfg.profile.wrap := by
    rw [hcfg, StreamConfig.wrap, hsub.rate]
    rfl
  cases harrival : r.arrival with
  | none =>
    rw [harrival] at hsubscriber
    refine ⟨⟨_, hsent⟩, ?_, ?_, st, ?_, hnext ▸ hshown.misses _⟩
    · exact (congrArg Subscriber.limits hsubscriber).trans h.limits
    · exact (congrArg (·.streams.map Stream.cfg) hsubscriber).trans h.configs
    · exact (congrArg (·.streams[i]?) hsubscriber).trans hst
  | some time =>
    rw [harrival, Option.map_some, Option.getD_some] at hsubscriber
    have hcounts := map_smpCnt hn fun j u hu => (hall j u hu).2.2.2.1
    rw [hcnt] at hcounts
    have htakes : ∀ u ∈ views, u.svId = cfg.svId ∧ Subscriber.Takes st.cfg u := by
      intro u hu
      obtain ⟨j, hj⟩ := List.getElem?_of_mem hu
      obtain ⟨hsvId, -, hrev, -, hblock⟩ := hall j u hj
      refine ⟨hsvId, ?_, ?_⟩
      · rw [hcfg, hrev]
        exact hsub.confRev
      · rw [hcfg, hr.length _ (List.mem_of_getElem? hblock)]
        exact hsub.length
    have hears : Subscriber.Hears f cfg.svId i (line.subscriber.streams.map Stream.cfg) := by
      rw [Subscriber.Hears, h.configs, hdst, happid]
      exact hsub.key
    obtain ⟨hlimits, hsame, st', hst', haccount⟩ := Subscriber.onFrame_account time hframe
      (hsv.trans hsub.ethertype) (hsim.trans hsub.real) hv hviews hears hst (hcfg ▸ hsub.off) htakes
    rw [← hsubscriber] at hlimits hsame hst'
    refine ⟨⟨_, hsent⟩, hlimits.trans h.limits, hsame.trans h.configs, st', hst', ?_⟩
    rw [hnext, haccount, hwrap, hcounts]
    exact hshown.arrives (hwrap ▸ (smpCntWrap_bounds _).1) (hq.count ▸ hq.below) hpos hshort

/-- The losses of some rounds. -/
def lossesOf (cfg : PublisherConfig) (rounds : List Round) : Losses :=
  rounds.foldl (fun l r => l.frame cfg.asdusPerFrame r.arrival.isSome) ⟨none, 0, 0⟩

/-- While fewer samples than a wrap are lost in a row, a subscriber counts each loss between two
frames that arrive, and all samples lost in it. -/
theorem losses_counted (cfg : PublisherConfig) (p : Publisher) (hnew : Publisher.new cfg = .ok p)
    (configs : List StreamConfig) (i : Nat) (stream : StreamConfig)
    (hsub : Subscribes cfg configs i stream) (calls : List Call) (rounds : List Round)
    (hrounds : ∀ r ∈ rounds, r.Regular cfg)
    (hshort : ∀ k < rounds.length,
      (lossesOf cfg (rounds.take k)).pending.getD 0 < cfg.profile.wrap) :
    ∃ st, (rounds.foldl Line.round
        ⟨calls.foldl Publisher.call p, Subscriber.new configs⟩).subscriber.streams[i]? = some st ∧
      st.state.gaps = min u64Max (lossesOf cfg rounds).gaps ∧
      st.state.samplesLost = min u64Max (lossesOf cfg rounds).lost := by
  obtain ⟨hpos, h⟩ := holds_new hnew
  have hstart : Tracks cfg configs i ⟨none, 0, 0⟩
      ⟨calls.foldl Publisher.call p, Subscriber.new configs⟩ := by
    have hconfigs : (Subscriber.new configs).streams.map Stream.cfg = configs := by
      rw [Subscriber.new, List.map_map]
      exact List.map_id _
    refine ⟨⟨_, h.run hpos calls⟩, rfl, hconfigs, { cfg := stream }, ?_, rfl, rfl, Or.inl ⟨rfl, rfl⟩⟩
    rw [Subscriber.new, List.getElem?_map, hsub.placed]
    rfl
  have htracks : Tracks cfg configs i (lossesOf cfg rounds)
      (rounds.foldl Line.round ⟨calls.foldl Publisher.call p, Subscriber.new configs⟩) := by
    induction rounds using List.reverseRecOn with
    | nil => exact hstart
    | append_singleton rounds r ih =>
      have hall := fun r' hr' => hrounds r' (List.mem_append_left _ hr')
      have hfront : ∀ k ≤ rounds.length, (rounds ++ [r]).take k = rounds.take k := fun k hk =>
        List.take_append_of_le_length hk
      have hlen : (rounds ++ [r]).length = rounds.length + 1 := List.length_append
      have hlast := hshort rounds.length (by omega)
      rw [hfront _ (Nat.le_refl _), List.take_length] at hlast
      have hbefore := ih hall fun k hk => hfront k (Nat.le_of_lt hk) ▸ hshort k (by omega)
      rw [lossesOf, List.foldl_append, List.foldl_append]
      exact hbefore.round hsub hpos (hrounds r (by simp)) hlast
  obtain ⟨st, hst, hshown⟩ := htracks.shown
  exact ⟨st, hst, hshown.gaps, hshown.lost⟩

/-- Of three frames of two samples the second is lost. -/
def threeRounds : List Round :=
  [ ⟨[], 0, [[1, 2], [3, 4]], some 1⟩
  , ⟨[.setSmpSynch .global], 2, [[5, 6], [7, 8]], none⟩
  , ⟨[], 4, [[1, 2], [3, 4]], some 5⟩ ]

theorem losses_counted_three :
    ∃ p st, Publisher.new twoSamples = .ok p ∧
      (threeRounds.foldl Line.round ⟨p.setSmpCnt 3998, Subscriber.new
        [{ key := ⟨twoSamples.header.dst, 0x4000, ascii "MU01"⟩ }]⟩).subscriber.streams[0]? =
          some st ∧ st.state.gaps = 1 ∧ st.state.samplesLost = 2 := by
  obtain ⟨p, hnew⟩ : ∃ p, Publisher.new twoSamples = .ok p := ⟨_, rfl⟩
  obtain ⟨st, hst, hgaps, hlost⟩ := losses_counted twoSamples p hnew
    [{ key := ⟨twoSamples.header.dst, 0x4000, ascii "MU01"⟩ }] 0 _
    ⟨rfl, rfl, by decide, rfl, by decide, rfl, rfl, rfl, rfl⟩ [.setSmpCnt 3998] threeRounds
    (by
      intro r hr
      simp only [threeRounds, List.mem_cons, List.not_mem_nil, or_false] at hr
      rcases hr with rfl | rfl | rfl <;>
        exact ⟨by simp [Call.Beside], rfl, by decide⟩)
    (by decide)
  exact ⟨p, st, hnew, hst, hgaps, hlost⟩

end Iec61850.Sv
