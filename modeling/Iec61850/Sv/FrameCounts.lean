import Iec61850.Ber.Consumed
import Iec61850.Sv.Subscriber

/-!
# Frames and ASDUs counted by a sampled-value subscriber

Every ASDU of a frame is counted once, as accepted or under the check that dropped it. The frame
itself is counted again each time an accepted ASDU of a stream follows one of another stream
(`frame_counted_iff`).
-/

namespace Iec61850.Sv

open Theory Ber Link

/-! ### What becomes of an ASDU -/

/-- What becomes of an ASDU of a stream: the check that drops it, or none. -/
inductive Fate where
  | simulation
  | confRev
  | layout
  | taken
  deriving DecidableEq

/-- What decides of a stream's ASDUs in one frame: the configuration, and whether simulated frames
alone are admitted, which a simulated frame does not ask. -/
abbrev Gate := StreamConfig × Bool

def Stream.gate (simulated : Bool) (st : Stream) : Gate :=
  (st.cfg, simulated || st.state.simulationActive)

/-- The simulation policy, the same for all ASDUs of a frame. -/
def Gate.admits (simulated : Bool) (g : Gate) : Bool :=
  match g.1.simulation with
  | .off => !simulated
  | .preferred => simulated || !g.2

def StreamConfig.admitsConfRev (confRev : Nat) (cfg : StreamConfig) : Bool :=
  match cfg.expectedConfRev with
  | none => true
  | some expected => decide (expected = confRev)

def StreamConfig.admitsLength (len : Nat) (cfg : StreamConfig) : Bool :=
  match cfg.layout with
  | none => true
  | some layout => layout.fits len

/-- What becomes of an ASDU at the gate of its stream. -/
def Gate.fate (simulated : Bool) (asdu : AsduView) (g : Gate) : Fate :=
  if g.admits simulated then
    if g.1.admitsConfRev asdu.confRev then
      if g.1.admitsLength asdu.sample.length then .taken else .layout
    else .confRev
  else .simulation

/-- The counters of a stream that a frame moves. -/
structure Tally where
  frames : Nat
  asdus : Nat
  simulationDropped : Nat
  confRevDropped : Nat
  layoutMismatches : Nat
  deriving DecidableEq

def Stream.tally (st : Stream) : Tally where
  frames := st.state.frames
  asdus := st.state.asdus
  simulationDropped := st.state.simulationDropped
  confRevDropped := st.state.confRevDropped
  layoutMismatches := st.state.layoutMismatches

/-- An ASDU is counted. -/
def Tally.count (t : Tally) : Fate → Tally
  | .simulation => { t with simulationDropped := satInc t.simulationDropped }
  | .confRev => { t with confRevDropped := satInc t.confRevDropped }
  | .layout => { t with layoutMismatches := satInc t.layoutMismatches }
  | .taken => { t with asdus := satInc t.asdus }

/-- What an operation does to a stream, as far as the counters and the gate go: an ASDU is admitted
or counted as dropped. -/
structure Stream.Judged (simulated : Bool) (st : Stream) (dropped : Fate) (admits : Bool)
    (o : Outcome) : Prop where
  admitted : o.admitted = admits
  gate : o.stream.gate simulated = st.gate simulated
  tally : o.stream.tally = if admits then st.tally else st.tally.count dropped

theorem Stream.simulationPolicyAdmits_judged (i : Nat) (simulated : Bool) (st : Stream) :
    st.Judged simulated .simulation ((st.gate simulated).admits simulated)
      (st.simulationPolicyAdmits i simulated) := by
  unfold Stream.simulationPolicyAdmits Gate.admits Stream.gate
  cases hmode : st.cfg.simulation with
  | off =>
    cases simulated with
    | false => exact ⟨rfl, rfl, rfl⟩
    | true =>
      dsimp only
      split
      · exact ⟨rfl, rfl, rfl⟩
      · exact ⟨rfl, rfl, rfl⟩
  | preferred =>
    cases simulated with
    | false =>
      dsimp only
      cases hactive : st.state.simulationActive with
      | false => exact ⟨rfl, rfl, rfl⟩
      | true => exact ⟨rfl, by simp [Stream.gate, hactive], rfl⟩
    | true =>
      dsimp only
      split
      · exact ⟨rfl, rfl, rfl⟩
      · exact ⟨rfl, rfl, rfl⟩

theorem Stream.confRevAdmits_judged (i confRev : Nat) (simulated : Bool) (st : Stream) :
    st.Judged simulated .confRev (st.cfg.admitsConfRev confRev) (st.confRevAdmits i confRev) := by
  unfold Stream.confRevAdmits StreamConfig.admitsConfRev
  cases st.cfg.expectedConfRev with
  | none => exact ⟨rfl, rfl, rfl⟩
  | some expected =>
    dsimp only
    by_cases hsame : expected = confRev
    · rw [if_pos hsame, decide_eq_true hsame]
      exact ⟨rfl, rfl, rfl⟩
    · rw [if_neg hsame, decide_eq_false hsame]
      split
      · exact ⟨rfl, rfl, rfl⟩
      · exact ⟨rfl, rfl, rfl⟩

theorem Stream.layoutAdmits_judged (i len : Nat) (simulated : Bool) (st : Stream) :
    st.Judged simulated .layout (st.cfg.admitsLength len) (st.layoutAdmits i len) := by
  unfold Stream.layoutAdmits StreamConfig.admitsLength
  cases st.cfg.layout with
  | none => exact ⟨rfl, rfl, rfl⟩
  | some layout =>
    dsimp only
    cases layout.fits len with
    | true => exact ⟨rfl, rfl, rfl⟩
    | false =>
      rw [if_neg Bool.false_ne_true]
      split
      · exact ⟨rfl, rfl, rfl⟩
      · exact ⟨rfl, rfl, rfl⟩

/-- What an ASDU leaves of a stream once it is settled what becomes of it. -/
structure Stream.Settled (simulated : Bool) (st : Stream) (fate : Fate) (o : Outcome) : Prop where
  admitted : o.admitted = decide (fate = .taken)
  gate : o.stream.gate simulated = st.gate simulated
  tally : o.stream.tally = st.tally.count fate

theorem Stream.take_settled (i : Nat) (now : Instant) (asdu : AsduView) (simulated : Bool)
    (st : Stream) : st.Settled simulated .taken (st.take i now asdu) :=
  ⟨rfl, rfl, rfl⟩

/-- A check in front of what settles an ASDU. -/
theorem Stream.Judged.andThen {simulated admits : Bool} {st : Stream} {dropped fate : Fate}
    {o : Outcome} {next : Stream → Outcome} (h : st.Judged simulated dropped admits o)
    (hdropped : dropped ≠ .taken)
    (hnext : o.stream.cfg = st.cfg → o.stream.Settled simulated fate (next o.stream)) :
    st.Settled simulated (if admits then fate else dropped) (o.andThen next) := by
  have hcfg : o.stream.cfg = st.cfg := congrArg Prod.fst h.gate
  rw [Outcome.andThen, h.admitted]
  cases admits with
  | false => exact ⟨by simp [h.admitted, hdropped], h.gate, h.tally⟩
  | true =>
    obtain ⟨hadmitted, hgate, htally⟩ := hnext hcfg
    refine ⟨hadmitted, hgate.trans h.gate, ?_⟩
    rw [if_pos rfl, if_pos rfl, htally, h.tally]
    rfl

theorem Outcome.andThen_assoc (o : Outcome) (f g : Stream → Outcome) :
    (o.andThen f).andThen g = o.andThen fun st => (f st).andThen g := by
  unfold Outcome.andThen
  cases hadmitted : o.admitted with
  | false => simp [hadmitted]
  | true =>
    simp only [if_true]
    split
    · simp
    · rfl

/-- The two checks of `accept`, and the acceptance behind them. -/
theorem Stream.accept_settled (i : Nat) (now : Instant) (asdu : AsduView) (simulated : Bool)
    (st : Stream) : st.Settled simulated (if st.cfg.admitsConfRev asdu.confRev then
        if st.cfg.admitsLength asdu.sample.length then .taken else .layout else .confRev)
      (st.accept i now asdu) := by
  rw [Stream.accept, Outcome.andThen_assoc]
  refine (st.confRevAdmits_judged i asdu.confRev simulated).andThen (by decide) ?_
  intro hcfg
  have hlayout := (st.confRevAdmits i asdu.confRev).stream.layoutAdmits_judged i
    asdu.sample.length simulated
  rw [hcfg] at hlayout
  exact hlayout.andThen (by decide) fun _ => Stream.take_settled i now asdu simulated _

/-- The simulation policy and what follows it. -/
def Stream.settle (i : Nat) (now : Instant) (asdu : AsduView) (simulated : Bool) (st : Stream) :
    Outcome :=
  (st.simulationPolicyAdmits i simulated).andThen (Stream.accept i now asdu)

/-- An ASDU is counted under what becomes of it, and goes on only if it is taken. -/
theorem Stream.settle_settled (i : Nat) (now : Instant) (asdu : AsduView) (simulated : Bool)
    (st : Stream) : st.Settled simulated ((st.gate simulated).fate simulated asdu)
      (st.settle i now asdu simulated) := by
  refine (st.simulationPolicyAdmits_judged i simulated).andThen (by decide) ?_
  intro hcfg
  have haccept := (st.simulationPolicyAdmits i simulated).stream.accept_settled i now asdu
    simulated
  rw [hcfg] at haccept
  exact haccept

/-! ### Counting along a frame -/

/-- The counters of the `j`-th stream after an ASDU of the `i`-th. -/
def Tally.step (j : Nat) (counted : Option Nat) (settled : Nat × Fate) (t : Tally) : Tally :=
  if settled.1 = j then
    { t.count settled.2 with
      frames := if settled.2 = .taken ∧ counted ≠ some j then satInc t.frames else t.frames }
  else t

/-- The stream that the frame was last counted for. -/
def countedAfter (counted : Option Nat) (settled : Nat × Fate) : Option Nat :=
  if settled.2 = .taken then some settled.1 else counted

/-- The counters of the `j`-th stream after the ASDUs of a frame. -/
def Tally.run (j : Nat) : Option Nat → List (Nat × Fate) → Tally → Tally
  | _, [], t => t
  | counted, settled :: rest, t =>
    Tally.run j (countedAfter counted settled) rest (t.step j counted settled)

/-- The streams of the accepted ASDUs, in order. -/
def takers (fates : List (Nat × Fate)) : List Nat :=
  (fates.filter fun settled => settled.2 = .taken).map (·.1)

/-- A saturating counter that moved a number of times. -/
def raisedBy (n k : Nat) : Nat := if k = 0 then n else min u64Max (n + k)

theorem raisedBy_satInc (n k : Nat) : raisedBy (satInc n) k = raisedBy n (k + 1) := by
  unfold raisedBy satInc
  split
  · rename_i hk
    rw [hk]
    rfl
  · rw [if_neg (Nat.succ_ne_zero k)]
    omega

theorem raisedBy_le_iff (n k : Nat) : raisedBy n k ≤ n + 1 ↔ k ≤ 1 ∨ u64Max ≤ n + 1 := by
  unfold raisedBy
  split <;> omega

/-- How often a stream follows another one, or is the first. -/
def turns (j : Nat) : Option Nat → List Nat → Nat
  | _, [] => 0
  | counted, i :: rest => (if i = j ∧ counted ≠ some j then 1 else 0) + turns j (some i) rest

/-- The elements equal to `j` stand next to each other. -/
def Together (j : Nat) (l : List Nat) : Prop :=
  ∃ before n after, l = before ++ (List.replicate n j ++ after) ∧ j ∉ before ∧ j ∉ after

theorem turns_eq_zero_iff {j : Nat} {counted : Option Nat} (h : counted ≠ some j) (l : List Nat) :
    turns j counted l = 0 ↔ j ∉ l := by
  induction l generalizing counted with
  | nil => simp [turns]
  | cons i l ih =>
    by_cases hij : i = j
    · simp [turns, hij, h]
    · have hcounted : some i ≠ some j := fun heq => hij (Option.some.inj heq)
      rw [turns, if_neg fun hc => hij hc.1, Nat.zero_add, ih hcounted]
      simp [Ne.symm hij]

/-- The elements equal to `j` stand at the front. -/
def AtFront (j : Nat) (l : List Nat) : Prop :=
  ∃ n after, l = List.replicate n j ++ after ∧ j ∉ after

theorem atFront_cons_self (j : Nat) (l : List Nat) : AtFront j (j :: l) ↔ AtFront j l := by
  constructor
  · intro ⟨n, after, hl, hafter⟩
    cases n with
    | zero =>
      rw [List.replicate_zero, List.nil_append] at hl
      rw [← hl] at hafter
      exact absurd List.mem_cons_self hafter
    | succ n =>
      rw [List.replicate_succ, List.cons_append] at hl
      exact ⟨n, after, (List.cons.inj hl).2, hafter⟩
  · intro ⟨n, after, hl, hafter⟩
    exact ⟨n + 1, after, by rw [hl, List.replicate_succ, List.cons_append], hafter⟩

theorem atFront_cons_ne {i j : Nat} (hij : i ≠ j) (l : List Nat) : AtFront j (i :: l) ↔ j ∉ l := by
  constructor
  · intro ⟨n, after, hl, hafter⟩
    cases n with
    | zero =>
      rw [List.replicate_zero, List.nil_append] at hl
      rw [← hl] at hafter
      exact fun hmem => hafter (List.mem_cons_of_mem _ hmem)
    | succ n =>
      rw [List.replicate_succ, List.cons_append] at hl
      exact absurd (List.cons.inj hl).1 hij
  · intro hl
    exact ⟨0, i :: l, rfl, by simp [Ne.symm hij, hl]⟩

theorem turns_again_eq_zero_iff (j : Nat) (l : List Nat) :
    turns j (some j) l = 0 ↔ AtFront j l := by
  induction l with
  | nil => exact ⟨fun _ => ⟨0, [], rfl, List.not_mem_nil⟩, fun _ => rfl⟩
  | cons i l ih =>
    rw [turns, if_neg fun hc => hc.2 rfl, Nat.zero_add]
    by_cases hij : i = j
    · subst hij
      rw [ih, atFront_cons_self]
    · rw [atFront_cons_ne hij]
      exact turns_eq_zero_iff (fun heq => hij (Option.some.inj heq)) l

theorem together_cons_self (j : Nat) (l : List Nat) : Together j (j :: l) ↔ AtFront j l := by
  rw [← atFront_cons_self]
  constructor
  · intro ⟨before, n, after, hl, hbefore, hafter⟩
    cases before with
    | nil => exact ⟨n, after, hl, hafter⟩
    | cons i before =>
      rw [List.cons_append] at hl
      rw [← (List.cons.inj hl).1] at hbefore
      exact absurd List.mem_cons_self hbefore
  · intro ⟨n, after, hl, hafter⟩
    exact ⟨[], n, after, hl, List.not_mem_nil, hafter⟩

theorem together_cons_ne {i j : Nat} (hij : i ≠ j) (l : List Nat) :
    Together j (i :: l) ↔ Together j l := by
  constructor
  · intro ⟨before, n, after, hl, hbefore, hafter⟩
    cases before with
    | nil =>
      have hnot := (atFront_cons_ne hij l).mp ⟨n, after, hl, hafter⟩
      exact ⟨l, 0, [], by simp, hnot, List.not_mem_nil⟩
    | cons b before =>
      rw [List.cons_append] at hl
      exact ⟨before, n, after, (List.cons.inj hl).2,
        fun hmem => hbefore (List.mem_cons_of_mem _ hmem), hafter⟩
  · intro ⟨before, n, after, hl, hbefore, hafter⟩
    exact ⟨i :: before, n, after, by rw [hl, List.cons_append], by simp [Ne.symm hij, hbefore],
      hafter⟩

theorem turns_le_one_iff {j : Nat} {counted : Option Nat} (h : counted ≠ some j) (l : List Nat) :
    turns j counted l ≤ 1 ↔ Together j l := by
  induction l generalizing counted with
  | nil =>
    constructor
    · intro _
      exact ⟨[], 0, [], rfl, List.not_mem_nil, List.not_mem_nil⟩
    · intro _
      exact Nat.zero_le 1
  | cons i l ih =>
    by_cases hij : i = j
    · subst hij
      rw [turns, if_pos ⟨rfl, h⟩, together_cons_self, ← turns_again_eq_zero_iff]
      omega
    · rw [turns, if_neg fun hc => hij hc.1, Nat.zero_add, together_cons_ne hij]
      exact ih fun heq => hij (Option.some.inj heq)

theorem takers_cons (settled : Nat × Fate) (fates : List (Nat × Fate)) : takers (settled :: fates) =
      if settled.2 = .taken then settled.1 :: takers fates else takers fates := by
  by_cases h : settled.2 = .taken <;> simp [takers, h]

theorem Tally.run_eq (j : Nat) (counted : Option Nat) (fates : List (Nat × Fate)) (t : Tally) :
    Tally.run j counted fates t = {
      frames := raisedBy t.frames (turns j counted (takers fates))
      asdus := raisedBy t.asdus (fates.count (j, .taken))
      simulationDropped := raisedBy t.simulationDropped (fates.count (j, .simulation))
      confRevDropped := raisedBy t.confRevDropped (fates.count (j, .confRev))
      layoutMismatches := raisedBy t.layoutMismatches (fates.count (j, .layout)) } := by
  induction fates generalizing counted t with
  | nil => rfl
  | cons settled fates ih =>
    obtain ⟨i, fate⟩ := settled
    rw [Tally.run, ih, takers_cons]
    by_cases hij : i = j
    · subst hij
      cases fate with
      | taken =>
        by_cases hcounted : counted = some i
        · simp [Tally.step, Tally.count, countedAfter, turns, hcounted, raisedBy_satInc]
        · simp [Tally.step, Tally.count, countedAfter, turns, hcounted, raisedBy_satInc,
            Nat.add_comm 1]
      | simulation => simp [Tally.step, Tally.count, countedAfter, raisedBy_satInc]
      | confRev => simp [Tally.step, Tally.count, countedAfter, raisedBy_satInc]
      | layout => simp [Tally.step, Tally.count, countedAfter, raisedBy_satInc]
    · cases fate <;> simp [Tally.step, countedAfter, turns, hij]

/-! ### One round of the loop -/

namespace Subscriber

variable {now : Instant} {fr : Frame} {asdu : AsduView}

variable {s : Subscriber} {i : Nat} {st : Stream} {w : Walk} {pdu : SavPduView} {frame : Bytes}

theorem onStream_eq (h : s.streams[i]? = some st) (op : Stream → Outcome) :
    s.onStream i op = ((op st).admitted, { s with
      streams := s.streams.set i (op st).stream
      events := (op st).events.foldl EventQueue.push s.events }) := by
  rw [onStream, h]

/-- The checks of an ASDU, in one operation on its stream. -/
theorem settle_eq (now : Instant) (fr : Frame) (asdu : AsduView) (h : s.streams[i]? = some st) :
    (if (s.simulationPolicyAdmits i fr.simulation).1
      then (s.simulationPolicyAdmits i fr.simulation).2.accept i now asdu
      else (false, (s.simulationPolicyAdmits i fr.simulation).2)) =
      s.onStream i (Stream.settle i now asdu fr.simulation) := by
  rw [simulationPolicyAdmits, onStream_eq h, onStream_eq h]
  generalize ho : st.simulationPolicyAdmits i fr.simulation = o
  obtain ⟨hi, -⟩ := List.getElem?_eq_some_iff.mp h
  have hset : (s.streams.set i o.stream)[i]? = some o.stream := List.getElem?_set_self hi
  rw [Stream.settle, ho, Outcome.andThen]
  cases hadmitted : o.admitted with
  | false => simp [hadmitted]
  | true =>
    rw [if_pos rfl, if_pos rfl, accept, onStream_eq hset, List.set_set, List.foldl_append]

/-- The gates of the streams, which a frame leaves as they are. -/
def gates (simulated : Bool) (s : Subscriber) : List Gate := s.streams.map (Stream.gate simulated)

/-- The stream of an ASDU, and what becomes of the ASDU there. -/
def fateAt (fr : Frame) (gates : List Gate) (asdu : AsduView) : Option (Nat × Fate) :=
  (gates.findIdx? fun g =>
    g.1.key.dst == fr.dst && g.1.key.appid == fr.appid && g.1.key.svId == asdu.svId).bind fun i =>
      gates[i]?.map fun g => (i, g.fate fr.simulation asdu)

theorem fateAt_gates (s : Subscriber) :
    fateAt fr (s.gates fr.simulation) asdu = (s.streamOf fr asdu).bind fun i =>
      s.streams[i]?.map fun st => (i, (st.gate fr.simulation).fate fr.simulation asdu) := by
  rw [fateAt, gates, List.findIdx?_map, streamOf]
  congr 1
  funext i
  rw [List.getElem?_map, Option.map_map]
  rfl

/-- What one round of the loop leaves. -/
structure Walk.Step (simulated : Bool) (settled : Nat × Fate) (w w' : Walk) : Prop where
  gates : w'.sub.gates simulated = w.sub.gates simulated
  streams : ∀ j st, w.sub.streams[j]? = some st → ∃ st', w'.sub.streams[j]? = some st' ∧
    st'.tally = Tally.step j w.counted settled st.tally
  counted : w'.counted = countedAfter w.counted settled
  samples : w'.samples.map Sample.stream = w.samples.map Sample.stream ++
    if settled.2 = .taken then [settled.1] else []

theorem Walk.onAsdu_of_none (h : w.sub.streamOf fr asdu = none) : w.onAsdu now fr asdu = w := by
  rw [Walk.onAsdu, h]

theorem Walk.onAsdu_of_some (hof : w.sub.streamOf fr asdu = some i)
    (hst : w.sub.streams[i]? = some st) : w.onAsdu now fr asdu =
      let o := st.settle i now asdu fr.simulation
      let sub := (w.sub.onStream i (Stream.settle i now asdu fr.simulation)).2
      if o.admitted then
        let sub := if w.counted ≠ some i then sub.countFrame i else sub
        { w with
          sub
          matched := true
          counted := some i
          samples := w.samples ++
            [⟨i, asdu, fr.simulation, (sub.streams[i]?).bind fun st => st.cfg.layout⟩] }
      else { w with sub, matched := true } := by
  have hsettle := settle_eq now fr asdu hst
  have hadmitted : (w.sub.onStream i (Stream.settle i now asdu fr.simulation)).1 =
      (st.settle i now asdu fr.simulation).admitted := by rw [onStream_eq hst]
  rw [Walk.onAsdu, hof]
  dsimp only
  rw [← hadmitted, ← hsettle]
  cases hpolicy : (w.sub.simulationPolicyAdmits i fr.simulation).1 with
  | false => simp
  | true =>
    simp only [Bool.not_true, Bool.false_eq_true, if_false, if_true]
    cases ((w.sub.simulationPolicyAdmits i fr.simulation).2.accept i now asdu).1 with
    | false => simp
    | true => simp

theorem map_gate_set {streams : List Stream} {st' : Stream} {simulated : Bool}
    (h : streams[i]? = some st) (hgate : st'.gate simulated = st.gate simulated) :
    (streams.set i st').map (Stream.gate simulated) = streams.map (Stream.gate simulated) := by
  apply List.ext_getElem?
  intro j
  rw [List.getElem?_map, List.getElem?_map, List.getElem?_set]
  split
  · rename_i hij
    rw [← hij, h]
    split
    · rw [Option.map_some, Option.map_some, hgate]
    · rename_i hlt
      exact absurd (List.getElem?_eq_some_iff.mp h).1 hlt
  · rfl

theorem Walk.onAsdu_streams (hof : w.sub.streamOf fr asdu = some i)
    (hst : w.sub.streams[i]? = some st) :
    let fate := (st.gate fr.simulation).fate fr.simulation asdu
    ∃ st', (w.onAsdu now fr asdu).sub.streams = w.sub.streams.set i st' ∧
      st'.gate fr.simulation = st.gate fr.simulation ∧
      st'.tally = Tally.step i w.counted (i, fate) st.tally ∧
      (w.onAsdu now fr asdu).counted = countedAfter w.counted (i, fate) ∧
      (w.onAsdu now fr asdu).samples.map Sample.stream = w.samples.map Sample.stream ++
        if fate = .taken then [i] else [] := by
  intro fate
  obtain ⟨hadmitted, hgate, htally⟩ := st.settle_settled i now asdu fr.simulation
  have hfate : (st.gate fr.simulation).fate fr.simulation asdu = fate := rfl
  rw [hfate] at hadmitted htally
  have hlt := (List.getElem?_eq_some_iff.mp hst).1
  rw [Walk.onAsdu_of_some hof hst, onStream_eq hst]
  generalize st.settle i now asdu fr.simulation = o at hadmitted hgate htally ⊢
  dsimp only
  rw [hadmitted]
  by_cases htaken : fate = .taken
  · rw [if_pos (decide_eq_true htaken), if_pos htaken]
    by_cases hcounted : w.counted = some i
    · rw [if_neg (not_not_intro hcounted)]
      refine ⟨o.stream, rfl, hgate, ?_, ?_, List.map_append⟩
      · rw [htally, Tally.step, if_pos rfl, if_neg (by simp [hcounted]), htaken]
        rfl
      · rw [countedAfter, if_pos htaken]
    · rw [if_pos hcounted]
      refine ⟨{ o.stream with state := { o.stream.state with
        frames := satInc o.stream.state.frames } }, ?_, hgate, ?_, ?_, List.map_append⟩
      · rw [countFrame]
        dsimp only
        rw [List.modify_eq_set_getElem?, List.getElem?_set_self hlt]
        exact List.set_set ..
      · have hframes : o.stream.state.frames = st.state.frames := by
          rw [htaken] at htally
          exact congrArg Tally.frames htally
        rw [Tally.step, if_pos rfl, if_pos ⟨htaken, hcounted⟩, ← htally]
        simp only [Stream.tally, hframes]
      · rw [countedAfter, if_pos htaken]
  · rw [if_neg (by simp [htaken]), if_neg htaken]
    refine ⟨o.stream, rfl, hgate, ?_, ?_, (List.append_nil _).symm⟩
    · rw [htally, Tally.step, if_pos rfl, if_neg (by simp [htaken])]
      cases fate <;> rfl
    · rw [countedAfter, if_neg htaken]

theorem Walk.onAsdu_step (now : Instant) {settled : Nat × Fate}
    (h : fateAt fr (w.sub.gates fr.simulation) asdu = some settled) :
    Walk.Step fr.simulation settled w (w.onAsdu now fr asdu) := by
  rw [fateAt_gates, Option.bind_eq_some_iff] at h
  obtain ⟨i, hof, h⟩ := h
  obtain ⟨st, hst, rfl⟩ := Option.map_eq_some_iff.mp h
  obtain ⟨st', hstreams, hgate, htally, hcounted, hsamples⟩ := Walk.onAsdu_streams hof hst
  refine ⟨?_, ?_, hcounted, hsamples⟩
  · rw [gates, hstreams, map_gate_set hst hgate, gates]
  · intro j stj hj
    rw [hstreams]
    by_cases hij : i = j
    · subst hij
      rw [hst] at hj
      cases hj
      exact ⟨st', List.getElem?_set_self (List.getElem?_eq_some_iff.mp hst).1, htally⟩
    · exact ⟨stj, by rw [List.getElem?_set_ne hij, hj], by rw [Tally.step, if_neg hij]⟩

/-! ### The loop -/

/-- The loop over ASDUs that decode: every stream's counters follow from what becomes of the
ASDUs. -/
theorem foldl_onAsdu (now : Instant) (fr : Frame) (asdus : List AsduView) (w : Walk) :
    let w' := asdus.foldl (fun w asdu => w.onAsdu now fr asdu) w
    let fates := asdus.filterMap (fateAt fr (w.sub.gates fr.simulation))
    (∀ (j : Nat) (st : Stream), w.sub.streams[j]? = some st →
      ∃ st' : Stream, w'.sub.streams[j]? = some st' ∧
        st'.tally = Tally.run j w.counted fates st.tally) ∧
      w'.samples.map Sample.stream = w.samples.map Sample.stream ++ takers fates := by
  induction asdus generalizing w with
  | nil => exact ⟨fun j st hj => ⟨st, hj, rfl⟩, (List.append_nil _).symm⟩
  | cons asdu asdus ih =>
    intro w' fates
    have hrest := ih (w.onAsdu now fr asdu)
    cases hfate : fateAt fr (w.sub.gates fr.simulation) asdu with
    | none =>
      have hof : w.sub.streamOf fr asdu = none := by
        cases hof : w.sub.streamOf fr asdu with
        | none => rfl
        | some i =>
          rw [fateAt_gates, hof, Option.bind_some, Option.map_eq_none_iff] at hfate
          have hlt := (List.findIdx?_eq_some_iff_getElem.mp hof).1
          rw [List.getElem?_eq_getElem hlt] at hfate
          cases hfate
      have hfates : fates = asdus.filterMap (fateAt fr (w.sub.gates fr.simulation)) :=
        List.filterMap_cons_none hfate
      have hstill : w' = asdus.foldl (fun w asdu => w.onAsdu now fr asdu) w := by
        change asdus.foldl _ (w.onAsdu now fr asdu) = _
        rw [Walk.onAsdu_of_none hof]
      rw [Walk.onAsdu_of_none hof] at hrest
      rw [hfates, hstill]
      exact hrest
    | some settled =>
      have hstep := Walk.onAsdu_step now hfate
      have hfates : fates =
          settled :: asdus.filterMap (fateAt fr (w.sub.gates fr.simulation)) :=
        List.filterMap_cons_some hfate
      rw [hstep.gates] at hrest
      obtain ⟨hstreams, hsamples⟩ := hrest
      rw [hfates]
      constructor
      · intro j st hj
        obtain ⟨st₁, hj₁, htally₁⟩ := hstep.streams j st hj
        obtain ⟨st₂, hj₂, htally₂⟩ := hstreams j st₁ hj₁
        refine ⟨st₂, hj₂, ?_⟩
        rw [htally₂, htally₁, hstep.counted]
        rfl
      · change (asdus.foldl _ (w.onAsdu now fr asdu)).samples.map Sample.stream = _
        rw [hsamples, hstep.samples, List.append_assoc]
        congr 1
        by_cases htaken : settled.2 = .taken
        · simp [takers, htaken]
        · simp [takers, htaken]

theorem walkAsdus_ok (now : Instant) (fr : Frame) (asdus : List AsduView) (w : Walk) :
    (walkAsdus now fr (asdus.map .ok) w).1.streams =
        (asdus.foldl (fun w asdu => w.onAsdu now fr asdu) w).sub.streams ∧
      (walkAsdus now fr (asdus.map .ok) w).2 =
        (asdus.foldl (fun w asdu => w.onAsdu now fr asdu) w).samples := by
  induction asdus generalizing w with
  | nil =>
    rw [List.map_nil, walkAsdus]
    split <;> exact ⟨rfl, rfl⟩
  | cons asdu asdus ih =>
    rw [List.map_cons, walkAsdus, List.foldl_cons]
    exact ih _

/-! ### The frame -/

/-- The frame and the PDU of it that reach the loop. -/
def carried (frame : Bytes) (s : Subscriber) : Option (Frame × SavPduView) :=
  match Frame.parse frame with
  | .error _ => none
  | .ok fr =>
    if fr.ethertype ≠ ethertypeSv ∨ ¬ s.addressed fr.dst fr.appid then none
    else (SavPduView.parse fr.apdu s.limits).toOption.map fun pdu => (fr, pdu)

/-- A PDU is accepted only if its ASDUs decode and are as many as it says. -/
theorem parse_asdus {apdu : Bytes} {limits : Limits} (h : SavPduView.parse apdu limits = .ok pdu) :
    ∃ asdus : List AsduView, pdu.asdus = asdus.map .ok ∧
      min asdus.length 65535 = pdu.noAsdu ∧ asdus.length ≤ apdu.length := by
  obtain ⟨⟨top, behind⟩, htop, h⟩ := bind_ok h
  obtain ⟨⟨count, c⟩, hcount, h⟩ := bind_ok h
  obtain ⟨noAsdu, -, h⟩ := bind_ok h
  split at h
  · cases h
  · obtain ⟨⟨security, c'⟩, hsecurity, h⟩ := bind_ok h
    obtain ⟨⟨asduList, c''⟩, hlist, h⟩ := bind_ok h
    obtain ⟨⟨⟩, -, h⟩ := bind_ok h
    obtain ⟨found, hfound, h⟩ := bind_ok h
    split at h
    · cases h
    · rename_i hno
      cases h
      have hasdus := mapM_id_iff.mp hfound
      refine ⟨found, hasdus, not_not.mp hno, ?_⟩
      have hsize : found.length ≤ asduList.value.length := by
        have hitems := items_length asduList.children
        have hlength := congrArg List.length hasdus
        rw [SavPduView.asdus, List.length_map, List.length_map] at hlength
        rw [← hlength]
        exact hitems
      have htopLength := nextTag_length htop
      have hcountLength := nextTag_length hcount
      have hlistLength := nextTag_length hlist
      have hsecurityLength : c'.rest.length ≤ c.rest.length := by
        obtain ⟨⟨constructed, d⟩, hconstructed, hsecurity⟩ := bind_ok hsecurity
        have hfirst := nextIfTag_length hconstructed
        cases constructed with
        | some t =>
          cases hsecurity
          exact hfirst
        | none =>
          obtain ⟨⟨plain, d'⟩, hplain, hsecurity⟩ := bind_ok hsecurity
          cases hsecurity
          exact Nat.le_trans (nextIfTag_length hplain) hfirst
      dsimp only [Cursor.new, Tlv.children] at htopLength hcountLength
      omega

theorem parse_apdu_length {fr : Frame} (h : Frame.parse frame = .ok fr) :
    fr.apdu.length < 65535 := by
  have sized (pos : Nat) (length : UInt16) : pos + 2 + length.toNat - (pos + 2 + 8) < 65535 := by
    have hlength := length.toNat_lt
    omega
  unfold Frame.parse at h
  split at h
  · cases h
  · split at h
    case h_2 => cases h
    case h_1 =>
      obtain ⟨⟨vlan, ethertype, pos⟩, -, h⟩ := bind_ok h
      dsimp only at h
      split at h
      · cases h
      · split at h
        · cases h
        · split at h
          · cases h
          · split at h
            · cases h
            · rename_i hslice
              cases h
              rw [slice] at hslice
              split at hslice
              · cases hslice
                rw [List.length_drop, List.length_take]
                exact Nat.lt_of_le_of_lt (Nat.sub_le_sub_right (Nat.min_le_left _ _) _)
                  (sized _ _)
              · cases hslice

/-- The staleness check of a stream touches neither its counters nor its gate. -/
theorem checkStale_streams (now : Instant) (s : Subscriber) :
    ∃ touch : Stream → Stream, (s.checkStale now).streams = s.streams.map touch ∧
      ∀ st, (touch st).cfg = st.cfg ∧ (touch st).tally = st.tally ∧
        ∀ simulated, (touch st).gate simulated = st.gate simulated := by
  refine ⟨_, rfl, ?_⟩
  intro st
  dsimp only
  split
  · exact ⟨rfl, rfl, fun _ => rfl⟩
  · exact ⟨rfl, rfl, fun _ => rfl⟩

theorem gates_checkStale (now : Instant) (simulated : Bool) (s : Subscriber) :
    (s.checkStale now).gates simulated = s.gates simulated := by
  obtain ⟨touch, hstreams, htouch⟩ := checkStale_streams now s
  rw [gates, hstreams, List.map_map, gates]
  apply List.map_congr_left
  intro st _
  exact (htouch st).2.2 simulated

theorem addressed_checkStale (now : Instant) (dst : MacAddr) (appid : UInt16) (s : Subscriber) :
    (s.checkStale now).addressed dst appid = s.addressed dst appid := by
  obtain ⟨touch, hstreams, htouch⟩ := checkStale_streams now s
  rw [addressed, hstreams, List.any_map, addressed]
  congr 1
  funext st
  rw [Function.comp_apply, (htouch st).1]

/-- What becomes of the ASDUs of a frame, those of no stream left out. -/
def fates (frame : Bytes) (s : Subscriber) : List (Nat × Fate) :=
  match s.carried frame with
  | none => []
  | some (fr, pdu) =>
    (pdu.asdus.filterMap Except.toOption).filterMap (fateAt fr (s.gates fr.simulation))

theorem filterMap_ok {α : Type} (as : List α) :
    (as.map (Except.ok (ε := Error))).filterMap Except.toOption = as := by
  rw [List.filterMap_map]
  exact List.filterMap_some

theorem carried_asdus {fr : Frame} (h : s.carried frame = some (fr, pdu)) :
    ∃ asdus : List AsduView, pdu.asdus = asdus.map .ok ∧ asdus.length = pdu.noAsdu := by
  unfold carried at h
  split at h
  · cases h
  · rename_i fr' hfr
    split at h
    · cases h
    · obtain ⟨pdu', hpdu, hpair⟩ := Option.map_eq_some_iff.mp h
      cases hpair
      cases hparse : SavPduView.parse fr.apdu s.limits with
      | error e =>
        rw [hparse] at hpdu
        cases hpdu
      | ok view =>
        rw [hparse] at hpdu
        cases hpdu
        obtain ⟨asdus, hasdus, hcount, hlength⟩ := parse_asdus hparse
        have hapdu := parse_apdu_length hfr
        exact ⟨asdus, hasdus, by omega⟩

theorem onFrame_of_none (now : Instant) (h : s.carried frame = none) :
    (s.onFrame now frame).1.streams = (s.checkStale now).streams ∧
      (s.onFrame now frame).2 = [] := by
  unfold carried at h
  rw [onFrame]
  split
  · split
    · split
      · exact ⟨rfl, rfl⟩
      · exact ⟨rfl, rfl⟩
    · exact ⟨rfl, rfl⟩
  · rename_i fr hfr
    rw [hfr] at h
    dsimp only at h
    rw [addressed_checkStale]
    split
    · exact ⟨rfl, rfl⟩
    · rename_i hours
      rw [if_neg hours] at h
      have hlimits : (s.checkStale now).limits = s.limits := rfl
      rw [hlimits]
      split
      · exact ⟨rfl, rfl⟩
      · rename_i pdu hpdu
        rw [hpdu] at h
        cases h

theorem carried_eq_some {fr : Frame} (h : s.carried frame = some (fr, pdu)) :
    Frame.parse frame = .ok fr ∧ ¬ (fr.ethertype ≠ ethertypeSv ∨ ¬ s.addressed fr.dst fr.appid) ∧
      SavPduView.parse fr.apdu s.limits = .ok pdu := by
  rw [carried] at h
  cases hframe : Frame.parse frame with
  | error e =>
    rw [hframe] at h
    cases h
  | ok fr' =>
    rw [hframe] at h
    dsimp only at h
    by_cases hours : fr'.ethertype ≠ ethertypeSv ∨ ¬ s.addressed fr'.dst fr'.appid
    · rw [if_pos hours] at h
      cases h
    · rw [if_neg hours] at h
      obtain ⟨view, hview, hpair⟩ := Option.map_eq_some_iff.mp h
      cases hpair
      refine ⟨rfl, hours, ?_⟩
      cases hparse : SavPduView.parse fr.apdu s.limits with
      | error e =>
        rw [hparse] at hview
        cases hview
      | ok view =>
        rw [hparse] at hview
        cases hview
        rfl

theorem onFrame_of_some {fr : Frame} (now : Instant) (h : s.carried frame = some (fr, pdu)) :
    s.onFrame now frame = walkAsdus now fr pdu.asdus ⟨s.checkStale now, false, none, []⟩ := by
  obtain ⟨hframe, hours, hparse⟩ := carried_eq_some h
  have hlimits : (s.checkStale now).limits = s.limits := rfl
  rw [onFrame, hframe]
  dsimp only
  rw [addressed_checkStale, if_neg hours, hlimits, hparse]

/-- The counters of every stream, and what is handed to the consumer, after a frame. -/
theorem onFrame_counts (now : Instant) (frame : Bytes) (s : Subscriber) :
    (∀ (j : Nat) (st : Stream), s.streams[j]? = some st →
      ∃ st' : Stream, (s.onFrame now frame).1.streams[j]? = some st' ∧
        st'.tally = Tally.run j none (s.fates frame) st.tally) ∧
      (s.onFrame now frame).2.map Sample.stream = takers (s.fates frame) := by
  obtain ⟨touch, hstreams, htouch⟩ := checkStale_streams now s
  have hat (j : Nat) (st : Stream) (hj : s.streams[j]? = some st) :
      (s.checkStale now).streams[j]? = some (touch st) := by
    rw [hstreams, List.getElem?_map, hj, Option.map_some]
  cases hcarried : s.carried frame with
  | none =>
    have hfates : s.fates frame = [] := by rw [fates, hcarried]
    obtain ⟨hafter, hsamples⟩ := onFrame_of_none now hcarried
    rw [hfates, hafter, hsamples]
    constructor
    · intro j st hj
      exact ⟨touch st, hat j st hj, (htouch st).2.1⟩
    · rfl
  | some carried =>
    obtain ⟨fr, pdu⟩ := carried
    obtain ⟨asdus, hasdus, -⟩ := carried_asdus hcarried
    have hfates : s.fates frame = asdus.filterMap (fateAt fr (s.gates fr.simulation)) := by
      rw [fates, hcarried]
      dsimp only
      rw [hasdus, filterMap_ok]
    obtain ⟨hwalk, htaken⟩ := walkAsdus_ok now fr asdus ⟨s.checkStale now, false, none, []⟩
    obtain ⟨hcounts, hsamples⟩ := foldl_onAsdu now fr asdus ⟨s.checkStale now, false, none, []⟩
    rw [gates_checkStale] at hcounts hsamples
    rw [onFrame_of_some now hcarried, hasdus, hwalk, htaken, hfates]
    constructor
    · intro j st hj
      obtain ⟨st', hj', htally⟩ := hcounts j (touch st) (hat j st hj)
      rw [(htouch st).2.1] at htally
      exact ⟨st', hj', htally⟩
    · exact hsamples

/-! ### Every ASDU once, the frame once -/

theorem fateAt_stream (s : Subscriber) (fr : Frame) (asdu : AsduView) :
    (fateAt fr (s.gates fr.simulation) asdu).map Prod.fst = s.streamOf fr asdu := by
  rw [fateAt_gates]
  cases hof : s.streamOf fr asdu with
  | none => rfl
  | some i =>
    have hlt := (List.findIdx?_eq_some_iff_getElem.mp hof).1
    rw [Option.bind_some, List.getElem?_eq_getElem hlt]
    rfl

/-- The ASDUs of a stream are those under each of the four fates. -/
theorem count_fates (j : Nat) (fates : List (Nat × Fate)) :
    fates.count (j, .simulation) + fates.count (j, .confRev) + fates.count (j, .layout) +
      fates.count (j, .taken) = (fates.map Prod.fst).count j := by
  induction fates with
  | nil => rfl
  | cons settled fates ih =>
    obtain ⟨i, fate⟩ := settled
    rw [List.map_cons]
    by_cases hij : i = j
    · subst hij
      rw [List.count_cons_self, ← ih]
      cases fate <;> simp <;> omega
    · rw [List.count_cons_of_ne hij, ← ih]
      simp [hij]

theorem count_takers (j : Nat) (fates : List (Nat × Fate)) :
    (takers fates).count j = fates.count (j, .taken) := by
  induction fates with
  | nil => rfl
  | cons settled fates ih =>
    obtain ⟨i, fate⟩ := settled
    rw [takers_cons]
    by_cases htaken : fate = .taken
    · subst htaken
      by_cases hij : i = j
      · subst hij
        simp [ih]
      · simp [ih, hij]
    · simp [htaken, ih]

/-- Each ASDU of a frame that is of a stream is counted there exactly once: under the check that
dropped it, or as accepted and handed on. -/
def Processed (now : Instant) (frame : Bytes) (s : Subscriber) : Prop :=
  ∀ (fr : Frame) (pdu : SavPduView), s.carried frame = some (fr, pdu) →
    ∃ asdus : List AsduView, pdu.asdus = asdus.map .ok ∧ asdus.length = pdu.noAsdu ∧
      ∀ (j : Nat) (st : Stream), s.streams[j]? = some st →
        ∃ st' : Stream, (s.onFrame now frame).1.streams[j]? = some st' ∧
          ∃ simulation confRev layout taken : Nat,
            simulation + confRev + layout + taken = (asdus.filterMap (s.streamOf fr)).count j ∧
            st'.state.simulationDropped = raisedBy st.state.simulationDropped simulation ∧
            st'.state.confRevDropped = raisedBy st.state.confRevDropped confRev ∧
            st'.state.layoutMismatches = raisedBy st.state.layoutMismatches layout ∧
            st'.state.asdus = raisedBy st.state.asdus taken ∧
            ((s.onFrame now frame).2.map Sample.stream).count j = taken

/-- A frame is counted at most once for each stream, and its ASDUs are all accounted for. -/
structure FrameCounted (now : Instant) (frame : Bytes) (s : Subscriber) : Prop where
  once : ∀ (j : Nat) (st : Stream), s.streams[j]? = some st →
    ∃ st' : Stream, (s.onFrame now frame).1.streams[j]? = some st' ∧
      st'.state.frames ≤ st.state.frames + 1
  processed : s.Processed now frame

theorem onFrame_processed (now : Instant) (frame : Bytes) (s : Subscriber) :
    s.Processed now frame := by
  intro fr pdu hcarried
  obtain ⟨asdus, hasdus, hcount⟩ := carried_asdus hcarried
  obtain ⟨hcounts, hsamples⟩ := onFrame_counts now frame s
  refine ⟨asdus, hasdus, hcount, ?_⟩
  intro j st hj
  obtain ⟨st', hj', htally⟩ := hcounts j st hj
  rw [Tally.run_eq] at htally
  have hstreams : (s.fates frame).map Prod.fst = asdus.filterMap (s.streamOf fr) := by
    rw [fates, hcarried]
    dsimp only
    rw [hasdus, filterMap_ok, List.map_filterMap]
    congr 1
    funext asdu
    exact fateAt_stream s fr asdu
  refine ⟨st', hj', (s.fates frame).count (j, .simulation), (s.fates frame).count (j, .confRev),
    (s.fates frame).count (j, .layout), (s.fates frame).count (j, .taken), ?_, ?_, ?_, ?_, ?_, ?_⟩
  · rw [count_fates, hstreams]
  · exact congrArg Tally.simulationDropped htally
  · exact congrArg Tally.confRevDropped htally
  · exact congrArg Tally.layoutMismatches htally
  · exact congrArg Tally.asdus htally
  · rw [hsamples, count_takers]

theorem frame_counted_iff (now : Instant) (frame : Bytes) (s : Subscriber) :
    FrameCounted now frame s ↔ ∀ (j : Nat) (st : Stream), s.streams[j]? = some st →
      Together j (takers (s.fates frame)) ∨ u64Max ≤ st.state.frames + 1 := by
  have hframes (j : Nat) (st : Stream) (hj : s.streams[j]? = some st) :
      ∃ st' : Stream, (s.onFrame now frame).1.streams[j]? = some st' ∧
        st'.state.frames = raisedBy st.state.frames (turns j none (takers (s.fates frame))) := by
    obtain ⟨st', hj', htally⟩ := (onFrame_counts now frame s).1 j st hj
    rw [Tally.run_eq] at htally
    exact ⟨st', hj', congrArg Tally.frames htally⟩
  have hturns (j : Nat) : turns j none (takers (s.fates frame)) ≤ 1 ↔
      Together j (takers (s.fates frame)) :=
    turns_le_one_iff (Option.some_ne_none j).symm _
  constructor
  · intro hcounted j st hj
    obtain ⟨st', hj', honce⟩ := hcounted.once j st hj
    obtain ⟨st'', hj'', hraised⟩ := hframes j st hj
    rw [hj'] at hj''
    cases hj''
    rw [hraised, raisedBy_le_iff, hturns] at honce
    exact honce
  · intro htogether
    refine ⟨?_, onFrame_processed now frame s⟩
    intro j st hj
    obtain ⟨st', hj', hraised⟩ := hframes j st hj
    refine ⟨st', hj', ?_⟩
    rw [hraised, raisedBy_le_iff, hturns]
    exact htogether j st hj

/-- Two streams of one destination and APPID. -/
def bay : Subscriber :=
  Subscriber.new
    [ { key := ⟨⟨[0x01, 0x0C, 0xCD, 0x04, 0x00, 0x01], rfl⟩, 0x4000, ascii "A"⟩ }
    , { key := ⟨⟨[0x01, 0x0C, 0xCD, 0x04, 0x00, 0x01], rfl⟩, 0x4000, ascii "B"⟩ } ]

def bayAsdu (svId : Bytes) (smpCnt : UInt16) : Asdu where
  svId := svId
  datSet := none
  smpCnt := smpCnt
  confRev := 1
  refrTm := none
  smpSynch := some .global
  smpRate := none
  sample := []
  smpMod := none
  gmIdentity := none

def bayHeader : FrameHeader where
  dst := ⟨[0x01, 0x0C, 0xCD, 0x04, 0x00, 0x01], rfl⟩
  src := ⟨[0x02, 0x00, 0x00, 0x00, 0x00, 0x01], MacAddr.host_length⟩
  vlan := none
  ethertype := ethertypeSv
  appid := 0x4000
  reserved1 := 0
  reserved2 := 0

/-- A frame with an ASDU of the first stream, one of the second and again one of the first is
counted twice for the first. -/
theorem interleaved_frame_counts_twice : ∃ apdu frame,
      (⟨[bayAsdu (ascii "A") 0, bayAsdu (ascii "B") 0, bayAsdu (ascii "A") 1]⟩ :
        SavPdu).encode = .ok apdu ∧ bayHeader.write apdu = .ok frame ∧
      (bay.onFrame 0 frame).1.streams.map (fun st => st.state.frames) = [2, 1] ∧
      ¬ FrameCounted 0 frame bay := by
  refine ⟨_, _, rfl, rfl, rfl, ?_⟩
  intro hcounted
  obtain ⟨st, hst, honce⟩ := hcounted.once 0 _ rfl
  cases hst
  exact absurd honce (by decide)

end Subscriber

end Iec61850.Sv
