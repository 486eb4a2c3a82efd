import Iec61850.Mms.PacketStream
import Iec61850.Osi.Reassembly

/-!
# TSDUs over a byte stream

What `send_tsdu` queues, taken apart by the TPKT reader and put together by the reassembler,
wired as `on_bytes` and `on_tpdu` wire them. The invariant of the receiving end is
`Awaiting`: the TSDUs it has handed on, the one it is putting together and those still to come
are the TSDUs that were sent. It holds at every cut of the stream (`feedAll_stream`).
-/

namespace Iec61850.Mms.Association

open Theory Osi
open Osi.Cotp (Tpdu Reassembler)

/-! ### The two ends -/

/-- Send TSDUs one after the other, stopping at a failure. -/
def sendTsdus : List Bytes → Association → Outcome
  | [], a => done a
  | tsdu :: tsdus, a => andThen (sendTsdu tsdu a) (sendTsdus tsdus)

theorem sendTsdus_eq (tsdus : List Bytes) (a : Association) : sendTsdus tsdus a =
      done { a with out := a.out ++ tsdus.flatMap (tsduPackets a.tpduData) } := by
  induction tsdus generalizing a with
  | nil => simp [sendTsdus, done]
  | cons tsdu tsdus ih =>
    rw [sendTsdus, sendTsdu_eq]
    simp only [andThen, done]
    rw [ih]
    simp [done]

/-- The receiving end of a byte stream and the TSDUs it has handed on. -/
structure Intake where
  reader : Tpkt.Reader
  reassembler : Reassembler
  tsdus : List Bytes
  deriving DecidableEq

namespace Intake

/-- Nothing received yet. -/
def new (limit : Nat) : Intake := ⟨⟨[]⟩, Reassembler.new limit, []⟩

/-- One TPDU: only a DT TPDU has to do with the reassembler. -/
def onTpdu (tpdu : Bytes) (i : Intake) : Except Error Intake := do
  match ← Tpdu.parse tpdu with
  | .data eot payload =>
    match ← i.reassembler.push eot payload with
    | (none, reassembler) => .ok { i with reassembler }
    | (some tsdu, reassembler) =>
      .ok { i with reassembler := reassembler.take, tsdus := i.tsdus ++ [tsdu] }
  | _ => .ok i

/-- Handle the packets that have arrived completely. Every packet takes four octets or more
off the reader, so the octets held bound the number of rounds. -/
def drain : Nat → Intake → Except Error Intake
  | 0, i => .ok i
  | fuel + 1, i => do
      match ← i.reader.nextTpdu with
      | none => .ok i
      | some (tpdu, reader) =>
        let i ← onTpdu tpdu { i with reader }
        drain fuel i

/-- One chunk of the stream arrives. -/
def feed (i : Intake) (chunk : Bytes) : Except Error Intake :=
  let i := { i with reader := i.reader.push chunk }
  drain (i.reader.buf.length + 1) i

/-- The chunks of a stream arrive in order. -/
def feedAll (i : Intake) (chunks : List Bytes) : Except Error Intake := chunks.foldlM feed i

end Intake

/-! ### What is still to come -/

/-- The TPDUs that carry these TSDUs. -/
def streamTpdus (chunk : Nat) (tsdus : List Bytes) : List Bytes := tsdus.flatMap (tsduTpdus chunk)

theorem flatMap_tsduPackets (chunk : Nat) (tsdus : List Bytes) :
    tsdus.flatMap (tsduPackets chunk) = (streamTpdus chunk tsdus).map packet := by
  rw [streamTpdus, List.map_flatMap]
  exact congrArg (List.flatMap · tsdus) (funext (tsduPackets_eq chunk))

/-- The receiving end while it waits for the TPDUs `todo`, the last of a stream that carries
`all`: the segments `segs` of the TSDU it is putting together come first, then the TSDUs
`later`. -/
structure Awaiting (chunk : Nat) (all : List Bytes) (segs : List (Bool × Bytes))
    (later todo : List Bytes) (i : Intake) : Prop where
  todo_eq : todo = segs.map dataTpdu ++ streamTpdus chunk later
  within : (segs = [] ∧ i.reassembler.parts = [] ∧ i.tsdus ++ later = all) ∨
    (segs ≠ [] ∧ ∃ tsdu, Receiving tsdu segs i.reassembler ∧ i.tsdus ++ tsdu :: later = all)
  room : ∀ tsdu ∈ all, tsdu.length ≤ i.reassembler.limit
  packable : ∀ tpdu ∈ todo, Packable tpdu

section Awaiting

variable {chunk : Nat} {all : List Bytes} {segs : List (Bool × Bytes)} {later todo : List Bytes}
  {i : Intake}

theorem segments_ne_nil (chunk fuel : Nat) (rest : Bytes) : segments chunk fuel rest ≠ [] := by
  obtain ⟨front, last, heq, -⟩ := segments_marked chunk fuel rest
  rw [heq]
  simp

theorem Awaiting.begin {tsdu : Bytes} (h : Awaiting chunk all [] (tsdu :: later) todo i) :
    Awaiting chunk all (segments chunk tsdu.length tsdu) later todo i := by
  rcases h.within with ⟨-, hparts, hall⟩ | ⟨hne, -⟩
  · refine ⟨?_, Or.inr ⟨segments_ne_nil _ _ _, tsdu, ?_, hall⟩, h.room, h.packable⟩
    · simpa [streamTpdus, tsduTpdus] using h.todo_eq
    · refine Receiving.start hparts (Or.inl (h.room tsdu ?_))
      rw [← hall]
      simp
  · exact absurd rfl hne

/-- One TPDU of the stream: it is handled, and the rest is waited for. -/
theorem Awaiting.onTpdu {tpdu : Bytes} (h : Awaiting chunk all segs later (tpdu :: todo) i) :
    ∃ segs' later' i', i.onTpdu tpdu = .ok i' ∧ i'.reader = i.reader ∧
      Awaiting chunk all segs' later' todo i' := by
  -- A TSDU that has not begun yet is begun first: a TPDU always belongs to one.
  obtain ⟨segs, later, h, hne⟩ : ∃ segs later,
      Awaiting chunk all segs later (tpdu :: todo) i ∧ segs ≠ [] := by
    cases segs with
    | cons s segs => exact ⟨s :: segs, later, h, by simp⟩
    | nil =>
      cases later with
      | nil => simpa [streamTpdus] using h.todo_eq
      | cons tsdu later => exact ⟨_, later, h.begin, segments_ne_nil _ _ _⟩
  cases segs with
  | nil => exact absurd rfl hne
  | cons s segs =>
    obtain ⟨hcarried, hwithin, hroom, hpackable⟩ := h
    obtain ⟨rfl, htodo⟩ := List.cons.inj hcarried
    have hrest : ∀ t ∈ todo, Packable t := fun t ht => hpackable t (List.mem_cons_of_mem _ ht)
    rcases hwithin with ⟨hnil, -⟩ | ⟨-, tsdu, hreceiving, hall⟩
    · simp at hnil
    unfold Intake.onTpdu
    rw [parse_dataTpdu]
    rcases hreceiving.step with ⟨rfl, r, hpush, hlimit⟩ | ⟨hmore, r, hpush, hreceiving'⟩
    · refine ⟨[], later, { i with reassembler := r.take, tsdus := i.tsdus ++ [tsdu] }, ?_, rfl,
        htodo, Or.inl ⟨rfl, rfl, by simpa using hall⟩, ?_, hrest⟩
      · simp only [bind, Except.bind, hpush]
      · change ∀ tsdu ∈ all, tsdu.length ≤ r.limit
        rwa [hlimit]
    · refine ⟨segs, later, { i with reassembler := r }, ?_, rfl, htodo,
        Or.inr ⟨hmore, tsdu, hreceiving', hall⟩, ?_, hrest⟩
      · simp only [bind, Except.bind, hpush]
      · change ∀ tsdu ∈ all, tsdu.length ≤ r.limit
        rwa [Reassembler.push_limit hpush]

theorem Awaiting.finished (h : Awaiting chunk all segs later [] i) :
    i.tsdus = all ∧ i.reassembler.parts = [] := by
  obtain ⟨htodo, hwithin, -, -⟩ := h
  rw [List.nil_eq, List.append_eq_nil_iff, List.map_eq_nil_iff] at htodo
  obtain ⟨rfl, hlater⟩ := htodo
  cases later with
  | nil =>
    rcases hwithin with ⟨-, hparts, hall⟩ | ⟨hne, -⟩
    · exact ⟨by simpa using hall, hparts⟩
    · exact absurd rfl hne
  | cons tsdu later =>
    simp [streamTpdus, tsduTpdus, segments_ne_nil] at hlater

end Awaiting

/-! ### The stream -/

section Stream

variable {chunk : Nat} {all : List Bytes}

theorem streamTpdus_packable (hpos : 0 < chunk) (hle : chunk ≤ 8189) (tsdus : List Bytes) :
    ∀ tpdu ∈ streamTpdus chunk tsdus, Packable tpdu := by
  intro tpdu htpdu
  obtain ⟨tsdu, -, htpdu⟩ := List.mem_flatMap.mp htpdu
  obtain ⟨s, hs, rfl⟩ := List.mem_map.mp htpdu
  exact tsduTpdus_packable hpos hle tsdu s hs

/-- However the stream was cut, the TPDUs that have arrived completely are handled, and the
rest of the next one is kept. -/
theorem Intake.drain_stream (rest : Bytes) :
    ∀ (fuel : Nat) (segs : List (Bool × Bytes)) (later todo : List Bytes) (i : Intake),
      i.reader.buf.length < fuel → Awaiting chunk all segs later todo i →
      i.reader.buf ++ rest = packetStream todo →
      ∃ segs' later' todo' i', i.drain fuel = .ok i' ∧ Awaiting chunk all segs' later' todo' i' ∧
        i'.reader.buf ++ rest = packetStream todo' ∧ i'.reader.nextTpdu = .ok none := by
  intro fuel
  induction fuel with
  | zero =>
    intro segs later todo i hfuel
    omega
  | succ fuel ih =>
    intro segs later todo i hfuel hawaiting hstream
    cases todo with
    | nil =>
      rw [packetStream_nil, List.append_eq_nil_iff] at hstream
      have hnone : i.reader.nextTpdu = .ok none := by
        rw [show i.reader = ⟨[]⟩ from congrArg Tpkt.Reader.mk hstream.1]
        rfl
      refine ⟨segs, later, [], i, ?_, hawaiting, ?_, hnone⟩
      · rw [drain, hnone]
        rfl
      · rw [hstream.1, hstream.2]
        rfl
    | cons tpdu todo =>
      have hhead := hawaiting.packable tpdu List.mem_cons_self
      rw [packetStream_cons] at hstream
      rcases stream_cut hstream with ⟨buf, hbuf, htail⟩ | ⟨missing, hne, hpart⟩
      · have hnext : i.reader.nextTpdu = .ok (some (tpdu, ⟨buf⟩)) := by
          rw [show i.reader = ⟨packet tpdu ++ buf⟩ from congrArg Tpkt.Reader.mk hbuf]
          exact nextTpdu_packet hhead buf
        have hnow : Awaiting chunk all segs later (tpdu :: todo) { i with reader := ⟨buf⟩ } :=
          ⟨hawaiting.todo_eq, hawaiting.within, hawaiting.room, hawaiting.packable⟩
        obtain ⟨segs', later', i', htpdu, hreader, hawaiting'⟩ := hnow.onTpdu
        have hshorter : i'.reader.buf.length < fuel := by
          rw [hreader]
          rw [hbuf, List.length_append, packet_length] at hfuel
          change buf.length < fuel
          omega
        obtain ⟨segs'', later'', todo'', i'', hdrain, hdone⟩ := ih segs' later' todo i' hshorter
          hawaiting' (by rw [hreader]; exact htail)
        refine ⟨segs'', later'', todo'', i'', ?_, hdone⟩
        rw [drain, hnext]
        simp only [bind, Except.bind, htpdu]
        exact hdrain
      · have hnone : i.reader.nextTpdu = .ok none := nextTpdu_part hhead hpart hne
        refine ⟨segs, later, tpdu :: todo, i, ?_, hawaiting, ?_, hnone⟩
        · rw [drain, hnone]
          rfl
        · rw [packetStream_cons]
          exact hstream

/-- The chunks of what is still to come are handled, and leave nothing behind. -/
theorem Intake.feedAll_stream (chunks : List Bytes) :
    ∀ (segs : List (Bool × Bytes)) (later todo : List Bytes) (i : Intake),
      Awaiting chunk all segs later todo i →
      i.reader.buf ++ chunks.flatten = packetStream todo → i.reader.nextTpdu = .ok none →
      ∃ i', i.feedAll chunks = .ok i' ∧ i'.tsdus = all ∧ i'.reader.buf = [] ∧
        i'.reassembler.parts = [] := by
  induction chunks with
  | nil =>
    intro segs later todo i hawaiting hstream hnone
    rw [List.flatten_nil, List.append_nil] at hstream
    cases todo with
    | nil =>
      obtain ⟨htsdus, hparts⟩ := hawaiting.finished
      exact ⟨i, rfl, htsdus, hstream, hparts⟩
    | cons tpdu todo =>
      -- A whole packet would have been handed out.
      have hnext := nextTpdu_packet (hawaiting.packable tpdu List.mem_cons_self)
        (packetStream todo)
      rw [← packetStream_cons, ← hstream] at hnext
      have hsame : i.reader.nextTpdu = .ok (some (tpdu, ⟨packetStream todo⟩)) := hnext
      rw [hnone] at hsame
      cases hsame
  | cons c chunks ih =>
    intro segs later todo i hawaiting hstream _
    rw [List.flatten_cons, ← List.append_assoc] at hstream
    have hpushed : Awaiting chunk all segs later todo { i with reader := i.reader.push c } :=
      ⟨hawaiting.todo_eq, hawaiting.within, hawaiting.room, hawaiting.packable⟩
    obtain ⟨segs', later', todo', i', hdrain, hawaiting', hstream', hnone⟩ :=
      drain_stream chunks.flatten _ segs later todo _ (Nat.lt_succ_self _) hpushed hstream
    obtain ⟨i'', hfeed, hdone⟩ := ih segs' later' todo' i' hawaiting' hstream' hnone
    refine ⟨i'', ?_, hdone⟩
    rw [feedAll, List.foldlM_cons, feed, hdrain]
    exact hfeed

end Stream

/-- TSDUs sent on an association, whatever size its TPDUs have, and received through a byte
stream that was cut anywhere: the same TSDUs in the same order, and nothing left over. -/
theorem tsdus_survive_the_stream (a : Association) (tsdus : List Bytes) (limit : Nat)
    (hlimit : ∀ tsdu ∈ tsdus, tsdu.length ≤ limit) :
    ∃ packets, sendTsdus tsdus a = done { a with out := a.out ++ packets } ∧
      ∀ chunks : List Bytes, chunks.flatten = packets.flatten →
        ∃ i, (Intake.new limit).feedAll chunks = .ok i ∧ i.tsdus = tsdus ∧
          i.reader.buf = [] ∧ i.reassembler.buffered = 0 := by
  have hbounds := a.tpduData_bounds
  refine ⟨tsdus.flatMap (tsduPackets a.tpduData), sendTsdus_eq tsdus a, fun chunks hchunks => ?_⟩
  have hawaiting : Awaiting a.tpduData tsdus [] tsdus (streamTpdus a.tpduData tsdus)
      (Intake.new limit) :=
    ⟨rfl, Or.inl ⟨rfl, rfl, rfl⟩, hlimit,
      streamTpdus_packable (by omega) hbounds.2 tsdus⟩
  have hstream : (Intake.new limit).reader.buf ++ chunks.flatten =
      packetStream (streamTpdus a.tpduData tsdus) := by
    rw [hchunks, flatMap_tsduPackets]
    rfl
  obtain ⟨i, hfeed, htsdus, hbuf, hparts⟩ :=
    Intake.feedAll_stream chunks [] tsdus _ _ hawaiting hstream rfl
  exact ⟨i, hfeed, htsdus, hbuf, congrArg List.length hparts⟩

/-- An empty TSDU and one of three octets, at the smallest TPDU size. -/
theorem two_tsdus_survive_the_stream :
    ∃ packets, sendTsdus [[], [1, 2, 3]] (client { tpduSizeExp := 7 }) =
        done { client { tpduSizeExp := 7 } with out := packets } ∧
      ∀ chunks : List Bytes, chunks.flatten = packets.flatten →
        ∃ i, (Intake.new 3).feedAll chunks = .ok i ∧ i.tsdus = [[], [1, 2, 3]] ∧
          i.reader.buf = [] ∧ i.reassembler.buffered = 0 :=
  tsdus_survive_the_stream (client { tpduSizeExp := 7 }) [[], [1, 2, 3]] 3 (by decide)

end Iec61850.Mms.Association
