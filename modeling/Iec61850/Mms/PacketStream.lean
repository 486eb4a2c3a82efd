import Iec61850.Mms.AssociationSend
import Iec61850.Osi.RoundTrip

/-!
# A stream of packets, cut anywhere

The reader hands out the packets of a stream one by one, whole, wherever the stream was cut
into chunks (`drain_stream`), and the reassembler puts the segments of a TSDU together again
(`Receiving.step`). Neither statement knows what the packets say.
-/

namespace Iec61850.Mms.Association

open Theory Osi
open Osi.Cotp (Tpdu Reassembler)

/-! ### Packets -/

/-- TPDUs in their packets, one after the other. -/
def packetStream (tpdus : List Bytes) : Bytes := (tpdus.map packet).flatten

@[simp] theorem packetStream_nil : packetStream [] = [] := rfl

theorem packetStream_cons (tpdu : Bytes) (tpdus : List Bytes) :
    packetStream (tpdu :: tpdus) = packet tpdu ++ packetStream tpdus := rfl

theorem packetStream_append (tpdus more : List Bytes) :
    packetStream (tpdus ++ more) = packetStream tpdus ++ packetStream more := by
  simp [packetStream]

/-- A TPDU that a packet can hold. -/
def Packable (tpdu : Bytes) : Prop := tpdu.length ≤ 65531

theorem packet_eq (tpdu : Bytes) :
    packet tpdu = Tpkt.version :: 0 :: UInt8.ofNat ((tpdu.length + 4) / 256) ::
      UInt8.ofNat (tpdu.length + 4) :: tpdu := by
  simp [packet, beBytes]

theorem packet_length (tpdu : Bytes) : (packet tpdu).length = tpdu.length + 4 := by
  simp [packet_eq]

variable {tpdu buf rest tsdu : Bytes} {Stage : List Bytes → Association → Prop} {chunk : Nat}
  {r : Reassembler}

theorem packetLen_packet (h : Packable tpdu) (rest : Bytes) :
    Tpkt.packetLen (Tpkt.version :: 0 :: UInt8.ofNat ((tpdu.length + 4) / 256) ::
      UInt8.ofNat (tpdu.length + 4) :: rest) = .ok (some (tpdu.length + 4)) := by
  have hvalue : beNat [UInt8.ofNat ((tpdu.length + 4) / 256), UInt8.ofNat (tpdu.length + 4)] =
      tpdu.length + 4 := by
    have hread : beNat (beBytes 2 (tpdu.length + 4)) = tpdu.length + 4 := beNat_beBytes_of_lt (by
      unfold Packable at h
      omega)
    simpa [beBytes] using hread
  rw [Tpkt.packetLen, if_neg (by simp), hvalue]
  exact if_neg (by simp [Tpkt.headerLen])

theorem nextTpdu_packet (h : Packable tpdu) (rest : Bytes) :
    Tpkt.Reader.nextTpdu ⟨packet tpdu ++ rest⟩ = .ok (some (tpdu, ⟨rest⟩)) := by
  have hlen := packetLen_packet h (tpdu ++ rest)
  have hsplit : packet tpdu ++ rest = Tpkt.version :: 0 :: UInt8.ofNat ((tpdu.length + 4) / 256) ::
      UInt8.ofNat (tpdu.length + 4) :: (tpdu ++ rest) := by
    rw [packet_eq]
    rfl
  have htake : (packet tpdu ++ rest).take (tpdu.length + 4) = packet tpdu :=
    List.take_left' (packet_length tpdu)
  have hdrop : (packet tpdu ++ rest).drop (tpdu.length + 4) = rest :=
    List.drop_left' (packet_length tpdu)
  have hbody : (packet tpdu).drop Tpkt.headerLen = tpdu := by
    rw [packet_eq]
    rfl
  have hlong : ¬ (packet tpdu ++ rest).length < tpdu.length + 4 := by
    rw [List.length_append, packet_length]
    omega
  unfold Tpkt.Reader.nextTpdu
  simp only
  rw [← hsplit] at hlen
  rw [hlen]
  simp only [bind, Except.bind, if_neg hlong, htake, hdrop, hbody]

theorem nextTpdu_part (h : Packable tpdu) (hsplit : packet tpdu = buf ++ rest) (hne : rest ≠ []) :
    Tpkt.Reader.nextTpdu ⟨buf⟩ = .ok none := by
  have hshort : buf.length < tpdu.length + 4 := by
    have hlen := congrArg List.length hsplit
    rw [packet_length, List.length_append] at hlen
    have := List.length_pos_iff.mpr hne
    omega
  match buf, hsplit, hshort with
  | [], _, _ => rfl
  | [_], _, _ => rfl
  | [_, _], _, _ => rfl
  | [_, _, _], _, _ => rfl
  | a :: b :: c :: d :: buf, hsplit, hshort =>
    rw [packet_eq] at hsplit
    simp only [List.cons_append, List.cons.injEq] at hsplit
    obtain ⟨rfl, rfl, rfl, rfl, -⟩ := hsplit
    unfold Tpkt.Reader.nextTpdu
    simp only
    rw [packetLen_packet h]
    simp only [bind, Except.bind, if_pos hshort]

/-- The reader's buffer at any cut of a stream: it begins with the next packet, or it holds a
part of it. -/
theorem stream_cut {tail : Bytes} (h : buf ++ rest = packet tpdu ++ tail) :
    (∃ buf', buf = packet tpdu ++ buf' ∧ buf' ++ rest = tail) ∨
      ∃ missing, missing ≠ [] ∧ packet tpdu = buf ++ missing := by
  rcases List.append_eq_append_iff.mp h with ⟨missing, hpacket, hrest⟩ | ⟨buf', hbuf, htail⟩
  · by_cases hempty : missing = []
    · subst hempty
      refine Or.inl ⟨[], ?_, ?_⟩
      · simpa using hpacket.symm
      · simpa using hrest
    · exact Or.inr ⟨missing, hempty, hpacket⟩
  · exact Or.inl ⟨buf', hbuf, htail.symm⟩

/-! ### Handling a stream -/

/-- An association at a place of a conversation: `Stage todo a` says that it will handle these
TPDUs, one after the other, and stay open. -/
structure Script (Stage : List Bytes → Association → Prop) : Prop where
  packable : ∀ {todo a}, Stage todo a → ∀ tpdu ∈ todo, Packable tpdu
  isOpen : ∀ {todo a}, Stage todo a → a.state ≠ .closed
  received : ∀ {todo a} reader, Stage todo a → Stage todo (received reader a)
  handles : ∀ {tpdu todo a} now, Stage (tpdu :: todo) a →
    ∃ a', onTpdu now tpdu a = done a' ∧ a'.reader = a.reader ∧ Stage todo a'

/-- However the stream was cut, the packets that have arrived completely are handled, and the
rest of the next one is kept. -/
theorem drain_stream (hscript : Script Stage) (now : Instant) (rest : Bytes) :
    ∀ (fuel : Nat) (todo : List Bytes) (a : Association), a.reader.buf.length < fuel →
      Stage todo a → a.reader.buf ++ rest = packetStream todo →
      ∃ a' todo', drain now fuel a = some a' ∧ Stage todo' a' ∧
        a'.reader.buf ++ rest = packetStream todo' ∧ a'.reader.nextTpdu = .ok none := by
  intro fuel
  induction fuel with
  | zero =>
    intro todo a hfuel
    omega
  | succ fuel ih =>
    intro todo a hfuel hstage hstream
    cases todo with
    | nil =>
      rw [packetStream_nil, List.append_eq_nil_iff] at hstream
      have hnone : a.reader.nextTpdu = .ok none := by
        rw [show a.reader = ⟨[]⟩ from congrArg Tpkt.Reader.mk hstream.1]
        rfl
      refine ⟨a, [], ?_, hstage, by rw [hstream.1, hstream.2]; rfl, hnone⟩
      rw [drain, hnone]
    | cons tpdu todo =>
      have hpackable := hscript.packable hstage tpdu List.mem_cons_self
      rw [packetStream_cons] at hstream
      rcases stream_cut hstream with ⟨buf, hbuf, htail⟩ | ⟨missing, hne, hpart⟩
      · have hnext : a.reader.nextTpdu = .ok (some (tpdu, ⟨buf⟩)) := by
          rw [show a.reader = ⟨packet tpdu ++ buf⟩ from congrArg Tpkt.Reader.mk hbuf]
          exact nextTpdu_packet hpackable buf
        obtain ⟨a', hhandled, hreader, hstage'⟩ :=
          hscript.handles now (hscript.received ⟨buf⟩ hstage)
        have hshorter : a'.reader.buf.length < fuel := by
          rw [hreader]
          rw [hbuf, List.length_append, packet_length] at hfuel
          change buf.length < fuel
          omega
        obtain ⟨a'', todo'', hdrain, hstage'', hstream'', hnone⟩ :=
          ih todo a' hshorter hstage' (by rw [hreader]; exact htail)
        refine ⟨a'', todo'', ?_, hstage'', hstream'', hnone⟩
        rw [drain, hnext]
        simp only [hhandled, done]
        rw [if_neg (hscript.isOpen hstage')]
        exact hdrain
      · have hnone : a.reader.nextTpdu = .ok none := nextTpdu_part hpackable hpart hne
        refine ⟨a, tpdu :: todo, ?_, hstage, hstream, hnone⟩
        rw [drain, hnone]

/-- Octets arriving at an association that is at a place of its script. -/
theorem onBytes_stream (hscript : Script Stage) (now : Instant) {todo : List Bytes}
    {a : Association} {bytes : Bytes} (hreader : ∀ reader, Stage todo { a with reader })
    (hopen : a.state ≠ .closed) (hstream : a.reader.buf ++ bytes ++ rest = packetStream todo) :
    ∃ a' todo', onBytes now bytes a = some a' ∧ Stage todo' a' ∧
      a'.reader.buf ++ rest = packetStream todo' ∧ a'.reader.nextTpdu = .ok none := by
  unfold onBytes
  rw [if_neg hopen]
  exact drain_stream hscript now rest _ todo _ (Nat.lt_succ_self _) (hreader _) hstream

/-! ### Segments -/

/-- The TPDUs that carry a TSDU. -/
def tsduTpdus (chunk : Nat) (tsdu : Bytes) : List Bytes :=
  (segments chunk tsdu.length tsdu).map dataTpdu

theorem tsduPackets_eq (chunk : Nat) (tsdu : Bytes) :
    tsduPackets chunk tsdu = (tsduTpdus chunk tsdu).map packet := by
  simp [tsduPackets, tsduTpdus]

/-- All segments but the last are marked as followed by more. -/
def Marked (segs : List (Bool × Bytes)) : Prop :=
  ∃ front last, segs = front ++ [(true, last)] ∧ ∀ s ∈ front, s.1 = false

theorem segments_marked (chunk : Nat) : ∀ (fuel : Nat) (rest : Bytes), Marked (segments chunk fuel rest) := by
  intro fuel
  induction fuel with
  | zero =>
    intro rest
    exact ⟨[], rest, rfl, by simp⟩
  | succ fuel ih =>
    intro rest
    rw [segments]
    split
    · exact ⟨[], rest, rfl, by simp⟩
    · obtain ⟨front, last, heq, hfront⟩ := ih (rest.drop chunk)
      refine ⟨(false, rest.take chunk) :: front, last, by rw [heq]; rfl, fun s hs => ?_⟩
      rcases List.mem_cons.mp hs with rfl | hs
      · rfl
      · exact hfront s hs

/-- What is still missing of a TSDU: these segments, in front of which the reassembler holds
the rest. It has room for the whole, or the whole comes in one piece. -/
structure Receiving (tsdu : Bytes) (segs : List (Bool × Bytes)) (r : Reassembler) : Prop where
  whole : r.parts ++ (segs.map Prod.snd).flatten = tsdu
  marked : Marked segs
  room : tsdu.length ≤ r.limit ∨ (r.parts = [] ∧ segs.length = 1)

theorem Receiving.start (hparts : r.parts = [])
    (hroom : tsdu.length ≤ r.limit ∨ tsdu.length ≤ chunk) :
    Receiving tsdu (segments chunk tsdu.length tsdu) r where
  whole := by rw [hparts, List.nil_append, segments_flatten]
  marked := segments_marked _ _ _
  room := by
    rcases hroom with hlimit | hchunk
    · exact Or.inl hlimit
    · refine Or.inr ⟨hparts, ?_⟩
      cases hlen : tsdu.length with
      | zero => rfl
      | succ n => rw [segments, if_pos hchunk]; rfl

/-- One segment: the TSDU is whole with the last of them, and waited for before. -/
theorem Receiving.step {s : Bool × Bytes} {segs : List (Bool × Bytes)}
    (h : Receiving tsdu (s :: segs) r) :
    (segs = [] ∧ ∃ r', r.push s.1 s.2 = .ok (some tsdu, r') ∧ r'.limit = r.limit) ∨
      (segs ≠ [] ∧ ∃ r', r.push s.1 s.2 = .ok (none, r') ∧ Receiving tsdu segs r') := by
  obtain ⟨hwhole, ⟨front, last, hsegs, hfront⟩, hroom⟩ := h
  have hfits : ¬ (r.parts.isEmpty = true ∧ s.1 = true) → segs ≠ [] ∨ r.parts ≠ [] →
      tsdu.length ≤ r.limit := by
    rintro - hmore
    rcases hroom with hlimit | ⟨hparts, hone⟩
    · exact hlimit
    · rcases hmore with hne | hne
      · simp only [List.length_cons, Nat.add_eq_right, List.length_eq_zero_iff] at hone
        exact absurd hone hne
      · exact absurd hparts hne
  have hlen : r.parts.length + s.2.length ≤ tsdu.length := by
    rw [← hwhole]
    simp only [List.map_cons, List.flatten_cons, List.length_append]
    omega
  cases front with
  | nil =>
    obtain ⟨rfl, rfl⟩ := List.cons.inj hsegs
    refine Or.inl ⟨rfl, ?_⟩
    simp only [List.map_cons, List.map_nil, List.flatten_cons, List.flatten_nil,
      List.append_nil] at hwhole
    unfold Reassembler.push
    by_cases hempty : r.parts = []
    · rw [if_pos ⟨by simp [hempty], rfl⟩]
      refine ⟨r, ?_, rfl⟩
      rw [← hwhole, hempty]
      rfl
    · rw [if_neg (by simp [hempty]), if_neg (by
        have := hfits (by simp [hempty]) (Or.inr hempty)
        omega)]
      refine ⟨{ r with parts := r.parts ++ last }, ?_, rfl⟩
      simp only [if_pos]
      rw [hwhole]
  | cons s' front =>
    rw [List.cons_append] at hsegs
    obtain ⟨rfl, rfl⟩ := List.cons.inj hsegs
    have hmore : s.1 = false := hfront s List.mem_cons_self
    have hne : front ++ [(true, last)] ≠ [] := by simp
    have hlimit := hfits (by simp [hmore]) (Or.inl hne)
    refine Or.inr ⟨hne, { r with parts := r.parts ++ s.2 }, ?_, ?_, ?_, ?_⟩
    · unfold Reassembler.push
      rw [if_neg (by simp [hmore]), if_neg (by omega)]
      simp [hmore]
    · rw [← hwhole]
      simp
    · exact ⟨front, last, rfl, fun t ht => hfront t (List.mem_cons_of_mem s ht)⟩
    · exact Or.inl hlimit

theorem parse_dataTpdu (s : Bool × Bytes) : Tpdu.parse (dataTpdu s) = .ok (.data s.1 s.2) :=
  Cotp.Tpdu.parse_data s.1 s.2

theorem tsduTpdus_packable (hpos : 0 < chunk) (hle : chunk ≤ 8189) (tsdu : Bytes) :
    ∀ s ∈ segments chunk tsdu.length tsdu, Packable (dataTpdu s) := by
  intro s hs
  have := segments_payload_le hpos tsdu.length tsdu (Nat.le_refl _) s hs
  simp only [Packable, dataTpdu, List.length_cons]
  omega

end Iec61850.Mms.Association
