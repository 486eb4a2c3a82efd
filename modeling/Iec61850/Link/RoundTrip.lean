import Mathlib.Data.Nat.Bitwise
import Iec61850.Link.Ethernet

/-!
# A frame there and back

The header that `FrameHeader::write` puts in front of an APDU is the header that
`Frame::parse` finds, with or without a VLAN tag (`Frame.parse_write`).
-/

namespace Iec61850.Link

open Theory

/-! ### Octets and addresses -/

theorem u16Be_u16Octets (n : UInt16) : u16Be (u16Octets n) = n := by
  have hlt : n.toNat < 256 ^ 2 := n.toNat_lt
  rw [u16Be, u16Octets, beNat_beBytes_of_lt hlt]
  exact UInt16.ofNat_toNat

theorem u16Octets_length (n : UInt16) : (u16Octets n).length = 2 := beBytes_length 2 _

theorem slice_append (pre mid post : Bytes) {start stop : Nat} (hstart : pre.length = start)
    (hstop : start + mid.length = stop) : slice (pre ++ (mid ++ post)) start stop = some mid := by
  have hcond : start ≤ stop ∧ stop ≤ (pre ++ (mid ++ post)).length := by
    simp only [List.length_append]
    omega
  have htake : (pre ++ (mid ++ post)).take stop = pre ++ mid := by
    rw [← List.append_assoc, List.take_left' (by rw [List.length_append]; omega)]
  rw [slice, if_pos hcond, htake, List.drop_left' hstart]

theorem MacAddr.read_octets (a : MacAddr) (rest : Bytes) :
    MacAddr.read (a.octets ++ rest) = some a := by
  have hlen : 6 ≤ (a.octets ++ rest).length := by
    rw [List.length_append, a.length_eq]
    omega
  rw [MacAddr.read, dif_pos hlen, Option.some.injEq]
  obtain ⟨octets, hoctets⟩ := a
  simp only [MacAddr.mk.injEq]
  exact List.take_left' hoctets

/-! ### The simulation bit -/

theorem simulation_set (x : UInt16) :
    ((x ||| reserved1Simulation) &&& reserved1Simulation != 0) = true := by
  have h : (x ||| reserved1Simulation) &&& reserved1Simulation = reserved1Simulation := by
    apply UInt16.toBitVec_inj.mp
    simp only [UInt16.toBitVec_and, UInt16.toBitVec_or]
    ext i
    simp only [BitVec.getElem_and, BitVec.getElem_or, Bool.and_eq_right_iff_imp,
      Bool.or_eq_true]
    exact Or.inr
  rw [h]
  decide

theorem simulation_cleared (x : UInt16) :
    ((x &&& ~~~reserved1Simulation) &&& reserved1Simulation != 0) = false := by
  have h : (x &&& ~~~reserved1Simulation) &&& reserved1Simulation = 0 := by
    apply UInt16.toBitVec_inj.mp
    simp only [UInt16.toBitVec_and, UInt16.toBitVec_not]
    ext i
    simp
  rw [h]
  decide

/-! ### The frame -/

/-- The octets between the EtherType and the APDU. -/
def FrameHeader.tail (h : FrameHeader) (apdu : Bytes) : Bytes :=
  u16Octets h.appid ++ u16Octets (UInt16.ofNat (apdu.length + 8)) ++ u16Octets h.reserved1 ++
    u16Octets h.reserved2

variable {h : FrameHeader} {apdu frame : Bytes}

theorem FrameHeader.write_ok (hw : h.write apdu = .ok frame) : apdu.length + 8 ≤ 65535 ∧
      frame = h.addressing ++ (u16Octets h.ethertype ++ (h.tail apdu ++ apdu)) := by
  unfold FrameHeader.write at hw
  split at hw
  · cases hw
  · rename_i hlen
    cases hw
    refine ⟨by omega, ?_⟩
    simp only [FrameHeader.tail, List.append_assoc]

/-- Where the EtherType sits. -/
def FrameHeader.ethertypeAt (h : FrameHeader) : Nat := if h.vlan.isSome then 16 else 12

theorem FrameHeader.addressing_length (h : FrameHeader) : h.addressing.length = h.ethertypeAt := by
  unfold FrameHeader.addressing FrameHeader.ethertypeAt
  cases h.vlan with
  | none => simp [h.dst.length_eq, h.src.length_eq]
  | some v => simp [h.dst.length_eq, h.src.length_eq, u16Octets_length]

theorem Frame.readEthertype_write (rest : Bytes) (hvlan : h.ethertype ≠ ethertypeVlan) :
    Frame.readEthertype (h.addressing ++ (u16Octets h.ethertype ++ rest)) =
      .ok (h.vlan.map (fun v => VlanTag.fromTci v.tci), h.ethertype, h.ethertypeAt) := by
  have htwelve : (h.dst.octets ++ h.src.octets).length = 12 := by
    rw [List.length_append, h.dst.length_eq, h.src.length_eq]
  have hword : ∀ (n : UInt16) (more : Bytes),
      ((h.dst.octets ++ h.src.octets ++ (u16Octets n ++ more)).take 14).drop 12 = u16Octets n := by
    intro n more
    rw [← List.append_assoc, List.take_left' (by
      rw [List.length_append, htwelve, u16Octets_length]), List.drop_left' htwelve]
  unfold Frame.readEthertype FrameHeader.addressing FrameHeader.ethertypeAt
  cases h.vlan with
  | none =>
    simp only [List.append_nil, hword, u16Be_u16Octets, if_neg hvlan]
    rfl
  | some v =>
    have hsplit : h.dst.octets ++ h.src.octets ++ (u16Octets ethertypeVlan ++ u16Octets v.tci) ++
          (u16Octets h.ethertype ++ rest) =
        h.dst.octets ++ h.src.octets ++ (u16Octets ethertypeVlan ++
          (u16Octets v.tci ++ (u16Octets h.ethertype ++ rest))) := by
      simp only [List.append_assoc]
    have htci : slice (h.dst.octets ++ h.src.octets ++ (u16Octets ethertypeVlan ++
          (u16Octets v.tci ++ (u16Octets h.ethertype ++ rest)))) 14 16 =
        some (u16Octets v.tci) := by
      rw [← List.append_assoc]
      exact slice_append _ _ _ (by rw [List.length_append, htwelve, u16Octets_length])
        (by rw [u16Octets_length])
    have het : slice (h.dst.octets ++ h.src.octets ++ (u16Octets ethertypeVlan ++
          (u16Octets v.tci ++ (u16Octets h.ethertype ++ rest)))) 16 18 =
        some (u16Octets h.ethertype) := by
      rw [← List.append_assoc, ← List.append_assoc]
      exact slice_append _ _ _ (by
        rw [List.length_append, List.length_append, htwelve, u16Octets_length, u16Octets_length])
        (by rw [u16Octets_length])
    simp only [hsplit, hword, u16Be_u16Octets, htci, het]
    rfl

/-- A frame is read back, whatever it is filled up with: the VLAN tag as far as its sixteen bits
carry it. -/
theorem Frame.parse_write_padded (hbus : isProcessBus h.ethertype = true)
    (hw : h.write apdu = .ok frame) (padding : Bytes) : Frame.parse (frame ++ padding) = .ok {
      dst := h.dst
      src := h.src
      vlan := h.vlan.map (fun v => VlanTag.fromTci v.tci)
      ethertype := h.ethertype
      appid := h.appid
      length := UInt16.ofNat (apdu.length + 8)
      reserved1 := h.reserved1
      reserved2 := h.reserved2
      apdu
      apduOffset := h.ethertypeAt + 10 } := by
  obtain ⟨hlen, rfl⟩ := FrameHeader.write_ok hw
  simp only [List.append_assoc]
  have hvlan : h.ethertype ≠ ethertypeVlan := by
    intro heq
    rw [heq] at hbus
    exact absurd hbus (by decide)
  have haddressing : ∃ more, h.addressing = h.dst.octets ++ (h.src.octets ++ more) :=
    ⟨_, List.append_assoc _ _ _⟩
  have hethertype := Frame.readEthertype_write (h.tail apdu ++ (apdu ++ padding)) hvlan
  have hat := h.addressing_length
  have hhead : (h.addressing ++ u16Octets h.ethertype).length = h.ethertypeAt + 2 := by
    rw [List.length_append, hat, u16Octets_length]
  have htail : (h.tail apdu).length = 8 := by
    simp [FrameHeader.tail, u16Octets_length]
  have hhdr : slice (h.addressing ++ (u16Octets h.ethertype ++ (h.tail apdu ++ (apdu ++ padding))))
      (h.ethertypeAt + 2) (h.ethertypeAt + 2 + 8) = some (h.tail apdu) := by
    rw [← List.append_assoc]
    exact slice_append _ _ _ hhead (by rw [htail])
  have hlength : (UInt16.ofNat (apdu.length + 8)).toNat = apdu.length + 8 := by
    rw [UInt16.toNat_ofNat']
    omega
  have hapdu : slice (h.addressing ++ (u16Octets h.ethertype ++ (h.tail apdu ++ (apdu ++ padding))))
      (h.ethertypeAt + 2 + 8) (h.ethertypeAt + 2 + (apdu.length + 8)) = some apdu := by
    have hfront : (h.addressing ++ u16Octets h.ethertype ++ h.tail apdu).length =
        h.ethertypeAt + 2 + 8 := by
      rw [List.length_append, hhead, htail]
    have hstop : h.ethertypeAt + 2 + 8 + apdu.length = h.ethertypeAt + 2 + (apdu.length + 8) := by
      omega
    rw [← List.append_assoc, ← List.append_assoc]
    exact slice_append _ apdu padding hfront hstop
  have hfields : (h.tail apdu).take 2 = u16Octets h.appid ∧
      ((h.tail apdu).take 4).drop 2 = u16Octets (UInt16.ofNat (apdu.length + 8)) ∧
      ((h.tail apdu).take 6).drop 4 = u16Octets h.reserved1 ∧
      (h.tail apdu).drop 6 = u16Octets h.reserved2 := by
    refine ⟨rfl, rfl, rfl, rfl⟩
  obtain ⟨more, hmore⟩ := haddressing
  generalize hframe : h.addressing ++
      (u16Octets h.ethertype ++ (h.tail apdu ++ (apdu ++ padding))) = frame
    at hethertype hhdr hapdu ⊢
  have hfront : ∃ rest, frame = h.dst.octets ++ (h.src.octets ++ rest) ∧ 2 ≤ rest.length := by
    refine ⟨more ++ (u16Octets h.ethertype ++ (h.tail apdu ++ (apdu ++ padding))), ?_, ?_⟩
    · rw [← hframe, hmore]
      simp only [List.append_assoc]
    · simp only [List.length_append, u16Octets_length]
      omega
  obtain ⟨rest, hrest, hlong⟩ := hfront
  have hdst : MacAddr.read frame = some h.dst := by rw [hrest, MacAddr.read_octets]
  have hsrc : MacAddr.read (frame.drop 6) = some h.src := by
    rw [hrest, List.drop_left' h.dst.length_eq, MacAddr.read_octets]
  have hmin : ¬ frame.length < 14 := by
    rw [hrest, List.length_append, List.length_append, h.dst.length_eq, h.src.length_eq]
    omega
  have hlt : ¬ UInt16.ofNat (apdu.length + 8) < 8 := by
    rw [UInt16.lt_iff_toNat_lt, hlength]
    simp
  unfold Frame.parse
  rw [if_neg hmin]
  simp only [hdst, hsrc, hethertype, bind, Except.bind, hbus, Bool.not_true, Bool.false_eq_true,
    if_false, hhdr, hfields, u16Be_u16Octets, if_neg hlt, hlength, hapdu]

theorem Frame.parse_write (hbus : isProcessBus h.ethertype = true) (hw : h.write apdu = .ok frame) :
    Frame.parse frame = .ok {
      dst := h.dst
      src := h.src
      vlan := h.vlan.map (fun v => VlanTag.fromTci v.tci)
      ethertype := h.ethertype
      appid := h.appid
      length := UInt16.ofNat (apdu.length + 8)
      reserved1 := h.reserved1
      reserved2 := h.reserved2
      apdu
      apduOffset := h.ethertypeAt + 10 } := by
  have hpadded := Frame.parse_write_padded hbus hw []
  rwa [List.append_nil] at hpadded

/-! ### The VLAN tag -/

/-- What sixteen bits hold of a tag. -/
def VlanTag.onWire (v : VlanTag) : VlanTag := ⟨v.priority &&& 7, v.dei, v.id &&& 0x0FFF⟩

theorem VlanTag.tci_toNat (v : VlanTag) :
    v.tci.toNat = v.priority.toNat % 8 * 8192 + v.dei.toNat * 4096 + v.id.toNat % 4096 := by
  have hpriority : (v.priority.toUInt16 &&& 7).toNat = v.priority.toNat % 8 := by
    rw [UInt16.toNat_and, UInt8.toNat_toUInt16]
    exact Nat.and_two_pow_sub_one_eq_mod _ 3
  have hid : (v.id &&& 0x0FFF).toNat = v.id.toNat % 4096 := by
    rw [UInt16.toNat_and]
    exact Nat.and_two_pow_sub_one_eq_mod _ 12
  have hdei : (if v.dei then (1 : UInt16) else 0).toNat = v.dei.toNat := by
    cases v.dei <;> rfl
  have hbit : v.dei.toNat ≤ 1 := Bool.toNat_le _
  have hlow : v.id.toNat % 4096 < 2 ^ 12 := Nat.mod_lt _ (by decide)
  have hthree : v.priority.toNat % 8 < 8 := Nat.mod_lt _ (by decide)
  rw [VlanTag.tci, UInt16.toNat_or, UInt16.toNat_or, UInt16.toNat_shiftLeft,
    UInt16.toNat_shiftLeft, hpriority, hid, hdei]
  have hhigh : (v.priority.toNat % 8) <<< (UInt16.toNat 13 % 16) % 2 ^ 16 =
      (v.priority.toNat % 8) <<< 13 := by
    rw [show UInt16.toNat 13 % 16 = 13 from rfl, Nat.shiftLeft_eq]
    omega
  have hmiddle : v.dei.toNat <<< (UInt16.toNat 12 % 16) % 2 ^ 16 = v.dei.toNat <<< 12 := by
    rw [show UInt16.toNat 12 % 16 = 12 from rfl, Nat.shiftLeft_eq]
    omega
  have hsum : (v.priority.toNat % 8) <<< 13 ||| v.dei.toNat <<< 12 =
      (v.priority.toNat % 8 * 2 + v.dei.toNat) <<< 12 := by
    have hless : v.dei.toNat <<< 12 < 2 ^ 13 := by
      rw [Nat.shiftLeft_eq]
      omega
    rw [← Nat.shiftLeft_add_eq_or_of_lt hless]
    simp only [Nat.shiftLeft_eq]
    omega
  rw [hhigh, hmiddle, hsum, ← Nat.shiftLeft_add_eq_or_of_lt hlow, Nat.shiftLeft_eq]
  omega

theorem VlanTag.fromTci_tci (v : VlanTag) : VlanTag.fromTci v.tci = v.onWire := by
  have htci := v.tci_toNat
  have hbit : v.dei.toNat ≤ 1 := Bool.toNat_le _
  rw [VlanTag.fromTci, VlanTag.onWire, VlanTag.mk.injEq]
  refine ⟨?_, ?_, ?_⟩
  · apply UInt8.toNat_inj.mp
    rw [UInt16.toNat_toUInt8, UInt16.toNat_shiftRight, UInt8.toNat_and, htci,
      Nat.shiftRight_eq_div_pow, show UInt16.toNat 13 % 16 = 13 from rfl]
    have hmask : v.priority.toNat &&& UInt8.toNat 7 = v.priority.toNat % 8 :=
      Nat.and_two_pow_sub_one_eq_mod _ 3
    rw [hmask]
    omega
  · have hand : (v.tci &&& 0x1000).toNat = v.dei.toNat * 4096 := by
      have htest : v.tci.toNat.testBit 12 = v.dei := by
        rw [Nat.testBit_eq_decide_div_mod_eq, htci]
        cases v.dei
        · rw [decide_eq_false_iff_not]
          simp only [Bool.toNat_false]
          omega
        · rw [decide_eq_true_iff]
          simp only [Bool.toNat_true]
          omega
      rw [UInt16.toNat_and]
      have hmask := Nat.and_two_pow v.tci.toNat 12
      rw [htest] at hmask
      exact hmask
    cases hdei : v.dei with
    | false =>
      have hzero : v.tci &&& 0x1000 = 0 := by
        apply UInt16.toNat_inj.mp
        rw [hand, hdei]
        decide
      rw [hzero]
      decide
    | true =>
      have hone : v.tci &&& 0x1000 = 0x1000 := by
        apply UInt16.toNat_inj.mp
        rw [hand, hdei]
        decide
      rw [hone]
      decide
  · apply UInt16.toNat_inj.mp
    have hmask : ∀ n : UInt16, (n &&& 0x0FFF).toNat = n.toNat % 4096 := by
      intro n
      rw [UInt16.toNat_and]
      exact Nat.and_two_pow_sub_one_eq_mod _ 12
    rw [hmask, hmask, htci]
    omega

end Iec61850.Link
