import Iec61850.Ber.Reread
import Iec61850.Goose.Codec

/-!
# A GOOSE PDU there and back

An encoded `goosePdu` is decoded to what was encoded, and a frame, however it is filled up, to its
header and its APDU. Both are exact up to what the format has no room for: a time of 24 bits of
fraction and five bits of accuracy, a VLAN tag of three bits of priority and twelve of identifier.
-/

namespace Iec61850.Goose

open Theory Ber Link

/-- A PDU as far as its octets hold it. -/
def GoosePdu.onWire (p : GoosePdu) : GoosePdu := { p with t := p.t.onWire }

variable {limits : Limits} {body apdu : Bytes} {v : GoosePduView} {p : GoosePdu}

/-- Values within the limits are decoded from the element they were put into. -/
theorem allDataOwned_of_within {values : List Value}
    (hcount : values.length ≤ limits.maxDatasetMembers)
    (hwithin : Value.AllWithin limits (limits.maxDepth + 1) values)
    (hencode : Value.encodeAll values = .ok body) (hbody : v.allData.value = body) :
    v.allDataOwned limits = .ok values := by
  have hrenders := Value.encodeAll_renders values _ hwithin
  have hcollects := hrenders.collects hencode v.allData.valueOffset "max_dataset_members" hcount
  rw [← collectDepth_eq] at hcollects
  rw [GoosePduView.allDataOwned, Tlv.children, hbody]
  exact hcollects

theorem GoosePdu.fromView_of_shows (hshows : Shows p.header body v) (hdatSet : v.datSet = p.datSet)
    (hgoId : v.goId = p.goId) (ht : v.t = p.t.onWire)
    (hdata : v.allDataOwned limits = .ok p.allData) :
    GoosePdu.fromView v limits = .ok p.onWire := by
  rw [GoosePdu.fromView, hdata]
  simp only [bind, Except.bind, hshows.gocbRef, hshows.timeAllowedToLive, hshows.stNum,
    hshows.sqNum, hshows.simulation, hshows.confRev, hshows.ndsCom, hdatSet, hgoId, ht,
    GoosePdu.header, UInt32.ofNat_toNat]
  rfl

/-- An encoded PDU is decoded to the PDU. -/
theorem GoosePdu.parse_encode (hcount : p.allData.length ≤ limits.maxDatasetMembers)
    (hwithin : Value.AllWithin limits (limits.maxDepth + 1) p.allData)
    (hencode : p.encode = .ok apdu) :
    ∃ v, GoosePduView.parse apdu = .ok v ∧ GoosePdu.fromView v limits = .ok p.onWire := by
  obtain ⟨body, hbody, hinto⟩ := bind_ok hencode
  obtain ⟨v, hv, hshows, hdatSet, hgoId, ht⟩ := GoosePduView.parse_encode hinto
  have hdata := allDataOwned_of_within hcount hwithin hbody hshows.allData
  exact ⟨v, hv, GoosePdu.fromView_of_shows hshows hdatSet hgoId ht hdata⟩

/-- A header as far as its octets hold it. -/
def headerOnWire (h : FrameHeader) : FrameHeader := { h with vlan := h.vlan.map VlanTag.onWire }

/-- The header that a frame was read with. -/
def headerOf (fr : Frame) : FrameHeader :=
  ⟨fr.dst, fr.src, fr.vlan, fr.ethertype, fr.appid, fr.reserved1, fr.reserved2⟩

/-- A written frame is read with its header and exactly its APDU, whatever it is filled up with. -/
theorem frame_round_trip {h : FrameHeader} (hbus : isProcessBus h.ethertype = true)
    (hlen : apdu.length + 8 ≤ 65535) : ∃ frame, h.write apdu = .ok frame ∧ ∀ padding : Bytes, ∃ fr,
      Frame.parse (frame ++ padding) = .ok fr ∧ headerOf fr = headerOnWire h ∧ fr.apdu = apdu := by
  have hwrite : h.write apdu = .ok (h.addressing ++ u16Octets h.ethertype ++ u16Octets h.appid ++
      u16Octets (UInt16.ofNat (apdu.length + 8)) ++ u16Octets h.reserved1 ++
      u16Octets h.reserved2 ++ apdu) := by
    rw [FrameHeader.write, if_neg (Nat.not_lt.mpr hlen)]
  refine ⟨_, hwrite, fun padding => ⟨_, Frame.parse_write_padded hbus hwrite padding, ?_, rfl⟩⟩
  simp only [headerOf, headerOnWire, VlanTag.fromTci_tci]

/-- PDUs and frames are read back, up to what the format has no room for. -/
theorem goose_round_trip (limits : Limits) :
    (∀ (p : GoosePdu) (apdu : Bytes), p.allData.length ≤ limits.maxDatasetMembers →
      Value.AllWithin limits (limits.maxDepth + 1) p.allData → p.encode = .ok apdu →
      ∃ v, GoosePduView.parse apdu = .ok v ∧ GoosePdu.fromView v limits = .ok p.onWire) ∧
    ∀ (h : FrameHeader) (apdu : Bytes), isProcessBus h.ethertype = true →
      apdu.length + 8 ≤ 65535 → ∃ frame, h.write apdu = .ok frame ∧ ∀ padding : Bytes, ∃ fr,
        Frame.parse (frame ++ padding) = .ok fr ∧ headerOf fr = headerOnWire h ∧
          fr.apdu = apdu := by
  constructor
  · intro p apdu hcount hwithin hencode
    exact GoosePdu.parse_encode hcount hwithin hencode
  · intro h apdu hbus hlen
    exact frame_round_trip hbus hlen

/-- A PDU with a structure and a time in its data set. -/
def positionPdu : GoosePdu where
  gocbRef := ascii "LD/LLN0$GO$gcb"
  timeAllowedToLive := 2000
  datSet := ascii "LD/LLN0$ds"
  goId := some (ascii "gcb")
  t := ⟨100, 8388608, .synchronized⟩
  stNum := 23
  sqNum := 521
  simulation := true
  confRev := 1
  ndsCom := false
  allData := [.structure [.boolean true, .bitString 6 [0x80]], .utcTime ⟨100, 0, .synchronized⟩]

/-- A tagged header with the simulation bit. -/
def taggedHeader : FrameHeader :=
  ⟨.gooseBase, ⟨[2, 0, 0, 0, 0, 1], MacAddr.host_length⟩, some ⟨4, true, 4095⟩, ethertypeGoose, 3,
    reserved1Simulation, 0⟩

theorem goose_round_trip_tagged :
    (∃ apdu v, positionPdu.encode = .ok apdu ∧ GoosePduView.parse apdu = .ok v ∧
      GoosePdu.fromView v Limits.default = .ok positionPdu) ∧
    ∃ frame, taggedHeader.write [0x61, 0] = .ok frame ∧ ∀ padding : Bytes, ∃ fr,
      Frame.parse (frame ++ padding) = .ok fr ∧ headerOf fr = taggedHeader ∧
        fr.apdu = [0x61, 0] := by
  refine ⟨?_, (goose_round_trip Limits.default).2 taggedHeader [0x61, 0] (by decide) (by decide)⟩
  obtain ⟨apdu, hencode⟩ : ∃ apdu, positionPdu.encode = .ok apdu := ⟨_, rfl⟩
  obtain ⟨v, hv, hview⟩ := (goose_round_trip Limits.default).1 positionPdu apdu (by decide) (by
    simp only [positionPdu, Value.AllWithin, Value.Within]
    refine ⟨by decide, ⟨by decide, by decide, trivial, by decide, by decide, trivial⟩, by decide,
      ⟨by decide, by decide, by decide⟩, trivial⟩) hencode
  exact ⟨apdu, v, hencode, hv, hview⟩

/-- A VLAN identifier of thirteen bits and a fraction of twenty-five are not what is read back. -/
theorem wide_fields_are_cut :
    (∃ frame fr, { taggedHeader with vlan := some ⟨4, true, 4096⟩ }.write [0x61, 0] = .ok frame ∧
      Frame.parse frame = .ok fr ∧ fr.vlan = some ⟨4, true, 0⟩) ∧
    ∃ apdu v p, { positionPdu with t := ⟨100, 2 ^ 24, .synchronized⟩ }.encode = .ok apdu ∧
      GoosePduView.parse apdu = .ok v ∧ GoosePdu.fromView v Limits.default = .ok p ∧
      p.t = ⟨100, 0, .synchronized⟩ := by
  refine ⟨⟨_, _, rfl, rfl, rfl⟩, ⟨_, _, _, rfl, rfl, rfl, rfl⟩⟩

end Iec61850.Goose
