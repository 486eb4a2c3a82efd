import Iec61850.Common.Basic

/-!
# The Ethernet framing of the process bus

`proto/ethernet.rs`: destination, source, optional 802.1Q tag, EtherType, APPID, length and two
reserved fields, in front of the APDU of a GOOSE or sampled-value frame.
-/

namespace Iec61850.Link

open Theory

def ethertypeGoose : UInt16 := 0x88B8
def ethertypeGseMgmt : UInt16 := 0x88B9
def ethertypeSv : UInt16 := 0x88BA
def ethertypeVlan : UInt16 := 0x8100

/-- The simulation bit of `Reserved1`. -/
def reserved1Simulation : UInt16 := 0x8000

/-- `MacAddr`: six octets. -/
structure MacAddr where
  octets : Bytes
  length_eq : octets.length = 6
  deriving DecidableEq

theorem MacAddr.host_length : ([2, 0, 0, 0, 0, 1] : Bytes).length = 6 := rfl

def MacAddr.gooseBase : MacAddr := ⟨[0x01, 0x0C, 0xCD, 0x01, 0x00, 0x00], rfl⟩

/-- The address at the front of some octets. -/
def MacAddr.read (bs : Bytes) : Option MacAddr :=
  if h : 6 ≤ bs.length then some ⟨bs.take 6, by rw [List.length_take]; omega⟩ else none

/-- `u16::from_be_bytes`. -/
def u16Be (bs : Bytes) : UInt16 := UInt16.ofNat (beNat bs)

/-- `u16::to_be_bytes`. -/
def u16Octets (n : UInt16) : Bytes := beBytes 2 n.toNat

/-- `buf.get(start..stop)`. -/
def slice (buf : Bytes) (start stop : Nat) : Option Bytes :=
  if start ≤ stop ∧ stop ≤ buf.length then some ((buf.take stop).drop start) else none

/-- An 802.1Q tag (`VlanTag`). -/
structure VlanTag where
  priority : UInt8
  dei : Bool
  id : UInt16
  deriving DecidableEq, Repr

def VlanTag.tci (v : VlanTag) : UInt16 :=
  ((v.priority.toUInt16 &&& 7) <<< 13) ||| ((if v.dei then (1 : UInt16) else 0) <<< 12) ||| (v.id &&& 0x0FFF)

def VlanTag.fromTci (tci : UInt16) : VlanTag where
  priority := (tci >>> 13).toUInt8
  dei := tci &&& 0x1000 != 0
  id := tci &&& 0x0FFF

/-- The EtherTypes of the process bus. -/
def isProcessBus (ethertype : UInt16) : Bool :=
  ethertype == ethertypeGoose || ethertype == ethertypeSv || ethertype == ethertypeGseMgmt

/-! ### Reading -/

/-- The parsed header of a frame and its APDU (`Frame`). -/
structure Frame where
  dst : MacAddr
  src : MacAddr
  vlan : Option VlanTag
  ethertype : UInt16
  appid : UInt16
  length : UInt16
  reserved1 : UInt16
  reserved2 : UInt16
  apdu : Bytes
  apduOffset : Nat
  deriving DecidableEq

/-- The EtherType behind an optional VLAN tag, the tag, and where the EtherType sits. -/
def Frame.readEthertype (frame : Bytes) : Except Error (Option VlanTag × UInt16 × Nat) :=
  let ethertype := u16Be ((frame.take 14).drop 12)
  if ethertype = ethertypeVlan then
    match slice frame 14 16 with
    | none => .error (.decode .notProcessBusFrame 14)
    | some tci =>
      match slice frame 16 18 with
      | none => .error (.decode .notProcessBusFrame 16)
      | some et => .ok (some (VlanTag.fromTci (u16Be tci)), u16Be et, 16)
  else .ok (none, ethertype, 12)

def Frame.parse (frame : Bytes) : Except Error Frame := do
  if frame.length < 14 then .error (.decode .notProcessBusFrame 0)
  else
    match MacAddr.read frame, MacAddr.read (frame.drop 6) with
    | some dst, some src =>
      let (vlan, ethertype, pos) ← readEthertype frame
      if !isProcessBus ethertype then .error (.decode .notProcessBusFrame pos)
      else
        let pos := pos + 2
        match slice frame pos (pos + 8) with
        | none => .error (.decode .notProcessBusFrame pos)
        | some hdr =>
          let length := u16Be ((hdr.take 4).drop 2)
          if length < 8 then .error (.decode .badLength (pos + 2))
          else
            match slice frame (pos + 8) (pos + length.toNat) with
            | none => .error (.decode .truncated (pos + 8))
            | some apdu =>
              .ok {
                dst
                src
                vlan
                ethertype
                appid := u16Be (hdr.take 2)
                length
                reserved1 := u16Be ((hdr.take 6).drop 4)
                reserved2 := u16Be (hdr.drop 6)
                apdu
                apduOffset := pos + 8 }
    | _, _ => .error (.decode .notProcessBusFrame 0)

def Frame.simulation (f : Frame) : Bool := f.reserved1 &&& reserved1Simulation != 0

/-- The addressing fields of a frame, readable even when the rest of it is not
(`FrameAddress`). -/
structure FrameAddress where
  dst : MacAddr
  ethertype : UInt16
  appid : UInt16
  deriving DecidableEq

def FrameAddress.peek (frame : Bytes) : Option FrameAddress := do
  let dst ← MacAddr.read frame
  let et ← slice frame 12 14
  let (ethertype, pos) ←
    if u16Be et = ethertypeVlan then do
      let et ← slice frame 16 18
      some (u16Be et, 16)
    else some (u16Be et, 12)
  if !isProcessBus ethertype then none
  else do
    let appid ← slice frame (pos + 2) (pos + 4)
    some ⟨dst, ethertype, u16Be appid⟩

/-! ### Writing -/

/-- What a frame builder needs to write the header (`FrameHeader`). -/
structure FrameHeader where
  dst : MacAddr
  src : MacAddr
  vlan : Option VlanTag
  ethertype : UInt16
  appid : UInt16
  reserved1 : UInt16
  reserved2 : UInt16
  deriving DecidableEq

def FrameHeader.len (h : FrameHeader) : Nat := (if h.vlan.isSome then 18 else 14) + 8

/-- The octets in front of the EtherType. -/
def FrameHeader.addressing (h : FrameHeader) : Bytes :=
  h.dst.octets ++ h.src.octets ++
    match h.vlan with
    | some v => u16Octets ethertypeVlan ++ u16Octets v.tci
    | none => []

/-- `FrameHeader::write` into a buffer of exactly the length of the frame, which is how its
callers size it. -/
def FrameHeader.write (h : FrameHeader) (apdu : Bytes) : Except Error Bytes :=
  if apdu.length + 8 > 65535 then .error (.encode "frame buffer too small or APDU too large")
  else
    .ok (h.addressing ++ u16Octets h.ethertype ++ u16Octets h.appid ++
      u16Octets (UInt16.ofNat (apdu.length + 8)) ++ u16Octets h.reserved1 ++
      u16Octets h.reserved2 ++ apdu)

end Iec61850.Link
