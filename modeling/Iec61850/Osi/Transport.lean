import Iec61850.Ber.Writer

/-!
# TPKT and COTP

`proto/osi/tpkt.rs` and `proto/osi/cotp.rs`: the framing of a TCP stream into TPDUs, the
class-0 transport PDUs, and the reassembly of DT TPDUs into TSDUs.
-/

namespace Iec61850.Osi

open Theory

/-! ### TPKT -/

namespace Tpkt

def version : UInt8 := 3
def headerLen : Nat := 4
/-- The largest packet a TPKT length field can describe. -/
def maxPacket : Nat := 65535

/-- `packet_len`: the length of the packet that starts at `buf`, if its header is there. -/
def packetLen : Bytes → Except Error (Option Nat)
  | v :: _ :: hi :: lo :: _ =>
    if v ≠ version then .error (.decode .unexpectedTag 0)
    else
      let len := beNat [hi, lo]
      if len < headerLen then .error (.decode .badLength 2) else .ok (some len)
  | _ => .ok none

/-- `header`: the TPKT header for a payload of `payloadLen` octets. -/
def header (payloadLen : Nat) : Except Error Bytes :=
  let total := payloadLen + headerLen
  if total ≤ maxPacket then .ok (version :: 0 :: beBytes 2 total)
  else .error (.encode "TPKT packet exceeds 65535 octets")

/-- `Reader`: received octets that no complete packet has taken yet. The source drops the
packet handed out at the next call; here it is dropped when it is handed out, which no
caller can tell apart, since `buffered` does not count it either. -/
structure Reader where
  buf : Bytes := []
  deriving DecidableEq, Repr

def Reader.push (r : Reader) (bytes : Bytes) : Reader := ⟨r.buf ++ bytes⟩

/-- `Reader::next_tpdu`: the next complete packet without its header, if it is there. -/
def Reader.nextTpdu (r : Reader) : Except Error (Option (Bytes × Reader)) := do
  match ← packetLen r.buf with
  | none => .ok none
  | some len =>
    if r.buf.length < len then .ok none
    else .ok (some ((r.buf.take len).drop headerLen, ⟨r.buf.drop len⟩))

end Tpkt

/-! ### COTP -/

namespace Cotp

def CR : UInt8 := 0xE0
def CC : UInt8 := 0xD0
def DR : UInt8 := 0x80
def DT : UInt8 := 0xF0
def paramTpduSize : UInt8 := 0xC0
def paramSrcTsap : UInt8 := 0xC1
def paramDstTsap : UInt8 := 0xC2
def tpduSizeMinExp : Nat := 7
def tpduSizeMaxExp : Nat := 13

/-- `u8::clamp`, for bounds in order. -/
def clampExp (exp : Nat) : Nat := max tpduSizeMinExp (min exp tpduSizeMaxExp)

/-- `tpdu_size`: octets in a TPDU of the size an exponent describes. -/
def tpduSize (exp : Nat) : Nat := 2 ^ clampExp exp

/-- The parameters of a CR or CC TPDU (`cotp::Connect`). -/
structure Connect where
  dstRef : Nat := 0
  srcRef : Nat := 0
  classOptions : UInt8 := 0
  tpduSizeExp : Option Nat := none
  srcTsel : Option Bytes := none
  dstTsel : Option Bytes := none
  deriving DecidableEq, Repr

/-- A decoded COTP TPDU (`cotp::Tpdu`). -/
inductive Tpdu where
  | connectionRequest (c : Connect)
  | connectionConfirm (c : Connect)
  | disconnectRequest (dstRef srcRef : Nat) (reason : UInt8)
  | data (eot : Bool) (payload : Bytes)
  | other (code : UInt8) (body : Bytes)
  deriving DecidableEq, Repr

/-- `Connect::request`: a class-0 connection request. -/
def Connect.request (srcRef : Nat) (srcTsel dstTsel : Bytes) (exp : Nat) : Connect :=
  { srcRef, tpduSizeExp := some (clampExp exp), srcTsel := some srcTsel, dstTsel := some dstTsel }

/-- `Connect::max_data`: octets of user data one DT TPDU may carry. -/
def Connect.maxData (c : Connect) : Nat := tpduSize (c.tpduSizeExp.getD tpduSizeMinExp) - 3

/-- The parameter loop of `Connect::parse`; every parameter takes two octets or more. -/
def Connect.parseParams : Nat → Connect → Bytes → Except Error Connect
  | 0, out, _ => .ok out
  | _ + 1, out, [] => .ok out
  | _ + 1, _, [_] => .error (.decode .truncated 0)
  | fuel + 1, out, code :: len :: tail =>
    if tail.length < len.toNat then .error (.decode .truncated 0)
    else
      let value := tail.take len.toNat
      let out :=
        if code = paramTpduSize then { out with tpduSizeExp := value.head?.map UInt8.toNat }
        else if code = paramSrcTsap then { out with srcTsel := some value }
        else if code = paramDstTsap then { out with dstTsel := some value }
        -- unknown parameters are skipped, not refused
        else out
      parseParams fuel out (tail.drop len.toNat)

def Connect.parse : Bytes → Except Error Connect
  | a :: b :: c :: d :: cls :: rest =>
    parseParams (rest.length + 1)
      { dstRef := beNat [a, b], srcRef := beNat [c, d], classOptions := cls } rest
  | _ => .error (.decode .truncated 0)

/-- One selector parameter of `Connect::write`. -/
def Connect.writeTsel (param : UInt8) (tsel : Bytes) : Except Error Bytes :=
  if tsel.length > 255 then .error (.encode "transport selector too long")
  else .ok (param :: UInt8.ofNat tsel.length :: tsel)

def Connect.write (c : Connect) (code : UInt8) : Except Error Bytes := do
  let src ← Ber.optM c.srcTsel (writeTsel paramSrcTsap)
  let dst ← Ber.optM c.dstTsel (writeTsel paramDstTsap)
  let size := match c.tpduSizeExp with
    | some exp => [paramTpduSize, 1, UInt8.ofNat exp]
    | none => []
  let header := code :: (beBytes 2 c.dstRef ++ beBytes 2 c.srcRef ++
    c.classOptions :: (size ++ src ++ dst))
  if header.length > 255 then .error (.encode "COTP header too long")
  else .ok (UInt8.ofNat header.length :: header)

/-- `Tpdu::parse`: decode one TPDU, the payload of a TPKT packet. -/
def Tpdu.parse : Bytes → Except Error Tpdu
  | [] => .error (.decode .truncated 0)
  | li :: rest =>
    if rest.length < li.toNat then .error (.decode .truncated 1)
    else
      let payload := rest.drop li.toNat
      match rest.take li.toNat with
      | [] => .error (.decode .truncated 1)
      | code :: body =>
        if code = CR then .connectionRequest <$> Connect.parse body
        else if code = CC then .connectionConfirm <$> Connect.parse body
        else if code = DR then
          match body with
          | a :: b :: c :: d :: reason :: _ =>
            .ok (.disconnectRequest (beNat [a, b]) (beNat [c, d]) reason)
          | _ => .error (.decode .truncated 1)
        else if code = DT then
          match body with
          | nrEot :: _ => .ok (.data (decide (nrEot.toNat ≥ 128)) payload)
          | [] => .error (.decode .truncated 1)
        else .ok (.other code body)

def Tpdu.write : Tpdu → Except Error Bytes
  | .connectionRequest c => c.write CR
  | .connectionConfirm c => c.write CC
  | .disconnectRequest dstRef srcRef reason =>
    .ok (6 :: DR :: (beBytes 2 dstRef ++ beBytes 2 srcRef ++ [reason]))
  | .data eot payload => .ok (2 :: DT :: (if eot then 0x80 else 0) :: payload)
  | .other code body =>
    if body.length + 1 > 255 then .error (.encode "COTP header too long")
    else .ok (UInt8.ofNat (body.length + 1) :: code :: body)

/-- `Reassembler`: the parts of a TSDU that is still incomplete, and the limit on it. -/
structure Reassembler where
  parts : Bytes := []
  limit : Nat
  deriving DecidableEq, Repr

namespace Reassembler

def new (limit : Nat) : Reassembler := { limit }

/-- `Reassembler::buffered`: octets held for a TSDU that is still incomplete. -/
def buffered (r : Reassembler) : Nat := r.parts.length

def reset (r : Reassembler) : Reassembler := { r with parts := [] }

end Reassembler

/-- `Reassembler::push`: feed one DT TPDU; the whole TSDU comes out with the EOT mark. A TSDU
that fits one TPDU is handed back without looking at the limit. -/
def Reassembler.push (r : Reassembler) (eot : Bool) (payload : Bytes) :
    Except Error (Option Bytes × Reassembler) :=
  if r.parts.isEmpty ∧ eot then .ok (some payload, r)
  else if r.parts.length + payload.length > r.limit then
    .error (.limitExceeded "max_tsdu" (r.parts.length + payload.length))
  else
    let parts := r.parts ++ payload
    .ok (if eot then some parts else none, { r with parts })

/-- `Reassembler::take`: forget the TSDU the last push returned. -/
def Reassembler.take (r : Reassembler) : Reassembler := { r with parts := [] }

end Cotp

end Iec61850.Osi
