import Iec61850.Ber.Reader

/-!
# The BER writer

`ber/writer.rs`. Each function returns the octets the source appends to the encoder's buffer.
A failed write is reported as the source reports it; every caller of the source abandons the
buffer then, so nothing is kept of a partial write.
-/

namespace Iec61850.Ber

open Theory

/-- The identifier octet of a tag (`Tag::first_octet`). -/
def Tag.firstOctet (tag : Tag) : UInt8 :=
  let cls := match tag.cls with
    | .universal => 0
    | .application => 64
    | .context => 128
    | .priv => 192
  UInt8.ofNat (cls + (if tag.constructed then 32 else 0) + (if tag.number < 31 then tag.number else 31))

/-- The base-128 groups of a number, least significant first; a `u32` has at most five. -/
def tagGroups : Nat → Nat → List Nat
  | 0, _ => []
  | fuel + 1, v => v % 128 :: (if v / 128 = 0 then [] else tagGroups fuel (v / 128))

/-- The groups as octets, most significant first, with the continuation bit on all but the last. -/
def groupOctets : List Nat → Bytes
  | [] => []
  | [last] => [UInt8.ofNat last]
  | g :: gs => UInt8.ofNat (g + 128) :: groupOctets gs

/-- `Encoder::write_tag`. -/
def writeTag (tag : Tag) : Bytes :=
  tag.firstOctet ::
    (if tag.number ≥ 31 then groupOctets (tagGroups 5 tag.number).reverse else [])

/-- The octets of a length without its leading zeros (`bytes[skip..]`). -/
def lengthOctets (len : Nat) : Bytes := (beBytes 4 len).dropWhile (· == 0)

/-- `encode_length_into`: a definite length of at most `u32::MAX`. -/
def encodeLength (len : Nat) : Except Error Bytes :=
  if len < 128 then .ok [UInt8.ofNat len]
  else if len > u32Max then .error (.encode "length exceeds u32")
  else .ok (UInt8.ofNat (128 + (lengthOctets len).length) :: lengthOctets len)

/-- `Encoder::primitive`. -/
def primitive (tag : Tag) (contents : Bytes) : Except Error Bytes := do
  let len ← encodeLength contents.length
  .ok (writeTag tag ++ len ++ contents)

/-- `Encoder::constructed`: the children are written first, the length after them. -/
def constructed (tag : Tag) (children : Except Error Bytes) : Except Error Bytes := do
  let contents ← children
  let len ← encodeLength contents.length
  .ok (writeTag tag ++ len ++ contents)

/-- A sequence of writes into one buffer. -/
def concatM : List (Except Error Bytes) → Except Error Bytes
  | [] => .ok []
  | w :: ws => do
      let here ← w
      let rest ← concatM ws
      .ok (here ++ rest)

/-- A write made only when the field is there. -/
def optM {α : Type} (field : Option α) (write : α → Except Error Bytes) : Except Error Bytes :=
  match field with
  | some a => write a
  | none => .ok []

/-- The eight octets of an `i64`. -/
def i64Octets (value : Int) : Bytes := beBytes 8 (value % 2 ^ 64).toNat

/-- Drop leading octets that only repeat the sign, keeping at least one. -/
def minimalSigned : Bytes → Bytes
  | a :: b :: rest =>
    if (a = 0 ∧ b.toNat < 128) ∨ (a = 255 ∧ b.toNat ≥ 128) then minimalSigned (b :: rest)
    else a :: b :: rest
  | bs => bs

/-- `Encoder::integer`: two's complement, minimal. -/
def integer (tag : Tag) (value : Int) : Except Error Bytes :=
  primitive tag (minimalSigned (i64Octets value))

/-- Drop leading zero octets that no set top bit follows, keeping at least one. -/
def minimalUnsigned : Bytes → Bytes
  | a :: b :: rest =>
    if a = 0 ∧ b.toNat < 128 then minimalUnsigned (b :: rest) else a :: b :: rest
  | bs => bs

/-- `Encoder::unsigned`: minimal, with a leading zero octet when the top bit is set. -/
def unsigned (tag : Tag) (value : Nat) : Except Error Bytes :=
  let octets := minimalUnsigned (beBytes 8 value)
  primitive tag (if (octets.headD 0).toNat ≥ 128 then 0 :: octets else octets)

/-- `Encoder::boolean`. -/
def boolean (tag : Tag) (value : Bool) : Except Error Bytes :=
  primitive tag [if value then 1 else 0]

/-- `Encoder::bit_string`. -/
def bitString (tag : Tag) (unused : UInt8) (contents : Bytes) : Except Error Bytes :=
  if unused.toNat > 7 ∨ (contents.isEmpty ∧ unused ≠ 0) then .error (.encode "bit string unused bits")
  else do
    let len ← encodeLength (contents.length + 1)
    .ok (writeTag tag ++ len ++ unused :: contents)

/-- `Encoder::visible_string`. -/
def visibleString (tag : Tag) (s : Bytes) : Except Error Bytes :=
  if isAscii s then primitive tag s else .error (.encode "VisibleString must be ASCII")

end Iec61850.Ber
