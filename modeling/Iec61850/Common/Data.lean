import Iec61850.Ber.Writer
import Iec61850.Common.Time

/-!
# The MMS `Data` type

`proto/data.rs`: the borrowed view of one element, the owned value, and the encoder. A
floating-point value is kept as its IEEE 754 bit pattern, which is what goes on the wire;
nothing here computes with it.
-/

namespace Iec61850

open Theory Ber

/-- Well-formed UTF-8, by the table of the Unicode standard (`core::str::from_utf8`). -/
def validUtf8 : Bytes → Bool
  | [] => true
  | a :: rest =>
    if a < 0x80 then validUtf8 rest
    else
      let cont (b : UInt8) := 0x80 ≤ b && b ≤ 0xBF
      match rest with
      | [] => false
      | b :: rest =>
        if 0xC2 ≤ a && a ≤ 0xDF then cont b && validUtf8 rest
        else
          match rest with
          | [] => false
          | c :: rest =>
            if 0xE0 ≤ a && a ≤ 0xEF then
              (if a = 0xE0 then 0xA0 ≤ b && b ≤ 0xBF
                else if a = 0xED then 0x80 ≤ b && b ≤ 0x9F else cont b)
              && cont c && validUtf8 rest
            else
              match rest with
              | [] => false
              | d :: rest =>
                (if a = 0xF0 then 0x90 ≤ b && b ≤ 0xBF
                  else if a = 0xF4 then 0x80 ≤ b && b ≤ 0x8F
                  else decide (0xF1 ≤ a ∧ a ≤ 0xF3) && cont b)
                && cont c && cont d && validUtf8 rest

/-! ### The borrowed view -/

/-- `Tlv::utf8_string`. -/
def utf8String (t : Tlv) : Except Error Bytes :=
  if validUtf8 t.value then .ok t.value else t.badValue

/-- `Tlv::floating_point`: whether it is a double, and its bits. -/
def floatingPoint (t : Tlv) : Except Error (Bool × Nat) :=
  match t.value with
  | 8 :: rest => if rest.length = 4 then .ok (false, beNat rest) else t.badValue
  | 11 :: rest => if rest.length = 8 then .ok (true, beNat rest) else t.badValue
  | _ => t.badValue

/-- `Tlv::utc_time`. -/
def utcTime (t : Tlv) : Except Error UtcTime :=
  match UtcTime.fromOctets t.value with
  | some u => .ok u
  | none => t.badValue

/-- Tag numbers of the `Data` choice. -/
def dataArray : Nat := 1
def dataStructure : Nat := 2
def dataBoolean : Nat := 3
def dataBitString : Nat := 4
def dataInteger : Nat := 5
def dataUnsigned : Nat := 6
def dataFloatingPoint : Nat := 7
def dataOctetString : Nat := 9
def dataVisibleString : Nat := 10
def dataBinaryTime : Nat := 12
def dataMmsString : Nat := 16
def dataUtcTime : Nat := 17

/-- A borrowed view of one `Data` element (`DataView`). -/
inductive DataView where
  | array (members : Cursor)
  | structure (members : Cursor)
  | boolean (b : Bool)
  | bitString (unused : UInt8) (bytes : Bytes)
  | integer (i : Int)
  | unsigned (u : Nat)
  | float32 (bits : Nat)
  | float64 (bits : Nat)
  | octetString (bytes : Bytes)
  | visibleString (s : Bytes)
  | mmsString (s : Bytes)
  | utcTime (t : UtcTime)
  | binaryTime (bytes : Bytes)
  | other (t : Tlv)
  deriving DecidableEq, Repr

def DataView.fromTlv (t : Tlv) : Except Error DataView :=
  if t.tag.cls ≠ .context then .error (.decode .unexpectedTag t.offset)
  else
    match t.tag.number, t.tag.constructed with
    | 1, true => .ok (.array t.children)
    | 2, true => .ok (.structure t.children)
    | 3, false => .boolean <$> t.boolean
    | 4, false => do
        let (unused, bytes) ← t.bitString
        .ok (.bitString unused bytes)
    | 5, false => .integer <$> t.integerI64
    | 6, false => .unsigned <$> t.unsignedLenientU64
    | 7, false => do
        let (double, bits) ← floatingPoint t
        .ok (if double then .float64 bits else .float32 bits)
    | 9, false => .ok (.octetString t.value)
    | 10, false => .visibleString <$> t.visibleString
    | 16, false => .mmsString <$> utf8String t
    | 17, false => .utcTime <$> Iec61850.utcTime t
    | 12, false => .ok (.binaryTime t.value)
    | _, _ => .ok (.other t)

/-! ### The owned value -/

/-- An owned `Data` value (`Value`). -/
inductive Value where
  | array (members : List Value)
  | structure (members : List Value)
  | boolean (b : Bool)
  | bitString (unused : UInt8) (bytes : Bytes)
  | integer (i : Int)
  | unsigned (u : Nat)
  | float32 (bits : Nat)
  | float64 (bits : Nat)
  | octetString (bytes : Bytes)
  | visibleString (s : Bytes)
  | mmsString (s : Bytes)
  | utcTime (t : UtcTime)
  | binaryTime (bytes : Bytes)
  | other (tag : Nat) (constructed : Bool) (bytes : Bytes)
  deriving Repr

def checkLen (len : Nat) (limits : Limits) : Except Error Unit :=
  if len > limits.maxPrimitiveLen then .error (.limitExceeded "max_primitive_len" len) else .ok ()

/-- The cases of `to_owned_depth` that hold no members. -/
def DataView.leafToOwned (limits : Limits) : DataView → Except Error Value
  | .array _ | .structure _ => .ok (.structure [])
  | .boolean b => .ok (.boolean b)
  | .bitString unused bytes => do
      checkLen bytes.length limits
      .ok (.bitString unused bytes)
  | .integer i => .ok (.integer i)
  | .unsigned u => .ok (.unsigned u)
  | .float32 f => .ok (.float32 f)
  | .float64 f => .ok (.float64 f)
  | .octetString b => do
      checkLen b.length limits
      .ok (.octetString b)
  | .visibleString s => do
      checkLen s.length limits
      .ok (.visibleString s)
  | .mmsString s => do
      checkLen s.length limits
      .ok (.mmsString s)
  | .utcTime t => .ok (.utcTime t)
  | .binaryTime b => do
      checkLen b.length limits
      .ok (.binaryTime b)
  | .other t => do
      checkLen t.value.length limits
      .ok (.other t.tag.number t.tag.constructed t.value)

/-- `collect_depth` and `to_owned_depth` together: `left` counts the levels still allowed, so
that an element at depth `limits.maxDepth + 1` is the first one refused. -/
def collectDepth (limits : Limits) : Nat → Cursor → Except Error (List Value)
  | left, c =>
    collectItems "max_dataset_members" limits.maxDatasetMembers c (fun t => do
      let view ← DataView.fromTlv t
      match left with
      | 0 => .error (.limitExceeded "max_depth" (limits.maxDepth + 1))
      | left + 1 =>
        match view with
        | .array m => .array <$> collectDepth limits left m
        | .structure m => .structure <$> collectDepth limits left m
        | view => view.leafToOwned limits)

/-- `data::collect`: the elements of a cursor, which sit at depth zero. -/
def collect (c : Cursor) (limits : Limits) : Except Error (List Value) :=
  collectDepth limits (limits.maxDepth + 1) c

/-- `data::decode_all`. -/
def decodeAll (bytes : Bytes) (limits : Limits) : Except Error (List Value) :=
  collect (Cursor.new bytes) limits

def DataView.toOwned (limits : Limits) : DataView → Except Error Value
  | .array m => .array <$> collectDepth limits limits.maxDepth m
  | .structure m => .structure <$> collectDepth limits limits.maxDepth m
  | view => view.leafToOwned limits

mutual

def Value.encode : Value → Except Error Bytes
  | .array m => constructed (Tag.contextConstructed dataArray) (Value.encodeAll m)
  | .structure m => constructed (Tag.contextConstructed dataStructure) (Value.encodeAll m)
  | .boolean b => Ber.boolean (Tag.context dataBoolean) b
  | .bitString unused bytes => Ber.bitString (Tag.context dataBitString) unused bytes
  | .integer i => Ber.integer (Tag.context dataInteger) i
  | .unsigned u => Ber.unsigned (Tag.context dataUnsigned) u
  | .float32 bits => primitive (Tag.context dataFloatingPoint) (8 :: beBytes 4 bits)
  | .float64 bits => primitive (Tag.context dataFloatingPoint) (11 :: beBytes 8 bits)
  | .octetString b => primitive (Tag.context dataOctetString) b
  | .visibleString s => Ber.visibleString (Tag.context dataVisibleString) s
  | .mmsString s => primitive (Tag.context dataMmsString) s
  | .utcTime t => primitive (Tag.context dataUtcTime) t.toOctets
  | .binaryTime b => primitive (Tag.context dataBinaryTime) b
  | .other n isConstructed bytes =>
    primitive (if isConstructed then Tag.contextConstructed n else Tag.context n) bytes

def Value.encodeAll : List Value → Except Error Bytes
  | [] => .ok []
  | v :: vs => do
      let here ← v.encode
      let rest ← Value.encodeAll vs
      .ok (here ++ rest)

end

end Iec61850
