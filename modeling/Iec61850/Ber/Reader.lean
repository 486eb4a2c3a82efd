import Iec61850.Common.Basic

/-!
# The BER reader

`ber/mod.rs` and `ber/reader.rs`: tags, decoded elements and the cursor over a sequence of
elements. The cursor keeps the unread octets and the absolute offset of the next one; the
source keeps the whole buffer, a position and a base, whose sum is that offset.

Bit masks and shifts of the source are written as division and remainder, octet by octet.
-/

namespace Iec61850.Ber

open Theory

/-- The class of a BER tag. -/
inductive Class where
  | universal
  | application
  | context
  | priv
  deriving DecidableEq, Repr

/-- A BER tag: class, constructed bit, number (a `u32`). -/
structure Tag where
  cls : Class
  constructed : Bool
  number : Nat
  deriving DecidableEq, Repr

namespace Tag

/-- A primitive context-specific tag. -/
def context (n : Nat) : Tag := ⟨.context, false, n⟩

/-- A constructed context-specific tag. -/
def contextConstructed (n : Nat) : Tag := ⟨.context, true, n⟩

/-- A constructed application tag. -/
def applicationConstructed (n : Nat) : Tag := ⟨.application, true, n⟩

/-- A primitive application tag. -/
def application (n : Nat) : Tag := ⟨.application, false, n⟩

/-- A universal tag. -/
def universal (n : Nat) (constructed : Bool) : Tag := ⟨.universal, constructed, n⟩

end Tag

/-! ### Universal tag numbers -/

def universalBoolean : Nat := 1
def universalInteger : Nat := 2
def universalBitString : Nat := 3
def universalOctetString : Nat := 4
def universalNull : Nat := 5
def universalOid : Nat := 6
def universalSequence : Nat := 16
def universalGraphicString : Nat := 25
def universalVisibleString : Nat := 26

/-- One decoded element: its tag, its contents, and where it sits in the buffer. -/
structure Tlv where
  tag : Tag
  value : Bytes
  offset : Nat
  valueOffset : Nat
  deriving DecidableEq, Repr

/-- A cursor over a sequence of BER elements: the unread octets and where they start. -/
structure Cursor where
  rest : Bytes
  offset : Nat
  deriving DecidableEq, Repr

def Cursor.new (buf : Bytes) : Cursor := ⟨buf, 0⟩

/-- `Tlv::children`: a cursor over the contents. -/
def Tlv.children (t : Tlv) : Cursor := ⟨t.value, t.valueOffset⟩

/-- `Tlv::expect`: fail unless the tag is the expected one. -/
def Tlv.expect (t : Tlv) (expected : Tag) : Except Error Tlv :=
  if t.tag = expected then .ok t else .error (.decode .unexpectedTag t.offset)

namespace Cursor

def isEmpty (c : Cursor) : Bool := c.rest.isEmpty

/-- The class bits of an identifier octet. -/
def classOf (first : UInt8) : Class :=
  match first.toNat / 64 with
  | 0 => .universal
  | 1 => .application
  | 2 => .context
  | _ => .priv

/-- The loop over the groups of a high tag number. It reads at most five of them, so the
count of groups still allowed is what the recursion is on. Returns the number and what
follows, or the error of the source at offset `start` (`pos` is where the next group sits). -/
def highTag (start : Nat) : Nat → Bool → Nat → Nat → Bytes → Except Error (Nat × Nat × Bytes)
  | 0, _, _, _, _ => .error (.decode .badValue start)
  | _ + 1, _, _, pos, [] => .error (.decode .truncated pos)
  | left + 1, isFirst, number, pos, b :: rest =>
    if isFirst = true ∧ b.toNat = 128 then .error (.decode .badValue start)
    else if number > u32Max / 128 then .error (.decode .badValue start)
    else
      let number := number * 128 + b.toNat % 128
      if b.toNat / 128 = 0 then .ok (number, pos + 1, rest)
      else highTag start left false number (pos + 1) rest

/-- The identifier octets of `next_inner`. -/
def readTag (pos : Nat) : Bytes → Except Error (Tag × Nat × Bytes)
  | [] => .error (.decode .truncated pos)
  | first :: rest =>
    let cls := classOf first
    let constructed := decide (first.toNat / 32 % 2 = 1)
    if first.toNat % 32 = 31 then do
      let (number, next, rest) ← highTag pos 5 true 0 (pos + 1) rest
      if number < 31 then .error (.decode .badValue pos)
      else .ok (⟨cls, constructed, number⟩, next, rest)
    else .ok (⟨cls, constructed, first.toNat % 32⟩, pos + 1, rest)

/-- The length octets of `next_inner`. -/
def readLength (pos : Nat) : Bytes → Except Error (Nat × Nat × Bytes)
  | [] => .error (.decode .truncated pos)
  | first :: rest =>
    if first.toNat < 128 then .ok (first.toNat, pos + 1, rest)
    else
      let n := first.toNat % 128
      if n = 0 then .error (.decode .indefiniteLength pos)
      else if n > 4 then .error (.decode .badLength pos)
      else if rest.length < n then .error (.decode .truncated (pos + 1))
      else .ok (beNat (rest.take n), pos + 1 + n, rest.drop n)

/-- `Cursor::next_inner`: decode one element from the unread octets. -/
def nextInner (c : Cursor) : Except Error (Tlv × Cursor) := do
  let (tag, pos, rest) ← readTag c.offset c.rest
  let (len, pos, rest) ← readLength pos rest
  if rest.length < len then .error (.decode .truncated pos)
  else .ok (⟨tag, rest.take len, c.offset, pos⟩, ⟨rest.drop len, pos + len⟩)

/-- The cursor after an error: nothing is left to read. -/
def stop (c : Cursor) : Cursor := ⟨[], c.offset + c.rest.length⟩

/-- `Iterator::next`: `none` at the end; an error ends the iteration. -/
def next (c : Cursor) : Option (Except Error Tlv × Cursor) :=
  if c.isEmpty then none
  else
    match c.nextInner with
    | .ok (t, c') => some (.ok t, c')
    | .error e => some (.error e, c.stop)

def nextRequired (c : Cursor) : Except Error (Tlv × Cursor) :=
  if c.isEmpty then .error (.decode .missingField c.offset) else c.nextInner

def nextTag (c : Cursor) (tag : Tag) : Except Error (Tlv × Cursor) := do
  let (t, c) ← c.nextRequired
  let t ← t.expect tag
  .ok (t, c)

def peekTag (c : Cursor) : Option Tag :=
  match c.next with
  | some (.ok t, _) => some t.tag
  | _ => none

def nextIfTag (c : Cursor) (tag : Tag) : Except Error (Option Tlv × Cursor) :=
  if c.peekTag = some tag then do
    let (t, c) ← c.nextRequired
    .ok (some t, c)
  else .ok (none, c)

/-- `Cursor::finish`: fail if anything is left. -/
def finish (c : Cursor) : Except Error Unit :=
  if c.isEmpty then .ok () else .error (.decode .trailingBytes c.offset)

/-- What iterating the cursor yields, reading at most `fuel` elements. -/
def itemsFuel : Nat → Cursor → List (Except Error Tlv)
  | 0, _ => []
  | fuel + 1, c =>
    match c.next with
    | none => []
    | some (.error e, _) => [.error e]
    | some (.ok t, c) => .ok t :: itemsFuel fuel c

/-- What iterating the cursor yields: every element takes an octet, so the octets bound it. -/
def items (c : Cursor) : List (Except Error Tlv) := itemsFuel c.rest.length c

end Cursor

/-- A `for item in cursor` loop whose body may fail: `f` is the body with the loop's state. -/
def forItems {σ : Type} (c : Cursor) (init : σ) (f : σ → Tlv → Except Error σ) : Except Error σ :=
  c.items.foldlM (fun s item => item >>= f s) init

/-- A loop that collects at most `max` elements: the count is checked before the next element
is decoded, and the limit the error names is `limit`. -/
def collectItems {α : Type} (limit : String) (max : Nat) (c : Cursor) (f : Tlv → Except Error α) :
    Except Error (List α) :=
  c.items.foldlM (fun out item =>
    if out.length ≥ max then .error (.limitExceeded limit (out.length + 1))
    else do
      let t ← item
      let a ← f t
      .ok (out ++ [a])) []

/-! ### Primitive values -/

namespace Tlv

def totalLen (t : Tlv) : Nat := t.valueOffset - t.offset + t.value.length

def badValue {α : Type} (t : Tlv) : Except Error α := .error (.decode .badValue t.valueOffset)

/-- `Tlv::integer_i64`: two's complement, one to eight octets. -/
def integerI64 (t : Tlv) : Except Error Int :=
  if t.value.isEmpty ∨ t.value.length > 8 then t.badValue
  else
    let start : Int := if (t.value.headD 0).toNat ≥ 128 then -1 else 0
    .ok (t.value.foldl (fun acc b => acc * 256 + (b.toNat : Int)) start)

def integerI32 (t : Tlv) : Except Error Int := do
  let v ← t.integerI64
  if -(2 ^ 31) ≤ v ∧ v < 2 ^ 31 then .ok v else t.badValue

/-- `Tlv::unsigned_u64`: the strict reader. -/
def unsignedU64 (t : Tlv) : Except Error Nat :=
  match t.value with
  | [] => t.badValue
  | first :: _ =>
    if t.value.length > 9 ∨ (t.value.length = 9 ∧ first ≠ 0) ∨ first.toNat ≥ 128 then t.badValue
    else .ok (beNat t.value)

def unsignedU32 (t : Tlv) : Except Error Nat := do
  let v ← t.unsignedU64
  if v ≤ u32Max then .ok v else t.badValue

/-- `Tlv::unsigned_lenient_u64`: up to eight octets whatever the top bit, plus a leading zero. -/
def unsignedLenientU64 (t : Tlv) : Except Error Nat :=
  match t.value with
  | 0 :: rest =>
    if rest.length = 8 then .ok (beNat rest)
    else if rest.length + 1 ≤ 8 then .ok (beNat t.value)
    else t.badValue
  | [] => t.badValue
  | _ :: _ => if t.value.length ≤ 8 then .ok (beNat t.value) else t.badValue

def unsignedLenientU32 (t : Tlv) : Except Error Nat := do
  let v ← t.unsignedLenientU64
  if v ≤ u32Max then .ok v else t.badValue

/-- `Tlv::boolean`: exactly one octet. -/
def boolean (t : Tlv) : Except Error Bool :=
  match t.value with
  | [b] => .ok (b != 0)
  | _ => t.badValue

/-- `Tlv::bit_string`: the unused-bit count and the contents. -/
def bitString (t : Tlv) : Except Error (UInt8 × Bytes) :=
  match t.value with
  | unused :: rest =>
    if unused.toNat ≤ 7 ∧ (¬ rest.isEmpty ∨ unused = 0) then .ok (unused, rest) else t.badValue
  | [] => t.badValue

/-- `Tlv::visible_string`: the contents, which must be ASCII. -/
def visibleString (t : Tlv) : Except Error Bytes :=
  if isAscii t.value then .ok t.value else .error (.decode .notAscii t.valueOffset)

end Tlv

end Iec61850.Ber
