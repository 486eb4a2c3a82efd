import Iec61850.Common.Data

/-!
# What an encoder holds after a write

An encoder that is kept over a failed write holds what the write had put into it by then.
`Value.encodeInto` follows the source octet by octet; where the write succeeds it is
`Value.encode` (`Value.encodeInto_result`).
-/

namespace Iec61850

open Theory Ber

/-- The octets a write appended, and whether it succeeded. -/
abbrev Written := Bytes × Except Error Unit

/-- The octets of a write that succeeded. -/
def Written.result (w : Written) : Except Error Bytes := w.2.map fun _ => w.1

/-- `Encoder::primitive`: the tag is there before the length is known to fit. -/
def primitiveInto (tag : Tag) (contents : Bytes) : Written :=
  match encodeLength contents.length with
  | .ok len => (writeTag tag ++ len ++ contents, .ok ())
  | .error e => (writeTag tag, .error e)

/-- `Encoder::constructed`: until the children are there, one octet stands for the length. -/
def constructedInto (tag : Tag) (children : Written) : Written :=
  match children.2 with
  | .error e => (writeTag tag ++ 0 :: children.1, .error e)
  | .ok () =>
    match encodeLength children.1.length with
    | .ok len => (writeTag tag ++ len ++ children.1, .ok ())
    | .error e => (writeTag tag ++ 0 :: children.1, .error e)

/-- A write that checks its argument first. -/
def checkedInto (refused : Bool) (what : String) (w : Written) : Written :=
  if refused then ([], .error (.encode what)) else w

mutual

/-- `Value::encode` into an encoder. -/
def Value.encodeInto : Value → Written
  | .array m => constructedInto (Tag.contextConstructed dataArray) (Value.encodeAllInto m)
  | .structure m => constructedInto (Tag.contextConstructed dataStructure) (Value.encodeAllInto m)
  | .boolean b => primitiveInto (Tag.context dataBoolean) [if b then 1 else 0]
  | .bitString unused bytes =>
    checkedInto (unused.toNat > 7 ∨ (bytes.isEmpty ∧ unused ≠ 0)) "bit string unused bits"
      (primitiveInto (Tag.context dataBitString) (unused :: bytes))
  | .integer i => primitiveInto (Tag.context dataInteger) (minimalSigned (i64Octets i))
  | .unsigned u =>
    let octets := minimalUnsigned (beBytes 8 u)
    primitiveInto (Tag.context dataUnsigned)
      (if (octets.headD 0).toNat ≥ 128 then 0 :: octets else octets)
  | .float32 bits => primitiveInto (Tag.context dataFloatingPoint) (8 :: beBytes 4 bits)
  | .float64 bits => primitiveInto (Tag.context dataFloatingPoint) (11 :: beBytes 8 bits)
  | .octetString b => primitiveInto (Tag.context dataOctetString) b
  | .visibleString s =>
    checkedInto (!isAscii s) "VisibleString must be ASCII"
      (primitiveInto (Tag.context dataVisibleString) s)
  | .mmsString s => primitiveInto (Tag.context dataMmsString) s
  | .utcTime t => primitiveInto (Tag.context dataUtcTime) t.toOctets
  | .binaryTime b => primitiveInto (Tag.context dataBinaryTime) b
  | .other n isConstructed bytes =>
    primitiveInto (if isConstructed then Tag.contextConstructed n else Tag.context n) bytes

/-- A loop of `Value::encode`, ended by the first failure. -/
def Value.encodeAllInto : List Value → Written
  | [] => ([], .ok ())
  | v :: vs =>
    match v.encodeInto.2 with
    | .error e => (v.encodeInto.1, .error e)
    | .ok () => (v.encodeInto.1 ++ (Value.encodeAllInto vs).1, (Value.encodeAllInto vs).2)

end

theorem primitiveInto_result (tag : Tag) (contents : Bytes) :
    (primitiveInto tag contents).result = primitive tag contents := by
  unfold primitiveInto primitive
  cases encodeLength contents.length <;> rfl

theorem constructedInto_result (tag : Tag) (children : Written) :
    (constructedInto tag children).result = constructed tag children.result := by
  obtain ⟨bs, result⟩ := children
  unfold constructedInto constructed Written.result
  cases result with
  | error e => rfl
  | ok =>
    simp only [Except.map, bind, Except.bind]
    cases encodeLength bs.length <;> rfl

theorem checkedInto_result (refused : Bool) (what : String) (w : Written) :
    (checkedInto refused what w).result = if refused then .error (.encode what) else w.result := by
  unfold checkedInto
  split <;> rfl

mutual

/-- The write into an encoder succeeds when the encoding exists, and appends it. -/
theorem Value.encodeInto_result : ∀ v : Value, v.encodeInto.result = v.encode
  | .array m => by
      rw [Value.encodeInto, constructedInto_result, Value.encodeAllInto_result m, Value.encode]
  | .structure m => by
      rw [Value.encodeInto, constructedInto_result, Value.encodeAllInto_result m, Value.encode]
  | .boolean b => primitiveInto_result _ _
  | .bitString unused bytes => by
      rw [Value.encodeInto, checkedInto_result, primitiveInto_result, Value.encode, Ber.bitString]
      simp only [decide_eq_true_eq]
      rfl
  | .integer i => primitiveInto_result _ _
  | .unsigned u => primitiveInto_result _ _
  | .float32 bits => primitiveInto_result _ _
  | .float64 bits => primitiveInto_result _ _
  | .octetString b => primitiveInto_result _ _
  | .visibleString s => by
      rw [Value.encodeInto, checkedInto_result, primitiveInto_result, Value.encode,
        Ber.visibleString]
      cases isAscii s <;> rfl
  | .mmsString s => primitiveInto_result _ _
  | .utcTime t => primitiveInto_result _ _
  | .binaryTime b => primitiveInto_result _ _
  | .other n isConstructed bytes => primitiveInto_result _ _

theorem Value.encodeAllInto_result : ∀ vs : List Value,
    (Value.encodeAllInto vs).result = Value.encodeAll vs
  | [] => rfl
  | v :: vs => by
      have hv := Value.encodeInto_result v
      have hvs := Value.encodeAllInto_result vs
      rw [Value.encodeAllInto, Value.encodeAll, ← hv, ← hvs]
      unfold Written.result
      cases v.encodeInto.2 with
      | error e => rfl
      | ok =>
        simp only [Except.map, bind, Except.bind]
        cases (Value.encodeAllInto vs).2 <;> rfl

end

end Iec61850
