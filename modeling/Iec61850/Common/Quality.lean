import Iec61850.Common.Basic

/-!
# Quality

`common/quality.rs`: the quality of a value and the word it is packed into, the first bit of the
standard in the most significant place.
-/

namespace Iec61850

inductive Validity where
  | good
  | invalid
  | reserved
  | questionable
  deriving DecidableEq, Repr

inductive Source where
  | process
  | substituted
  deriving DecidableEq, Repr

structure Quality where
  validity : Validity
  overflow : Bool
  outOfRange : Bool
  badReference : Bool
  oscillatory : Bool
  failure : Bool
  oldData : Bool
  inconsistent : Bool
  inaccurate : Bool
  source : Source
  test : Bool
  operatorBlocked : Bool
  derived : Bool
  deriving DecidableEq, Repr

namespace Quality

/-- `Quality::GOOD`. -/
def allGood : Quality :=
  ⟨.good, false, false, false, false, false, false, false, false, .process, false, false, false⟩

/-- The number of a validity. -/
def validityBits : Validity → Nat
  | .good => 0
  | .invalid => 1
  | .reserved => 2
  | .questionable => 3

/-- A flag in the place of a bit of the standard. -/
def bit (flag : Bool) (n : Nat) : Nat := if flag then 1 <<< (31 - n) else 0

def toBitsMsb (q : Quality) : Nat :=
  validityBits q.validity <<< 30 ||| bit q.overflow 2 ||| bit q.outOfRange 3 |||
    bit q.badReference 4 ||| bit q.oscillatory 5 ||| bit q.failure 6 ||| bit q.oldData 7 |||
    bit q.inconsistent 8 ||| bit q.inaccurate 9 ||| bit (q.source = .substituted) 10 |||
    bit q.test 11 ||| bit q.operatorBlocked 12 ||| bit q.derived 13

def fromBitsMsb (v : Nat) : Quality where
  validity :=
    match v >>> 30 with
    | 0 => .good
    | 1 => .invalid
    | 2 => .reserved
    | _ => .questionable
  overflow := v.testBit (31 - 2)
  outOfRange := v.testBit (31 - 3)
  badReference := v.testBit (31 - 4)
  oscillatory := v.testBit (31 - 5)
  failure := v.testBit (31 - 6)
  oldData := v.testBit (31 - 7)
  inconsistent := v.testBit (31 - 8)
  inaccurate := v.testBit (31 - 9)
  source := if v.testBit (31 - 10) then .substituted else .process
  test := v.testBit (31 - 11)
  operatorBlocked := v.testBit (31 - 12)
  derived := v.testBit (31 - 13)

/-! ### The word and back -/

theorem testBit_bit (flag : Bool) (n i : Nat) :
    (bit flag n).testBit i = (flag && decide (31 - n = i)) := by
  cases flag with
  | false => simp [bit]
  | true => simp [bit, Nat.shiftLeft_eq, Nat.testBit_two_pow]

theorem bit_shiftRight (flag : Bool) {n : Nat} (h : 2 ≤ n) : bit flag n >>> 30 = 0 := by
  cases flag with
  | false => simp [bit]
  | true =>
    have hlt : 2 ^ (31 - n) < 2 ^ 30 := Nat.pow_lt_pow_right (by decide) (by omega)
    rw [bit, if_pos rfl, Nat.shiftLeft_eq, Nat.one_mul, Nat.shiftRight_eq_div_pow,
      Nat.div_eq_of_lt hlt]

theorem toBitsMsb_shiftRight (q : Quality) : q.toBitsMsb >>> 30 = validityBits q.validity := by
  simp [toBitsMsb, Nat.shiftRight_or_distrib, Nat.shiftLeft_shiftRight, bit_shiftRight]

theorem fromBitsMsb_toBitsMsb (q : Quality) : fromBitsMsb q.toBitsMsb = q := by
  have hvalidity : (match validityBits q.validity with
      | 0 => .good
      | 1 => .invalid
      | 2 => .reserved
      | _ => .questionable : Validity) = q.validity := by
    cases q.validity <;> rfl
  have hsource : (if q.source = .substituted then .substituted else .process : Source) =
      q.source := by
    cases q.source <;> rfl
  rw [fromBitsMsb, toBitsMsb_shiftRight, hvalidity]
  simp only [toBitsMsb, Nat.testBit_or, testBit_bit]
  simp [hsource]

theorem toBitsMsb_lt (q : Quality) : q.toBitsMsb < 2 ^ 32 := by
  have hvalidity : q.toBitsMsb / 2 ^ 30 < 4 := by
    rw [← Nat.shiftRight_eq_div_pow, toBitsMsb_shiftRight]
    cases q.validity <;> decide
  omega

end Quality

end Iec61850
