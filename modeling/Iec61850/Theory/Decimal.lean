import Iec61850.Theory.Octets

/-!
# Decimal numerals

A number as it is printed, and as a reader that allows a sign and leading zeros takes it back. A
number has one printed form and many that read as it: `readNumeral_numeral` is what the two have in
common.
-/

namespace Theory

/-- The octet of a decimal digit. -/
def digit (n : Nat) : UInt8 := UInt8.ofNat (48 + n % 10)

/-- The digits of a number, the last `fuel` of them. -/
def digits : Nat → Nat → Bytes
  | 0, _ => []
  | fuel + 1, n => if n < 10 then [digit n] else digits fuel (n / 10) ++ [digit n]

/-- A number in decimal. -/
def numeral (n : Nat) : Bytes := digits (n + 1) n

def isDigit (b : UInt8) : Bool := decide (48 ≤ b.toNat ∧ b.toNat ≤ 57)

/-- The number a string of digits stands for. -/
def numeralValue (ds : Bytes) : Nat := ds.foldl (fun acc b => acc * 10 + (b.toNat - 48)) 0

/-- Digits, at least one of them, that stand for a number below a bound. -/
def readDigits (bound : Nat) (ds : Bytes) : Option Nat :=
  if ds ≠ [] ∧ ds.all isDigit ∧ numeralValue ds < bound then some (numeralValue ds) else none

/-- A number below a bound, with a plus sign or without. -/
def readNumeral (bound : Nat) : Bytes → Option Nat
  | [] => none
  | b :: ds => if b = 43 then readDigits bound ds else readDigits bound (b :: ds)

theorem digit_toNat (n : Nat) : (digit n).toNat = 48 + n % 10 := by
  have hlt : 48 + n % 10 < 256 := by omega
  rw [digit, toNat_ofNat8, Nat.mod_eq_of_lt hlt]

theorem isDigit_digit (n : Nat) : isDigit (digit n) = true := by
  rw [isDigit, digit_toNat, decide_eq_true_iff]
  omega

theorem all_isDigit_digits (fuel n : Nat) : (digits fuel n).all isDigit = true := by
  induction fuel generalizing n with
  | zero => rfl
  | succ fuel ih =>
    rw [digits]
    split
    · simp [isDigit_digit]
    · simp [ih, isDigit_digit]

theorem digits_ne_nil (fuel n : Nat) : digits (fuel + 1) n ≠ [] := by
  rw [digits]
  split
  · exact List.cons_ne_nil _ _
  · intro hnil
    exact List.cons_ne_nil _ _ (List.append_eq_nil_iff.mp hnil).2

theorem numeralValue_concat (ds : Bytes) (b : UInt8) :
    numeralValue (ds ++ [b]) = numeralValue ds * 10 + (b.toNat - 48) := by
  simp [numeralValue]

theorem numeralValue_digits {fuel n : Nat} (h : n < fuel) : numeralValue (digits fuel n) = n := by
  induction fuel generalizing n with
  | zero => exact absurd h (Nat.not_lt_zero n)
  | succ fuel ih =>
    rw [digits]
    split
    case isTrue hsmall =>
      have hone := numeralValue_concat [] (digit n)
      rw [List.nil_append] at hone
      rw [hone, digit_toNat]
      simp only [numeralValue, List.foldl_nil]
      omega
    case isFalse hlarge =>
      have hrest : n / 10 < fuel := by omega
      rw [numeralValue_concat, ih hrest, digit_toNat]
      omega

theorem readDigits_numeral {bound n : Nat} (h : n < bound) :
    readDigits bound (numeral n) = some n := by
  have hvalue : numeralValue (numeral n) = n := numeralValue_digits (Nat.lt_succ_self n)
  rw [readDigits, hvalue, if_pos]
  exact ⟨digits_ne_nil n n, all_isDigit_digits _ _, h⟩

theorem readNumeral_numeral {bound n : Nat} (h : n < bound) :
    readNumeral bound (numeral n) = some n := by
  have hread := readDigits_numeral h
  have hall := all_isDigit_digits (n + 1) n
  cases hds : numeral n with
  | nil => exact absurd hds (digits_ne_nil n n)
  | cons b ds =>
    rw [numeral] at hds
    rw [hds, List.all_cons, Bool.and_eq_true] at hall
    have hsign : b ≠ 43 := by
      rintro rfl
      exact absurd hall.1 (by decide)
    rw [readNumeral, if_neg hsign, ← hds]
    exact hread

theorem isDigit_of_mem_numeral {n : Nat} {b : UInt8} (h : b ∈ numeral n) : isDigit b = true :=
  List.all_eq_true.mp (all_isDigit_digits _ _) b h

theorem readNumeral_lt {bound n : Nat} {ds : Bytes} (h : readNumeral bound ds = some n) :
    n < bound := by
  have hdigits : ∀ ds, readDigits bound ds = some n → n < bound := by
    intro ds h
    unfold readDigits at h
    split at h
    · rename_i hds
      cases h
      exact hds.2.2
    · cases h
  cases ds with
  | nil => cases h
  | cons b ds =>
    rw [readNumeral] at h
    split at h
    · exact hdigits _ h
    · exact hdigits _ h

theorem readNumeral_zeros {bound n : Nat} (h : n < bound) (k : Nat) :
    readNumeral bound (List.replicate k 48 ++ numeral n) = some n := by
  cases k with
  | zero => exact readNumeral_numeral h
  | succ k =>
    have hvalue : ∀ (k : Nat) (ds : Bytes),
        numeralValue (List.replicate k 48 ++ ds) = numeralValue ds := by
      intro k ds
      induction k with
      | zero => rfl
      | succ k ih =>
        rw [← ih]
        rfl
    have hall : (List.replicate (k + 1) 48 ++ numeral n).all isDigit = true := by
      rw [List.all_append, Bool.and_eq_true]
      refine ⟨?_, all_isDigit_digits _ _⟩
      rw [List.all_eq_true]
      intro b hb
      rw [List.eq_of_mem_replicate hb]
      decide
    have hsign : ¬ (48 : UInt8) = 43 := by decide
    have hnumeral : numeralValue (numeral n) = n := numeralValue_digits (Nat.lt_succ_self n)
    have hread : readDigits bound (List.replicate (k + 1) 48 ++ numeral n) = some n := by
      rw [readDigits, hvalue, hnumeral, if_pos]
      refine ⟨?_, hall, h⟩
      rw [List.replicate_succ, List.cons_append]
      exact List.cons_ne_nil _ _
    rw [List.replicate_succ, List.cons_append, readNumeral, if_neg hsign]
    exact hread

end Theory
