import Mathlib.Algebra.Order.Ring.Int
import Mathlib.Data.List.Basic

/-!
# Octet strings and big-endian numbers

The octet strings every wire format of this development is written over, with the
big-endian reading of a string and the fixed-width big-endian writing of a number.
The round trip `beNat_beBytes` is the only arithmetic fact the codecs above need; `splice` puts a
list over a part of another.
-/

namespace Theory

/-- An octet string. -/
abbrev Bytes := List UInt8

instance : LawfulBEq Bytes := List.instLawfulBEq

/-- The octets of an ASCII literal. -/
def ascii (s : String) : Bytes := s.toList.map (fun c => c.val.toUInt8)

/-- Every octet is an ASCII character. -/
def isAscii (bs : Bytes) : Bool := bs.all (fun b => decide (b.toNat < 128))

/-- The number a string of octets reads as, most significant octet first. -/
def beNat (bs : Bytes) : Nat := bs.foldl (fun acc b => acc * 256 + b.toNat) 0

/-- The `width` octets of `n`, most significant octet first; the excess is cut off. -/
def beBytes : Nat → Nat → Bytes
  | 0, _ => []
  | width + 1, n => UInt8.ofNat (n / 256 ^ width) :: beBytes width n

@[simp] theorem beBytes_length (width n : Nat) : (beBytes width n).length = width := by
  induction width with
  | zero => rfl
  | succ width ih => simp [beBytes, ih]

theorem toNat_ofNat8 (n : Nat) : (UInt8.ofNat n).toNat = n % 256 := by
  simp

theorem foldl_be_append (bs : Bytes) (start : Nat) :
    bs.foldl (fun acc b => acc * 256 + b.toNat) start = start * 256 ^ bs.length + beNat bs := by
  induction bs generalizing start with
  | nil => simp [beNat]
  | cons b bs ih =>
    simp only [beNat, List.foldl_cons, List.length_cons]
    rw [ih, ih (0 * 256 + b.toNat)]
    simp only [Nat.pow_succ, Nat.add_mul, Nat.zero_mul, Nat.zero_add]
    rw [Nat.mul_assoc, Nat.mul_comm 256]
    omega

theorem beNat_cons (b : UInt8) (bs : Bytes) :
    beNat (b :: bs) = b.toNat * 256 ^ bs.length + beNat bs := by
  have h := foldl_be_append bs (0 * 256 + b.toNat)
  simpa [beNat] using h

theorem beNat_lt (bs : Bytes) : beNat bs < 256 ^ bs.length := by
  induction bs with
  | nil => simp [beNat]
  | cons b bs ih =>
    have hb : b.toNat + 1 ≤ 256 := b.toNat_lt
    have hmul := Nat.mul_le_mul_right (256 ^ bs.length) hb
    rw [beNat_cons, List.length_cons, Nat.pow_succ]
    rw [Nat.add_mul] at hmul
    omega

theorem beNat_lt_of_length {bs : Bytes} {width : Nat} (h : bs.length ≤ width) :
    beNat bs < 256 ^ width :=
  Nat.lt_of_lt_of_le (beNat_lt bs) (Nat.pow_le_pow_right (by decide) h)

theorem beNat_beBytes (width n : Nat) : beNat (beBytes width n) = n % 256 ^ width := by
  induction width with
  | zero => simp [beBytes, beNat, Nat.mod_one]
  | succ width ih =>
    rw [beBytes, beNat_cons, ih, beBytes_length, toNat_ofNat8, Nat.pow_succ,
      Nat.mod_mul, Nat.mul_comm]
    omega

theorem beNat_beBytes_of_lt {width n : Nat} (h : n < 256 ^ width) :
    beNat (beBytes width n) = n := by
  rw [beNat_beBytes, Nat.mod_eq_of_lt h]

/-! ### Overwriting a part of a list -/

section Splice

variable {α : Type*}

/-- Put `new` over the entries from `start` on. -/
def splice (xs : List α) (start : Nat) (new : List α) : List α :=
  xs.take start ++ (new ++ xs.drop (start + new.length))

theorem splice_middle {pre old post new : List α} {start : Nat} (hstart : pre.length = start)
    (hlen : new.length = old.length) : splice (pre ++ (old ++ post)) start new = pre ++ (new ++ post) := by
  have hdrop : (pre ++ (old ++ post)).drop (start + new.length) = post := by
    rw [← List.append_assoc]
    apply List.drop_left'
    rw [List.length_append, hstart, hlen]
  rw [splice, hdrop, List.take_left' hstart]

theorem splice_length {xs new : List α} {start : Nat} (h : start + new.length ≤ xs.length) :
    (splice xs start new).length = xs.length := by
  rw [splice, List.length_append, List.length_append, List.length_take, List.length_drop]
  omega

end Splice

end Theory
