import Mathlib.Algebra.Order.Ring.Int
import Mathlib.Data.Nat.Log

/-!
# Single and double precision

The conversions between the two binary floating-point formats of IEEE 754, on the bits of the
numbers: to the wider format exactly, to the narrower one rounded to nearest, ties to even. A
not-a-number is made quiet and keeps as much of its payload as there is room for.
-/

namespace Theory

/-- `n / 2 ^ shift`, rounded to nearest, ties to even. -/
def roundShift (n shift : Nat) : Nat :=
  let rest := n % 2 ^ shift
  if 2 * rest < 2 ^ shift ∨ (2 * rest = 2 ^ shift ∧ n / 2 ^ shift % 2 = 0) then n / 2 ^ shift
  else n / 2 ^ shift + 1

/-- The magnitude of a single from the exponent and the fraction of a double. -/
def narrowMagnitude (exponent fraction : Nat) : Nat :=
  if exponent = 2047 then
    if fraction = 0 then 255 * 2 ^ 23 else 255 * 2 ^ 23 + (2 ^ 22 + fraction / 2 ^ 29 % 2 ^ 22)
  else if 1151 ≤ exponent then 255 * 2 ^ 23
  else if 897 ≤ exponent then (exponent - 897) * 2 ^ 23 + roundShift (2 ^ 52 + fraction) 29
  else if exponent = 0 then 0
  else roundShift (2 ^ 52 + fraction) (926 - exponent)

/-- The magnitude of a double from the exponent and the fraction of a single. -/
def widenMagnitude (exponent fraction : Nat) : Nat :=
  if exponent = 255 then
    if fraction = 0 then 2047 * 2 ^ 52 else 2047 * 2 ^ 52 + (2 ^ 51 + fraction % 2 ^ 22 * 2 ^ 29)
  else if exponent = 0 then
    if fraction = 0 then 0
    else (fraction.log2 + 874) * 2 ^ 52 + (fraction * 2 ^ (52 - fraction.log2) - 2 ^ 52)
  else (exponent + 896) * 2 ^ 52 + fraction * 2 ^ 29

/-- A double as a single. -/
def singleOfDouble (bits : Nat) : Nat :=
  bits / 2 ^ 63 * 2 ^ 31 + narrowMagnitude (bits / 2 ^ 52 % 2 ^ 11) (bits % 2 ^ 52)

/-- A single as a double. -/
def doubleOfSingle (bits : Nat) : Nat :=
  bits / 2 ^ 31 * 2 ^ 63 + widenMagnitude (bits / 2 ^ 23 % 2 ^ 8) (bits % 2 ^ 23)

theorem roundShift_mul (n shift : Nat) : roundShift (n * 2 ^ shift) shift = n := by
  have hpos : 0 < 2 ^ shift := Nat.two_pow_pos shift
  simp only [roundShift, Nat.mul_mod_left, Nat.mul_div_cancel _ hpos]
  exact if_pos (Or.inl hpos)

/-! ### Between the formats and back -/

variable {fraction exponent : Nat}

/-- A subnormal number as a double: the leading bit of the fraction becomes the implicit one. -/
theorem subnormal_shifted (hne : fraction ≠ 0) (hfraction : fraction < 2 ^ 23) :
    fraction.log2 < 23 ∧ 2 ^ 52 ≤ fraction * 2 ^ (52 - fraction.log2) ∧
      fraction * 2 ^ (52 - fraction.log2) < 2 ^ 53 := by
  have hlog : fraction.log2 < 23 := (Nat.log2_lt hne).mpr hfraction
  refine ⟨hlog, ?_, ?_⟩
  · calc 2 ^ 52 = 2 ^ fraction.log2 * 2 ^ (52 - fraction.log2) := by
          rw [← Nat.pow_add]
          congr 1
          omega
      _ ≤ fraction * 2 ^ (52 - fraction.log2) := Nat.mul_le_mul_right _ (Nat.log2_self_le hne)
  · calc fraction * 2 ^ (52 - fraction.log2)
        < 2 ^ (fraction.log2 + 1) * 2 ^ (52 - fraction.log2) :=
          Nat.mul_lt_mul_of_pos_right Nat.lt_log2_self (Nat.two_pow_pos _)
      _ = 2 ^ 53 := by
          rw [← Nat.pow_add]
          congr 1
          omega

theorem widenMagnitude_lt (hexponent : exponent < 2 ^ 8) (hfraction : fraction < 2 ^ 23) :
    widenMagnitude exponent fraction < 2 ^ 63 := by
  unfold widenMagnitude
  split
  · split <;> omega
  · split
    · split
      · decide
      · rename_i hne
        obtain ⟨hlog, -, hlt⟩ := subnormal_shifted hne hfraction
        omega
    · omega

/-- Every single but a not-a-number is that of its double. -/
theorem narrow_widenMagnitude (hexponent : exponent < 2 ^ 8) (hfraction : fraction < 2 ^ 23)
    (h : exponent = 255 → fraction = 0) :
    narrowMagnitude (widenMagnitude exponent fraction / 2 ^ 52)
      (widenMagnitude exponent fraction % 2 ^ 52) = exponent * 2 ^ 23 + fraction := by
  by_cases hinf : exponent = 255
  · rw [hinf, h hinf]
    decide
  · by_cases hzero : exponent = 0
    · by_cases hne : fraction = 0
      · rw [hzero, hne]
        decide
      · obtain ⟨hlog, hle, hlt⟩ := subnormal_shifted hne hfraction
        have hwiden : widenMagnitude exponent fraction =
            (fraction.log2 + 874) * 2 ^ 52 + (fraction * 2 ^ (52 - fraction.log2) - 2 ^ 52) := by
          rw [widenMagnitude, if_neg hinf, if_pos hzero, if_neg hne]
        have hdiv : widenMagnitude exponent fraction / 2 ^ 52 = fraction.log2 + 874 := by
          omega
        have hmod : 2 ^ 52 + widenMagnitude exponent fraction % 2 ^ 52 =
            fraction * 2 ^ (52 - fraction.log2) := by
          omega
        have hshift : 926 - (fraction.log2 + 874) = 52 - fraction.log2 := by
          omega
        rw [hdiv, narrowMagnitude, if_neg (by omega), if_neg (by omega), if_neg (by omega),
          if_neg (by omega), hmod, hshift, roundShift_mul]
        omega
    · have hwiden : widenMagnitude exponent fraction =
          (exponent + 896) * 2 ^ 52 + fraction * 2 ^ 29 := by
        rw [widenMagnitude, if_neg hinf, if_neg hzero]
      have hdiv : widenMagnitude exponent fraction / 2 ^ 52 = exponent + 896 := by
        omega
      have hmod : 2 ^ 52 + widenMagnitude exponent fraction % 2 ^ 52 =
          (2 ^ 23 + fraction) * 2 ^ 29 := by
        omega
      rw [hdiv, narrowMagnitude, if_neg (by omega), if_neg (by omega), if_pos (by omega), hmod,
        roundShift_mul]
      omega

/-- A quiet not-a-number with what is left of the payload. -/
theorem narrow_widenMagnitude_nan (hne : fraction ≠ 0) :
    narrowMagnitude (widenMagnitude 255 fraction / 2 ^ 52)
      (widenMagnitude 255 fraction % 2 ^ 52) = 255 * 2 ^ 23 + (2 ^ 22 + fraction % 2 ^ 22) ∧
    widenMagnitude 255 (2 ^ 22 + fraction % 2 ^ 22) = widenMagnitude 255 fraction := by
  have hwiden : ∀ f, f ≠ 0 → widenMagnitude 255 f =
      2047 * 2 ^ 52 + (2 ^ 51 + f % 2 ^ 22 * 2 ^ 29) := by
    intro f hf
    rw [widenMagnitude, if_pos rfl, if_neg hf]
  have hquiet : 2 ^ 22 + fraction % 2 ^ 22 ≠ 0 := by
    omega
  rw [hwiden _ hne, hwiden _ hquiet, narrowMagnitude, if_pos (by omega), if_neg (by omega)]
  omega

/-- The fields of a single. -/
theorem single_fields (sign : Nat) (hexponent : exponent < 2 ^ 8) (hfraction : fraction < 2 ^ 23) :
    (sign * 2 ^ 31 + (exponent * 2 ^ 23 + fraction)) / 2 ^ 31 = sign ∧
      (sign * 2 ^ 31 + (exponent * 2 ^ 23 + fraction)) / 2 ^ 23 % 2 ^ 8 = exponent ∧
      (sign * 2 ^ 31 + (exponent * 2 ^ 23 + fraction)) % 2 ^ 23 = fraction := by
  omega

/-- The fields of a double, by its magnitude. -/
theorem double_fields (sign : Nat) {magnitude : Nat} (h : magnitude < 2 ^ 63) :
    (sign * 2 ^ 63 + magnitude) / 2 ^ 63 = sign ∧
      (sign * 2 ^ 63 + magnitude) / 2 ^ 52 % 2 ^ 11 = magnitude / 2 ^ 52 ∧
      (sign * 2 ^ 63 + magnitude) % 2 ^ 52 = magnitude % 2 ^ 52 := by
  omega

theorem doubleOfSingle_singleOfDouble (bits : Nat) :
    doubleOfSingle (singleOfDouble (doubleOfSingle bits)) = doubleOfSingle bits := by
  have hexponent : bits / 2 ^ 23 % 2 ^ 8 < 2 ^ 8 := Nat.mod_lt _ (by decide)
  have hfraction : bits % 2 ^ 23 < 2 ^ 23 := Nat.mod_lt _ (by decide)
  simp only [doubleOfSingle, singleOfDouble]
  generalize bits / 2 ^ 31 = sign
  generalize bits / 2 ^ 23 % 2 ^ 8 = exponent at *
  generalize bits % 2 ^ 23 = fraction at *
  obtain ⟨hsign, hdiv, hmod⟩ := double_fields sign (widenMagnitude_lt hexponent hfraction)
  rw [hsign, hdiv, hmod]
  -- the magnitude is that of a single again, which is another one for a not-a-number only
  by_cases h : exponent = 255 → fraction = 0
  · obtain ⟨hsign, hdiv, hmod⟩ := single_fields sign hexponent hfraction
    rw [narrow_widenMagnitude hexponent hfraction h, hsign, hdiv, hmod]
  · rw [Classical.not_imp] at h
    obtain ⟨rfl, hne⟩ := h
    obtain ⟨hnarrow, hwiden⟩ := narrow_widenMagnitude_nan hne
    have hquiet : 2 ^ 22 + fraction % 2 ^ 22 < 2 ^ 23 := by
      omega
    obtain ⟨hsign, hdiv, hmod⟩ := single_fields sign hexponent hquiet
    rw [hnarrow, hsign, hdiv, hmod, hwiden]

theorem roundShift_le {n shift width : Nat} (h : n < 2 ^ (width + shift)) :
    roundShift n shift ≤ 2 ^ width := by
  have hdiv : n / 2 ^ shift < 2 ^ width := by
    apply Nat.div_lt_of_lt_mul
    rwa [Nat.mul_comm, ← Nat.pow_add]
  simp only [roundShift]
  split <;> omega

theorem singleOfDouble_lt {bits : Nat} (h : bits < 2 ^ 64) : singleOfDouble bits < 2 ^ 32 := by
  have hfraction : bits % 2 ^ 52 < 2 ^ 52 := Nat.mod_lt _ (by decide)
  have hmagnitude : narrowMagnitude (bits / 2 ^ 52 % 2 ^ 11) (bits % 2 ^ 52) < 2 ^ 31 := by
    generalize bits / 2 ^ 52 % 2 ^ 11 = exponent
    generalize bits % 2 ^ 52 = fraction at *
    unfold narrowMagnitude
    split
    · split <;> omega
    · split
      · omega
      · split
        · have hround : roundShift (2 ^ 52 + fraction) 29 ≤ 2 ^ 24 := by
            apply roundShift_le
            omega
          omega
        · split
          · omega
          · rename_i hsmall hzero
            have hround : roundShift (2 ^ 52 + fraction) (926 - exponent) ≤ 2 ^ 23 := by
              apply roundShift_le
              have hpow : 2 ^ 53 ≤ 2 ^ (23 + (926 - exponent)) :=
                Nat.pow_le_pow_right (by decide) (by omega)
              omega
            omega
  rw [singleOfDouble]
  omega

end Theory
