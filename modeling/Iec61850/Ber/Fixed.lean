import Iec61850.Ber.Fields

/-!
# Fields of a fixed width

`unsigned_fixed` of `ber/writer.rs`: a number written into a given count of octets, so that it can
be overwritten later without moving what follows; and what overwriting the contents of one element
does to the elements around it.
-/

namespace Iec61850.Ber

open Theory

/-! ### Writing -/

/-- The loop of `unsigned_width`. -/
def widthFrom (value : Nat) : Nat → Nat → Nat
  | 0, w => w
  | fuel + 1, w => if w < 8 ∧ value / 256 ^ w ≠ 0 then widthFrom value fuel (w + 1) else w

/-- `unsigned_width`: the octets of a non-negative INTEGER, and no fewer than asked for. -/
def unsignedWidth (value minWidth : Nat) : Nat :=
  let w := widthFrom value 7 1
  -- a set top bit would make the number negative
  let w := if w < 8 ∧ value / 2 ^ (w * 8 - 1) % 2 = 1 then w + 1 else w
  if w < minWidth then minWidth else w

/-- `Encoder::unsigned_fixed`. -/
def unsignedFixed (tag : Tag) (value width : Nat) : Except Error Bytes :=
  if width = 0 ∨ width > 8 ∨ (width < 8 ∧ value / 256 ^ width ≠ 0) then
    .error (.encode "value does not fit the fixed width")
  else primitive tag (beBytes width value)

/-- `Encoder::unsigned_fixed_min`. -/
def unsignedFixedMin (tag : Tag) (value minWidth : Nat) : Except Error Bytes :=
  unsignedFixed tag value (unsignedWidth value minWidth)

theorem widthFrom_bounds (value fuel w : Nat) (h : w + fuel = 8) :
    w ≤ widthFrom value fuel w ∧ widthFrom value fuel w ≤ 8 ∧
      (widthFrom value fuel w < 8 → value / 256 ^ widthFrom value fuel w = 0) := by
  induction fuel generalizing w with
  | zero =>
    have hw : w = 8 := by omega
    subst hw
    exact ⟨Nat.le_refl _, Nat.le_refl _, fun hlt => absurd hlt (Nat.lt_irrefl _)⟩
  | succ fuel ih =>
    rw [widthFrom]
    split
    · obtain ⟨hle, htop, hfits⟩ := ih (w + 1) (by omega)
      exact ⟨by omega, htop, hfits⟩
    · rename_i hstop
      refine ⟨Nat.le_refl _, by omega, ?_⟩
      intro hlt
      by_contra hne
      exact hstop ⟨hlt, hne⟩

theorem lt_of_div_eq_zero {value n : Nat} (hn : 0 < n) (h : value / n = 0) : value < n := by
  rcases Nat.div_eq_zero_iff.mp h with h | h
  · omega
  · exact h

/-- The width is one the encoder accepts. -/
theorem unsignedWidth_spec {value minWidth : Nat} (hvalue : value < 2 ^ 64) (hmin : minWidth ≤ 8) :
    0 < unsignedWidth value minWidth ∧ unsignedWidth value minWidth ≤ 8 ∧
      minWidth ≤ unsignedWidth value minWidth ∧ value < 256 ^ unsignedWidth value minWidth := by
  obtain ⟨hone, hle, hfits⟩ := widthFrom_bounds value 7 1 rfl
  have hlt : value < 256 ^ widthFrom value 7 1 := by
    by_cases htop : widthFrom value 7 1 < 8
    · exact lt_of_div_eq_zero (Nat.pow_pos (by decide)) (hfits htop)
    · have height : widthFrom value 7 1 = 8 := by omega
      rw [height]
      exact hvalue
  generalize hw : (if widthFrom value 7 1 < 8 ∧ value / 2 ^ (widthFrom value 7 1 * 8 - 1) % 2 = 1
    then widthFrom value 7 1 + 1 else widthFrom value 7 1) = w
  have hwidth : unsignedWidth value minWidth = if w < minWidth then minWidth else w := by
    rw [← hw]
    rfl
  have hbounds : widthFrom value 7 1 ≤ w ∧ w ≤ 8 := by
    rw [← hw]
    split <;> omega
  have hgrow : ∀ v, w ≤ v → value < 256 ^ v := fun v hv =>
    Nat.lt_of_lt_of_le hlt (Nat.pow_le_pow_right (by decide) (by omega))
  rw [hwidth]
  split
  · exact ⟨by omega, hmin, Nat.le_refl _, hgrow _ (by omega)⟩
  · exact ⟨by omega, hbounds.2, by omega, hgrow _ (Nat.le_refl _)⟩

theorem unsignedFixed_eq {tag : Tag} {value width : Nat} (hpos : 0 < width) (hle : width ≤ 8)
    (hlt : value < 256 ^ width) : unsignedFixed tag value width = primitive tag (beBytes width value) := by
  have hzero : value / 256 ^ width = 0 := Nat.div_eq_of_lt hlt
  rw [unsignedFixed, if_neg]
  rintro (h | h | ⟨-, h⟩)
  · omega
  · omega
  · exact h hzero

/-- A field of any width up to eight octets reads as the number written into it. -/
theorem unsignedLenientU32_fixed {value width : Nat} (hpos : 0 < width) (hle : width ≤ 8)
    (hlt : value < 256 ^ width) (hvalue : value ≤ u32Max) (offset : Nat) (tag : Tag) :
    (tlvAt offset tag (beBytes width value)).unsignedLenientU32 = .ok value := by
  have hne : (tlvAt offset tag (beBytes width value)).value ≠ [] := by
    rw [tlvAt_value]
    intro hnil
    have hlen := congrArg List.length hnil
    rw [beBytes_length] at hlen
    exact absurd hlen (by simpa using Nat.pos_iff_ne_zero.mp hpos)
  have hle' : (tlvAt offset tag (beBytes width value)).value.length ≤ 8 := by
    rw [tlvAt_value, beBytes_length]
    exact hle
  rw [Tlv.unsignedLenientU32, unsignedLenientU64_eq hne hle', tlvAt_value,
    beNat_beBytes_of_lt hlt]
  exact if_pos hvalue

/-! ### Overwriting -/

/-- The contents of an element among others may be overwritten by others of their length. -/
theorem splice_elements {tag : Tag} {value new : Bytes} (es fs : List (Tag × Bytes))
    (pre post : Bytes) {start : Nat} (hstart : pre.length = start)
    (hlen : new.length = value.length) :
    splice (pre ++ (elements (es ++ (tag, value) :: fs) ++ post))
        (tlvAt (start + (elements es).length) tag value).valueOffset new =
      pre ++ (elements (es ++ (tag, new) :: fs) ++ post) := by
  have hparts : ∀ v : Bytes, pre ++ (elements (es ++ (tag, v) :: fs) ++ post) =
      (pre ++ elements es ++ writeTag tag ++ lengthField v.length) ++
        (v ++ (elements fs ++ post)) := by
    intro v
    rw [elements_append, elements_cons, element]
    simp only [List.append_assoc]
  rw [hparts value, hparts new, hlen]
  apply splice_middle _ hlen
  simp only [List.length_append, tlvAt, hstart]

end Iec61850.Ber
