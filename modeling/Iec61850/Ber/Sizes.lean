import Iec61850.Ber.Writer

/-!
# How long an encoding gets

`Fits w n` says that a write succeeds and takes at most `n` octets. Every writer of this
development fails only on contents that are too long, so bounds compose upwards: a tag and a
length add eleven octets at most.
-/

namespace Iec61850.Ber

open Theory

/-- The write succeeds and takes at most `n` octets. -/
def Fits (w : Except Error Bytes) (n : Nat) : Prop := ∃ bs, w = .ok bs ∧ bs.length ≤ n

theorem Fits.mono {w : Except Error Bytes} {m n : Nat} (h : Fits w m) (hmn : m ≤ n) : Fits w n := by
  obtain ⟨bs, hw, hlen⟩ := h
  exact ⟨bs, hw, Nat.le_trans hlen hmn⟩

theorem fits_ok {bs : Bytes} {n : Nat} (h : bs.length ≤ n) : Fits (.ok bs) n := ⟨bs, rfl, h⟩

theorem groupOctets_length (gs : List Nat) : (groupOctets gs).length = gs.length := by
  induction gs with
  | nil => rfl
  | cons g gs ih =>
    cases gs with
    | nil => rfl
    | cons g' gs =>
      simp only [groupOctets, List.length_cons]
      rw [ih, List.length_cons]

theorem tagGroups_length_le (fuel v : Nat) : (tagGroups fuel v).length ≤ fuel := by
  induction fuel generalizing v with
  | zero => exact Nat.le_refl 0
  | succ fuel ih =>
    rw [tagGroups]
    split
    · simp
    · have := ih (v / 128)
      simp only [List.length_cons]
      omega

theorem writeTag_length_le (tag : Tag) : (writeTag tag).length ≤ 6 := by
  unfold writeTag
  split
  · have h1 := groupOctets_length (tagGroups 5 tag.number).reverse
    have h2 := tagGroups_length_le 5 tag.number
    rw [List.length_reverse] at h1
    simp only [List.length_cons]
    omega
  · simp

theorem lengthOctets_length_le (len : Nat) : (lengthOctets len).length ≤ 4 := by
  have h := (List.dropWhile_suffix (l := beBytes 4 len) (fun b => b == 0)).length_le
  rw [beBytes_length] at h
  exact h

theorem fits_encodeLength {len : Nat} (h : len ≤ u32Max) : Fits (encodeLength len) 5 := by
  unfold encodeLength
  split
  · exact fits_ok (by simp)
  · rw [if_neg (by omega)]
    have := lengthOctets_length_le len
    exact fits_ok (by simp only [List.length_cons]; omega)

theorem fits_primitive {tag : Tag} {contents : Bytes} {n : Nat} (hn : contents.length ≤ n)
    (h : n ≤ u32Max) : Fits (primitive tag contents) (n + 11) := by
  obtain ⟨len, hlen, hle⟩ := fits_encodeLength (Nat.le_trans hn h)
  have htag := writeTag_length_le tag
  refine ⟨writeTag tag ++ len ++ contents, by rw [primitive, hlen]; rfl, ?_⟩
  simp only [List.length_append]
  omega

theorem fits_constructed {tag : Tag} {children : Except Error Bytes} {n : Nat}
    (hc : Fits children n) (h : n ≤ u32Max) : Fits (constructed tag children) (n + 11) := by
  obtain ⟨contents, rfl, hn⟩ := hc
  exact fits_primitive hn h

theorem fits_concatM_nil : Fits (concatM []) 0 := fits_ok (Nat.le_refl 0)

theorem fits_concatM_cons {w : Except Error Bytes} {ws : List (Except Error Bytes)} {m n : Nat}
    (hw : Fits w m) (hws : Fits (concatM ws) n) : Fits (concatM (w :: ws)) (m + n) := by
  obtain ⟨here, rfl, hm⟩ := hw
  obtain ⟨rest, hrest, hn⟩ := hws
  refine ⟨here ++ rest, by rw [concatM, hrest]; rfl, ?_⟩
  rw [List.length_append]
  omega

theorem minimalSigned_length_le (bs : Bytes) : (minimalSigned bs).length ≤ bs.length := by
  fun_induction minimalSigned bs with
  | case1 a b rest h ih =>
    simp only [List.length_cons] at ih ⊢
    omega
  | case2 => exact Nat.le_refl _
  | case3 => exact Nat.le_refl _

theorem fits_integer (tag : Tag) (value : Int) : Fits (integer tag value) 19 := by
  have h := minimalSigned_length_le (i64Octets value)
  have hlen : (i64Octets value).length = 8 := beBytes_length 8 _
  exact fits_primitive (n := 8) (by omega) (by decide)

end Iec61850.Ber
