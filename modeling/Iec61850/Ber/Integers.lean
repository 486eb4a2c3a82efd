import Iec61850.Ber.Fixed
import Mathlib.Tactic.Linarith
import Mathlib.Tactic.Positivity

/-!
# The shortest form of an integer

`Encoder::integer`, `Encoder::unsigned` and `Encoder::unsigned_fixed_min` of `ber/writer.rs` against
the strict readers of `ber/reader.rs`. An integer is written without an octet that only repeats its
sign, so that no string of octets that is read as the same integer is shorter; a field of a fixed
width is as wide as it was asked to be whenever its value fits.
-/

namespace Iec61850.Ber

open Theory

/-! ### Two's complement -/

theorem signedValue_range (b : UInt8) (bs : Bytes) :
    -(128 * 256 ^ bs.length : Int) ≤ signedValue (b :: bs) ∧
      signedValue (b :: bs) < 128 * 256 ^ bs.length := by
  have hlt := beNat_lt bs
  have hb : b.toNat < 256 := b.toNat_lt
  have hpow : (0 : Int) < 256 ^ bs.length := by positivity
  have hrest : (beNat bs : Int) < 256 ^ bs.length := by exact_mod_cast hlt
  rw [signedValue_cons, beNat_cons, pow_succ]
  push_cast
  generalize (256 : Int) ^ bs.length = p at hpow hrest
  split
  · constructor <;> nlinarith
  · constructor <;> nlinarith

/-- The first octet only repeats the sign, which the second has already. -/
def Redundant (a b : UInt8) : Prop := (a = 0 ∧ b.toNat < 128) ∨ (a = 255 ∧ b.toNat ≥ 128)

variable {b : UInt8} {value minWidth : Nat} {tag : Tag}

/-- Without a redundant octet the integer lies outside the range of the octets after the first. -/
theorem signedValue_of_not_redundant {a : UInt8} (h : ¬ Redundant a b) (bs : Bytes) :
    signedValue (a :: b :: bs) < -(128 * 256 ^ bs.length : Int) ∨
      128 * 256 ^ bs.length ≤ signedValue (a :: b :: bs) := by
  obtain ⟨hzero, hones⟩ := not_or.mp h
  have ha : a.toNat < 256 := a.toNat_lt
  have hb : b.toNat < 256 := b.toNat_lt
  have hpow : (0 : Int) < 256 ^ bs.length := by positivity
  have hrest : (beNat bs : Int) < 256 ^ bs.length := by exact_mod_cast beNat_lt bs
  have hnonneg : (0 : Int) ≤ beNat bs := Int.natCast_nonneg _
  have hlow : a.toNat = 0 → 128 ≤ b.toNat := by
    intro h0
    by_contra hlt
    exact hzero ⟨UInt8.toNat_inj.mp h0, by omega⟩
  have hhigh : a.toNat = 255 → b.toNat < 128 := by
    intro h255
    by_contra hge
    exact hones ⟨UInt8.toNat_inj.mp h255, by omega⟩
  rw [signedValue_cons, beNat_cons, beNat_cons, List.length_cons]
  push_cast
  simp only [pow_succ]
  generalize (256 : Int) ^ bs.length = p at hpow hrest
  split
  · left
    by_cases hall : a.toNat = 255
    · have := hhigh hall
      rw [hall]
      push_cast
      nlinarith
    · have hlt : a.toNat ≤ 254 := by omega
      nlinarith
  · right
    by_cases hnone : a.toNat = 0
    · have := hlow hnone
      rw [hnone]
      push_cast
      nlinarith
    · have hpos : 1 ≤ a.toNat := by omega
      nlinarith

theorem minimalSigned_irredundant (bs : Bytes) {a : UInt8} {rest : Bytes}
    (h : minimalSigned bs = a :: b :: rest) : ¬ Redundant a b := by
  fun_induction minimalSigned bs with
  | case1 x y tail hcond ih => exact ih h
  | case2 x y tail hcond =>
    obtain ⟨rfl, rfl, rfl⟩ : x = a ∧ y = b ∧ tail = rest := by simpa using h
    exact hcond
  | case3 bs hshort => exact absurd h (hshort a b rest)

theorem minimalSigned_shortest {bs cs : Bytes} (hne : cs ≠ [])
    (h : signedValue cs = signedValue bs) : (minimalSigned bs).length ≤ cs.length := by
  obtain ⟨c, rest, rfl⟩ := List.exists_cons_of_ne_nil hne
  rcases hmin : minimalSigned bs with _ | ⟨a, _ | ⟨b, tail⟩⟩
  · simp
  · simp
  · have hout := signedValue_of_not_redundant (minimalSigned_irredundant bs hmin) tail
    have hrange := signedValue_range c rest
    rw [← hmin, signedValue_minimalSigned, ← h] at hout
    by_contra hlong
    simp only [List.length_cons, not_le] at hlong
    have hpow : (256 : Int) ^ rest.length ≤ 256 ^ tail.length :=
      pow_le_pow_right₀ (by norm_num) (by omega)
    rcases hout with hout | hout <;> linarith

/-! ### Unsigned numbers -/

theorem unsignedU64_ok {t : Tlv} {v : Nat} : t.unsignedU64 = .ok v ↔
      ∃ b bs, t.value = b :: bs ∧ b.toNat < 128 ∧ (bs.length < 8 ∨ bs.length = 8 ∧ b = 0) ∧
        beNat t.value = v := by
  unfold Tlv.unsignedU64
  rcases hvalue : t.value with _ | ⟨b, bs⟩
  · simp [Tlv.badValue]
  · simp only [List.length_cons]
    split
    · rename_i hbad
      constructor
      · intro h
        cases h
      · rintro ⟨c, cs, hcs, htop, hlen, -⟩
        obtain ⟨rfl, rfl⟩ : b = c ∧ bs = cs := by simpa using hcs
        rcases hbad with hlong | ⟨hnine, hne⟩ | hset
        · omega
        · rcases hlen with hlen | ⟨-, hzero⟩
          · omega
          · exact absurd hzero hne
        · omega
    · rename_i hgood
      simp only [not_or, not_and, Classical.not_not] at hgood
      obtain ⟨hlong, hnine, hset⟩ := hgood
      constructor
      · intro h
        refine ⟨b, bs, rfl, by omega, ?_, by simpa using h⟩
        by_cases hlen : bs.length = 8
        · exact Or.inr ⟨hlen, hnine (by omega)⟩
        · exact Or.inl (by omega)
      · rintro ⟨-, -, -, -, -, h⟩
        rw [h]

theorem minimalUnsigned_irredundant (bs : Bytes) {rest : Bytes}
    (h : minimalUnsigned bs = 0 :: b :: rest) : 128 ≤ b.toNat := by
  fun_induction minimalUnsigned bs with
  | case1 x y tail hcond ih => exact ih h
  | case2 x y tail hcond =>
    obtain ⟨rfl, rfl, rfl⟩ : x = 0 ∧ y = b ∧ tail = rest := by simpa using h
    by_contra hlt
    exact hcond ⟨rfl, by omega⟩
  | case3 bs hshort => exact absurd h (hshort 0 b rest)

/-- The contents begin with a clear top bit, and with a zero only when they need one. -/
theorem unsignedContents_shape (value : Nat) :
    ∃ b bs, unsignedContents value = b :: bs ∧ b.toNat < 128 ∧
      (bs.length < 8 ∨ bs.length = 8 ∧ b = 0) ∧ (b = 0 → ∀ c cs, bs = c :: cs → 128 ≤ c.toNat) := by
  have hlen := minimalUnsigned_length_le (beBytes 8 value)
  have hne : minimalUnsigned (beBytes 8 value) ≠ [] := minimalUnsigned_ne_nil (by simp [beBytes])
  rw [beBytes_length] at hlen
  unfold unsignedContents
  rcases hmin : minimalUnsigned (beBytes 8 value) with _ | ⟨b, bs⟩
  · exact absurd hmin hne
  · rw [hmin, List.length_cons] at hlen
    rw [List.headD_cons]
    split
    · rename_i hset
      refine ⟨0, b :: bs, rfl, by decide, ?_, ?_⟩
      · rw [List.length_cons]
        by_cases hfull : bs.length = 7
        · exact Or.inr ⟨by omega, rfl⟩
        · exact Or.inl (by omega)
      · rintro - c cs hcs
        obtain ⟨rfl, rfl⟩ : b = c ∧ bs = cs := by simpa using hcs
        exact hset
    · rename_i hclear
      refine ⟨b, bs, rfl, by omega, Or.inl (by omega), ?_⟩
      rintro rfl c cs rfl
      exact minimalUnsigned_irredundant _ hmin

theorem beNat_unsignedContents (h : value < 2 ^ 64) : beNat (unsignedContents value) = value := by
  have hvalue : beNat (minimalUnsigned (beBytes 8 value)) = value := by
    rw [beNat_minimalUnsigned, beNat_beBytes_of_lt h]
  unfold unsignedContents
  split
  · rw [beNat_zero_cons, hvalue]
  · exact hvalue

theorem unsignedU64_contents (h : value < 2 ^ 64) (offset : Nat) (tag : Tag) :
    (tlvAt offset tag (unsignedContents value)).unsignedU64 = .ok value := by
  obtain ⟨b, bs, hbs, htop, hlen, -⟩ := unsignedContents_shape value
  exact unsignedU64_ok.mpr ⟨b, bs, hbs, htop, hlen, beNat_unsignedContents h⟩

theorem unsignedContents_shortest (h : value < 2 ^ 64) {t : Tlv} (ht : t.unsignedU64 = .ok value) :
    (unsignedContents value).length ≤ t.value.length := by
  obtain ⟨c, cs, hcs, hclear, -, hval⟩ := unsignedU64_ok.mp ht
  obtain ⟨b, bs, hbs, -, -, hneed⟩ := unsignedContents_shape value
  have hvalue := beNat_unsignedContents h
  rw [hcs, beNat_cons] at hval
  rw [hbs] at hvalue ⊢
  rw [hcs]
  simp only [List.length_cons, Nat.add_le_add_iff_right]
  rcases bs with _ | ⟨d, ds⟩
  · simp
  · rw [List.length_cons]
    by_contra hlong
    have hrest := beNat_lt cs
    have hpow : 256 ^ cs.length ≤ 256 ^ ds.length := Nat.pow_le_pow_right (by decide) (by omega)
    -- the first octets alone already exceed what fewer octets can hold
    have hbig : 128 * 256 ^ ds.length ≤ value := by
      rw [beNat_cons, beNat_cons, List.length_cons, pow_succ] at hvalue
      by_cases hzero : b = 0
      · have hd := hneed hzero d ds rfl
        nlinarith [Nat.mul_le_mul_right (256 ^ ds.length) hd]
      · have hpos : 1 ≤ b.toNat := by
          by_contra hlt
          exact hzero (UInt8.toNat_inj.mp (by simpa using Nat.lt_one_iff.mp (Nat.not_le.mp hlt)))
        nlinarith [Nat.mul_le_mul_right (256 ^ ds.length) hpos]
    nlinarith [Nat.mul_le_mul_right (256 ^ cs.length) (Nat.le_of_lt_succ hclear)]

/-! ### Fields of a minimum width -/

theorem widthFrom_least (value fuel w : Nat) :
    w < widthFrom value fuel w → 256 ^ (widthFrom value fuel w - 1) ≤ value := by
  induction fuel generalizing w with
  | zero => exact fun h => absurd h (Nat.lt_irrefl _)
  | succ fuel ih =>
    rw [widthFrom]
    split
    · rename_i hmore
      intro h
      by_cases hlast : w + 1 < widthFrom value fuel (w + 1)
      · exact ih (w + 1) hlast
      · have hw : widthFrom value fuel (w + 1) = w + 1 := by omega
        rw [hw, Nat.add_sub_cancel]
        by_contra hlt
        exact hmore.2 (Nat.div_eq_of_lt (Nat.not_le.mp hlt))
    · exact fun h => absurd h (Nat.lt_irrefl _)

theorem two_pow_top {w : Nat} (h : 0 < w) : 2 ^ (w * 8 - 1) = 128 * 256 ^ (w - 1) := by
  obtain ⟨n, rfl⟩ : ∃ n, w = n + 1 := ⟨w - 1, by omega⟩
  have hexp : (n + 1) * 8 - 1 = 7 + 8 * n := by omega
  rw [hexp, pow_add, pow_mul, Nat.add_sub_cancel]
  norm_num

/-- `unsigned_width` is the least width that is at least the one asked for and leaves the top bit
clear. -/
theorem unsignedWidth_le_iff {n : Nat} (hvalue : value < 2 ^ 63) (hpos : 0 < n) (hn : n ≤ 8) :
    unsignedWidth value minWidth ≤ n ↔ minWidth ≤ n ∧ value < 128 * 256 ^ (n - 1) := by
  obtain ⟨hone, hle, hfits⟩ := widthFrom_bounds value 7 1 rfl
  have hleast := widthFrom_least value 7 1
  unfold unsignedWidth
  simp only
  generalize widthFrom value 7 1 = w at hone hle hfits hleast
  -- the octets after the loop, and one more for a set top bit
  generalize hw : (if w < 8 ∧ value / 2 ^ (w * 8 - 1) % 2 = 1 then w + 1 else w) = w'
  have hiff : w' ≤ n ↔ value < 128 * 256 ^ (n - 1) := by
    rw [two_pow_top hone] at hw
    have hgrow : ∀ v, v ≤ n → 128 * 256 ^ (v - 1) ≤ 128 * 256 ^ (n - 1) := fun v hv =>
      Nat.mul_le_mul_left _ (Nat.pow_le_pow_right (by decide) (by omega))
    split at hw
    · rename_i hset
      subst hw
      have hlt : value < 256 ^ w := lt_of_div_eq_zero (by positivity) (hfits hset.1)
      have hge : 128 * 256 ^ (w - 1) ≤ value := by
        by_contra hsmall
        rw [Nat.div_eq_of_lt (Nat.not_le.mp hsmall)] at hset
        exact absurd hset.2 (by decide)
      constructor
      · intro h
        have := hgrow (w + 1) h
        rw [Nat.add_sub_cancel] at this
        omega
      · intro h
        by_contra hshort
        have hpow : 256 ^ (n - 1) ≤ 256 ^ (w - 1) := Nat.pow_le_pow_right (by decide) (by omega)
        omega
    · rename_i hclear
      subst hw
      constructor
      · intro h
        have hbelow : value < 128 * 256 ^ (w - 1) := by
          by_cases hfull : w < 8
          · have hlt : value < 256 ^ w := lt_of_div_eq_zero (by positivity) (hfits hfull)
            have hsplit : 256 ^ w = 2 * (128 * 256 ^ (w - 1)) := by
              obtain ⟨k, rfl⟩ : ∃ k, w = k + 1 := ⟨w - 1, by omega⟩
              rw [pow_succ, Nat.add_sub_cancel]
              ring
            by_contra hge
            have hquot : value / (128 * 256 ^ (w - 1)) = 1 :=
              Nat.div_eq_of_lt_le (by omega) (by omega)
            exact hclear ⟨hfull, by rw [hquot]⟩
          · have height : w = 8 := by omega
            rw [height]
            exact hvalue
        exact Nat.lt_of_lt_of_le hbelow (hgrow w h)
      · intro h
        by_contra hshort
        have hbig := hleast (by omega)
        have hpow : 256 ^ (n - 1) * 256 ≤ 256 ^ (w - 1) := by
          rw [← pow_succ]
          exact Nat.pow_le_pow_right (by decide) (by omega)
        omega
  rw [← hiff]
  split <;> omega

/-- A number in a field whose top bit is clear, as both strict readers take it. -/
theorem readers_fixed {width : Nat} (hpos : 0 < width) (hle : width ≤ 8)
    (hlt : value < 128 * 256 ^ (width - 1)) (offset : Nat) (tag : Tag) :
    (tlvAt offset tag (beBytes width value)).unsignedU64 = .ok value ∧
      (tlvAt offset tag (beBytes width value)).integerI64 = .ok (value : Int) := by
  obtain ⟨n, rfl⟩ : ∃ n, width = n + 1 := ⟨width - 1, by omega⟩
  rw [Nat.add_sub_cancel] at hlt
  have hvalue : beNat (beBytes (n + 1) value) = value := by
    apply beNat_beBytes_of_lt
    rw [pow_succ]
    have : 0 < 256 ^ n := by positivity
    omega
  have htop : (UInt8.ofNat (value / 256 ^ n)).toNat < 128 := by
    have hquot : value / 256 ^ n < 128 := (Nat.div_lt_iff_lt_mul (by positivity)).mpr hlt
    rw [toNat_ofNat8]
    exact Nat.lt_of_le_of_lt (Nat.mod_le _ _) hquot
  constructor
  · refine unsignedU64_ok.mpr ⟨_, _, rfl, htop, Or.inl ?_, hvalue⟩
    rw [beBytes_length]
    omega
  · rw [integerI64_eq (by simp [beBytes]) (by simpa using hle), tlvAt_value, beBytes,
      signedValue_cons, if_neg (by omega), ← beBytes, hvalue]
    simp

/-! ### Writers and readers -/

/-- What was written is one element, which the cursor finds ahead of any other octets and `read`
takes as `v`. -/
structure ReadsBack {α : Type} (read : Tlv → Except Error α) (w : Except Error Bytes) (tag : Tag)
    (contents : Bytes) (v : α) : Prop where
  written : w = .ok (element tag contents)
  found : ∀ (offset : Nat) (rest : Bytes), Cursor.nextInner ⟨element tag contents ++ rest, offset⟩ =
    .ok (tlvAt offset tag contents, ⟨rest, offset + (element tag contents).length⟩)
  value : ∀ offset : Nat, read (tlvAt offset tag contents) = .ok v

/-- Nothing that `read` takes as `v` is shorter. -/
def Minimal {α : Type} (read : Tlv → Except Error α) (contents : Bytes) (v : α) : Prop :=
  ∀ t : Tlv, read t = .ok v → contents.length ≤ t.value.length

theorem readsBack_primitive {α : Type} {read : Tlv → Except Error α} {contents : Bytes} {v : α}
    (htag : tag.number ≤ u32Max) (hlen : contents.length ≤ 9)
    (h : ∀ offset : Nat, read (tlvAt offset tag contents) = .ok v) :
    ReadsBack read (primitive tag contents) tag contents v := by
  have hfit : contents.length ≤ u32Max := Nat.le_trans hlen (by decide)
  obtain ⟨bs, hbs, -⟩ := @fits_primitive tag contents _ (Nat.le_refl _) hfit
  refine ⟨?_, nextInner_element ⟨htag, hfit⟩, h⟩
  rw [hbs, (primitive_ok hbs).2]

theorem integer_minimal (htag : tag.number ≤ u32Max) {v : Int} (hlow : -2 ^ 63 ≤ v)
    (hhigh : v < 2 ^ 63) :
    ReadsBack Tlv.integerI64 (integer tag v) tag (minimalSigned (i64Octets v)) v ∧
      Minimal Tlv.integerI64 (minimalSigned (i64Octets v)) v := by
  have hlen := minimalSigned_length_le (i64Octets v)
  rw [i64Octets, beBytes_length] at hlen
  refine ⟨readsBack_primitive htag (Nat.le_succ_of_le hlen) fun offset =>
    integerI64_minimalSigned hlow hhigh offset tag, ?_⟩
  intro t ht
  by_cases hbad : t.value.isEmpty ∨ t.value.length > 8
  · rw [Tlv.integerI64, if_pos hbad] at ht
    cases ht
  · obtain ⟨hsome, hfew⟩ := not_or.mp hbad
    have hne : t.value ≠ [] := fun hnil => hsome (by rw [hnil]; rfl)
    rw [integerI64_eq hne (by omega)] at ht
    apply minimalSigned_shortest hne
    rw [signedValue_i64Octets hlow hhigh]
    exact Except.ok.inj ht

theorem unsigned_minimal (htag : tag.number ≤ u32Max) {v : Nat} (hv : v < 2 ^ 64) :
    ReadsBack Tlv.unsignedU64 (unsigned tag v) tag (unsignedContents v) v ∧
      Minimal Tlv.unsignedU64 (unsignedContents v) v :=
  ⟨readsBack_primitive htag (unsignedContents_length_le v) fun offset =>
    unsignedU64_contents hv offset tag, fun _ ht => unsignedContents_shortest hv ht⟩

/-- A field of a minimum width is at least that wide, exactly that wide when its value fits, and
read back by both strict readers. -/
theorem fixedMin_reads (htag : tag.number ≤ u32Max) (hvalue : value < 2 ^ 63)
    (hmin : minWidth ≤ 8) :
    ∃ contents, ReadsBack Tlv.unsignedU64 (unsignedFixedMin tag value minWidth) tag contents value ∧
      ReadsBack Tlv.integerI64 (unsignedFixedMin tag value minWidth) tag contents value ∧
      minWidth ≤ contents.length ∧
      (0 < minWidth → value < 128 * 256 ^ (minWidth - 1) → contents.length = minWidth) := by
  obtain ⟨hpos, hle, hge, hlt⟩ :=
    unsignedWidth_spec (Nat.lt_of_lt_of_le hvalue (by decide : 2 ^ 63 ≤ 2 ^ 64)) hmin
  have hclear := ((unsignedWidth_le_iff hvalue hpos hle).mp (Nat.le_refl _)).2
  have hreads := readers_fixed hpos hle hclear
  have hlen : (beBytes (unsignedWidth value minWidth) value).length ≤ 9 := by
    rw [beBytes_length]
    omega
  refine ⟨beBytes (unsignedWidth value minWidth) value, ?_, ?_, ?_, ?_⟩
  · rw [unsignedFixedMin, unsignedFixed_eq hpos hle hlt]
    exact readsBack_primitive htag hlen fun offset => (hreads offset tag).1
  · rw [unsignedFixedMin, unsignedFixed_eq hpos hle hlt]
    exact readsBack_primitive htag hlen fun offset => (hreads offset tag).2
  · rw [beBytes_length]
    exact hge
  · intro hasked hfits
    have hwide := (unsignedWidth_le_iff hvalue hasked hmin).mpr ⟨Nat.le_refl _, hfits⟩
    rw [beBytes_length]
    omega

theorem fixedMin_refused (tag : Tag) (value : Nat) (h : 8 < minWidth) :
    unsignedFixedMin tag value minWidth = .error (.encode "value does not fit the fixed width") := by
  have hwide : minWidth ≤ unsignedWidth value minWidth := by
    have hlast : ∀ w, minWidth ≤ if w < minWidth then minWidth else w := by
      intro w
      split <;> omega
    exact hlast _
  rw [unsignedFixedMin, unsignedFixed, if_pos (Or.inr (Or.inl (by omega)))]

/-- Integers are written in their shortest form and read back; a field of a minimum width of up to
eight octets is that wide for every value that fits, and a wider one is refused. -/
theorem integers_written {tag : Tag} (htag : tag.number ≤ u32Max) :
    (∀ v : Int, -2 ^ 63 ≤ v → v < 2 ^ 63 → ∃ contents,
      ReadsBack Tlv.integerI64 (integer tag v) tag contents v ∧ Minimal Tlv.integerI64 contents v) ∧
    (∀ v : Nat, v < 2 ^ 64 → ∃ contents, ReadsBack Tlv.unsignedU64 (unsigned tag v) tag contents v ∧
        Minimal Tlv.unsignedU64 contents v) ∧
    (∀ value minWidth : Nat, value < 2 ^ 63 → minWidth ≤ 8 → ∃ contents,
      ReadsBack Tlv.unsignedU64 (unsignedFixedMin tag value minWidth) tag contents value ∧
      ReadsBack Tlv.integerI64 (unsignedFixedMin tag value minWidth) tag contents value ∧
      minWidth ≤ contents.length ∧
      (0 < minWidth → value < 128 * 256 ^ (minWidth - 1) → contents.length = minWidth)) ∧
    (∀ value minWidth : Nat, 8 < minWidth →
      unsignedFixedMin tag value minWidth = .error (.encode "value does not fit the fixed width")) := by
  refine ⟨?_, ?_, ?_, ?_⟩
  · intro v hlow hhigh
    exact ⟨_, integer_minimal htag hlow hhigh⟩
  · intro v hv
    exact ⟨_, unsigned_minimal htag hv⟩
  · intro value minWidth hvalue hmin
    exact fixedMin_reads htag hvalue hmin
  · intro value minWidth h
    exact fixedMin_refused tag value h

/-- `0` in at least nine octets is refused, though it is below `2 ^ 63`. -/
theorem nine_octets_refused : ¬ ∀ value minWidth : Nat, value < 2 ^ 63 → ∃ contents,
      unsignedFixedMin (Tag.context 0) value minWidth = .ok (element (Tag.context 0) contents) ∧
        minWidth ≤ contents.length := by
  intro h
  obtain ⟨contents, hok, -⟩ := h 0 9 (by decide)
  rw [fixedMin_refused _ _ (by decide)] at hok
  cases hok

/-- `smpSynch` 200 is read back from a field asked to be one octet wide. -/
theorem integers_written_smpSynch :
    (Tag.context 5).number ≤ u32Max ∧ (200 : Nat) < 2 ^ 63 ∧ ∃ contents,
      ReadsBack Tlv.unsignedU64 (unsignedFixedMin (Tag.context 5) 200 1) (Tag.context 5) contents
        200 :=
  ⟨by decide, by decide, by
    obtain ⟨contents, hreads, -⟩ :=
      (@integers_written (Tag.context 5) (by decide)).2.2.1 200 1 (by decide) (by decide)
    exact ⟨contents, hreads⟩⟩

end Iec61850.Ber
