import Mathlib.Data.List.Perm.Subperm
import Mathlib.Data.List.Nodup
import Mathlib.Order.Interval.Finset.Nat

/-!
# A counter that wraps around and skips what is in use

The values a counter runs through, from `1` to `M` and round again, are pairwise different for
`M` steps. So a search that makes one attempt more than there are values in use finds a free
one, whatever values those are.
-/

namespace Theory

/-- The next value of a counter over `1 .. M`. -/
def wrapNext (M n : Int) : Int := if n ≥ M then 1 else n + 1

/-- The value after `k` steps from `n`. -/
def wrapAt (M n : Int) (k : Nat) : Int := (n - 1 + k) % M + 1

theorem wrapAt_zero {M n : Int} (h : 1 ≤ n ∧ n ≤ M) : wrapAt M n 0 = n := by
  have hmod : (n - 1) % M = n - 1 := Int.emod_eq_of_lt (by omega) (by omega)
  simp only [wrapAt, Int.natCast_zero, Int.add_zero, hmod]
  omega

theorem wrapNext_range {M n : Int} (hM : 1 ≤ M) (h : 1 ≤ n ∧ n ≤ M) :
    1 ≤ wrapNext M n ∧ wrapNext M n ≤ M := by
  unfold wrapNext
  split <;> omega

theorem wrapNext_eq {M n : Int} (h : 1 ≤ n ∧ n ≤ M) : wrapNext M n = n % M + 1 := by
  unfold wrapNext
  split
  · have hn : n = M := by omega
    rw [hn, Int.emod_self]
    omega
  · rw [Int.emod_eq_of_lt (by omega) (by omega)]

theorem wrapAt_wrapNext {M n : Int} (h : 1 ≤ n ∧ n ≤ M) (k : Nat) :
    wrapAt M (wrapNext M n) k = wrapAt M n (k + 1) := by
  rw [wrapNext_eq h]
  unfold wrapAt
  have hstart : n % M + 1 - 1 + (k : Int) = n % M + k := by omega
  have hnext : n - 1 + ((k + 1 : Nat) : Int) = n + k := by
    rw [Int.natCast_add]
    omega
  rw [hstart, hnext, Int.emod_add_emod]

theorem wrapAt_injective {M n : Int} {j k : Nat} (hjM : (j : Int) < M) (hkM : (k : Int) < M)
    (h : wrapAt M n j = wrapAt M n k) : j = k := by
  unfold wrapAt at h
  have hmod : (n - 1 + j) % M = (n - 1 + k) % M := by omega
  have hdvd : M ∣ (n - 1 + j) - (n - 1 + k) := 
    Int.dvd_of_emod_eq_zero (Int.emod_eq_emod_iff_emod_sub_eq_zero.mp hmod)
  obtain ⟨c, hc⟩ := hdvd
  have hc0 : c = 0 := by
    by_contra hne
    rcases Int.lt_or_gt_of_ne hne with hneg | hpos
    · have : M * c ≤ M * (-1) := Int.mul_le_mul_of_nonneg_left (by omega) (by omega)
      omega
    · have : M * 1 ≤ M * c := Int.mul_le_mul_of_nonneg_left (by omega) (by omega)
      omega
  rw [hc0, Int.mul_zero] at hc
  omega

theorem exists_free {M n : Int} {used : List Int} {tries : Nat} (hM : (tries : Int) ≤ M)
    (h : used.length < tries) : ∃ k < tries, wrapAt M n k ∉ used := by
  by_contra hnone
  simp only [not_exists, not_and, not_not] at hnone
  have hnodup : ((List.range tries).map (wrapAt M n)).Nodup := by
    refine List.Nodup.map_on ?_ List.nodup_range
    intro j hj k hk heq
    rw [List.mem_range] at hj hk
    exact wrapAt_injective (by omega) (by omega) heq
  have hsub : (List.range tries).map (wrapAt M n) ⊆ used := by
    intro x hx
    obtain ⟨k, hk, rfl⟩ := List.mem_map.mp hx
    exact hnone k (List.mem_range.mp hk)
  have hle := (List.subperm_of_subset hnodup hsub).length_le
  rw [List.length_map, List.length_range] at hle
  omega

/-! ### What is passed over -/

/-- The values strictly between `a` and `b` on the way round the cycle `1 .. M`. -/
def passed (M a b : Nat) : Finset Nat :=
  (Finset.Icc 1 M).filter fun c => a < c ∧ c < b ∨ b < a ∧ (a < c ∨ c < b)

theorem card_passed_ahead {M a b : Nat} (hab : a < b) (hb : b ≤ M) :
    (passed M a b).card = b - a - 1 := by
  have hbetween : passed M a b = Finset.Ioo a b := by
    ext c
    simp only [passed, Finset.mem_filter, Finset.mem_Icc, Finset.mem_Ioo]
    omega
  rw [hbetween, Nat.card_Ioo]

theorem card_passed_round {M a b : Nat} (hba : b < a) (ha : a ≤ M) :
    (passed M a b).card = (M - a) + (b - 1) := by
  have hparts : passed M a b = Finset.Ioc a M ∪ Finset.Ico 1 b := by
    ext c
    simp only [passed, Finset.mem_filter, Finset.mem_Icc, Finset.mem_union, Finset.mem_Ioc,
      Finset.mem_Ico]
    omega
  have hdisjoint : Disjoint (Finset.Ioc a M) (Finset.Ico 1 b) := by
    rw [Finset.disjoint_left]
    intro c hc hc'
    rw [Finset.mem_Ioc] at hc
    rw [Finset.mem_Ico] at hc'
    omega
  rw [hparts, Finset.card_union_of_disjoint hdisjoint, Nat.card_Ioc, Nat.card_Ico]

end Theory
