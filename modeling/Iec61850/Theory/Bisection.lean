import Mathlib.Data.List.Basic

/-!
# Bisection for the largest count that fits

A search between a count that is made in any case and one that is known not to fit. The test
need not be monotone: what the search finds fits, or is one, and the next count does not fit.
-/

namespace Theory

variable {β : Type*}

/-- Narrow the interval from `lo`, which made `best`, to `hi`, which does not fit. -/
def bisect (fits : Nat → Option β) : Nat → Nat → Nat → β → Nat × β
  | 0, lo, _, best => (lo, best)
  | fuel + 1, lo, hi, best =>
    if lo + 1 < hi then
      let mid := lo + (hi - lo) / 2
      match fits mid with
      | some b => bisect fits fuel mid hi b
      | none => bisect fits fuel lo mid best
    else (lo, best)

/-- A count that fits, or is one, such that one more would not fit or reach the end. -/
structure Largest (fits : Nat → Option β) (first : β) (top count : Nat) (best : β) : Prop where
  pos : 1 ≤ count
  lt : count < top
  made : count = 1 ∧ best = first ∨ fits count = some best
  full : count + 1 = top ∨ fits (count + 1) = none

theorem bisect_largest {fits : Nat → Option β} {first best : β} {top fuel lo hi : Nat}
    (hfuel : hi - lo ≤ fuel) (hpos : 1 ≤ lo) (hlt : lo < hi) (htop : hi ≤ top)
    (hmade : lo = 1 ∧ best = first ∨ fits lo = some best) (hfull : hi = top ∨ fits hi = none) :
    Largest fits first top (bisect fits fuel lo hi best).1 (bisect fits fuel lo hi best).2 := by
  induction fuel generalizing lo hi best with
  | zero => omega
  | succ fuel ih =>
    rw [bisect]
    split
    · rename_i hgap
      have hmid : lo < lo + (hi - lo) / 2 ∧ lo + (hi - lo) / 2 < hi := by omega
      simp only
      cases hfits : fits (lo + (hi - lo) / 2) with
      | some b => exact ih (by omega) (by omega) hmid.2 htop (Or.inr hfits) hfull
      | none => exact ih (by omega) hpos hmid.1 (by omega) hmade (Or.inr hfits)
    · rename_i hgap
      have hnext : lo + 1 = hi := by omega
      constructor
      · exact hpos
      · exact Nat.lt_of_lt_of_le hlt htop
      · exact hmade
      · exact hnext ▸ hfull

end Theory
