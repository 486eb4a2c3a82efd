import Mathlib.Data.List.MinMax
import Mathlib.Data.Nat.Find

/-!
# Deadlines

Something that has deadlines names the earliest of them, so that whoever drives it knows until when
to wait: the earliest of several deadlines, of the deadlines of several parts, and when a time is
before them all.
-/

namespace Theory

/-- The earliest of the times that have the property, and none when no time has it. -/
def Earliest (P : Nat → Prop) : Option Nat → Prop
  | none => ∀ u, ¬ P u
  | some d => P d ∧ ∀ u, P u → d ≤ u

/-- The time is before the deadline, if there is one. -/
def Ahead (t : Nat) (d : Option Nat) : Prop := ∀ u, d = some u → t < u

variable {P Q : Nat → Prop} {d d' : Option Nat} {t : Nat}

theorem exists_earliest (P : Nat → Prop) : ∃ d, Earliest P d := by
  classical
  by_cases h : ∃ u, P u
  · exact ⟨some (Nat.find h), Nat.find_spec h, fun u hu => Nat.find_min' h hu⟩
  · exact ⟨none, fun u hu => h ⟨u, hu⟩⟩

theorem Earliest.congr (h : Earliest P d) (hPQ : ∀ u, P u ↔ Q u) : Earliest Q d := by
  cases d with
  | none => exact fun u hu => h u ((hPQ u).mpr hu)
  | some v => exact ⟨(hPQ v).mp h.1, fun u hu => h.2 u ((hPQ u).mpr hu)⟩

theorem Earliest.ahead_iff (h : Earliest P d) : Ahead t d ↔ ∀ u, P u → t < u := by
  cases d with
  | none =>
    constructor
    · intro _ u hu
      exact absurd hu (h u)
    · intro _ u hu
      cases hu
  | some v =>
    constructor
    · intro hahead u hu
      exact Nat.lt_of_lt_of_le (hahead v rfl) (h.2 u hu)
    · intro hall u hu
      cases hu
      exact hall v h.1

theorem earliest_min? (l : List Nat) : Earliest (· ∈ l) l.min? := by
  cases hmin : l.min? with
  | none =>
    intro u hu
    rw [List.min?_eq_none_iff.mp hmin] at hu
    cases hu
  | some v => exact List.min?_eq_some_iff.mp hmin

theorem earliest_filterMap {parts : List (Option Nat)} :
    Earliest (fun u => some u ∈ parts) (parts.filterMap id).min? := by
  apply (earliest_min? _).congr
  intro u
  rw [List.mem_filterMap]
  constructor
  · rintro ⟨o, ho, rfl⟩
    exact ho
  · intro hu
    exact ⟨some u, hu, rfl⟩

end Theory
