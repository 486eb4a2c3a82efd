import Mathlib.Data.List.Basic

/-!
# Resuming in a log after an entry

A reader that knows the last entry it has seen resumes after the first entry of the log that
matches it, or at the start when none does. `drop_resumeAt_iff` says when it is handed exactly
the entries it has not seen, and `suffix_of_conserved` that these are the end of the log as long
as none of them has been taken out of it.
-/

namespace Theory

variable {α : Type*}

/-- Where to resume after the entry that `p` picks. -/
def resumeAt (p : α → Bool) (xs : List α) : Nat :=
  match xs.findIdx? p with
  | some i => i + 1
  | none => 0

/-- The first entry that matches, with those before and after it. -/
theorem exists_first {p : α → Bool} {xs : List α} {i : Nat} (h : xs.findIdx? p = some i) :
    ∃ before x after, xs = before ++ x :: after ∧ before.length = i ∧ p x = true ∧
      ∀ y ∈ before, p y = false := by
  induction xs generalizing i with
  | nil => cases h
  | cons first rest ih =>
    rw [List.findIdx?_cons] at h
    split at h
    · rename_i hfirst
      cases h
      refine ⟨[], first, rest, rfl, rfl, hfirst, ?_⟩
      intro y hy
      cases hy
    · rename_i hfirst
      rw [Option.map_eq_some_iff] at h
      obtain ⟨j, hj, rfl⟩ := h
      obtain ⟨before, x, after, rfl, hlen, hx, hbefore⟩ := ih hj
      refine ⟨first :: before, x, after, rfl, by rw [List.length_cons, hlen], hx, ?_⟩
      intro y hy
      rw [List.mem_cons] at hy
      rcases hy with rfl | hy
      · exact Bool.eq_false_iff.mpr hfirst
      · exact hbefore y hy

/-- The first match is in one place only. -/
theorem first_unique {p : α → Bool} {before before' after after' : List α} {x x' : α}
    (h : before ++ x :: after = before' ++ x' :: after') (hx : p x = true) (hx' : p x' = true)
    (hbefore : ∀ y ∈ before, p y = false) (hbefore' : ∀ y ∈ before', p y = false) :
    after = after' := by
  induction before generalizing before' with
  | nil =>
    cases before' with
    | nil => exact (List.cons.inj h).2
    | cons y before' =>
      obtain ⟨rfl, -⟩ := List.cons.inj h
      rw [hbefore' x List.mem_cons_self] at hx
      cases hx
  | cons z before ih =>
    cases before' with
    | nil =>
      obtain ⟨rfl, -⟩ := List.cons.inj h
      rw [hbefore z List.mem_cons_self] at hx'
      cases hx'
    | cons y before' =>
      exact ih (List.cons.inj h).2 (fun w hw => hbefore w (List.mem_cons_of_mem _ hw))
        (fun w hw => hbefore' w (List.mem_cons_of_mem _ hw))

/-- The reader is handed exactly `ys` when these are what comes after the first match, or the whole
log without a match. -/
theorem drop_resumeAt_iff {p : α → Bool} {xs ys : List α} : xs.drop (resumeAt p xs) = ys ↔
      (∃ before x, xs = before ++ x :: ys ∧ p x = true ∧ ∀ y ∈ before, p y = false) ∨
        xs = ys ∧ ∀ y ∈ xs, p y = false := by
  unfold resumeAt
  cases hfind : xs.findIdx? p with
  | some i =>
    obtain ⟨before, x, after, rfl, rfl, hx, hbefore⟩ := exists_first hfind
    have hdrop : (before ++ x :: after).drop (before.length + 1) = after := by
      rw [← List.drop_drop, List.drop_left, List.drop_one, List.tail_cons]
    simp only [hdrop]
    constructor
    · rintro rfl
      exact Or.inl ⟨before, x, rfl, hx, hbefore⟩
    · rintro (⟨before', x', heq, hx', hbefore'⟩ | ⟨-, hnone⟩)
      · exact first_unique heq hx hx' hbefore hbefore'
      · have hmem : x ∈ before ++ x :: after := List.mem_append_right _ List.mem_cons_self
        rw [hnone x hmem] at hx
        cases hx
  | none =>
    rw [List.findIdx?_eq_none_iff] at hfind
    simp only [List.drop_zero]
    constructor
    · rintro rfl
      exact Or.inr ⟨rfl, hfind⟩
    · rintro (⟨before, x, rfl, hx, -⟩ | ⟨rfl, -⟩)
      · rw [hfind x (List.mem_append_right _ List.mem_cons_self)] at hx
        cases hx
      · rfl

/-- Of what was in a queue and was put into it, what has not been taken out is at its end, as far as
it was put in. -/
theorem suffix_of_conserved {queue added removed queue' : List α}
    (h : queue ++ added = removed ++ queue') (hkept : ∀ x ∈ added, x ∉ removed) :
    ∃ old, queue' = old ++ added := by
  rw [List.append_eq_append_iff] at h
  rcases h with ⟨early, rfl, hadded⟩ | ⟨old, -, hqueue'⟩
  · cases early with
    | nil => exact ⟨[], by rw [hadded]; rfl⟩
    | cons x early =>
      have hx : x ∈ added := by
        rw [hadded]
        exact List.mem_cons_self
      exact absurd (List.mem_append_right _ List.mem_cons_self) (hkept x hx)
  · exact ⟨old, hqueue'⟩

end Theory
