import Mathlib.Data.List.Nodup

/-!
# A list of keyed slots

Removal of a slot in constant time, the last one taking its place, and what it and the change of
one slot mean for a list whose slots have pairwise different keys.
-/

namespace Theory

variable {α κ : Type*}

/-- Remove the element at an index; the last one takes its place. -/
def swapRemove (l : List α) (i : Nat) : List α :=
  match l.getLast? with
  | some z => (l.set i z).dropLast
  | none => []

theorem swapRemove_concat_of_lt {l : List α} {i : Nat} (h : i < l.length) (z : α) :
    swapRemove (l ++ [z]) i = l.set i z := by
  simp [swapRemove, List.set_append_left _ _ h]

theorem swapRemove_concat_last (l : List α) (z : α) : swapRemove (l ++ [z]) l.length = l := by
  simp [swapRemove, List.set_append_right]

theorem swapRemove_perm {l : List α} {i : Nat} {x : α} (h : l[i]? = some x) :
    (x :: swapRemove l i).Perm l := by
  rcases List.eq_nil_or_concat l with rfl | ⟨init, z, rfl⟩
  · simp at h
  · rw [List.concat_eq_append] at h ⊢
    by_cases hi : i < init.length
    · rw [List.getElem?_append_left hi, List.getElem?_eq_getElem hi, Option.some_inj] at h
      have hsplit : init = init.take i ++ x :: init.drop (i + 1) := by
        rw [← h, ← List.drop_eq_getElem_cons hi, List.take_append_drop]
      have hset : init.set i z = init.take i ++ z :: init.drop (i + 1) :=
        List.set_eq_take_append_cons_drop .. |>.trans (if_pos hi)
      rw [swapRemove_concat_of_lt hi, hset]
      have hmoved : (x :: (init.take i ++ z :: init.drop (i + 1))).Perm
          (z :: (init.take i ++ x :: init.drop (i + 1))) :=
        (List.perm_middle.cons x).trans ((List.Perm.swap z x _).trans (List.perm_middle.symm.cons z))
      rw [← hsplit] at hmoved
      exact hmoved.trans (List.perm_append_singleton z init).symm
    · obtain ⟨hlt, -⟩ := List.getElem?_eq_some_iff.mp h
      rw [List.length_append, List.length_singleton] at hlt
      have heq : i = init.length := by omega
      subst heq
      rw [List.getElem?_concat_length, Option.some_inj] at h
      rw [swapRemove_concat_last, h]
      exact (List.perm_append_singleton x init).symm

theorem swapRemove_set {l : List α} {i : Nat} (h : i < l.length) (z : α) :
    swapRemove (l.set i z) i = swapRemove l i := by
  rcases List.eq_nil_or_concat l with rfl | ⟨init, w, rfl⟩
  · rfl
  · rw [List.concat_eq_append] at h ⊢
    by_cases hi : i < init.length
    · rw [List.set_append_left _ _ hi, swapRemove_concat_of_lt (by rwa [List.length_set]),
        swapRemove_concat_of_lt hi, List.set_set]
    · rw [List.length_append, List.length_singleton] at h
      have heq : i = init.length := by omega
      subst heq
      rw [List.set_append_right _ _ (Nat.le_refl _), Nat.sub_self, List.set_cons_zero,
        swapRemove_concat_last, swapRemove_concat_last]

variable {key : α → κ} {l : List α} {i : Nat} {x : α}

theorem mem_of_mem_swapRemove (h : l[i]? = some x) {y : α} (hy : y ∈ swapRemove l i) : y ∈ l :=
  (swapRemove_perm h).mem_iff.mp (List.mem_cons_of_mem x hy)

theorem mem_set_iff (h : l[i]? = some x) (z : α) {y : α} :
    y ∈ l.set i z ↔ y = z ∨ y ∈ swapRemove l i := by
  obtain ⟨hlt, -⟩ := List.getElem?_eq_some_iff.mp h
  have hperm := swapRemove_perm (List.getElem?_set_self hlt (a := z))
  rw [swapRemove_set hlt] at hperm
  rw [← hperm.mem_iff, List.mem_cons]

theorem key_ne_of_mem_swapRemove (hnodup : (l.map key).Nodup) (h : l[i]? = some x) {y : α}
    (hy : y ∈ swapRemove l i) : key y ≠ key x := by
  have hperm := ((swapRemove_perm h).map key).nodup_iff.mpr hnodup
  rw [List.map_cons, List.nodup_cons] at hperm
  intro heq
  exact hperm.1 (heq ▸ List.mem_map_of_mem hy)

theorem nodup_swapRemove (hnodup : (l.map key).Nodup) (h : l[i]? = some x) :
    ((swapRemove l i).map key).Nodup := by
  have hperm := ((swapRemove_perm h).map key).nodup_iff.mpr hnodup
  rw [List.map_cons, List.nodup_cons] at hperm
  exact hperm.2

theorem map_set_key (h : l[i]? = some x) {z : α} (hz : key z = key x) :
    (l.set i z).map key = l.map key := by
  obtain ⟨hlt, rfl⟩ := List.getElem?_eq_some_iff.mp h
  have hlen : i < (l.map key).length := by rwa [List.length_map]
  have hkey : key l[i] = (l.map key)[i] := (List.getElem_map key).symm
  rw [List.map_set, hz, hkey, List.set_getElem_self]

end Theory
