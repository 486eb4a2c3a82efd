import Mathlib.Data.List.Perm.Basic

/-!
# Groups under keys

Members that come one after the other, each under a key: the group of the key takes the member, and
without one the member begins a new group.
-/

namespace Theory

variable {κ γ α : Type*} [DecidableEq κ]

/-- A member comes to the group of its key, where `push` puts it, or begins the group `new`. -/
def addTo (key : γ → κ) (push : γ → γ) (new : γ) : List γ → List γ
  | [] => [new]
  | g :: gs => if key g = key new then push g :: gs else g :: addTo key push new gs

variable {key : γ → κ} {push : γ → γ} {new : γ}

theorem mem_addTo {gs : List γ} {g : γ} (h : g ∈ addTo key push new gs) :
    g ∈ gs ∨ g = new ∨ ∃ g' ∈ gs, key g' = key new ∧ g = push g' := by
  induction gs with
  | nil => exact Or.inr (Or.inl (List.mem_singleton.mp h))
  | cons first gs ih =>
    rw [addTo] at h
    split at h
    case isTrue heq =>
      rcases List.mem_cons.mp h with rfl | h
      · exact Or.inr (Or.inr ⟨first, List.mem_cons_self, heq, rfl⟩)
      · exact Or.inl (List.mem_cons_of_mem _ h)
    case isFalse =>
      rcases List.mem_cons.mp h with rfl | h
      · exact Or.inl List.mem_cons_self
      · rcases ih h with h | h | ⟨g', hg', h⟩
        · exact Or.inl (List.mem_cons_of_mem _ h)
        · exact Or.inr (Or.inl h)
        · exact Or.inr (Or.inr ⟨g', List.mem_cons_of_mem _ hg', h⟩)

theorem map_key_addTo (hpush : ∀ g, key (push g) = key g) (gs : List γ) :
    (addTo key push new gs).map key =
      if key new ∈ gs.map key then gs.map key else gs.map key ++ [key new] := by
  induction gs with
  | nil => simp [addTo]
  | cons first gs ih =>
    by_cases heq : key first = key new
    · simp [addTo, heq, hpush]
    · have hne : key new ≠ key first := fun h => heq h.symm
      simp only [addTo, heq, if_false, List.map_cons, ih, List.mem_cons, hne, false_or]
      split <;> rfl

theorem nodup_addTo (hpush : ∀ g, key (push g) = key g) {gs : List γ} (h : (gs.map key).Nodup) :
    ((addTo key push new gs).map key).Nodup := by
  rw [map_key_addTo hpush]
  split
  case isTrue => exact h
  case isFalse hnew =>
    rw [List.nodup_append]
    refine ⟨h, by simp, ?_⟩
    intro k hk k' hk' heq
    rw [List.mem_singleton] at hk'
    exact hnew (hk' ▸ heq ▸ hk)

/-- The member comes to one of the groups, and the others come to nothing. -/
theorem members_addTo {members : γ → List α} {x : α} (hnew : members new = [x])
    (hpush : ∀ g, members (push g) = members g ++ [x]) (gs : List γ) :
    ((addTo key push new gs).flatMap members).Perm (gs.flatMap members ++ [x]) := by
  induction gs with
  | nil => simp [addTo, hnew]
  | cons first gs ih =>
    rw [addTo]
    split
    case isTrue =>
      rw [List.flatMap_cons, List.flatMap_cons, hpush, List.append_assoc, List.append_assoc]
      exact List.perm_append_comm.append_left _
    case isFalse =>
      rw [List.flatMap_cons, List.flatMap_cons, List.append_assoc]
      exact ih.append_left _

end Theory
