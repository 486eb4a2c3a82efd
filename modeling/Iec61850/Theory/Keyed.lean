import Mathlib.Data.List.Nodup
import Mathlib.Data.List.Perm.Basic

/-!
# Lists looked up by a key

The first entry of a key, where no two entries share one: it is any entry of that key, and the
order of the list does not matter.
-/

namespace Theory

variable {α β κ : Type*} [DecidableEq κ] {key : α → κ}

/-- The first entry of a key. -/
def findKey (key : α → κ) (k : κ) (l : List α) : Option α := l.find? fun a => key a = k

theorem mem_of_findKey {k : κ} {l : List α} {a : α} (h : findKey key k l = some a) :
    a ∈ l ∧ key a = k := by
  refine ⟨List.mem_of_find?_eq_some h, ?_⟩
  simpa using List.find?_some h

theorem findKey_eq_none {k : κ} {l : List α} : findKey key k l = none ↔ ∀ a ∈ l, key a ≠ k := by
  simp [findKey]

@[simp] theorem findKey_nil (k : κ) : findKey key k [] = none := rfl

theorem findKey_cons (k : κ) (a : α) (l : List α) :
    findKey key k (a :: l) = if key a = k then some a else findKey key k l := by
  rw [findKey, List.find?_cons]
  by_cases h : key a = k
  · simp [h]
  · simp [h, findKey]

theorem findKey_append (k : κ) (l l' : List α) :
    findKey key k (l ++ l') = (findKey key k l).or (findKey key k l') :=
  List.find?_append

theorem findKey_map (f : β → α) (k : κ) (l : List β) :
    findKey key k (l.map f) = (findKey (fun b => key (f b)) k l).map f :=
  List.find?_map

theorem findKey_of_mem {k : κ} {l : List α} {a : α} (hnodup : (l.map key).Nodup) (ha : a ∈ l)
    (hk : key a = k) : findKey key k l = some a := by
  induction l with
  | nil => cases ha
  | cons b l ih =>
    rw [List.map_cons, List.nodup_cons] at hnodup
    rw [findKey_cons]
    rcases List.mem_cons.mp ha with rfl | ha
    · rw [if_pos hk]
    · have hb : key b ≠ k := by
        rintro hb
        exact hnodup.1 (hb.trans hk.symm ▸ List.mem_map_of_mem ha)
      rw [if_neg hb]
      exact ih hnodup.2 ha

theorem findKey_perm {k : κ} {l l' : List α} (hperm : l.Perm l') (hnodup : (l.map key).Nodup) :
    findKey key k l = findKey key k l' := by
  cases hfound : findKey key k l with
  | none =>
    rw [eq_comm, findKey_eq_none]
    intro a ha
    exact findKey_eq_none.mp hfound a (hperm.mem_iff.mpr ha)
  | some a =>
    obtain ⟨ha, hk⟩ := mem_of_findKey hfound
    exact (findKey_of_mem ((hperm.map key).nodup_iff.mp hnodup) (hperm.mem_iff.mp ha) hk).symm

theorem findKey_filter {k : κ} {l : List α} (hnodup : (l.map key).Nodup) (p : α → Bool) :
    findKey key k (l.filter p) = (findKey key k l).filter p := by
  induction l with
  | nil => rfl
  | cons a l ih =>
    rw [List.map_cons, List.nodup_cons] at hnodup
    rw [findKey_cons]
    by_cases hk : key a = k
    · rw [if_pos hk]
      cases hp : p a with
      | true => rw [List.filter_cons_of_pos hp, findKey_cons, if_pos hk, Option.filter, if_pos hp]
      | false =>
        rw [List.filter_cons_of_neg (by simp [hp]), Option.filter, if_neg (by simp [hp]),
          findKey_eq_none]
        intro b hb hkb
        exact hnodup.1 (hk.trans hkb.symm ▸ List.mem_map_of_mem (List.mem_of_mem_filter hb))
    · rw [if_neg hk, ← ih hnodup.2]
      cases hp : p a with
      | true => rw [List.filter_cons_of_pos hp, findKey_cons, if_neg hk]
      | false => rw [List.filter_cons_of_neg (by simp [hp])]

end Theory
