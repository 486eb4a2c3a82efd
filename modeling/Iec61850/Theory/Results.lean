import Mathlib.Data.List.Forall2

/-!
# Computations that may fail

A sequence that succeeds is made of steps that succeed (`bind_ok`). A `mapM` that succeeds is a
success for each element, in order (`mapM_ok_iff`), and what it does on the parts of a list it
does on the whole.
-/

namespace Theory

universe u

variable {ε α : Type*} {β γ : Type u} {f : α → Except ε β}

theorem bind_ok {x : Except ε β} {k : β → Except ε γ} {c : γ} (h : x >>= k = .ok c) :
    ∃ b, x = .ok b ∧ k b = .ok c := by
  cases x with
  | error e => cases h
  | ok b => exact ⟨b, rfl, h⟩

theorem map_ok {x : Except ε β} {g : β → γ} {c : γ} (h : g <$> x = .ok c) :
    ∃ b, x = .ok b ∧ g b = c := by
  cases x with
  | error e => cases h
  | ok b => exact ⟨b, rfl, Except.ok.inj h⟩

theorem mapM_ok_iff {xs : List α} {ys : List β} :
    xs.mapM f = .ok ys ↔ List.Forall₂ (fun x y => f x = .ok y) xs ys := by
  induction xs generalizing ys with
  | nil =>
    rw [List.mapM_nil, List.forall₂_nil_left_iff]
    constructor
    · intro h
      cases h
      rfl
    · rintro rfl
      rfl
  | cons x xs ih =>
    rw [List.mapM_cons, List.forall₂_cons_left_iff]
    cases hx : f x with
    | error e =>
      constructor
      · intro h
        cases h
      · rintro ⟨y, ys, h, -, -⟩
        cases h
    | ok y =>
      cases hxs : xs.mapM f with
      | error e =>
        constructor
        · intro h
          cases h
        · rintro ⟨y', ys', -, hrest, -⟩
          rw [← ih, hxs] at hrest
          cases hrest
      | ok zs =>
        constructor
        · intro h
          cases h
          exact ⟨y, zs, rfl, ih.mp hxs, rfl⟩
        · rintro ⟨y', ys', h, hrest, rfl⟩
          cases h
          rw [← ih, hxs] at hrest
          cases hrest
          rfl

theorem mapM_id_iff {results : List (Except ε β)} {ys : List β} :
    results.mapM id = .ok ys ↔ results = ys.map .ok := by
  rw [mapM_ok_iff]
  induction results generalizing ys with
  | nil =>
    rw [List.forall₂_nil_left_iff]
    constructor
    · rintro rfl
      rfl
    · intro h
      exact List.map_eq_nil_iff.mp h.symm
  | cons r results ih =>
    rw [List.forall₂_cons_left_iff]
    constructor
    · rintro ⟨y, ys, hy, hys, rfl⟩
      rw [List.map_cons, ← ih.mp hys, ← hy]
      rfl
    · intro h
      obtain ⟨y, ys', rfl, hy, hys⟩ := List.map_eq_cons_iff.mp h.symm
      exact ⟨y, ys', hy.symm, ih.mpr hys.symm, rfl⟩

/-- Related through a list in between is related through something in between, place by place. -/
theorem forall₂_comp_iff {α β γ : Type*} {R : α → β → Prop} {S : β → γ → Prop} {xs : List α}
    {zs : List γ} : (∃ ys, List.Forall₂ R xs ys ∧ List.Forall₂ S ys zs) ↔
      List.Forall₂ (fun x z => ∃ y, R x y ∧ S y z) xs zs := by
  constructor
  · rintro ⟨ys, hxy, hyz⟩
    induction hxy generalizing zs with
    | nil =>
      cases hyz
      exact .nil
    | cons h _ ih =>
      cases hyz with
      | cons h' hrest => exact .cons ⟨_, h, h'⟩ (ih hrest)
  · intro h
    induction h with
    | nil => exact ⟨[], .nil, .nil⟩
    | cons h _ ih =>
      obtain ⟨y, hxy, hyz⟩ := h
      obtain ⟨ys, hall, hall'⟩ := ih
      exact ⟨y :: ys, .cons hxy hall, .cons hyz hall'⟩

/-- Two passes over a list are one. -/
theorem forall₂_comp {g : β → Except ε γ} {xs : List α} {ys : List β} {zs : List γ}
    (h : List.Forall₂ (fun x y => f x = .ok y) xs ys)
    (h' : List.Forall₂ (fun y z => g y = .ok z) ys zs) :
    List.Forall₂ (fun x z => f x >>= g = .ok z) xs zs := by
  refine (forall₂_comp_iff.mp ⟨ys, h, h'⟩).imp ?_
  rintro x z ⟨y, hx, hy⟩
  rw [hx]
  exact hy

/-- One pass over a list can be taken in two. -/
theorem exists_forall₂_comp {g : β → Except ε γ} {xs : List α} {zs : List γ}
    (h : List.Forall₂ (fun x z => f x >>= g = .ok z) xs zs) :
    ∃ ys, List.Forall₂ (fun x y => f x = .ok y) xs ys ∧
      List.Forall₂ (fun y z => g y = .ok z) ys zs := by
  refine forall₂_comp_iff.mpr (h.imp ?_)
  intro x z hx
  cases hy : f x with
  | error e =>
    rw [hy] at hx
    cases hx
  | ok y =>
    rw [hy] at hx
    exact ⟨y, rfl, hx⟩

theorem forall_ok_iff {xs : List α} {ys : List β}
    (h : List.Forall₂ (fun x y => f x = .ok y) xs ys) (P : β → Prop) :
    (∀ x ∈ xs, ∃ y, f x = .ok y ∧ P y) ↔ ∀ y ∈ ys, P y := by
  induction h with
  | nil => exact iff_of_true nofun nofun
  | cons hxy _ ih =>
    rw [List.forall_mem_cons, List.forall_mem_cons, ih]
    refine and_congr_left fun _ => ?_
    constructor
    · rintro ⟨y, hy, hp⟩
      cases hxy.symm.trans hy
      exact hp
    · exact fun hp => ⟨_, hxy, hp⟩

theorem mapM_sublist {xs zs : List α} {ys : List β} (hsub : List.Sublist zs xs)
    (h : xs.mapM f = .ok ys) : ∃ ys', zs.mapM f = .ok ys' ∧ List.Sublist ys' ys := by
  rw [mapM_ok_iff] at h
  obtain ⟨ys', hys, hsub'⟩ : ∃ ys', List.Forall₂ (fun x y => f x = .ok y) zs ys' ∧
      List.Sublist ys' ys := by
    induction hsub generalizing ys with
    | slnil =>
      cases h
      exact ⟨[], .nil, .slnil⟩
    | cons x hsub ih =>
      cases h with
      | @cons _ y _ ys hx hrest =>
        obtain ⟨ys', hys, hsub'⟩ := ih hrest
        exact ⟨ys', hys, hsub'.cons y⟩
    | cons_cons x hsub ih =>
      cases h with
      | @cons _ y _ ys hx hrest =>
        obtain ⟨ys', hys, hsub'⟩ := ih hrest
        exact ⟨y :: ys', .cons hx hys, hsub'.cons_cons y⟩
  exact ⟨ys', mapM_ok_iff.mpr hys, hsub'⟩

theorem exists_mapM {xs : List α} (h : ∀ x ∈ xs, ∃ y, f x = .ok y) : ∃ ys, xs.mapM f = .ok ys := by
  induction xs with
  | nil => exact ⟨[], rfl⟩
  | cons x xs ih =>
    obtain ⟨y, hy⟩ := h x List.mem_cons_self
    obtain ⟨ys, hys⟩ := ih fun x hx => h x (List.mem_cons_of_mem _ hx)
    exact ⟨y :: ys, mapM_ok_iff.mpr (.cons hy (mapM_ok_iff.mp hys))⟩

theorem exists_of_mapM {xs : List α} {ys : List β} (h : xs.mapM f = .ok ys) {x : α} (hx : x ∈ xs) :
    ∃ y ∈ ys, f x = .ok y := by
  obtain ⟨ys', hone, hsub⟩ := mapM_sublist (List.singleton_sublist.mpr hx) h
  rw [mapM_ok_iff, List.forall₂_cons_left_iff] at hone
  obtain ⟨y, rest, hy, -, rfl⟩ := hone
  exact ⟨y, hsub.subset List.mem_cons_self, hy⟩

theorem mem_of_mapM {xs : List α} {ys : List β} (h : xs.mapM f = .ok ys) {y : β} (hy : y ∈ ys) :
    ∃ x ∈ xs, f x = .ok y := by
  rw [mapM_ok_iff] at h
  induction h with
  | nil => cases hy
  | @cons x y' xs ys hx _ ih =>
    rcases List.mem_cons.mp hy with rfl | hlater
    · exact ⟨x, List.mem_cons_self, hx⟩
    · obtain ⟨x', hx', hy'⟩ := ih hlater
      exact ⟨x', List.mem_cons_of_mem _ hx', hy'⟩

/-- What holds of a list and its results element by element holds of the two lists. -/
theorem map_eq_iff_of_forall₂ {δ : Type*} {R : α → β → Prop} {P : α → Prop} {g : α → δ} {k : β → δ}
    {xs : List α} {ys : List β} (h : List.Forall₂ R xs ys)
    (hR : ∀ x y, R x y → (k y = g x ↔ P x)) : ys.map k = xs.map g ↔ ∀ x ∈ xs, P x := by
  induction h with
  | nil => simp
  | cons hxy _ ih => rw [List.map_cons, List.map_cons, List.cons.injEq, hR _ _ hxy, ih,
      List.forall_mem_cons]

/-! ### Lists of computations that may have no result -/

section

variable {p : α → Option β}

theorem mapM_some_iff {xs : List α} {ys : List β} :
    xs.mapM p = some ys ↔ List.Forall₂ (fun x y => p x = some y) xs ys := by
  induction xs generalizing ys with
  | nil =>
    rw [List.mapM_nil, List.forall₂_nil_left_iff]
    exact Option.some_inj.trans eq_comm
  | cons x xs ih =>
    rw [List.mapM_cons, List.forall₂_cons_left_iff]
    simp only [Option.bind_eq_bind, Option.bind_eq_some_iff, ih]
    constructor
    · rintro ⟨y, hy, zs, hzs, h⟩
      cases h
      exact ⟨y, zs, hy, hzs, rfl⟩
    · rintro ⟨y, zs, hy, hzs, rfl⟩
      exact ⟨y, hy, zs, hzs, rfl⟩

theorem exists_mapM_some {xs : List α} (h : ∀ x ∈ xs, ∃ y, p x = some y) :
    ∃ ys, xs.mapM p = some ys := by
  induction xs with
  | nil => exact ⟨[], rfl⟩
  | cons x xs ih =>
    obtain ⟨y, hy⟩ := h x List.mem_cons_self
    obtain ⟨ys, hys⟩ := ih fun x hx => h x (List.mem_cons_of_mem _ hx)
    exact ⟨y :: ys, mapM_some_iff.mpr (.cons hy (mapM_some_iff.mp hys))⟩

theorem mem_of_mapM_some {xs : List α} {ys : List β} (h : xs.mapM p = some ys) {y : β}
    (hy : y ∈ ys) : ∃ x ∈ xs, p x = some y := by
  rw [mapM_some_iff] at h
  induction h with
  | nil => cases hy
  | @cons x y' xs ys hx _ ih =>
    rcases List.mem_cons.mp hy with rfl | hlater
    · exact ⟨x, List.mem_cons_self, hx⟩
    · obtain ⟨x', hx', hy'⟩ := ih hlater
      exact ⟨x', List.mem_cons_of_mem _ hx', hy'⟩

theorem getElem?_of_mapM_range {n : Nat} {q : Nat → Option β} {ys : List β}
    (h : (List.range n).mapM q = some ys) {i : Nat} (hi : i < n) :
    ∃ y, ys[i]? = some y ∧ q i = some y := by
  rw [mapM_some_iff] at h
  have hlen := h.length_eq
  rw [List.length_range] at hlen
  have hget := (List.forall₂_iff_get.mp h).2 i (by rwa [List.length_range]) (hlen ▸ hi)
  rw [List.get_eq_getElem, List.getElem_range] at hget
  exact ⟨_, List.getElem?_eq_getElem (hlen ▸ hi), hget⟩

end

end Theory
