import Mathlib.Data.List.AList

/-!
# Finite maps written into a store, and filled from one

A store of any kind that is written one place at a time, and what it holds after the entries of a
finite map have been written into it, each at the place of its key; and the finite map of the keys
that come with a value. A finite map is itself such a store, so that one map put over another is an
instance of the first.
-/

namespace Theory

variable {σ κ ρ α : Type*}

/-! ### Writing a map out -/

/-- The entries of a map, written into a store one after the other. -/
def writeOut (write : σ → ρ → α → σ) (place : κ → ρ) (m : AList fun _ : κ => α) (s : σ) : σ :=
  m.foldl (fun s k v => write s (place k) v) s

/-- What every write keeps, writing a map out keeps. -/
theorem writeOut_preserves {P : σ → Prop} {write : σ → ρ → α → σ}
    (hP : ∀ s p v, P s → P (write s p v)) {place : κ → ρ} {m : AList fun _ : κ => α} {s : σ}
    (h : P s) : P (writeOut write place m s) := by
  unfold writeOut AList.foldl
  induction m.entries generalizing s with
  | nil => exact h
  | cons e es ih => exact ih (hP s _ _ h)

/-- What no write changes, writing a map out does not change. -/
theorem writeOut_keeps {β : Type*} {f : σ → β} {write : σ → ρ → α → σ}
    (hf : ∀ s p v, f (write s p v) = f s) {place : κ → ρ} {m : AList fun _ : κ => α} (s : σ) :
    f (writeOut write place m s) = f s := by
  unfold writeOut AList.foldl
  induction m.entries generalizing s with
  | nil => rfl
  | cons e es ih => rw [List.foldl_cons, ih, hf]

/-- A store whose writes change what is read at their own place, when the place takes the value, and
nothing else; which values a place takes does not change. -/
structure Pointwise (write : σ → ρ → α → σ) (read : σ → ρ → Option α)
    (takes : σ → ρ → α → Bool) : Prop where
  keeps : ∀ s p v, takes (write s p v) = takes s
  self : ∀ s p v, read (write s p v) p = if takes s p v then some v else read s p
  other : ∀ s p v q, q ≠ p → read (write s p v) q = read s q

section

variable {write : σ → ρ → α → σ} {read : σ → ρ → Option α} {takes : σ → ρ → α → Bool}
  (hwrite : Pointwise write read takes)
include hwrite

/-- The keys whose places are elsewhere do not matter. -/
theorem read_foldl_other {place : κ → ρ} {es : List (Sigma fun _ : κ => α)} {q : ρ}
    (hq : ∀ k ∈ es.keys, q ≠ place k) (s : σ) :
    read (es.foldl (fun s e => write s (place e.1) e.2) s) q = read s q := by
  induction es generalizing s with
  | nil => rfl
  | cons e es ih =>
    rw [List.keys_cons, List.forall_mem_cons] at hq
    rw [List.foldl_cons, ih hq.2, hwrite.other _ _ _ _ hq.1]

theorem read_writeOut_other {place : κ → ρ} {m : AList fun _ : κ => α} {q : ρ}
    (hq : ∀ k ∈ m, q ≠ place k) (s : σ) : read (writeOut write place m s) q = read s q :=
  read_foldl_other hwrite hq s

theorem takes_writeOut {place : κ → ρ} {m : AList fun _ : κ => α} (s : σ) :
    takes (writeOut write place m s) = takes s :=
  writeOut_keeps hwrite.keeps s

variable [DecidableEq κ]

/-- At the place of a key the store holds what the map has there, when the place takes it. -/
theorem read_foldl_place {place : κ → ρ} (hplace : Function.Injective place)
    {es : List (Sigma fun _ : κ => α)} (hes : es.NodupKeys) (k : κ) (s : σ) :
    read (es.foldl (fun s e => write s (place e.1) e.2) s) (place k) =
      ((es.dlookup k).filter (takes s (place k))).or (read s (place k)) := by
  induction es generalizing s with
  | nil => rfl
  | cons e es ih =>
    rw [List.nodupKeys_cons] at hes
    rw [List.foldl_cons]
    by_cases hk : e.1 = k
    · subst hk
      have hrest : ∀ k' ∈ es.keys, place e.1 ≠ place k' := by
        intro k' hk' heq
        rw [hplace heq] at hes
        exact hes.1 hk'
      rw [read_foldl_other hwrite hrest, hwrite.self, List.dlookup_cons_eq, Option.filter_some]
      split
      · rfl
      · rfl
    · have hne : place k ≠ place e.1 := fun heq => hk (hplace heq).symm
      rw [ih hes.2, hwrite.keeps, hwrite.other _ _ _ _ hne,
        List.dlookup_cons_ne _ _ (fun heq => hk heq.symm)]

theorem read_writeOut {place : κ → ρ} (hplace : Function.Injective place)
    (m : AList fun _ : κ => α) (k : κ) (s : σ) : read (writeOut write place m s) (place k) =
      ((m.lookup k).filter (takes s (place k))).or (read s (place k)) :=
  read_foldl_place hwrite hplace m.nodupKeys k s

end

variable [DecidableEq κ]

/-! ### A map of the keys that have a value -/

/-- A key that is given a value has it from then on. -/
def enter (m : AList fun _ : κ => α) (e : κ × Option α) : AList fun _ : κ => α :=
  match e.2 with
  | some v => m.insert e.1 v
  | none => m

theorem lookup_enter_ne {m : AList fun _ : κ => α} {e : κ × Option α} {k : κ} (hk : k ≠ e.1) :
    (enter m e).lookup k = m.lookup k := by
  unfold enter
  split
  · exact AList.lookup_insert_ne hk
  · rfl

/-- The map of the keys of a list that come with a value. -/
def mapOf (es : List (κ × Option α)) : AList fun _ : κ => α :=
  es.foldl enter ∅

theorem lookup_foldl_enter {es : List (κ × Option α)} {m : AList fun _ : κ => α} {k : κ} {v : α}
    (h : (es.foldl enter m).lookup k = some v) : (k, some v) ∈ es ∨ m.lookup k = some v := by
  induction es generalizing m with
  | nil => exact Or.inr h
  | cons e es ih =>
    rcases ih h with hmem | hm
    · exact Or.inl (List.mem_cons_of_mem _ hmem)
    · obtain ⟨k', w⟩ := e
      by_cases hk : k = k'
      · subst hk
        cases w with
        | none => exact Or.inr hm
        | some w =>
          rw [enter, AList.lookup_insert] at hm
          cases hm
          exact Or.inl List.mem_cons_self
      · rw [lookup_enter_ne hk] at hm
        exact Or.inr hm

theorem isSome_foldl_enter {es : List (κ × Option α)} {m : AList fun _ : κ => α} {k : κ}
    (h : (m.lookup k).isSome) : ((es.foldl enter m).lookup k).isSome := by
  induction es generalizing m with
  | nil => exact h
  | cons e es ih =>
    apply ih
    by_cases hk : k = e.1
    · unfold enter
      split
      · rw [hk, AList.lookup_insert, Option.isSome_some]
      · exact h
    · rw [lookup_enter_ne hk]
      exact h

theorem mem_of_lookup_mapOf {es : List (κ × Option α)} {k : κ} {v : α}
    (h : (mapOf es).lookup k = some v) : (k, some v) ∈ es := by
  rcases lookup_foldl_enter h with hmem | hempty
  · exact hmem
  · rw [AList.lookup_empty] at hempty
    cases hempty

theorem isSome_lookup_mapOf {es : List (κ × Option α)} {k : κ} {v : α}
    (h : (k, some v) ∈ es) : ((mapOf es).lookup k).isSome := by
  obtain ⟨before, after, rfl⟩ := List.append_of_mem h
  rw [mapOf, List.foldl_append, List.foldl_cons]
  apply isSome_foldl_enter
  rw [enter, AList.lookup_insert, Option.isSome_some]

theorem lookup_mapOf_map (f : κ → Option α) (ks : List κ) (k : κ) :
    (mapOf (ks.map fun k => (k, f k))).lookup k = if k ∈ ks then f k else none := by
  cases h : (mapOf (ks.map fun k => (k, f k))).lookup k with
  | some v =>
    have hmem := mem_of_lookup_mapOf h
    rw [List.mem_map] at hmem
    obtain ⟨k', hk', heq⟩ := hmem
    rw [Prod.mk.injEq] at heq
    obtain ⟨rfl, hf⟩ := heq
    rw [if_pos hk', hf]
  | none =>
    by_cases hk : k ∈ ks
    · rw [if_pos hk]
      cases hf : f k with
      | none => rfl
      | some v =>
        have hmem : (k, some v) ∈ ks.map fun k => (k, f k) :=
          List.mem_map.mpr ⟨k, hk, by rw [hf]⟩
        have hsome := isSome_lookup_mapOf hmem
        rw [h] at hsome
        cases hsome
    · rw [if_neg hk]

/-! ### One map over another -/

/-- The entries of the second map put into the first. -/
def overlay (m e : AList fun _ : κ => α) : AList fun _ : κ => α :=
  writeOut (fun m k v => m.insert k v) id e m

theorem pointwise_insert : Pointwise (fun (m : AList fun _ : κ => α) k v => m.insert k v)
    (fun m k => m.lookup k) (fun _ _ _ => true) where
  keeps _ _ _ := rfl
  self m _ _ := AList.lookup_insert m
  other _ _ _ _ hq := AList.lookup_insert_ne hq

theorem lookup_overlay (m e : AList fun _ : κ => α) (k : κ) :
    (overlay m e).lookup k = (e.lookup k).or (m.lookup k) := by
  have hread := read_writeOut pointwise_insert Function.injective_id e k m
  rw [id] at hread
  rw [overlay, hread]
  cases e.lookup k with
  | none => rfl
  | some v => rfl

/-- A map refreshed at its own keys has the same keys, and what the function says of them. -/
theorem lookup_overlay_mapOf (f : κ → Option α) (m : AList fun _ : κ => α) (k : κ) :
    (overlay m (mapOf (m.keys.map fun k => (k, f k)))).lookup k =
      if k ∈ m then (f k).or (m.lookup k) else none := by
  rw [lookup_overlay, lookup_mapOf_map]
  by_cases hk : k ∈ m
  · rw [if_pos (AList.mem_keys.mp hk), if_pos hk]
  · rw [if_neg (fun h => hk (AList.mem_keys.mpr h)), if_neg hk, Option.none_or,
      AList.lookup_eq_none.mpr hk]

end Theory
