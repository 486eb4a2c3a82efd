import Mathlib.Data.List.Basic

/-!
# Runs of a machine under conditions on its steps

A deterministic machine that may stop (`step s i = none`), its runs, and the induction rules
that every statement about runs rests on: an invariant preserved by each step that meets a
condition holds along each run whose steps all meet it, and a preorder that relates the ends
of each such step relates any two states of such a run, in order.
-/

namespace Theory

variable {σ ι : Type*} (step : σ → ι → Option σ)

/-- The state a list of inputs leads to, if the machine does not stop on the way. -/
def run : σ → List ι → Option σ
  | s, [] => some s
  | s, i :: is => (step s i).bind (fun s' => run s' is)

/-- The states a run goes through, the first one included. -/
def states : σ → List ι → List σ
  | s, [] => [s]
  | s, i :: is =>
    s :: (match step s i with
      | some s' => states s' is
      | none => [])

/-- Every step of the run meets the condition `C`, which looks at the state before it. -/
def Meets (C : σ → ι → Prop) : σ → List ι → Prop
  | _, [] => True
  | s, i :: is => C s i ∧ ∀ s', step s i = some s' → Meets C s' is

/-- What the steps of a run leave in a journal: `mark` says what each of them writes. -/
def journal {τ : Type*} (mark : σ → ι → List τ) : σ → List ι → List τ
  | _, [] => []
  | s, i :: is =>
    mark s i ++ (match step s i with
      | some s' => journal mark s' is
      | none => [])

variable {step}

variable {is js : List ι}

theorem run_cons {s : σ} {i : ι} {s' : σ} (h : run step s (i :: is) = some s') :
    ∃ m, step s i = some m ∧ run step m is = some s' := by
  simpa [run, Option.bind_eq_some_iff] using h

theorem run_append {s s' : σ} (h : run step s (is ++ js) = some s') :
    ∃ m, run step s is = some m ∧ run step m js = some s' := by
  induction is generalizing s with
  | nil => exact ⟨s, rfl, h⟩
  | cons i is ih =>
    obtain ⟨m, hm, hrest⟩ := run_cons h
    obtain ⟨t, ht, hjs⟩ := ih hrest
    refine ⟨t, ?_, hjs⟩
    rw [run, hm, Option.bind_some, ht]

theorem run_append_of {s m s' : σ} (h : run step s is = some m) (h' : run step m js = some s') :
    run step s (is ++ js) = some s' := by
  induction is generalizing s with
  | nil =>
    cases h
    exact h'
  | cons i is ih =>
    obtain ⟨t, ht, hrest⟩ := run_cons h
    rw [List.cons_append, run, ht, Option.bind_some]
    exact ih hrest

theorem exists_run_of_total (htotal : ∀ s i, ∃ s', step s i = some s') (s : σ) (is : List ι) :
    ∃ s', run step s is = some s' := by
  induction is generalizing s with
  | nil => exact ⟨s, rfl⟩
  | cons i is ih =>
    obtain ⟨m, hm⟩ := htotal s i
    obtain ⟨s', hs'⟩ := ih m
    refine ⟨s', ?_⟩
    rw [run, hm, Option.bind_some, hs']

theorem Meets.mono {C D : σ → ι → Prop} (hCD : ∀ s i, C s i → D s i) {s : σ}
    (h : Meets step C s is) : Meets step D s is := by
  induction is generalizing s with
  | nil => trivial
  | cons i is ih => exact ⟨hCD s i h.1, fun s' hs => ih (h.2 s' hs)⟩

theorem meets_of_forall {C : σ → ι → Prop} (hC : ∀ s i, C s i) (s : σ) (is : List ι) :
    Meets step C s is := by
  induction is generalizing s with
  | nil => trivial
  | cons i is ih => exact ⟨hC s i, fun s' _ => ih s'⟩

/-- What holds of all steps of a run holds of those of its second part. -/
theorem meets_of_append {C : σ → ι → Prop} {s m : σ} (h : Meets step C s (is ++ js))
    (hrun : run step s is = some m) : Meets step C m js := by
  induction is generalizing s with
  | nil =>
    cases hrun
    exact h
  | cons i is ih =>
    obtain ⟨t, ht, hrest⟩ := run_cons hrun
    exact ih (h.2 t ht) hrest

theorem Meets.append_left {C : σ → ι → Prop} {s : σ} (h : Meets step C s (is ++ js)) :
    Meets step C s is := by
  induction is generalizing s with
  | nil => trivial
  | cons i is ih => exact ⟨h.1, fun s' hs' => ih (h.2 s' hs')⟩

/-- What holds of all steps of a run holds of its last. -/
theorem meets_last {C : σ → ι → Prop} {s s' : σ} {i : ι} (h : Meets step C s (is ++ [i]))
    (hrun : run step s is = some s') : C s' i := by
  induction is generalizing s with
  | nil =>
    cases hrun
    exact h.1
  | cons j is ih =>
    obtain ⟨m, hm, hrest⟩ := run_cons hrun
    exact ih (h.2 m hm) hrest

/-- A run can be checked against a decidable condition by running it. -/
instance Meets.decidable {C : σ → ι → Prop} [∀ s i, Decidable (C s i)] :
    ∀ (s : σ) (is : List ι), Decidable (Meets step C s is)
  | _, [] => isTrue trivial
  | s, i :: is =>
    match h : step s i with
    | none => decidable_of_iff (C s i) (by simp [Meets, h])
    | some s' =>
      letI := Meets.decidable (C := C) s' is
      decidable_of_iff (C s i ∧ Meets step C s' is) (by simp [Meets, h])

section Invariant

variable {C : σ → ι → Prop} {I : σ → Prop}
  (hstep : ∀ s i s', I s → C s i → step s i = some s' → I s')

include hstep

theorem invariant_run {s s' : σ} {is : List ι} (hI : I s) (hC : Meets step C s is)
    (hrun : run step s is = some s') : I s' := by
  induction is generalizing s with
  | nil =>
    cases hrun
    exact hI
  | cons i is ih =>
    obtain ⟨m, hm, hrest⟩ := run_cons hrun
    exact ih (hstep s i m hI hC.1 hm) (hC.2 m hm) hrest

theorem invariant_states {s : σ} {is : List ι} (hI : I s) (hC : Meets step C s is) :
    ∀ t ∈ states step s is, I t := by
  induction is generalizing s with
  | nil =>
    intro t ht
    rw [states, List.mem_singleton] at ht
    exact ht ▸ hI
  | cons i is ih =>
    intro t ht
    rw [states, List.mem_cons] at ht
    rcases ht with rfl | ht
    · exact hI
    · cases hm : step s i with
      | none => simp [hm] at ht
      | some m =>
        rw [hm] at ht
        exact ih (hstep s i m hI hC.1 hm) (hC.2 m hm) t ht

/-- What an invariant says of each step of a run. -/
theorem invariant_meets {P : σ → ι → Prop} (hP : ∀ s i, I s → C s i → P s i) {s : σ}
    {is : List ι} (hI : I s) (hC : Meets step C s is) : Meets step P s is := by
  induction is generalizing s with
  | nil => trivial
  | cons i is ih =>
    refine ⟨hP s i hI hC.1, ?_⟩
    intro s' hs'
    exact ih (hstep s i s' hI hC.1 hs') (hC.2 s' hs')

end Invariant

/-- The journal of a run in two parts. -/
theorem journal_append {τ : Type*} {mark : σ → ι → List τ} {s s' : σ} {is : List ι}
    (hrun : run step s is = some s') (js : List ι) :
    journal step mark s (is ++ js) = journal step mark s is ++ journal step mark s' js := by
  induction is generalizing s with
  | nil =>
    cases hrun
    rfl
  | cons i is ih =>
    obtain ⟨m, hm, hrest⟩ := run_cons hrun
    rw [List.cons_append, journal, journal, hm]
    dsimp only
    rw [ih hrest, List.append_assoc]

variable {τ : Type*} {is : List ι}

/-- A journal in which each input leaves the same marks in every state. -/
theorem journal_eq_flatMap {mark : ι → List τ} {s s' : σ} (hrun : run step s is = some s') :
    journal step (fun _ i => mark i) s is = is.flatMap mark := by
  induction is generalizing s with
  | nil => rfl
  | cons i is ih =>
    obtain ⟨m, hm, hrest⟩ := run_cons hrun
    rw [journal, hm, List.flatMap_cons]
    dsimp only
    rw [ih hrest]

/-- The run rule for an invariant between the journal and the state. -/
theorem journal_run {mark : σ → ι → List τ} {J : List τ → σ → Prop} {C : σ → ι → Prop}
    (hmark : ∀ T s i s', J T s → C s i → step s i = some s' → J (T ++ mark s i) s') {T : List τ}
    {s s' : σ} (hJ : J T s) (hC : Meets step C s is) (hrun : run step s is = some s') :
    J (T ++ journal step mark s is) s' := by
  induction is generalizing s T with
  | nil =>
    cases hrun
    rw [journal, List.append_nil]
    exact hJ
  | cons i is ih =>
    obtain ⟨m, hm, hrest⟩ := run_cons hrun
    rw [journal, hm, ← List.append_assoc]
    exact ih (hmark T s i m hJ hC.1 hm) (hC.2 m hm) hrest

/-- What an invariant between the journal and the state says of each step of a run. -/
theorem journal_meets {mark : σ → ι → List τ} {J : List τ → σ → Prop} {C P : σ → ι → Prop}
    (hmark : ∀ T s i s', J T s → C s i → step s i = some s' → J (T ++ mark s i) s')
    (hP : ∀ T s i, J T s → C s i → P s i) {T : List τ} {s : σ} (hJ : J T s)
    (hC : Meets step C s is) : Meets step P s is := by
  induction is generalizing s T with
  | nil => trivial
  | cons i is ih =>
    refine ⟨hP T s i hJ hC.1, ?_⟩
    intro s' hs'
    exact ih (hmark T s i s' hJ hC.1 hs') (hC.2 s' hs')

/-- What it says of each state of a run. -/
theorem journal_states {mark : σ → ι → List τ} {J : List τ → σ → Prop} {C : σ → ι → Prop}
    (hmark : ∀ T s i s', J T s → C s i → step s i = some s' → J (T ++ mark s i) s') {T : List τ}
    {s : σ} (hJ : J T s) (hC : Meets step C s is) : ∀ t ∈ states step s is, ∃ T, J T t := by
  induction is generalizing s T with
  | nil =>
    intro t ht
    rw [states, List.mem_singleton] at ht
    exact ⟨T, ht ▸ hJ⟩
  | cons i is ih =>
    intro t ht
    rw [states, List.mem_cons] at ht
    rcases ht with rfl | ht
    · exact ⟨T, hJ⟩
    · cases hm : step s i with
      | none => simp [hm] at ht
      | some m =>
        rw [hm] at ht
        exact ih (hmark T s i m hJ hC.1 hm) (hC.2 m hm) t ht

/-- The machine that keeps its own journal, so that a condition can look back at it. -/
def journaled {τ : Type*} (step : σ → ι → Option σ) (mark : σ → ι → List τ) :
    σ × List τ → ι → Option (σ × List τ)
  | (s, log), i => (step s i).map fun s' => (s', log ++ mark s i)

/-- The run rule for an invariant between the journal and the state, when the condition on the steps
looks back. -/
theorem journaled_run {mark : σ → ι → List τ} {J : List τ → σ → Prop} {C : σ × List τ → ι → Prop}
    (hmark : ∀ T s i s', J T s → C (s, T) i → step s i = some s' → J (T ++ mark s i) s')
    {T : List τ} {s s' : σ} (hJ : J T s) (hC : Meets (journaled step mark) C (s, T) is)
    (hrun : run step s is = some s') : J (T ++ journal step mark s is) s' := by
  induction is generalizing s T with
  | nil =>
    cases hrun
    rw [journal, List.append_nil]
    exact hJ
  | cons i is ih =>
    obtain ⟨m, hm, hrest⟩ := run_cons hrun
    rw [journal, hm, ← List.append_assoc]
    refine ih (hmark T s i m hJ hC.1 hm) (hC.2 _ ?_) hrest
    rw [journaled, hm]
    rfl

end Theory
