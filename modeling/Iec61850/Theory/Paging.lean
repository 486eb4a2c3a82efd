import Mathlib.Algebra.Order.Ring.Int
import Mathlib.Data.List.Basic

/-!
# Reading a list page by page

A reader asks for a page, and then for the page after the last element it was given, for as long as
it is told that more follows. `followPages_eq` says that this ends with the whole list, as long as
the page after an element is one of what comes after it in the list. The pages are as long as a count
allows, or as a budget does (`fill`); a reader that puts them together up to a limit of its own
(`collectPages`) gets the list or runs into the limit.
-/

namespace Theory

variable {α : Type*}

/-- The first elements of a list, as many as fit, and whether there are more. -/
def page (n : Nat) (xs : List α) : List α × Bool := (xs.take n, decide (n < xs.length))

/-- Follow the pages: `next x` is the page after `x`. A page that promises more but is empty has no
element to go on from. -/
def followPages (next : α → List α × Bool) : Nat → List α × Bool → Option (List α)
  | 0, _ => none
  | fuel + 1, (xs, more) =>
    if more then
      match xs.getLast? with
      | some x => (followPages next fuel (next x)).map fun rest => xs ++ rest
      | none => some xs
    else some xs

/-- A page that is not the last one ends in an element, with what is left behind it. -/
theorem exists_last_of_page {n : Nat} (hn : 0 < n) {xs : List α} (hmore : n < xs.length) :
    ∃ before x, xs = before ++ x :: xs.drop n ∧ (xs.take n).getLast? = some x ∧
      xs.take n = before ++ [x] := by
  have hne : xs.take n ≠ [] := by
    intro hnil
    have hlen := congrArg List.length hnil
    rw [List.length_take, List.length_nil] at hlen
    omega
  refine ⟨(xs.take n).dropLast, (xs.take n).getLast hne, ?_, ?_, ?_⟩
  · calc xs = xs.take n ++ xs.drop n := (List.take_append_drop n xs).symm
      _ = ((xs.take n).dropLast ++ [(xs.take n).getLast hne]) ++ xs.drop n := by
          rw [List.dropLast_append_getLast]
      _ = (xs.take n).dropLast ++ (xs.take n).getLast hne :: xs.drop n := by
          rw [List.append_assoc, List.singleton_append]
  · exact List.getLast?_eq_some_getLast hne
  · exact (List.dropLast_append_getLast hne).symm

/-- Following the pages of the end of a list gives the end of the list, with one query for each
element at most. -/
theorem followPages_suffix {next : α → List α × Bool} {n : Nat} (hn : 0 < n) {xs : List α}
    (hnext : ∀ before x rest, xs = before ++ x :: rest → next x = page n rest) :
    ∀ (fuel : Nat) (before ys : List α), xs = before ++ ys → ys.length < fuel →
      followPages next fuel (page n ys) = some ys := by
  intro fuel
  induction fuel with
  | zero =>
    intro before ys hxs hfuel
    exact absurd hfuel (Nat.not_lt_zero _)
  | succ fuel ih =>
    intro before ys hxs hfuel
    rw [page, followPages]
    by_cases hmore : n < ys.length
    · obtain ⟨front, x, hys, hlast, htake⟩ := exists_last_of_page hn hmore
      have hsplit : xs = (before ++ front) ++ x :: ys.drop n := by
        rw [hxs, List.append_assoc, ← hys]
      have hrest : followPages next fuel (page n (ys.drop n)) = some (ys.drop n) := by
        apply ih (before ++ front ++ [x])
        · rw [hsplit, List.append_assoc _ [x], List.singleton_append]
        · rw [List.length_drop]
          omega
      rw [if_pos (decide_eq_true hmore), hlast]
      dsimp only
      rw [hnext _ _ _ hsplit, hrest, Option.map_some, List.take_append_drop]
    · rw [if_neg (by simpa using hmore), List.take_of_length_le (Nat.not_lt.mp hmore)]

/-- Following the pages of a list gives the list. -/
theorem followPages_eq {next : α → List α × Bool} {n : Nat} (hn : 0 < n) {xs : List α}
    (hnext : ∀ before x rest, xs = before ++ x :: rest → next x = page n rest) {fuel : Nat}
    (hfuel : xs.length < fuel) : followPages next fuel (page n xs) = some xs :=
  followPages_suffix hn hnext fuel [] xs rfl hfuel

/-! ### Pages of what is looked for -/

/-- Going through a list, `C` picks what `P` does until a page of `n` elements is full, and behind it
there is something left to pick for both or for neither. -/
def Agree (C P : α → Prop) : Nat → List α → Prop
  | 0, xs => (∃ x ∈ xs, C x) ↔ ∃ x ∈ xs, P x
  | _ + 1, [] => True
  | n + 1, x :: xs => (C x ↔ P x) ∧ (P x → Agree C P n xs) ∧ (¬ P x → Agree C P (n + 1) xs)

theorem page_succ_cons (n : Nat) (x : α) (xs : List α) :
    page (n + 1) (x :: xs) = (x :: (page n xs).1, (page n xs).2) := by
  simp [page]

theorem page_zero_eq_iff {xs ys : List α} :
    page 0 xs = page 0 ys ↔ ((∃ x, x ∈ xs) ↔ ∃ y, y ∈ ys) := by
  cases xs <;> cases ys <;> simp [page]

theorem page_ne_of_not_mem {n : Nat} {x : α} {xs ys : List α} (h : x ∉ ys) :
    page (n + 1) (x :: xs) ≠ page (n + 1) ys := by
  intro heq
  rw [page_succ_cons] at heq
  have hmem : x ∈ ys.take (n + 1) := by
    have hfst : x :: (page n xs).1 = ys.take (n + 1) := congrArg Prod.fst heq
    rw [← hfst]
    exact List.mem_cons_self
  exact h (List.mem_of_mem_take hmem)

/-- Two selections from a list without repetitions have the same page exactly when they agree as far
as the page goes. -/
theorem page_filter_eq_iff {C P : α → Bool} {xs : List α} (h : xs.Nodup) (n : Nat) :
    page n (xs.filter C) = page n (xs.filter P) ↔ Agree (C · = true) (P · = true) n xs := by
  induction xs generalizing n with
  | nil =>
    cases n with
    | zero => simp [Agree]
    | succ n => simp [Agree]
  | cons x xs ih =>
    cases n with
    | zero =>
      rw [page_zero_eq_iff]
      simp [Agree]
    | succ n =>
      obtain ⟨hx, hxs⟩ := List.nodup_cons.mp h
      have hnot : ∀ Q : α → Bool, x ∉ xs.filter Q := fun Q hmem => hx (List.mem_filter.mp hmem).1
      rw [Agree]
      cases hC : C x <;> cases hP : P x
      · rw [List.filter_cons_of_neg (by simp [hC]), List.filter_cons_of_neg (by simp [hP]),
          ih hxs]
        simp
      · rw [List.filter_cons_of_neg (by simp [hC]), List.filter_cons_of_pos hP]
        simpa using (page_ne_of_not_mem (hnot C)).symm
      · rw [List.filter_cons_of_pos hC, List.filter_cons_of_neg (by simp [hP])]
        simpa using page_ne_of_not_mem (hnot P)
      · rw [List.filter_cons_of_pos hC, List.filter_cons_of_pos hP, page_succ_cons,
          page_succ_cons, Prod.mk.injEq, List.cons.injEq, and_iff_right rfl, ← Prod.ext_iff,
          ih hxs]
        simp

/-! ### Pages within a budget -/

section Budget

variable {κ : Type*} [DecidableEq κ] (key : α → κ) (cost : α → Nat) (budget : Nat)

/-- Elements are taken as long as the budget covers them, and one in any case; whether some are left
comes with them. -/
def fill : List α → Nat → List α → List α × Bool
  | taken, _, [] => (taken, false)
  | taken, used, x :: rest =>
    if taken ≠ [] ∧ used + cost x > budget then (taken, true)
    else fill (taken ++ [x]) (used + cost x) rest

/-- The page that begins behind the element with a key; behind none there is nothing. -/
def resume (xs : List α) : Option κ → List α × Bool
  | none => fill cost budget [] 0 xs
  | some k =>
    match xs.findIdx? (fun x => key x = k) with
    | some i => fill cost budget [] 0 (xs.drop (i + 1))
    | none => ([], false)

/-- A page of what is left of a list: it begins it, is empty only when nothing is left, says whether
anything is left behind it, and costs no more than the budget unless it is one element. -/
structure IsPage (rest taken : List α) (more : Bool) : Prop where
  splits : ∃ tail, rest = taken ++ tail ∧ (more = true ↔ tail ≠ [])
  filled : rest ≠ [] → taken ≠ []
  within : taken.length ≤ 1 ∨ (taken.map cost).sum ≤ budget

theorem fill_spec (taken rest : List α)
    (hwithin : taken.length ≤ 1 ∨ (taken.map cost).sum ≤ budget) :
    ∃ new more, fill cost budget taken (taken.map cost).sum rest = (taken ++ new, more) ∧
      (∃ tail, rest = new ++ tail ∧ (more = true ↔ tail ≠ [])) ∧ (taken ++ new = [] → rest = []) ∧
      ((taken ++ new).length ≤ 1 ∨ ((taken ++ new).map cost).sum ≤ budget) := by
  induction rest generalizing taken with
  | nil => exact ⟨[], false, by rw [fill, List.append_nil], ⟨[], rfl, by simp⟩, fun _ => rfl,
      by rwa [List.append_nil]⟩
  | cons x rest ih =>
    rw [fill]
    split
    · rename_i hfull
      refine ⟨[], true, by rw [List.append_nil], ⟨x :: rest, rfl, by simp⟩, ?_, ?_⟩
      · intro hnil
        rw [List.append_nil] at hnil
        exact absurd hnil hfull.1
      · rwa [List.append_nil]
    · rename_i hroom
      have hsum : (taken.map cost).sum + cost x = ((taken ++ [x]).map cost).sum := by simp
      have hnext : (taken ++ [x]).length ≤ 1 ∨ ((taken ++ [x]).map cost).sum ≤ budget := by
        rw [← hsum]
        by_cases hnil : taken = []
        · left
          simp [hnil]
        · right
          by_contra hover
          exact hroom ⟨hnil, by omega⟩
      obtain ⟨new, more, heq, ⟨tail, htail, hmore⟩, -, hin⟩ := ih (taken ++ [x]) hnext
      refine ⟨x :: new, more, ?_, ⟨tail, by rw [htail, List.cons_append], hmore⟩, ?_, ?_⟩
      · rw [hsum, heq, List.append_assoc, List.singleton_append]
      · simp
      · rw [List.append_assoc, List.singleton_append] at hin
        exact hin

variable {key cost budget}

theorem isPage_fill (rest : List α) :
    IsPage cost budget rest (fill cost budget [] 0 rest).1 (fill cost budget [] 0 rest).2 := by
  obtain ⟨new, more, heq, hsplits, hnil, hin⟩ := fill_spec cost budget [] rest
    (Or.inl (Nat.zero_le _))
  have heq' : fill cost budget [] 0 rest = (new, more) := heq
  rw [heq']
  exact ⟨hsplits, fun hne hnew => hne (hnil hnew), hin⟩

/-- Behind the last element of the first part of a list comes the second part. -/
theorem resume_append {done rest : List α} (h : ((done ++ rest).map key).Nodup) :
    resume key cost budget (done ++ rest) (done.getLast?.map key) = fill cost budget [] 0 rest := by
  rcases List.eq_nil_or_concat done with rfl | ⟨front, x, rfl⟩
  · rfl
  · rw [List.concat_eq_append] at h ⊢
    have hfresh : ∀ y ∈ front, key y ≠ key x := by
      intro y hy heq
      rw [List.append_assoc, List.map_append, List.nodup_append] at h
      exact h.2.2 (key y) (List.mem_map_of_mem hy) (key x) (by simp) heq
    have hfind : (front ++ [x] ++ rest).findIdx? (fun y => key y = key x) =
        some front.length := by
      rw [List.append_assoc, List.findIdx?_append, List.findIdx?_eq_none_iff.mpr]
      · simp [List.findIdx?_cons]
      · intro y hy
        simpa using hfresh y hy
    rw [List.getLast?_concat, Option.map_some, resume, hfind]
    dsimp only
    rw [List.drop_left' (by simp)]

theorem isPage_resume {all done rest : List α} (hall : all = done ++ rest)
    (h : (all.map key).Nodup) :
    IsPage cost budget rest (resume key cost budget all (done.getLast?.map key)).1
      (resume key cost budget all (done.getLast?.map key)).2 := by
  subst hall
  rw [resume_append h]
  exact isPage_fill rest

end Budget

/-! ### Asking for the pages of a list -/

section Collect

variable {ε : Type*}

/-- Pages are put together until one is empty or the last, or until they are more than `cap`
elements. `ask` is given what there is so far. -/
def collectPages (cap : Nat) (tooMany : Nat → ε) (ask : List α → Except ε (List α × Bool)) :
    Nat → List α → Option (Except ε (List α))
  | 0, _ => none
  | fuel + 1, out =>
    match ask out with
    | .error e => some (.error e)
    | .ok (taken, more) =>
      if !more || taken.isEmpty then some (.ok (out ++ taken))
      else if (out ++ taken).length > cap then some (.error (tooMany (out ++ taken).length))
      else collectPages cap tooMany ask fuel (out ++ taken)

/-- The loop ends after a page for each element that is left, at the latest: with the whole list, or
because it is longer than `cap`. -/
theorem collectPages_ends {cap : Nat} {tooMany : Nat → ε} {ask : List α → Except ε (List α × Bool)}
    {cost : α → Nat} {budget : Nat} {all : List α} (hask : ∀ done rest, all = done ++ rest →
      ∃ taken more, ask done = .ok (taken, more) ∧ IsPage cost budget rest taken more)
    {out rest : List α} (hall : all = out ++ rest) {fuel : Nat} (hfuel : rest.length < fuel) :
    ∃ r, collectPages cap tooMany ask fuel out = some r ∧
      (r = .ok all ∨ ∃ n, cap < n ∧ n ≤ all.length ∧ r = .error (tooMany n)) := by
  induction fuel generalizing out rest with
  | zero => exact absurd hfuel (Nat.not_lt_zero _)
  | succ fuel ih =>
    obtain ⟨taken, more, hpage, ⟨tail, hsplit, hmore⟩, hfilled, -⟩ := hask out rest hall
    have hout : all = (out ++ taken) ++ tail := by rw [hall, hsplit, List.append_assoc]
    rw [collectPages, hpage]
    dsimp only
    split
    · rename_i hlast
      have htail : tail = [] := by
        by_contra hne
        have hempty : taken = [] := by simpa [hmore.mpr hne] using hlast
        refine hfilled ?_ hempty
        rw [hsplit]
        simp [hne]
      refine ⟨_, rfl, Or.inl ?_⟩
      rw [hout, htail, List.append_nil]
    · rename_i hgoes
      have hne : taken ≠ [] := by
        rintro rfl
        simp at hgoes
      have hlen : rest.length = taken.length + tail.length := by rw [hsplit, List.length_append]
      have hpos := List.length_pos_iff.mpr hne
      split
      · rename_i hover
        refine ⟨_, rfl, Or.inr ⟨_, hover, ?_, rfl⟩⟩
        have hwhole := congrArg List.length hout
        rw [List.length_append] at hwhole
        omega
      · exact ih hout (by omega)

/-- A list of no more than `cap` elements is put together whole. -/
theorem collectPages_all (cost : α → Nat) (budget : Nat) {cap : Nat} {tooMany : Nat → ε}
    {ask : List α → Except ε (List α × Bool)} {all : List α}
    (hask : ∀ done rest, all = done ++ rest →
      ∃ taken more, ask done = .ok (taken, more) ∧ IsPage cost budget rest taken more)
    (hcap : all.length ≤ cap) : collectPages cap tooMany ask (all.length + 1) [] = some (.ok all) := by
  obtain ⟨r, hr, hends⟩ : ∃ r, collectPages cap tooMany ask (all.length + 1) [] = some r ∧
      (r = .ok all ∨ ∃ n, cap < n ∧ n ≤ all.length ∧ r = .error (tooMany n)) :=
    collectPages_ends hask (List.nil_append all).symm (Nat.lt_succ_self _)
  rcases hends with rfl | ⟨n, hn, hle, -⟩
  · exact hr
  · exact absurd hn (by omega)

end Collect

end Theory
