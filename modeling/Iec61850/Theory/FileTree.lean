import Mathlib.Data.List.Infix
import Mathlib.Data.List.Nodup

/-!
# Trees of files with symbolic links

A tree of files as what stands at each path of names, the real path that a path with `.`, `..` and
symbolic links in it leads to, and a traversal that stops at a depth and enters no directory once it
has found more than a number of files.
-/

namespace Theory

/-- A component of a path. -/
inductive Component (ν : Type*) where
  | here
  | up
  | name (n : ν)
  deriving DecidableEq, Repr

/-- What stands at a place of a tree. -/
inductive Standing (ν φ : Type*) where
  | file (contents : φ)
  | directory
  | link (absolute : Bool) (target : List (Component ν))
  | other

/-- A tree of files: what stands at the paths of names, and the entries of its directories in the
order they are read. -/
structure FileTree (ν φ : Type*) where
  standing : List ν → Option (Standing ν φ)
  entries : List ν → List ν
  root : standing [] = some .directory
  parent : ∀ p n, standing (p ++ [n]) ≠ none → standing p = some .directory
  mem_entries : ∀ p n, n ∈ entries p ↔ standing (p ++ [n]) ≠ none
  nodup_entries : ∀ p, (entries p).Nodup

namespace FileTree

variable {ν φ : Type*} (t : FileTree ν φ)

/-- Something other than a symbolic link stands at the path. -/
def IsReal (p : List ν) : Prop :=
  ∃ s, t.standing p = some s ∧ ∀ absolute target, s ≠ .link absolute target

theorem isReal_root : t.IsReal [] := ⟨.directory, t.root, fun _ _ h => nomatch h⟩

theorem isReal_of_directory {p : List ν} (h : t.standing p = some .directory) : t.IsReal p :=
  ⟨.directory, h, fun _ _ h => nomatch h⟩

theorem isReal_of_file {p : List ν} {contents : φ} (h : t.standing p = some (.file contents)) :
    t.IsReal p :=
  ⟨.file contents, h, fun _ _ h => nomatch h⟩

theorem directory_of_append {p q : List ν} (hq : q ≠ []) (h : t.standing (p ++ q) ≠ none) :
    t.standing p = some .directory := by
  induction q using List.reverseRecOn with
  | nil => exact absurd rfl hq
  | append_singleton q n ih =>
    have hparent := t.parent (p ++ q) n (by rwa [List.append_assoc])
    cases q with
    | nil => rwa [List.append_nil] at hparent
    | cons m q => exact ih (List.cons_ne_nil m q) (by rw [hparent]; exact Option.some_ne_none _)

theorem isReal_dropLast (p : List ν) (h : t.IsReal p) : t.IsReal p.dropLast := by
  induction p using List.reverseRecOn with
  | nil => exact t.isReal_root
  | append_singleton p n _ =>
    obtain ⟨s, hs, -⟩ := h
    rw [List.dropLast_concat]
    exact t.isReal_of_directory (t.parent p n (by rw [hs]; exact Option.some_ne_none _))

/-! ### Where a path leads -/

/-- The components of a path one after another, and what is done at a symbolic link. -/
def steps (follow : List ν → List (Component ν) → Option (List ν)) :
    List ν → List (Component ν) → Option (List ν)
  | cur, [] => some cur
  | cur, c :: rest =>
    match t.standing cur with
    | some .directory =>
      match c with
      | .here => steps follow cur rest
      | .up => steps follow cur.dropLast rest
      | .name n =>
        match t.standing (cur ++ [n]) with
        | none => none
        | some (.link absolute target) =>
          follow (if absolute then [] else cur) (target ++ rest)
        | some _ => steps follow (cur ++ [n]) rest
    | _ => none

/-- The real path that a path leads to from a directory, over at most a number of symbolic links. -/
def resolve : Nat → List ν → List (Component ν) → Option (List ν)
  | 0 => t.steps fun _ _ => none
  | links + 1 => t.steps (resolve links)

variable {t}

variable {cur e : List ν} {path : List (Component ν)} {links : Nat}

variable {follow : List ν → List (Component ν) → Option (List ν)} {real names : List ν}

theorem steps_isReal
    (hfollow : ∀ cur path real, t.IsReal cur → follow cur path = some real → t.IsReal real)
    (hcur : t.IsReal cur) (h : t.steps follow cur path = some real) : t.IsReal real := by
  induction path generalizing cur with
  | nil =>
    cases h
    exact hcur
  | cons c rest ih =>
    rw [steps.eq_def] at h
    dsimp only at h
    split at h
    · cases c with
      | here => exact ih hcur h
      | up => exact ih (t.isReal_dropLast cur hcur) h
      | name n =>
        dsimp only at h
        split at h
        · cases h
        · rename_i absolute target _
          cases absolute with
          | true => exact hfollow _ _ _ t.isReal_root h
          | false => exact hfollow _ _ _ hcur h
        · rename_i s hlink hs
          refine ih ⟨s, hs, ?_⟩ h
          intro absolute target heq
          exact hlink absolute target heq
    · cases h

theorem resolve_isReal (hcur : t.IsReal cur) (h : t.resolve links cur path = some real) :
    t.IsReal real := by
  induction links generalizing cur path real with
  | zero => exact steps_isReal (fun _ _ _ _ h => by cases h) hcur h
  | succ links ih => exact steps_isReal (fun _ _ _ hcur h => ih hcur h) hcur h

theorem steps_names (follow : List ν → List (Component ν) → Option (List ν))
    (h : t.IsReal (cur ++ names)) : t.steps follow cur (names.map .name) = some (cur ++ names) := by
  induction names generalizing cur with
  | nil => rw [List.append_nil, List.map_nil, steps]
  | cons n names ih =>
    have hsplit : cur ++ n :: names = (cur ++ [n]) ++ names := by simp
    obtain ⟨s, hs, hreal⟩ := h
    have hdirectory := t.directory_of_append (List.cons_ne_nil n names)
      (by rw [hs]; exact Option.some_ne_none _)
    rw [hsplit] at hs ⊢
    have hrest := ih ⟨s, hs, hreal⟩
    rw [List.map_cons, steps, hdirectory]
    dsimp only
    cases names with
    | nil =>
      rw [List.append_nil] at hs
      rw [hs]
      cases s with
      | link absolute target => exact absurd rfl (hreal absolute target)
      | file contents => exact hrest
      | directory => exact hrest
      | other => exact hrest
    | cons m names =>
      rw [t.directory_of_append (List.cons_ne_nil m names)
        (by rw [hs]; exact Option.some_ne_none _)]
      exact hrest

theorem resolve_names (links : Nat) {cur names : List ν} (h : t.IsReal (cur ++ names)) :
    t.resolve links cur (names.map .name) = some (cur ++ names) := by
  cases links with
  | zero => exact steps_names _ h
  | succ links => exact steps_names _ h

theorem steps_append (hfollow : ∀ cur path, follow cur path = some e →
      ∃ m, ∀ rest, follow cur (path ++ rest) = t.resolve m e rest)
    (hlinks : t.resolve links = t.steps follow) (h : t.steps follow cur path = some e) :
    ∃ m, ∀ rest, t.steps follow cur (path ++ rest) = t.resolve m e rest := by
  induction path generalizing cur with
  | nil =>
    cases h
    refine ⟨links, fun rest => ?_⟩
    rw [hlinks]
    rfl
  | cons c path ih =>
    rw [steps.eq_def] at h
    dsimp only at h
    split at h
    · rename_i hdirectory
      cases c with
      | here =>
        obtain ⟨m, hm⟩ := ih h
        refine ⟨m, fun rest => ?_⟩
        rw [List.cons_append, steps, hdirectory]
        exact hm rest
      | up =>
        obtain ⟨m, hm⟩ := ih h
        refine ⟨m, fun rest => ?_⟩
        rw [List.cons_append, steps, hdirectory]
        exact hm rest
      | name n =>
        dsimp only at h
        split at h
        · cases h
        · rename_i absolute target hlink
          obtain ⟨m, hm⟩ := hfollow _ _ h
          refine ⟨m, fun rest => ?_⟩
          rw [List.cons_append, steps, hdirectory]
          dsimp only
          rw [hlink, ← hm rest, List.append_assoc]
        · rename_i standing hnot hstanding
          obtain ⟨m, hm⟩ := ih h
          refine ⟨m, fun rest => ?_⟩
          rw [List.cons_append, steps, hdirectory]
          dsimp only
          rw [hstanding, ← hm rest]
          cases standing with
          | link absolute target => exact absurd rfl (hnot absolute target)
          | file contents => rfl
          | directory => rfl
          | other => rfl
    · cases h

theorem resolve_append (h : t.resolve links cur path = some e) :
    ∃ m, ∀ rest, t.resolve links cur (path ++ rest) = t.resolve m e rest := by
  induction links generalizing cur path with
  | zero => exact steps_append (fun _ _ h => by cases h) (rfl : t.resolve 0 = _) h
  | succ links ih => exact steps_append (fun _ _ h => ih h) (rfl : t.resolve (links + 1) = _) h

theorem resolve_append_names {d : List ν} (h : t.resolve links cur path = some d)
    (hreal : t.IsReal (d ++ names)) :
    t.resolve links cur (path ++ names.map .name) = some (d ++ names) := by
  obtain ⟨m, hm⟩ := resolve_append h
  rw [hm, resolve_names m hreal]

/-- A path leads nowhere behind what is no directory. -/
theorem resolve_append_of_ne_directory {rest : List (Component ν)}
    (h : t.resolve links cur path = some e) (he : t.standing e ≠ some .directory)
    (hrest : rest ≠ []) : t.resolve links cur (path ++ rest) = none := by
  obtain ⟨m, hm⟩ := resolve_append h
  obtain ⟨c, rest, rfl⟩ := List.exists_cons_of_ne_nil hrest
  have hnone (follow : List ν → List (Component ν) → Option (List ν)) :
      t.steps follow e (c :: rest) = none := by
    rw [steps.eq_def]
    dsimp only
    split
    · rename_i hdirectory
      exact absurd hdirectory he
    · rfl
  rw [hm]
  cases m with
  | zero => exact hnone _
  | succ m => exact hnone _

/-! ### A bounded traversal -/

section Traversal

variable (t) (keep : List ν → Bool) (cap : Nat)

/-- The files that the traversal of a directory finds at an entry, with that many levels left. -/
def filesAt (files : List ν → List (List ν)) (d : List ν) (n : ν) : List (List ν) :=
  match t.standing (d ++ [n]) with
  | some .directory => files (d ++ [n])
  | some (.file _) => if keep (d ++ [n]) then [d ++ [n]] else []
  | _ => []

/-- The files that are kept in a directory and its directories, that many levels deep. -/
def files : Nat → List ν → List (List ν)
  | 0, _ => []
  | left + 1, d => (t.entries d).flatMap (t.filesAt keep (files left) d)

/-- One entry of a traversal that enters directories as it may. -/
def walkEntry (walk : List ν → List (List ν) → List (List ν)) (d : List ν)
    (out : List (List ν)) (n : ν) : List (List ν) :=
  match t.standing (d ++ [n]) with
  | some .directory => walk (d ++ [n]) out
  | some (.file _) => if keep (d ++ [n]) then out ++ [d ++ [n]] else out
  | _ => out

/-- The traversal that enters no directory once it has found more than `cap` files. -/
def walk : Nat → List ν → List (List ν) → List (List ν)
  | 0, _, out => out
  | left + 1, d, out =>
    if cap < out.length then out else (t.entries d).foldl (t.walkEntry keep (walk left) d) out

/-- How many files are found before a directory below is entered. -/
def filesBefore [DecidableEq ν] : Nat → List ν → List ν → Nat
  | _, _, [] => 0
  | 0, _, _ => 0
  | left + 1, d, n :: names =>
    (((t.entries d).takeWhile fun m => decide (m ≠ n)).flatMap
      (t.filesAt keep (t.files keep left) d)).length + filesBefore left (d ++ [n]) names

variable {t keep cap}

variable {walk : List ν → List (List ν) → List (List ν)} {files : List ν → List (List ν)}
  {d : List ν} {out : List (List ν)} {left : Nat}

theorem walkEntry_uncut {n : ν}
    (hwalk : ∀ d out, out.length + (files d).length ≤ cap → walk d out = out ++ files d)
    (h : out.length + (t.filesAt keep files d n).length ≤ cap) :
    t.walkEntry keep walk d out n = out ++ t.filesAt keep files d n := by
  unfold filesAt at h ⊢
  unfold walkEntry
  split
  · rename_i hs
    rw [hs] at h
    exact hwalk _ _ h
  · split
    · rfl
    · exact (List.append_nil _).symm
  · exact (List.append_nil _).symm

theorem foldl_uncut {names : List ν}
    (hwalk : ∀ d out, out.length + (files d).length ≤ cap → walk d out = out ++ files d)
    (h : out.length + (names.flatMap (t.filesAt keep files d)).length ≤ cap) :
    names.foldl (t.walkEntry keep walk d) out = out ++ names.flatMap (t.filesAt keep files d) := by
  induction names generalizing out with
  | nil => exact (List.append_nil _).symm
  | cons n names ih =>
    rw [List.flatMap_cons, List.length_append, ← Nat.add_assoc] at h
    rw [List.foldl_cons, walkEntry_uncut hwalk (Nat.le_trans (Nat.le_add_right _ _) h), ih,
      List.flatMap_cons, List.append_assoc]
    rwa [List.length_append]

theorem walk_uncut (h : out.length + (t.files keep left d).length ≤ cap) :
    t.walk keep cap left d out = out ++ t.files keep left d := by
  induction left generalizing d out with
  | zero => exact (List.append_nil _).symm
  | succ left ih =>
    rw [walk, if_neg (Nat.not_lt.mpr (Nat.le_trans (Nat.le_add_right _ _) h))]
    exact foldl_uncut (fun d out => ih) h

theorem walkEntry_mono (hwalk : ∀ (d : List ν) (out : List (List ν)), out.Sublist (walk d out))
    (d : List ν) (out : List (List ν)) (n : ν) : out.Sublist (t.walkEntry keep walk d out n) := by
  unfold walkEntry
  split
  · exact hwalk _ _
  · split
    · exact List.sublist_append_left _ _
    · exact List.Sublist.refl _
  · exact List.Sublist.refl _

theorem foldl_mono (hwalk : ∀ (d : List ν) (out : List (List ν)), out.Sublist (walk d out))
    (d : List ν) (names : List ν) (out : List (List ν)) :
    out.Sublist (names.foldl (t.walkEntry keep walk d) out) := by
  induction names generalizing out with
  | nil => exact List.Sublist.refl _
  | cons n names ih => exact (walkEntry_mono hwalk d out n).trans (ih _)

theorem walk_mono (left : Nat) (d : List ν) (out : List (List ν)) :
    out.Sublist (t.walk keep cap left d out) := by
  induction left generalizing d out with
  | zero => exact List.Sublist.refl _
  | succ left ih =>
    rw [walk]
    split
    · exact List.Sublist.refl _
    · exact foldl_mono ih d _ out

theorem foldl_over {names : List ν}
    (hwalk : ∀ d out, out.length + (files d).length ≤ cap → walk d out = out ++ files d)
    (hover : ∀ d out, cap < out.length + (files d).length → cap < (walk d out).length)
    (hmono : ∀ (d : List ν) (out : List (List ν)), out.Sublist (walk d out))
    (h : cap < out.length + (names.flatMap (t.filesAt keep files d)).length) :
    cap < (names.foldl (t.walkEntry keep walk d) out).length := by
  induction names generalizing out with
  | nil => exact h
  | cons n names ih =>
    rw [List.foldl_cons]
    by_cases hn : out.length + (t.filesAt keep files d n).length ≤ cap
    · refine ih ?_
      rw [walkEntry_uncut hwalk hn, List.length_append]
      rwa [List.flatMap_cons, List.length_append, ← Nat.add_assoc] at h
    · refine Nat.lt_of_lt_of_le ?_ (foldl_mono hmono d names _).length_le
      rw [Nat.not_le] at hn
      unfold filesAt at hn
      unfold walkEntry
      split
      · rename_i hs
        rw [hs] at hn
        exact hover _ _ hn
      · rename_i hs
        rw [hs] at hn
        dsimp only at hn
        split
        · rename_i hkeep
          rw [if_pos hkeep] at hn
          rwa [List.length_append]
        · rename_i hkeep
          rwa [if_neg hkeep] at hn
      · rename_i hdirectory hfile
        split at hn
        · rename_i hs
          exact absurd hs hdirectory
        · rename_i hs
          exact absurd hs (hfile _)
        · exact hn

theorem walk_over (h : cap < out.length + (t.files keep left d).length) :
    cap < (t.walk keep cap left d out).length := by
  induction left generalizing d out with
  | zero => exact h
  | succ left ih =>
    rw [walk]
    split
    · assumption
    · exact foldl_over (fun d out => walk_uncut) (fun d out => ih) (walk_mono left) h

/-- A kept file in a directory at most `left` levels deep, found as long as no more than `cap` files
come before its directory. -/
def Reached [DecidableEq ν] (t : FileTree ν φ) (keep : List ν → Bool) (cap left : Nat)
    (d : List ν) (found : Nat) (p : List ν) : Prop :=
  ∃ names n, p = d ++ names ++ [n] ∧ names.length < left ∧
    (∃ contents, t.standing p = some (.file contents)) ∧ keep p = true ∧
    found + t.filesBefore keep left d names ≤ cap

/-- What a fold finds it finds at one of the elements. -/
theorem exists_of_mem_foldl {α β : Type*} {f : List α → β → List α} {xs : List β} {out : List α}
    {a : α} (h : a ∈ xs.foldl f out) (hout : a ∉ out) :
    ∃ pre x post, xs = pre ++ x :: post ∧ a ∈ f (pre.foldl f out) x ∧ a ∉ pre.foldl f out := by
  induction xs generalizing out with
  | nil => exact absurd h hout
  | cons x xs ih =>
    by_cases hx : a ∈ f out x
    · exact ⟨[], x, xs, rfl, hx, hout⟩
    · obtain ⟨pre, y, post, hxs, hy, hpre⟩ := ih h hx
      exact ⟨x :: pre, y, post, by rw [hxs, List.cons_append], hy, hpre⟩

theorem takeWhile_ne [DecidableEq ν] {pre post : List ν} {n : ν} (h : (pre ++ n :: post).Nodup) :
    ((pre ++ n :: post).takeWhile fun m => decide (m ≠ n)) = pre := by
  have hnot : n ∉ pre := by
    intro hmem
    exact (List.disjoint_of_nodup_append h) hmem List.mem_cons_self
  rw [List.takeWhile_append_of_pos]
  · simp
  · intro m hm
    exact decide_eq_true fun heq => hnot (heq ▸ hm)

/-- What has been found when an entry of a directory is looked at. -/
theorem length_foldl_le [DecidableEq ν] {pre : List ν} {k : Nat} :
    (pre.foldl (t.walkEntry keep (t.walk keep cap left) d) out).length + k ≤ cap ↔
      out.length + (pre.flatMap (t.filesAt keep (t.files keep left) d)).length + k ≤ cap := by
  by_cases h : out.length + (pre.flatMap (t.filesAt keep (t.files keep left) d)).length ≤ cap
  · rw [foldl_uncut (fun d out => walk_uncut) h, List.length_append]
  · have hover : cap < (pre.foldl (t.walkEntry keep (t.walk keep cap left) d) out).length :=
      foldl_over (fun d out => walk_uncut) (fun d out => walk_over) (walk_mono left)
        (Nat.not_le.mp h)
    omega

theorem mem_walk_iff [DecidableEq ν] {p : List ν} (hp : p ∉ out) :
    p ∈ t.walk keep cap left d out ↔ Reached t keep cap left d out.length p := by
  induction left generalizing d out with
  | zero =>
    refine iff_of_false hp ?_
    rintro ⟨names, n, -, hlt, -⟩
    exact Nat.not_lt_zero _ hlt
  | succ left ih =>
    rw [walk]
    split
    · rename_i hcap
      refine iff_of_false hp ?_
      rintro ⟨names, n, -, -, -, -, hbefore⟩
      omega
    · rename_i hcap
      rw [Nat.not_lt] at hcap
      constructor
      · intro h
        obtain ⟨pre, m, post, hentries, hm, hpre⟩ := exists_of_mem_foldl h hp
        have htake := takeWhile_ne (hentries ▸ t.nodup_entries d)
        rw [← hentries] at htake
        unfold walkEntry at hm
        split at hm
        · rename_i hdirectory
          obtain ⟨names, n, hsplit, hlt, hfile, hkeep, hbefore⟩ := (ih hpre).mp hm
          refine ⟨m :: names, n, by rw [hsplit]; simp, Nat.succ_lt_succ hlt, hfile, hkeep, ?_⟩
          rw [filesBefore, htake, ← Nat.add_assoc]
          exact length_foldl_le.mp hbefore
        · rename_i contents hfile
          split at hm
          · rename_i hkeep
            rcases List.mem_append.mp hm with hbefore | hthis
            · exact absurd hbefore hpre
            · rw [List.mem_singleton] at hthis
              subst hthis
              exact ⟨[], m, by simp, Nat.succ_pos left, ⟨contents, hfile⟩, hkeep, hcap⟩
          · exact absurd hm hpre
        · exact absurd hm hpre
      · rintro ⟨names, n, hsplit, hlt, ⟨contents, hfile⟩, hkeep, hbefore⟩
        have hsome : t.standing p ≠ none := by
          rw [hfile]
          exact Option.some_ne_none _
        cases names with
        | nil =>
          rw [List.append_nil] at hsplit
          subst hsplit
          obtain ⟨pre, post, hentries⟩ := List.append_of_mem ((t.mem_entries d n).mpr hsome)
          rw [hentries, List.foldl_append, List.foldl_cons]
          refine (foldl_mono (walk_mono left) d post _).subset ?_
          unfold walkEntry
          rw [hfile]
          dsimp only
          rw [if_pos hkeep]
          exact List.mem_append_right _ (List.mem_singleton.mpr rfl)
        | cons m names =>
          have hassoc : d ++ m :: names ++ [n] = (d ++ [m]) ++ (names ++ [n]) := by simp
          rw [hassoc] at hsplit
          have hdirectory : t.standing (d ++ [m]) = some .directory :=
            t.directory_of_append (List.append_ne_nil_of_right_ne_nil _ (List.cons_ne_nil _ _))
              (hsplit ▸ hsome)
          have hmem : m ∈ t.entries d :=
            (t.mem_entries d m).mpr (by rw [hdirectory]; exact Option.some_ne_none _)
          obtain ⟨pre, post, hentries⟩ := List.append_of_mem hmem
          have htake := takeWhile_ne (hentries ▸ t.nodup_entries d)
          rw [← hentries] at htake
          rw [filesBefore, htake, ← Nat.add_assoc] at hbefore
          rw [hentries, List.foldl_append, List.foldl_cons]
          refine (foldl_mono (walk_mono left) d post _).subset ?_
          by_cases hpre : p ∈ pre.foldl (t.walkEntry keep (t.walk keep cap left) d) out
          · exact (walkEntry_mono (walk_mono left) d _ m).subset hpre
          · unfold walkEntry
            rw [hdirectory]
            refine (ih hpre).mpr ⟨names, n, by rw [hsplit]; simp, Nat.lt_of_succ_lt_succ hlt,
              ⟨contents, hfile⟩, hkeep, ?_⟩
            exact length_foldl_le.mpr hbefore

end Traversal

end FileTree

end Theory
