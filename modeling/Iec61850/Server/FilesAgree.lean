import Iec61850.Server.Files

/-!
# The listing and the accesses of a directory store

Whatever a client sends, a store touches only regular files inside its root, and a path that leads
elsewhere is answered as one that leads nowhere. The names it lists are those it can be asked for
exactly when each of them is a safe relative path (`files_kept_iff`).
-/

namespace Iec61850.Server

open Theory FileTree

/-! ### Paths on a disk -/

namespace Disk

variable {d : Disk}

theorem canonicalize_isReal {p : Path} {real : List Bytes} (h : d.canonicalize p = some real) :
    d.IsReal real :=
  resolve_isReal d.toFileTree.isReal_root h

theorem canonicalize_realPath {real : List Bytes} (h : d.IsReal real) :
    d.canonicalize (realPath real) = some real :=
  @resolve_names _ _ d.toFileTree d.links [] real h

theorem canonicalize_append {p : Path} {e names : List Bytes} (h : d.canonicalize p = some e)
    (hreal : d.IsReal (e ++ names)) : d.canonicalize (p ++ realPath names) = some (e ++ names) :=
  resolve_append_names h hreal

theorem metadata_realPath {real : List Bytes} (h : d.IsReal real) :
    d.metadata (realPath real) = d.standing real := by
  rw [metadata, canonicalize_realPath h]
  rfl

theorem isFileName_of_mem {p : List Bytes} (h : d.standing p ≠ none) : ∀ n ∈ p, IsFileName n := by
  induction p using List.reverseRecOn with
  | nil =>
    intro n hn
    cases hn
  | append_singleton p m ih =>
    intro n hn
    rcases List.mem_append.mp hn with hn | hn
    · refine ih ?_ n hn
      rw [d.parent p m h]
      exact Option.some_ne_none _
    · rw [List.mem_singleton.mp hn]
      exact d.named p m h

theorem entries_of_ne_directory {p : List Bytes} (h : d.standing p ≠ some .directory) :
    d.entries p = [] := by
  rw [List.eq_nil_iff_forall_not_mem]
  intro n hn
  exact h (d.parent p n ((d.mem_entries p n).mp hn))

end Disk

/-! ### The name of a file -/

/-- The path of a file behind the root. -/
def behindRoot (root real : List Bytes) : List Bytes := real.drop root.length

/-- What a client names a file by. -/
def nameOf (root real : List Bytes) : Bytes := DirectoryStore.slashed (behindRoot root real)

/-- The names behind the root are all UTF-8. -/
def nameable (root real : List Bytes) : Bool := (behindRoot root real).all validUtf8

theorem append_behindRoot {root real : List Bytes} (h : root <+: real) :
    root ++ behindRoot root real = real := by
  obtain ⟨rest, rfl⟩ := h
  rw [behindRoot, List.drop_left]

theorem mapM_nameIn (names : List Bytes) : (realPath names).mapM DirectoryStore.nameIn =
      if names.all validUtf8 then some names else none := by
  induction names with
  | nil => rfl
  | cons n names ih =>
    rw [realPath, List.map_cons, List.mapM_cons]
    change ((DirectoryStore.nameIn (.name n)).bind fun n' =>
      ((realPath names).mapM DirectoryStore.nameIn).bind fun rest => some (n' :: rest)) = _
    rw [ih, DirectoryStore.nameIn, List.all_cons]
    cases validUtf8 n with
    | false => rfl
    | true =>
      rw [Bool.true_and, if_pos rfl, Option.bind_some]
      split <;> rfl

theorem filter_realPath (names : List Bytes) :
    (realPath names).filter (· ≠ .here) = realPath names := by
  rw [List.filter_eq_self]
  intro c hc
  obtain ⟨n, -, rfl⟩ := List.mem_map.mp hc
  rfl

section Store

variable {s : DirectoryStore} {d : Disk} {root real : List Bytes}

theorem relative_realPath (hroot : d.canonicalize s.root = some root) (h : root <+: real) :
    s.relative d (realPath real) =
      if nameable root real then some (nameOf root real) else none := by
  have hreal : realPath real = realPath root ++ realPath (behindRoot root real) := by
    rw [realPath, realPath, realPath, ← List.map_append, append_behindRoot h]
  rw [DirectoryStore.relative, hroot, Option.bind_some, filter_realPath, hreal]
  have hfront : (realPath root).isPrefixOf? (realPath root ++ realPath (behindRoot root real)) =
      some (realPath (behindRoot root real)) := by
    rw [List.isPrefixOf?_eq_some_iff_append_eq]
  rw [hfront, Option.bind_some, mapM_nameIn, nameable, nameOf]
  split <;> rfl

variable {path : Bytes} {info : FileInfo} {dir start : Path} {at' : List Bytes}

theorem isSafeRelative_cons (h : isSafeRelative path = true) :
    path ≠ [] ∧ path.head? ≠ some slash := by
  unfold isSafeRelative at h
  split at h
  · cases h
  · rename_i hlength
    split at h
    · cases h
    · rename_i hhead
      constructor
      · rintro rfl
        exact hlength rfl
      · intro hslash
        exact hhead (Or.inl hslash)

theorem components_slashed {names : List Bytes} (hnames : ∀ n ∈ names, IsFileName n)
    (hne : names ≠ []) : components (DirectoryStore.slashed names) = realPath names := by
  rw [components, DirectoryStore.slashed,
    List.splitOn_intercalate slash (fun n hn => (hnames n hn).2.2.2.1) hne]
  apply List.map_congr_left
  intro n hn
  obtain ⟨hempty, hhere, hup, -, -⟩ := hnames n hn
  rw [component, if_neg (not_or.mpr ⟨hempty, hhere⟩), if_neg hup]

theorem resolve_eq_some : s.resolve d path = some real ↔ isSafeRelative path = true ∧
      d.canonicalize (s.join path) = some real ∧
      ∃ root, d.canonicalize s.root = some root ∧ root <+: real := by
  rw [DirectoryStore.resolve]
  cases hsafe : isSafeRelative path with
  | false => exact iff_of_false (fun h => nomatch h) fun h => nomatch h.1
  | true =>
    rw [if_neg (by decide), Option.bind_eq_some_iff]
    constructor
    · rintro ⟨real', hreal, h⟩
      obtain ⟨root, hroot, h⟩ := Option.bind_eq_some_iff.mp h
      split at h
      · rename_i hin
        cases h
        exact ⟨rfl, hreal, root, hroot, hin⟩
      · cases h
    · rintro ⟨-, hreal, root, hroot, hin⟩
      refine ⟨real, hreal, ?_⟩
      rw [hroot, Option.bind_some, if_pos hin]

/-- A client that names a file by its safe name is led to the file. -/
theorem resolve_nameOf (hroot : d.canonicalize s.root = some root) (h : root <+: real)
    (hreal : d.IsReal real) (hsafe : isSafeRelative (nameOf root real) = true) :
    s.resolve d (nameOf root real) = some real := by
  obtain ⟨hne, hhead⟩ := isSafeRelative_cons hsafe
  have hnames : ∀ n ∈ behindRoot root real, IsFileName n := by
    intro n hn
    obtain ⟨standing, hstanding, -⟩ := hreal
    refine @Disk.isFileName_of_mem d real ?_ n (List.mem_of_mem_drop hn)
    rw [hstanding]
    exact Option.some_ne_none _
  have hbehind : behindRoot root real ≠ [] := by
    intro hnil
    rw [nameOf, hnil] at hne
    exact hne rfl
  refine resolve_eq_some.mpr ⟨hsafe, ?_, root, hroot, h⟩
  rw [DirectoryStore.join, if_neg hhead, nameOf, components_slashed hnames hbehind]
  have hall := append_behindRoot h
  rw [← hall] at hreal
  rw [Disk.canonicalize_append hroot hreal, hall]

/-- The file that a store says something about. -/
structure Denotes (s : DirectoryStore) (d : Disk) (root real : List Bytes) (f : RegularFile)
    (info : FileInfo) : Prop where
  rooted : d.canonicalize s.root = some root
  inside : root <+: real
  file : d.standing real = some (.file f)
  utf8 : nameable root real = true
  shown : info = fileInfo (nameOf root real) f

theorem info_eq_some : s.info d path = some info ↔
      ∃ root real f, s.resolve d path = some real ∧ Denotes s d root real f info := by
  rw [DirectoryStore.info, Option.bind_eq_some_iff]
  constructor
  · rintro ⟨real, hresolve, h⟩
    obtain ⟨-, hreal, root, hroot, hin⟩ := resolve_eq_some.mp hresolve
    rw [Disk.metadata_realPath (Disk.canonicalize_isReal hreal), relative_realPath hroot hin] at h
    split at h
    · rename_i f hfile
      split at h
      · rename_i hnameable
        cases h
        exact ⟨root, real, f, hresolve, hroot, hin, hfile, hnameable, rfl⟩
      · cases h
    · cases h
  · rintro ⟨root, real, f, hresolve, hroot, hin, hfile, hnameable, rfl⟩
    refine ⟨real, hresolve, ?_⟩
    rw [Disk.metadata_realPath (d.isReal_of_file hfile), hfile]
    dsimp only
    rw [relative_realPath hroot hin, if_pos hnameable]
    rfl

theorem readAt_eq_some {bytes : Bytes} {offset len : Nat} :
    s.readAt d path offset len = some bytes ↔
      ∃ real f, s.resolve d path = some real ∧ d.standing real = some (.file f) ∧
        offset < 2 ^ 63 ∧ bytes = (f.data.drop offset).take len := by
  rw [DirectoryStore.readAt, Option.bind_eq_some_iff]
  constructor
  · rintro ⟨real, hresolve, h⟩
    rw [Disk.metadata_realPath (Disk.canonicalize_isReal (resolve_eq_some.mp hresolve).2.1)] at h
    split at h
    · rename_i f hfile
      split at h
      · rename_i hoffset
        cases h
        exact ⟨real, f, hresolve, hfile, hoffset, rfl⟩
      · cases h
    · cases h
  · rintro ⟨real, f, hresolve, hfile, hoffset, rfl⟩
    refine ⟨real, hresolve, ?_⟩
    rw [Disk.metadata_realPath (d.isReal_of_file hfile), hfile]
    dsimp only
    rw [if_pos hoffset]

theorem delete_eq_some :
    s.delete d path = some real ↔ s.writable = true ∧ s.resolve d path = some real ∧
      ∃ f, d.standing real = some (.file f) := by
  rw [DirectoryStore.delete]
  cases s.writable with
  | false => exact iff_of_false (fun h => nomatch h) fun h => nomatch h.1
  | true =>
    rw [if_neg (by decide), Option.bind_eq_some_iff, eq_self_iff_true, true_and]
    constructor
    · rintro ⟨real', hresolve, h⟩
      rw [Disk.metadata_realPath
        (Disk.canonicalize_isReal (resolve_eq_some.mp hresolve).2.1)] at h
      split at h
      · rename_i f hfile
        cases h
        exact ⟨hresolve, f, hfile⟩
      · cases h
    · rintro ⟨hresolve, f, hfile⟩
      refine ⟨real, hresolve, ?_⟩
      rw [Disk.metadata_realPath (d.isReal_of_file hfile), hfile]

/-! ### What is listed -/

/-- What the listing says of the file at a real path. -/
def described (d : Disk) (root real : List Bytes) : FileInfo :=
  match d.standing real with
  | some (.file f) => fileInfo (nameOf root real) f
  | _ => fileInfo (nameOf root real) ⟨[], none⟩

theorem readDir_of_directory (hdir : d.canonicalize dir = some at')
    (h : d.standing at' = some .directory) : d.readDir dir = some (d.entries at') := by
  rw [Disk.readDir, hdir, Option.bind_some, h]

theorem readDir_of_ne_directory (hdir : d.canonicalize dir = some at')
    (h : d.standing at' ≠ some .directory) : d.readDir dir = none := by
  rw [Disk.readDir, hdir, Option.bind_some]
  split
  · rename_i hdirectory
    exact absurd hdirectory h
  · rfl

theorem walkEntry_eq (hroot : d.canonicalize s.root = some root)
    {walk : Path → List FileInfo → List FileInfo}
    {walk' : List Bytes → List (List Bytes) → List (List Bytes)}
    (hwalk : ∀ (dir : Path) (at' : List Bytes), d.canonicalize dir = some at' → root <+: at' →
      ∀ out : List (List Bytes),
        walk dir (out.map (described d root)) = (walk' at' out).map (described d root))
    (hdir : d.canonicalize dir = some at') (h : root <+: at') (out : List (List Bytes))
    (n : Bytes) : s.walkEntry d walk dir (out.map (described d root)) n =
      (d.walkEntry (nameable root) walk' at' out n).map (described d root) := by
  have hin : root <+: at' ++ [n] := h.trans (List.prefix_append _ _)
  rw [DirectoryStore.walkEntry, Disk.entryMetadata, hdir, Option.bind_some, FileTree.walkEntry]
  cases hstanding : d.standing (at' ++ [n]) with
  | none => rfl
  | some standing =>
    cases standing with
    | link absolute target => rfl
    | other => rfl
    | directory =>
      exact hwalk _ _ (Disk.canonicalize_append hdir (d.isReal_of_directory hstanding)) hin out
    | file f =>
      have hthere : d.canonicalize (dir ++ [.name n]) = some (at' ++ [n]) :=
        Disk.canonicalize_append hdir (d.isReal_of_file hstanding)
      have hok : s.resolveOk d (at' ++ [n]) = true := by
        rw [DirectoryStore.resolveOk, hroot]
        exact List.isPrefixOf_iff_prefix.mpr hin
      dsimp only
      rw [hthere, Option.filter_some_pos hok]
      dsimp only
      rw [relative_realPath hroot hin]
      cases nameable root (at' ++ [n]) with
      | false => rfl
      | true =>
        rw [if_pos rfl, if_pos rfl, List.map_append, List.map_singleton, described, hstanding]

/-- The walk of the store is the bounded traversal of the disk. -/
theorem walk_eq (hroot : d.canonicalize s.root = some root) {left : Nat}
    (hdir : d.canonicalize dir = some at') (h : root <+: at') (out : List (List Bytes)) :
    s.walk d left dir (out.map (described d root)) =
      (d.walk (nameable root) 4096 left at' out).map (described d root) := by
  induction left generalizing dir at' out with
  | zero => rfl
  | succ left ih =>
    have hfold (names : List Bytes) (out : List (List Bytes)) :
        names.foldl (s.walkEntry d (s.walk d left) dir) (out.map (described d root)) =
          (names.foldl (d.walkEntry (nameable root) (d.walk (nameable root) 4096 left) at')
            out).map (described d root) := by
      induction names generalizing out with
      | nil => rfl
      | cons n names ihnames =>
        rw [List.foldl_cons, List.foldl_cons, walkEntry_eq hroot (fun _ _ => ih) hdir h,
          ihnames]
    rw [DirectoryStore.walk, FileTree.walk, List.length_map]
    by_cases hcap : 4096 < out.length
    · rw [if_pos hcap, if_pos hcap]
    · rw [if_neg hcap, if_neg hcap]
      by_cases hdirectory : d.standing at' = some .directory
      · rw [readDir_of_directory hdir hdirectory]
        exact hfold _ out
      · rw [readDir_of_ne_directory hdir hdirectory, Disk.entries_of_ne_directory hdirectory]
        rfl

/-- The listing of what is below a directory. -/
theorem mem_listFrom_iff (hroot : d.canonicalize s.root = some root)
    (hstart : d.canonicalize start = some at') (h : root <+: at')
    (hfile : ∀ f, d.standing at' ≠ some (.file f)) (info : FileInfo) : info ∈ s.listFrom d start ↔
      ∃ real, Reached d.toFileTree (nameable root) 4096 9 at' 0 real ∧
        info = described d root real := by
  have hmetadata : d.metadata start = d.standing at' := by
    rw [Disk.metadata, hstart]
    rfl
  have hlist : s.listFrom d start =
      (s.walk d 9 start []).mergeSort fun a b => decide (a.name ≤ b.name) := by
    rw [DirectoryStore.listFrom, hmetadata]
    split
    · rename_i f hf
      exact absurd hf (hfile f)
    · rfl
  have hwalk : s.walk d 9 start [] =
      (d.walk (nameable root) 4096 9 at' []).map (described d root) := walk_eq hroot hstart h []
  rw [hlist, List.mem_mergeSort, hwalk, List.mem_map]
  constructor
  · rintro ⟨real, hmem, rfl⟩
    exact ⟨real, (mem_walk_iff List.not_mem_nil).mp hmem, rfl⟩
  · rintro ⟨real, hreached, rfl⟩
    exact ⟨real, (mem_walk_iff List.not_mem_nil).mpr hreached, rfl⟩

/-- The listing of a file is the file. -/
theorem mem_listFrom_file {f : RegularFile} (hfile : d.metadata start = some (.file f))
    (info : FileInfo) : info ∈ s.listFrom d start ↔
      ∃ name, s.relative d start = some name ∧ info = fileInfo name f := by
  rw [DirectoryStore.listFrom, hfile]
  dsimp only
  rw [List.mem_mergeSort, List.mem_map]
  constructor
  · rintro ⟨name, hname, rfl⟩
    exact ⟨name, Option.mem_toList.mp hname, rfl⟩
  · rintro ⟨name, hname, rfl⟩
    exact ⟨name, Option.mem_toList.mpr hname, rfl⟩

theorem listFrom_of_none (h : d.canonicalize start = none) : s.listFrom d start = [] := by
  have hmetadata : d.metadata start = none := by
    rw [Disk.metadata, h]
    rfl
  have hread : d.readDir start = none := by
    rw [Disk.readDir, h]
    rfl
  have hwalk : s.walk d 9 start [] = [] := by
    rw [DirectoryStore.walk, hread]
    rfl
  rw [DirectoryStore.listFrom, hmetadata]
  dsimp only
  rw [hwalk]
  exact List.mergeSort_nil

/-! ### What a store keeps to -/

/-- The real path is inside the root. -/
def Inside (s : DirectoryStore) (d : Disk) (real : List Bytes) : Prop :=
  ∃ root, d.canonicalize s.root = some root ∧ root <+: real

/-- A store touches only regular files inside its root, and answers a path that leads elsewhere as
one that leads nowhere. An empty path asks for a listing of everything. -/
structure Sandboxed (s : DirectoryStore) (d : Disk) : Prop where
  list : ∀ spec info, info ∈ s.list d spec →
    ∃ real f, Inside s d real ∧ d.standing real = some (.file f) ∧ info = fileInfo info.name f
  info : ∀ path info, s.info d path = some info →
    ∃ root real f, Denotes s d root real f info ∧ d.canonicalize (s.join path) = some real
  readAt : ∀ path offset len bytes, s.readAt d path offset len = some bytes →
    ∃ real f, Inside s d real ∧ d.standing real = some (.file f) ∧
      d.canonicalize (s.join path) = some real ∧ bytes = (f.data.drop offset).take len
  delete : ∀ path real, s.delete d path = some real →
    Inside s d real ∧ (∃ f, d.standing real = some (.file f)) ∧
      d.canonicalize (s.join path) = some real
  unseen : ∀ path, (∀ real, d.canonicalize (s.join path) = some real → ¬ Inside s d real) →
    (path ≠ [] → s.list d (some path) = []) ∧ s.info d path = none ∧
      (∀ offset len, s.readAt d path offset len = none) ∧ s.delete d path = none

/-- The names that are listed are the ones that can be accessed, for every file within the bounds
of a listing. -/
structure Agreeing (s : DirectoryStore) (d : Disk) : Prop where
  listed : ∀ spec info, info ∈ s.list d spec → s.info d info.name = some info ∧
    ∃ root real f, Denotes s d root real f info ∧
      d.canonicalize (s.join info.name) = some real ∧
      ∀ offset len, offset < 2 ^ 63 →
        s.readAt d info.name offset len = some ((f.data.drop offset).take len)
  complete : ∀ root real f info, d.canonicalize s.root = some root → root <+: real →
    d.standing real = some (.file f) → s.info d (nameOf root real) = some info →
    Reached d.toFileTree (nameable root) 4096 9 root 0 real → info ∈ s.list d none

/-- A listing can start there: at the root, or where a path leads. -/
def Start (s : DirectoryStore) (d : Disk) (root start : List Bytes) : Prop :=
  (start = root ∧ ∀ f, d.standing root ≠ some (.file f)) ∨ ∃ path, s.resolve d path = some start

/-- A file that is within the bounds of some listing. -/
def Findable (s : DirectoryStore) (d : Disk) (root real : List Bytes) : Prop :=
  ∃ start, Start s d root start ∧ (∃ f, d.standing real = some (.file f)) ∧
    nameable root real = true ∧
    (real = start ∨ Reached d.toFileTree (nameable root) 4096 9 start 0 real)

theorem denotes_described (hroot : d.canonicalize s.root = some root) (h : root <+: real)
    {f : RegularFile} (hfile : d.standing real = some (.file f))
    (hnameable : nameable root real = true) : Denotes s d root real f (described d root real) := by
  refine ⟨hroot, h, hfile, hnameable, ?_⟩
  rw [described, hfile]

/-- Nothing but what is reached is listed, but for a root that is a file. -/
theorem mem_list_findable {spec : Option Bytes}
    (hroot : ∀ f, d.metadata s.root = some (.file f) → s.relative d s.root = none)
    (hmem : info ∈ s.list d spec) :
    ∃ root real f, Findable s d root real ∧ Denotes s d root real f info := by
  have hreached {start : Path} {at' : List Bytes} {root : List Bytes}
      (hrooted : d.canonicalize s.root = some root) (hcanon : d.canonicalize start = some at')
      (hin : root <+: at') (hfile : ∀ f, d.standing at' ≠ some (.file f))
      (hstart : Start s d root at') (hmem : info ∈ s.listFrom d start) :
      ∃ root real f, Findable s d root real ∧ Denotes s d root real f info := by
    obtain ⟨real, hreal, rfl⟩ := (mem_listFrom_iff hrooted hcanon hin hfile info).mp hmem
    obtain ⟨names, n, hsplit, -, ⟨f, hf⟩, hkeep, -⟩ := id hreal
    have hbelow : root <+: real := by
      rw [hsplit, List.append_assoc]
      exact hin.trans (List.prefix_append _ _)
    exact ⟨root, real, f, ⟨at', hstart, ⟨f, hf⟩, hkeep, Or.inr hreal⟩,
      denotes_described hrooted hbelow hf hkeep⟩
  have hatRoot (hmem : info ∈ s.listFrom d s.root) :
      ∃ root real f, Findable s d root real ∧ Denotes s d root real f info := by
    cases hcanon : d.canonicalize s.root with
    | none =>
      rw [listFrom_of_none hcanon] at hmem
      cases hmem
    | some root =>
      have hmetadata : d.metadata s.root = d.standing root := by
        rw [Disk.metadata, hcanon]
        rfl
      have hfile : ∀ f, d.standing root ≠ some (.file f) := by
        intro f hf
        rw [← hmetadata] at hf
        obtain ⟨name, hname, -⟩ := (mem_listFrom_file hf info).mp hmem
        rw [hroot f hf] at hname
        cases hname
      exact hreached hcanon hcanon (List.prefix_refl root) hfile (Or.inl ⟨rfl, hfile⟩) hmem
  unfold DirectoryStore.list at hmem
  split at hmem
  · exact hatRoot hmem
  · rename_i path
    split at hmem
    · exact hatRoot hmem
    · split at hmem
      · rename_i real hresolve
        obtain ⟨-, hreal, root, hrooted, hin⟩ := resolve_eq_some.mp hresolve
        have hIsReal := Disk.canonicalize_isReal hreal
        by_cases hfile : ∀ f, d.standing real ≠ some (.file f)
        · exact hreached hrooted (Disk.canonicalize_realPath hIsReal) hin hfile
            (Or.inr ⟨path, hresolve⟩) hmem
        · obtain ⟨f, hf⟩ := not_forall_not.mp hfile
          have hmetadata := Disk.metadata_realPath hIsReal
          rw [hf] at hmetadata
          obtain ⟨name, hname, rfl⟩ := (mem_listFrom_file hmetadata info).mp hmem
          rw [relative_realPath hrooted hin] at hname
          split at hname
          · rename_i hnameable
            cases hname
            exact ⟨root, real, f, ⟨real, Or.inr ⟨path, hresolve⟩, ⟨f, hf⟩, hnameable, Or.inl rfl⟩,
              hrooted, hin, hf, hnameable, rfl⟩
          · cases hname
      · cases hmem

theorem described_mem_list (hroot : d.canonicalize s.root = some root)
    (h : Findable s d root real) : ∃ spec, described d root real ∈ s.list d spec := by
  obtain ⟨start, hstart, ⟨f, hfile⟩, hnameable, hreal⟩ := h
  have hreached (hin : root <+: start) {p : Path} (hp : d.canonicalize p = some start)
      (hnot : ∀ f, d.standing start ≠ some (.file f)) :
      described d root real ∈ s.listFrom d p := by
    refine (mem_listFrom_iff hroot hp hin hnot _).mpr ⟨real, ?_, rfl⟩
    rcases hreal with rfl | hreal
    · exact absurd hfile (hnot f)
    · exact hreal
  rcases hstart with ⟨rfl, hnot⟩ | ⟨path, hresolve⟩
  · exact ⟨none, hreached (List.prefix_refl _) hroot hnot⟩
  · obtain ⟨hsafe, hcanon, root', hroot', hin⟩ := resolve_eq_some.mp hresolve
    rw [hroot] at hroot'
    cases hroot'
    have hIsReal := Disk.canonicalize_isReal hcanon
    have hlist : s.list d (some path) = s.listFrom d (realPath start) := by
      rw [DirectoryStore.list, if_neg (isSafeRelative_cons hsafe).1, hresolve]
    refine ⟨some path, ?_⟩
    rw [hlist]
    by_cases hnot : ∀ f, d.standing start ≠ some (.file f)
    · exact hreached hin (Disk.canonicalize_realPath hIsReal) hnot
    · obtain ⟨g, hg⟩ := not_forall_not.mp hnot
      have hsame : real = start := by
        rcases hreal with rfl | ⟨names, n, hsplit, -⟩
        · rfl
        · have hdirectory := d.directory_of_append (p := start) (q := names ++ [n]) (by simp) (by
            rw [← List.append_assoc, ← hsplit, hfile]
            exact Option.some_ne_none _)
          rw [hg] at hdirectory
          cases hdirectory
      subst hsame
      have hmetadata := Disk.metadata_realPath hIsReal
      rw [hfile] at hmetadata
      refine (mem_listFrom_file hmetadata _).mpr ⟨nameOf root real, ?_, ?_⟩
      · rw [relative_realPath hroot hin, if_pos hnameable]
      · rw [described, hfile]

theorem resolve_eq_none (h : ∀ real, d.canonicalize (s.join path) = some real → ¬ Inside s d real) :
    s.resolve d path = none := by
  rw [Option.eq_none_iff_forall_ne_some]
  intro real hresolve
  obtain ⟨-, hreal, root, hroot, hin⟩ := resolve_eq_some.mp hresolve
  exact h real hreal ⟨root, hroot, hin⟩

/-- A listing from inside the root is of files inside the root. -/
theorem inside_of_mem_listFrom (hstart : ∀ at', d.canonicalize start = some at' → Inside s d at')
    (hmem : info ∈ s.listFrom d start) :
    ∃ real f, Inside s d real ∧ d.standing real = some (.file f) ∧ info = fileInfo info.name f := by
  cases hcanon : d.canonicalize start with
  | none =>
    rw [listFrom_of_none hcanon] at hmem
    cases hmem
  | some at' =>
    obtain ⟨root, hroot, hin⟩ := hstart at' hcanon
    have hmetadata : d.metadata start = d.standing at' := by
      rw [Disk.metadata, hcanon]
      rfl
    by_cases hfile : ∀ f, d.standing at' ≠ some (.file f)
    · obtain ⟨real, ⟨names, n, hsplit, -, ⟨f, hf⟩, -⟩, rfl⟩ :=
        (mem_listFrom_iff hroot hcanon hin hfile info).mp hmem
      refine ⟨real, f, ⟨root, hroot, ?_⟩, hf, ?_⟩
      · rw [hsplit, List.append_assoc]
        exact hin.trans (List.prefix_append _ _)
      · rw [described, hf]
        rfl
    · obtain ⟨f, hf⟩ := not_forall_not.mp hfile
      rw [← hmetadata] at hf
      obtain ⟨name, -, rfl⟩ := (mem_listFrom_file hf info).mp hmem
      exact ⟨at', f, ⟨root, hroot, hin⟩, hmetadata ▸ hf, rfl⟩

theorem sandboxed (s : DirectoryStore) (d : Disk) : Sandboxed s d := by
  have hrootInside : ∀ at', d.canonicalize s.root = some at' → Inside s d at' :=
    fun at' h => ⟨at', h, List.prefix_refl _⟩
  refine ⟨?_, ?_, ?_, ?_, ?_⟩
  · intro spec info hmem
    unfold DirectoryStore.list at hmem
    split at hmem
    · exact inside_of_mem_listFrom hrootInside hmem
    · split at hmem
      · exact inside_of_mem_listFrom hrootInside hmem
      · split at hmem
        · rename_i real hresolve
          obtain ⟨-, hreal, hin⟩ := resolve_eq_some.mp hresolve
          refine inside_of_mem_listFrom ?_ hmem
          intro at' hat
          rw [Disk.canonicalize_realPath (Disk.canonicalize_isReal hreal)] at hat
          cases hat
          exact hin
        · cases hmem
  · intro path info hinfo
    obtain ⟨root, real, f, hresolve, hdenotes⟩ := info_eq_some.mp hinfo
    exact ⟨root, real, f, hdenotes, (resolve_eq_some.mp hresolve).2.1⟩
  · intro path offset len bytes hread
    obtain ⟨real, f, hresolve, hfile, -, hbytes⟩ := readAt_eq_some.mp hread
    obtain ⟨-, hreal, hin⟩ := resolve_eq_some.mp hresolve
    exact ⟨real, f, hin, hfile, hreal, hbytes⟩
  · intro path real hdelete
    obtain ⟨-, hresolve, hfile⟩ := delete_eq_some.mp hdelete
    obtain ⟨-, hreal, hin⟩ := resolve_eq_some.mp hresolve
    exact ⟨hin, hfile, hreal⟩
  · intro path hpath
    have hnone := resolve_eq_none hpath
    refine ⟨?_, ?_, ?_, ?_⟩
    · intro hne
      rw [DirectoryStore.list, if_neg hne, hnone]
    · rw [DirectoryStore.info, hnone]
      rfl
    · intro offset len
      rw [DirectoryStore.readAt, hnone]
      rfl
    · rw [DirectoryStore.delete, hnone]
      cases s.writable <;> rfl

theorem agreeing_of_safe
    (hfile : ∀ f, d.metadata s.root = some (.file f) → s.relative d s.root = none)
    (hsafe : ∀ root real, d.canonicalize s.root = some root → Findable s d root real →
      isSafeRelative (nameOf root real) = true) : Agreeing s d := by
  constructor
  · intro spec info hmem
    obtain ⟨root, real, f, hfindable, hdenotes⟩ := mem_list_findable hfile hmem
    obtain ⟨hroot, hin, hf, hnameable, hinfo⟩ := hdenotes
    have hname : info.name = nameOf root real := by
      rw [hinfo]
      rfl
    have hresolve := resolve_nameOf hroot hin (d.isReal_of_file hf)
      (hsafe root real hroot hfindable)
    rw [hname]
    refine ⟨info_eq_some.mpr ⟨root, real, f, hresolve, hroot, hin, hf, hnameable, hinfo⟩,
      root, real, f, ⟨hroot, hin, hf, hnameable, hinfo⟩, (resolve_eq_some.mp hresolve).2.1, ?_⟩
    intro offset len hoffset
    exact readAt_eq_some.mpr ⟨real, f, hresolve, hf, hoffset, rfl⟩
  · intro root real f info hroot hin hf hinfo hreached
    obtain ⟨root', real', f', hresolve, hdenotes⟩ := info_eq_some.mp hinfo
    have hsame : real' = real := by
      have hagain := resolve_nameOf hroot hin (d.isReal_of_file hf)
        (resolve_eq_some.mp hresolve).1
      rw [hagain] at hresolve
      exact (Option.some.inj hresolve).symm
    subst hsame
    have hroots : root' = root := by
      have hroot' := hdenotes.rooted
      rw [hroot] at hroot'
      exact (Option.some.inj hroot').symm
    subst hroots
    have hnot : ∀ f, d.standing root' ≠ some (.file f) := by
      intro g hg
      obtain ⟨names, n, hsplit, -⟩ := hreached
      have hdirectory := d.directory_of_append (p := root') (q := names ++ [n]) (by simp) (by
        rw [← List.append_assoc, ← hsplit, hf]
        exact Option.some_ne_none _)
      rw [hg] at hdirectory
      cases hdirectory
    have hdescribed : info = described d root' real' := by
      rw [hdenotes.shown, described, hdenotes.file]
    rw [hdescribed]
    exact (mem_listFrom_iff hroot hroot (List.prefix_refl _) hnot _).mpr ⟨real', hreached, rfl⟩

/-- A root that is a file is not listed, and every file that a listing can reach has a safe name. -/
structure SafelyNamed (s : DirectoryStore) (d : Disk) : Prop where
  root : ∀ f, d.metadata s.root = some (.file f) → s.relative d s.root = none
  files : ∀ root real, d.canonicalize s.root = some root → Findable s d root real →
    isSafeRelative (nameOf root real) = true

theorem files_kept_iff (s : DirectoryStore) (d : Disk) :
    (Sandboxed s d ∧ Agreeing s d) ↔ SafelyNamed s d := by
  constructor
  · rintro ⟨-, hagreeing⟩
    constructor
    · intro f hfile
      rw [Option.eq_none_iff_forall_ne_some]
      intro name hname
      have hmem : fileInfo name f ∈ s.list d none :=
        (mem_listFrom_file hfile _).mpr ⟨name, hname, rfl⟩
      have hinfo : s.info d name = some (fileInfo name f) := (hagreeing.listed none _ hmem).1
      obtain ⟨-, real, -, hresolve, -⟩ := info_eq_some.mp hinfo
      obtain ⟨hsafe, hreal, root, hroot, -⟩ := resolve_eq_some.mp hresolve
      have hmetadata : d.metadata s.root = d.standing root := by
        rw [Disk.metadata, hroot]
        rfl
      have hstanding : d.standing root ≠ some .directory := by
        rw [← hmetadata, hfile]
        intro h
        cases h
      have hnone : d.canonicalize (s.join name) = none := by
        rw [DirectoryStore.join, if_neg (isSafeRelative_cons hsafe).2]
        refine resolve_append_of_ne_directory hroot hstanding ?_
        rw [components, Ne, List.map_eq_nil_iff]
        exact List.splitOn_ne_nil _ _
      rw [hnone] at hreal
      cases hreal
    · intro root real hroot hfindable
      obtain ⟨spec, hmem⟩ := described_mem_list hroot hfindable
      obtain ⟨hinfo, -⟩ := hagreeing.listed spec _ hmem
      obtain ⟨-, real', -, hresolve, -⟩ := info_eq_some.mp hinfo
      have hname : (described d root real).name = nameOf root real := by
        unfold described
        split <;> rfl
      rw [hname] at hresolve
      exact (resolve_eq_some.mp hresolve).1
  · intro h
    exact ⟨sandboxed s d, agreeing_of_safe h.root h.files⟩

/-! ### A record named by its time -/

def srv : Bytes := ascii "srv"
def timed : Bytes := ascii "12:00.cfg"

theorem validUtf8_of_ascii {bs : Bytes} (h : ∀ b ∈ bs, b < 0x80) : validUtf8 bs = true := by
  induction bs with
  | nil => rfl
  | cons b bs ih =>
    rw [validUtf8, if_pos (h b List.mem_cons_self)]
    exact ih fun c hc => h c (List.mem_cons_of_mem _ hc)

def recordStanding (p : List Bytes) : Option (Standing Bytes RegularFile) :=
  if p = [] ∨ p = [srv] then some .directory
  else if p = [srv, timed] then some (.file ⟨ascii "STATION,IED1,2013", none⟩)
  else none

theorem recordStanding_concat {p : List Bytes} {n : Bytes} :
    recordStanding (p ++ [n]) ≠ none ↔ (p = [] ∧ n = srv) ∨ (p = [srv] ∧ n = timed) := by
  have hconcat (q : List Bytes) (m : Bytes) : p ++ [n] = q ++ [m] ↔ p = q ∧ n = m := by
    constructor
    · intro h
      obtain ⟨hp, hn⟩ := List.append_inj' h rfl
      exact ⟨hp, List.singleton_inj.mp hn⟩
    · rintro ⟨rfl, rfl⟩
      rfl
  have hfirst : p ++ [n] = [srv] ↔ p = [] ∧ n = srv := hconcat [] srv
  have hsecond : p ++ [n] = [srv, timed] ↔ p = [srv] ∧ n = timed := hconcat [srv] timed
  unfold recordStanding
  simp only [hfirst, hsecond]
  by_cases h : p = [] ∧ n = srv
  · simp [h]
  · by_cases h' : p = [srv] ∧ n = timed
    · simp [h']
    · simp [h, h']

/-- A directory with one record in it. -/
def records : Disk where
  standing := recordStanding
  entries p := if p = [] then [srv] else if p = [srv] then [timed] else []
  root := rfl
  parent := by
    intro p n h
    rcases recordStanding_concat.mp h with ⟨rfl, -⟩ | ⟨rfl, -⟩
    · rfl
    · rfl
  mem_entries := by
    intro p n
    rw [recordStanding_concat]
    by_cases hroot : p = []
    · simp [hroot]
    · by_cases hsrv : p = [srv] <;> simp [hroot, hsrv]
  nodup_entries := by
    intro p
    split
    · exact List.nodup_singleton _
    · split
      · exact List.nodup_singleton _
      · exact List.nodup_nil
  links := 40
  named := by
    intro p n h
    rcases recordStanding_concat.mp h with ⟨-, rfl⟩ | ⟨-, rfl⟩
    · exact ⟨by decide, by decide, by decide, by decide, by decide⟩
    · exact ⟨by decide, by decide, by decide, by decide, by decide⟩

def recordStore : DirectoryStore := ⟨realPath [srv], false⟩

set_option maxRecDepth 2000 in
/-- The record is listed, and nobody can ask for it by the name it is listed under. -/
theorem listed_but_refused : (∃ info, info ∈ recordStore.list records none ∧ info.name = timed ∧
      recordStore.info records timed = none) ∧
    ¬ ∀ (s : DirectoryStore) (d : Disk), Sandboxed s d ∧ Agreeing s d := by
  have hroot : records.canonicalize recordStore.root = some [srv] := rfl
  have hfile : records.standing [srv, timed] =
      some (.file ⟨ascii "STATION,IED1,2013", none⟩) := rfl
  have hmem : described records [srv] [srv, timed] ∈ recordStore.list records none := by
    have hlist : recordStore.list records none = recordStore.listFrom records recordStore.root :=
      rfl
    rw [hlist]
    refine (mem_listFrom_iff hroot hroot (List.prefix_refl _) ?_ _).mpr ⟨[srv, timed], ?_, rfl⟩
    · intro f h
      cases h
    · refine ⟨[], timed, rfl, by decide, ⟨_, hfile⟩, ?_, by decide⟩
      have hutf8 : validUtf8 timed = true := validUtf8_of_ascii (by decide)
      rw [nameable, behindRoot]
      simp [hutf8]
  have hrefused : recordStore.info records timed = none := rfl
  refine ⟨⟨_, hmem, rfl, hrefused⟩, ?_⟩
  intro hall
  obtain ⟨hinfo, -⟩ := (hall recordStore records).2.listed none _ hmem
  change recordStore.info records timed = _ at hinfo
  rw [hrefused] at hinfo
  cases hinfo

end Store

end Iec61850.Server
