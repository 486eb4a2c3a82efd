import Iec61850.Server.Reference
import Iec61850.Theory.FileTree

/-!
# The files of a server

`DirectoryStore` of `server/files.rs`: a directory whose files are listed by walking it and accessed
by the paths of a client. The disk is a tree of files with symbolic links; `canonicalize`,
`metadata` and `read_dir` do on it what the standard library documents.
-/

namespace Iec61850.Server

open Theory

/-! ### The disk -/

/-- A regular file: its octets, and the seconds since the epoch of its last change, if the platform
says. -/
structure RegularFile where
  data : Bytes
  modified : Option Nat
  deriving DecidableEq

/-- `.` and `..`. -/
def hereText : Bytes := [dot]
def upText : Bytes := [dot, dot]

/-- A name that a directory can have an entry of. -/
def IsFileName (n : Bytes) : Prop := n ≠ [] ∧ n ≠ hereText ∧ n ≠ upText ∧ slash ∉ n ∧ 0 ∉ n

/-- A disk: its tree of files, and how many symbolic links a path may lead over. -/
structure Disk extends FileTree Bytes RegularFile where
  links : Nat
  named : ∀ p n, standing (p ++ [n]) ≠ none → IsFileName n

abbrev Path := List (Component Bytes)

/-- The names of a real path. -/
def realPath (p : List Bytes) : Path := p.map .name

/-- One part of the text of a path. -/
def component (part : Bytes) : Component Bytes :=
  if part = [] ∨ part = hereText then .here else if part = upText then .up else .name part

/-- The components of the text of a path. -/
def components (path : Bytes) : Path := (path.splitOn slash).map component

namespace Disk

variable (d : Disk)

/-- `fs::canonicalize`, for an absolute path. -/
def canonicalize (p : Path) : Option (List Bytes) := d.toFileTree.resolve d.links [] p

/-- `fs::metadata`: what stands where the path leads. -/
def metadata (p : Path) : Option (Standing Bytes RegularFile) :=
  (d.canonicalize p).bind d.standing

/-- `fs::read_dir`. -/
def readDir (p : Path) : Option (List Bytes) :=
  (d.canonicalize p).bind fun real =>
    match d.standing real with
    | some .directory => some (d.entries real)
    | _ => none

/-- `DirEntry::metadata`, which follows no symbolic link. -/
def entryMetadata (dir : Path) (n : Bytes) : Option (Standing Bytes RegularFile) :=
  (d.canonicalize dir).bind fun real => d.standing (real ++ [n])

end Disk

/-! ### The store -/

structure FileInfo where
  name : Bytes
  size : Nat
  modified : Option Bytes
  deriving DecidableEq

structure DirectoryStore where
  root : Path
  writable : Bool

def civilFromUnix (secs : Nat) : Nat × Nat × Nat × Nat × Nat × Nat :=
  let days := secs / 86400
  let rem := secs % 86400
  let z := days + 719468
  let era := z / 146097
  let doe := z % 146097
  let yoe := (doe - doe / 1460 + doe / 36524 - doe / 146096) / 365
  let y := yoe + era * 400
  let doy := doe - (365 * yoe + yoe / 4 - yoe / 100)
  let mp := (5 * doy + 2) / 153
  let d := doy - (153 * mp + 2) / 5 + 1
  let m := if mp < 10 then mp + 3 else mp - 9
  let y := if m ≤ 2 then y + 1 else y
  (y, m, d, rem / 3600, rem / 60 % 60, rem % 60)

/-- A number in at least so many digits. -/
def padded (width n : Nat) : Bytes :=
  List.replicate (width - (numeral n).length) 48 ++ numeral n

def modifiedOf (f : RegularFile) : Option Bytes :=
  f.modified.bind fun secs =>
    if secs ≤ u32Max then
      let (y, m, d, hh, mm, ss) := civilFromUnix secs
      let digits := (padded 4 y ++ padded 2 m ++ padded 2 d ++ padded 2 hh ++ padded 2 mm ++
        padded 2 ss).take 14
      if digits.length = 14 then some (digits ++ ascii "Z") else none
    else none

/-- What a store says of a file. -/
def fileInfo (name : Bytes) (f : RegularFile) : FileInfo :=
  ⟨name, min f.data.length u32Max, modifiedOf f⟩

def backslash : UInt8 := 92
def colon : UInt8 := 58

def isSafeRelative (path : Bytes) : Bool :=
  if path.isEmpty || decide (path.length > 255) then false
  else if path.head? = some slash ∨ path.head? = some backslash ∨ path[1]? = some colon then false
  else if path.contains backslash || path.contains 0 then false
  else (path.splitOn slash).all fun part =>
    decide (part ≠ []) && decide (part ≠ hereText) && decide (part ≠ upText) &&
      !part.contains colon

namespace DirectoryStore

variable (s : DirectoryStore) (d : Disk)

/-- `Path::join` with what a client sends: an absolute path replaces the root. -/
def join (path : Bytes) : Path :=
  if path.head? = some slash then components path else s.root ++ components path

def resolve (path : Bytes) : Option (List Bytes) :=
  if !isSafeRelative path then none
  else
    (d.canonicalize (s.join path)).bind fun real =>
      (d.canonicalize s.root).bind fun root => if root <+: real then some real else none

/-- A component that is a name, in UTF-8. -/
def nameIn : Component Bytes → Option Bytes
  | .name n => if validUtf8 n then some n else none
  | _ => none

/-- Names with a slash between them. -/
def slashed (names : List Bytes) : Bytes := [slash].intercalate names

/-- `DirectoryStore::relative`; the components of a path leave out `.`. -/
def relative (path : Path) : Option Bytes :=
  (d.canonicalize s.root).bind fun root =>
    ((realPath root).isPrefixOf? (path.filter (· ≠ .here))).bind fun rest =>
      (rest.mapM nameIn).map slashed

def resolveOk (real : List Bytes) : Bool :=
  match d.canonicalize s.root with
  | some root => root.isPrefixOf real
  | none => false

/-- One entry of the loop of `DirectoryStore::walk`. -/
def walkEntry (walk : Path → List FileInfo → List FileInfo) (dir : Path) (out : List FileInfo)
    (n : Bytes) : List FileInfo :=
  match d.entryMetadata dir n with
  | some .directory => walk (dir ++ [.name n]) out
  | some (.file f) =>
    match (d.canonicalize (dir ++ [.name n])).filter (s.resolveOk d) with
    | none => out
    | some real =>
      match s.relative d (realPath real) with
      | none => out
      | some name => out ++ [fileInfo name f]
  | _ => out

/-- `DirectoryStore::walk`, with `9 - depth` levels left. -/
def walk : Nat → Path → List FileInfo → List FileInfo
  | 0, _, out => out
  | left + 1, dir, out =>
    if out.length > 4096 then out
    else
      match d.readDir dir with
      | none => out
      | some entries => entries.foldl (s.walkEntry d (walk left) dir) out

/-- `DirectoryStore::list` from where it starts. -/
def listFrom (start : Path) : List FileInfo :=
  let out :=
    match d.metadata start with
    | some (.file f) => (s.relative d start).toList.map fun name => fileInfo name f
    | _ => s.walk d 9 start []
  out.mergeSort fun a b => decide (a.name ≤ b.name)

def list (spec : Option Bytes) : List FileInfo :=
  match spec with
  | none => s.listFrom d s.root
  | some path =>
    if path = [] then s.listFrom d s.root
    else
      match s.resolve d path with
      | some real => s.listFrom d (realPath real)
      | none => []

def info (path : Bytes) : Option FileInfo :=
  (s.resolve d path).bind fun real =>
    match d.metadata (realPath real) with
    | some (.file f) => (s.relative d (realPath real)).map fun name => fileInfo name f
    | _ => none

/-- `DirectoryStore::read_at`: a seek goes no further than an `i64`. -/
def readAt (path : Bytes) (offset len : Nat) : Option Bytes :=
  (s.resolve d path).bind fun real =>
    match d.metadata (realPath real) with
    | some (.file f) => if offset < 2 ^ 63 then some ((f.data.drop offset).take len) else none
    | _ => none

/-- `DirectoryStore::delete`: the file that is removed, if one is. -/
def delete (path : Bytes) : Option (List Bytes) :=
  if !s.writable then none
  else
    (s.resolve d path).bind fun real =>
      match d.metadata (realPath real) with
      | some (.file _) => some real
      | _ => none

end DirectoryStore

end Iec61850.Server
