import Iec61850.Server.Files

/-!
# Reading files through handles

The file services of `server/acsi.rs`: a file is opened under a number, read chunk by chunk until no
more follows, and closed. The handles of all associations are in one list and draw their numbers
from one counter. On the other side stands the loop of `client/files.rs`.
-/

namespace Iec61850.Server

open Theory

/-! ### FileHandles -/

/-- `FileStore`, by what a transfer asks of it. -/
structure FileStore where
  info : Bytes → Option FileInfo
  readAt : Bytes → Nat → Nat → Option Bytes

/-- What `AcsiConfig` says about files. -/
structure FileLimits where
  maxFileHandles : Nat
  fileChunk : Nat

structure FileHandle where
  frsmId : Int
  assoc : AssocId
  path : Bytes
  delivered : Nat
  size : Nat
  deriving DecidableEq

/-- The open files of the server and the number of the next one. -/
structure FileHandles where
  handles : List FileHandle
  nextFrsm : Int
  deriving DecidableEq

/-- What a file service is answered. -/
inductive FileAnswer where
  | denied
  | notFound
  | fileOpen (frsmId : Int) (size : Nat) (modified : Option Bytes)
  | fileRead (data : Bytes) (more : Bool)
  | fileClose
  deriving DecidableEq

/-- The handles of a new server. -/
def FileHandles.initial : FileHandles := ⟨[], 1⟩

/-- The handle a number names in an association. -/
def FileHandle.isOf (assoc : AssocId) (frsmId : Int) (h : FileHandle) : Bool :=
  decide (h.frsmId = frsmId) && decide (h.assoc = assoc)

/-- `i32::wrapping_add(1)`. -/
def wrappingSucc (n : Int) : Int := if n = 2 ^ 31 - 1 then -2 ^ 31 else n + 1

namespace FileHandles

variable (limits : FileLimits) (store : FileStore) (s : FileHandles)

def fileOpen (assoc : AssocId) (path : Bytes) (position : Nat) : FileAnswer × FileHandles :=
  if limits.maxFileHandles ≤ (s.handles.filter fun h => h.assoc = assoc).length then (.denied, s)
  else
    match store.info path with
    | none => (.notFound, s)
    | some info =>
      (.fileOpen s.nextFrsm info.size info.modified,
        { handles := s.handles ++ [⟨s.nextFrsm, assoc, path, min position info.size, info.size⟩]
          nextFrsm := max (wrappingSucc s.nextFrsm) 1 })

/-- The first handle of the number stands at another place. -/
def deliveredTo (assoc : AssocId) (frsmId : Int) (delivered : Nat) :
    List FileHandle → List FileHandle
  | [] => []
  | h :: hs =>
    if h.isOf assoc frsmId then { h with delivered := delivered } :: hs
    else h :: deliveredTo assoc frsmId delivered hs

def fileRead (assoc : AssocId) (frsmId : Int) : FileAnswer × FileHandles :=
  match s.handles.find? (FileHandle.isOf assoc frsmId) with
  | none => (.notFound, s)
  | some h =>
    let data := (store.readAt h.path h.delivered limits.fileChunk).getD []
    let delivered := min u64Max (h.delivered + data.length)
    (.fileRead data (decide (data.length = limits.fileChunk) && decide (delivered < h.size)),
      { s with handles := deliveredTo assoc frsmId delivered s.handles })

def fileClose (assoc : AssocId) (frsmId : Int) : FileAnswer × FileHandles :=
  let kept := s.handles.filter fun h => !h.isOf assoc frsmId
  (if kept.length = s.handles.length then .notFound else .fileClose, { s with handles := kept })

/-- What `on_association_closed` does about files. -/
def onAssociationClosed (assoc : AssocId) : FileHandles :=
  { s with handles := s.handles.filter fun h => h.assoc ≠ assoc }

end FileHandles

/-! ### Runs -/

/-- What happens at the server that concerns its handles. -/
inductive FileEvent where
  | open (assoc : AssocId) (path : Bytes) (position : Nat)
  | read (assoc : AssocId) (frsmId : Int)
  | close (assoc : AssocId) (frsmId : Int)
  | ended (assoc : AssocId)
  deriving DecidableEq

namespace FileHandles

/-- One event, and the answer to it. -/
def step (limits : FileLimits) (store : FileStore) (s : FileHandles) :
    FileEvent → Option FileAnswer × FileHandles
  | .open assoc path position =>
    let r := s.fileOpen limits store assoc path position
    (some r.1, r.2)
  | .read assoc frsmId =>
    let r := s.fileRead limits store assoc frsmId
    (some r.1, r.2)
  | .close assoc frsmId =>
    let r := s.fileClose assoc frsmId
    (some r.1, r.2)
  | .ended assoc => (none, s.onAssociationClosed assoc)

/-- A run, with the store as it is at each event. -/
def run (limits : FileLimits) : FileHandles → List (FileStore × FileEvent) → FileHandles
  | s, [] => s
  | s, (store, e) :: es => run limits (s.step limits store e).2 es

/-- What a run reads on a handle: the chunks, and whether more follows. -/
def chunksOn (limits : FileLimits) (assoc : AssocId) (frsmId : Int) :
    FileHandles → List (FileStore × FileEvent) → List (Bytes × Bool)
  | _, [] => []
  | s, (store, e) :: es =>
    let r := s.step limits store e
    match r.1 with
    | some (.fileRead data more) =>
      if e = .read assoc frsmId then (data, more) :: chunksOn limits assoc frsmId r.2 es
      else chunksOn limits assoc frsmId r.2 es
    | _ => chunksOn limits assoc frsmId r.2 es

end FileHandles

/-- The chunks up to the one after which no more follows. -/
def untilLast : List (Bytes × Bool) → Option Bytes
  | [] => none
  | (data, more) :: rest => if more then (untilLast rest).map (data ++ ·) else some data

/-- `read_open_file` of the client, by the answers to its `FileRead`s; `none` while it asks on. -/
def readOpenFile (maxLen : Nat) (out : Bytes) : List (Bytes × Bool) → Option (Except Error Bytes)
  | [] => none
  | (data, more) :: rest =>
    if out.length + data.length > maxLen then
      some (.error (.limitExceeded "max_len" (out.length + data.length)))
    else if !more || data.isEmpty then some (.ok (out ++ data))
    else readOpenFile maxLen (out ++ data) rest

/-! ### One transfer -/

/-- The store answers for a file with these octets, short only at the end of it. -/
structure FileStore.Serves (store : FileStore) (path bytes : Bytes) : Prop where
  info : ∃ info, store.info path = some info ∧ info.size = bytes.length
  octets : ∀ offset len, store.readAt path offset len = some ((bytes.drop offset).take len)

/-- The number is that of a transfer of a file of this size, which has come to an offset. -/
def FileHandles.At (s : FileHandles) (assoc : AssocId) (frsmId : Int) (path : Bytes)
    (size delivered : Nat) : Prop :=
  s.handles.find? (FileHandle.isOf assoc frsmId) = some ⟨frsmId, assoc, path, delivered, size⟩

/-- The event ends the transfer: the number is closed, or the association is over. -/
def FileEvent.Ends (assoc : AssocId) (frsmId : Int) (e : FileEvent) : Prop :=
  e = .close assoc frsmId ∨ e = .ended assoc

/-- No handle of the association goes by the number that is given next. -/
def FileHandles.NextFree (s : FileHandles) (assoc : AssocId) : Prop :=
  ∀ h ∈ s.handles, h.isOf assoc s.nextFrsm = false

theorem isOf_self (h : FileHandle) : h.isOf h.assoc h.frsmId = true := by
  simp [FileHandle.isOf]

theorem isOf_eq_true {assoc : AssocId} {frsmId : Int} {h : FileHandle} :
    h.isOf assoc frsmId = true ↔ h.frsmId = frsmId ∧ h.assoc = assoc := by
  simp [FileHandle.isOf]

namespace FileHandles

variable {limits : FileLimits} {store : FileStore} {s : FileHandles} {assoc : AssocId}
  {frsmId : Int} {path : Bytes} {size delivered : Nat}

variable {bytes : Bytes} {h : FileHandle} {es : List (FileStore × FileEvent)} {n : Nat}

/-- A file that is opened under a free number is transferred from the position on, as far as there
is something of it there. -/
theorem at_of_fileOpen {position : Nat} {sizeSaid : Nat} {modified : Option Bytes}
    (hopen : (s.fileOpen limits store assoc path position).1 = .fileOpen frsmId sizeSaid modified)
    (hfree : s.NextFree assoc) (hserves : store.Serves path bytes) :
    (s.fileOpen limits store assoc path position).2.At assoc frsmId path bytes.length
      (min position bytes.length) := by
  obtain ⟨⟨info, hinfo, hsize⟩, -⟩ := hserves
  unfold fileOpen at hopen ⊢
  split at hopen
  · cases hopen
  · rename_i hroom
    rw [if_neg hroom]
    rw [hinfo] at hopen ⊢
    dsimp only at hopen ⊢
    obtain ⟨rfl, -, -⟩ := FileAnswer.fileOpen.inj hopen
    have hnone : s.handles.find? (FileHandle.isOf assoc s.nextFrsm) = none := by
      rw [List.find?_eq_none]
      intro h hh
      rw [hfree h hh]
      exact Bool.false_ne_true
    rw [At, List.find?_append, hnone, Option.none_or, hsize, List.find?_cons_of_pos]
    exact isOf_self _

theorem find_deliveredTo (hs : List FileHandle)
    (hfind : hs.find? (FileHandle.isOf assoc frsmId) = some h) (delivered : Nat) :
    (deliveredTo assoc frsmId delivered hs).find? (FileHandle.isOf assoc frsmId) =
      some { h with delivered := delivered } := by
  induction hs with
  | nil => cases hfind
  | cons h' hs ih =>
    rw [deliveredTo]
    by_cases hof : h'.isOf assoc frsmId = true
    · rw [List.find?_cons_of_pos hof] at hfind
      cases hfind
      rw [if_pos hof]
      exact List.find?_cons_of_pos hof
    · rw [List.find?_cons_of_neg hof] at hfind
      rw [if_neg hof, List.find?_cons_of_neg hof]
      exact ih hfind

/-- Another handle that moves on is not met on the way to this one. -/
theorem find_deliveredTo_other (hs : List FileHandle) {assoc' : AssocId} {frsmId' : Int}
    (hne : ¬ (frsmId' = frsmId ∧ assoc' = assoc)) (delivered : Nat) :
    (deliveredTo assoc' frsmId' delivered hs).find? (FileHandle.isOf assoc frsmId) =
      hs.find? (FileHandle.isOf assoc frsmId) := by
  induction hs with
  | nil => rfl
  | cons h hs ih =>
    rw [deliveredTo]
    by_cases hof' : h.isOf assoc' frsmId' = true
    · have hof : ¬ h.isOf assoc frsmId = true := by
        rw [isOf_eq_true] at hof' ⊢
        rintro ⟨hid, hassoc⟩
        exact hne ⟨hof'.1.symm.trans hid, hof'.2.symm.trans hassoc⟩
      have hmoved : ¬ ({ h with delivered := delivered } : FileHandle).isOf assoc frsmId = true :=
        hof
      rw [if_pos hof', List.find?_cons_of_neg hof, List.find?_cons_of_neg hmoved]
    · rw [if_neg hof', List.find?_cons, List.find?_cons, ih]

/-- An entry that stays in a list is found as before. -/
theorem find_filter {hs : List FileHandle} {keep : FileHandle → Bool}
    (hfind : hs.find? (FileHandle.isOf assoc frsmId) = some h)
    (hkeep : ∀ h, h.isOf assoc frsmId = true → keep h = true) :
    (hs.filter keep).find? (FileHandle.isOf assoc frsmId) = some h := by
  rw [List.find?_filter]
  rw [← hfind]
  congr 1
  funext h
  cases hof : h.isOf assoc frsmId with
  | false => simp
  | true => simp [hkeep h hof]

/-- Whatever happens beside it, a transfer stays where it is. -/
theorem At.step (limits : FileLimits) (store : FileStore)
    (hat : s.At assoc frsmId path size delivered) {e : FileEvent}
    (hread : e ≠ .read assoc frsmId) (hends : ¬ e.Ends assoc frsmId) :
    (s.step limits store e).2.At assoc frsmId path size delivered := by
  cases e with
  | «open» assoc' path' position =>
    rw [FileHandles.step]
    dsimp only
    unfold fileOpen
    split
    · exact hat
    · split
      · exact hat
      · rw [At, List.find?_append, hat]
        rfl
  | read assoc' frsmId' =>
    rw [FileHandles.step]
    dsimp only
    unfold fileRead
    split
    · exact hat
    · rw [At, find_deliveredTo_other]
      · exact hat
      · rintro ⟨rfl, rfl⟩
        exact hread rfl
  | close assoc' frsmId' =>
    apply find_filter hat
    intro h hof
    rw [isOf_eq_true] at hof
    rw [Bool.not_eq_true', Bool.eq_false_iff, Ne, isOf_eq_true]
    rintro ⟨hid, hassoc⟩
    apply hends
    rw [FileEvent.Ends, ← hof.1, ← hof.2, hid, hassoc]
    exact Or.inl rfl
  | ended assoc' =>
    apply find_filter hat
    intro h hof
    rw [isOf_eq_true] at hof
    rw [decide_eq_true_eq]
    intro hassoc
    apply hends
    rw [FileEvent.Ends, ← hof.2, hassoc]
    exact Or.inr rfl

/-- A read delivers the next chunk. -/
theorem At.read (limits : FileLimits) (hsize : bytes.length < 2 ^ 32)
    (hserves : store.Serves path bytes) (hat : s.At assoc frsmId path bytes.length delivered)
    (hle : delivered ≤ bytes.length) : let data := (bytes.drop delivered).take limits.fileChunk
    (s.step limits store (.read assoc frsmId)).1 = some (.fileRead data
        (decide (data.length = limits.fileChunk) &&
          decide (delivered + data.length < bytes.length))) ∧
      (s.step limits store (.read assoc frsmId)).2.At assoc frsmId path bytes.length
        (delivered + data.length) := by
  intro data
  have hlen : data.length ≤ bytes.length - delivered := by
    rw [List.length_take, List.length_drop]
    exact Nat.min_le_right _ _
  have hmin : min u64Max (delivered + data.length) = delivered + data.length := by
    apply Nat.min_eq_right
    rw [u64Max]
    omega
  have hfind := hat
  rw [At] at hfind
  rw [FileHandles.step]
  dsimp only
  rw [fileRead, hfind]
  dsimp only
  rw [hserves.octets, Option.getD_some, hmin]
  exact ⟨rfl, find_deliveredTo _ hfind _⟩

theorem chunk_rest {delivered : Nat} (chunk : Nat) (hle : delivered ≤ bytes.length) :
    let data := (bytes.drop delivered).take chunk
    delivered + data.length ≤ bytes.length ∧
      bytes.drop delivered = data ++ bytes.drop (delivered + data.length) ∧
      ((decide (data.length = chunk) && decide (delivered + data.length < bytes.length)) = false →
        data = bytes.drop delivered) := by
  intro data
  have hlen : data.length = min chunk (bytes.length - delivered) := by
    rw [List.length_take, List.length_drop]
  have hsplit : bytes.drop delivered = data ++ bytes.drop (delivered + data.length) := by
    have happend := List.take_append_drop data.length (bytes.drop delivered)
    have hdata : (bytes.drop delivered).take data.length = data := by
      apply List.take_eq_take_iff.mpr
      rw [hlen, List.length_drop]
      omega
    rw [List.drop_drop, hdata] at happend
    exact happend.symm
  refine ⟨by omega, hsplit, ?_⟩
  intro hlast
  rw [Bool.and_eq_false_iff, decide_eq_false_iff_not, decide_eq_false_iff_not] at hlast
  have hend : bytes.length ≤ delivered + data.length := by
    omega
  rw [hsplit, List.drop_eq_nil_of_le hend, List.append_nil]

/-- The chunks of a transfer, from where it stands: they are the rest of the file when no more
follows, which is so after as many reads as there are chunks in it and one. -/
theorem At.chunks (hchunk : 1 ≤ limits.fileChunk) (hsize : bytes.length < 2 ^ 32)
    (hserves : ∀ e ∈ es, e.1.Serves path bytes) (hends : ∀ e ∈ es, ¬ e.2.Ends assoc frsmId)
    (hat : s.At assoc frsmId path bytes.length delivered) (hle : delivered ≤ bytes.length) :
    (∀ out, untilLast (chunksOn limits assoc frsmId s es) = some out → out = bytes.drop delivered) ∧
      ((bytes.length - delivered) / limits.fileChunk < (chunksOn limits assoc frsmId s es).length →
        (untilLast (chunksOn limits assoc frsmId s es)).isSome = true) := by
  induction es generalizing s delivered with
  | nil => exact ⟨nofun, nofun⟩
  | cons e es ih =>
    obtain ⟨store, e⟩ := e
    rw [List.forall_mem_cons] at hserves hends
    by_cases hread : e = .read assoc frsmId
    · subst hread
      obtain ⟨hanswer, hnext⟩ := hat.read limits hsize hserves.1 hle
      obtain ⟨hle', hsplit, hlast⟩ := chunk_rest limits.fileChunk hle
      generalize hdata : (bytes.drop delivered).take limits.fileChunk = data at *
      obtain ⟨hrest, hcount⟩ := ih hserves.2 hends.2 hnext hle'
      rw [chunksOn, hanswer]
      dsimp only
      rw [if_pos rfl, untilLast]
      cases hmore : decide (data.length = limits.fileChunk) &&
          decide (delivered + data.length < bytes.length) with
      | false =>
        rw [if_neg Bool.false_ne_true]
        constructor
        · intro out hout
          cases hout
          exact hlast hmore
        · intro _
          rfl
      | true =>
        rw [if_pos rfl]
        rw [Bool.and_eq_true, decide_eq_true_eq, decide_eq_true_eq] at hmore
        constructor
        · intro out hout
          obtain ⟨rest, hrest', rfl⟩ := Option.map_eq_some_iff.mp hout
          rw [hsplit, hrest rest hrest']
        · intro hlt
          rw [Option.isSome_map]
          apply hcount
          have hdiv : (bytes.length - delivered) / limits.fileChunk =
              (bytes.length - (delivered + data.length)) / limits.fileChunk + 1 := by
            rw [hmore.1, ← Nat.add_div_right _ hchunk]
            congr 1
            omega
          rw [List.length_cons, hdiv] at hlt
          exact Nat.lt_of_succ_lt_succ hlt
    · have hnext := hat.step limits store hread hends.1
      rw [chunksOn]
      split
      · rw [if_neg hread]
        exact ih hserves.2 hends.2 hnext hle
      · exact ih hserves.2 hends.2 hnext hle

/-- The client puts together what it is given until no more follows, if it is willing to hold it. -/
theorem At.readOpenFile (hchunk : 1 ≤ limits.fileChunk) (hsize : bytes.length < 2 ^ 32)
    (hserves : ∀ e ∈ es, e.1.Serves path bytes) (hends : ∀ e ∈ es, ¬ e.2.Ends assoc frsmId)
    (hat : s.At assoc frsmId path bytes.length delivered) (hle : delivered ≤ bytes.length)
    {maxLen : Nat} {out : Bytes} (hmax : out.length + (bytes.length - delivered) ≤ maxLen) :
    Server.readOpenFile maxLen out (chunksOn limits assoc frsmId s es) =
      (untilLast (chunksOn limits assoc frsmId s es)).map fun rest => .ok (out ++ rest) := by
  induction es generalizing s delivered out with
  | nil => rfl
  | cons e es ih =>
    obtain ⟨store, e⟩ := e
    rw [List.forall_mem_cons] at hserves hends
    by_cases hread : e = .read assoc frsmId
    · subst hread
      obtain ⟨hanswer, hnext⟩ := hat.read limits hsize hserves.1 hle
      obtain ⟨hle', -, -⟩ := chunk_rest limits.fileChunk hle
      generalize (bytes.drop delivered).take limits.fileChunk = data at *
      rw [chunksOn, hanswer]
      dsimp only
      rw [if_pos rfl, untilLast, Server.readOpenFile, if_neg (by omega)]
      cases hmore : decide (data.length = limits.fileChunk) &&
          decide (delivered + data.length < bytes.length) with
      | false => rfl
      | true =>
        rw [Bool.and_eq_true, decide_eq_true_eq, decide_eq_true_eq] at hmore
        have hne : data.isEmpty = false := by
          cases data with
          | nil => exact absurd hmore.1 (Nat.ne_of_lt hchunk)
          | cons b data => rfl
        have hlen : (out ++ data).length + (bytes.length - (delivered + data.length)) ≤
            maxLen := by
          rw [List.length_append]
          omega
        rw [hne, if_neg (by decide), if_pos rfl, Option.map_map]
        refine (ih hserves.2 hends.2 hnext hle' hlen).trans ?_
        congr 1
        funext rest
        rw [List.append_assoc]
        rfl
    · have hnext := hat.step limits store hread hends.1
      rw [chunksOn]
      split
      · rw [if_neg hread]
        exact ih hserves.2 hends.2 hnext hle hmax
      · exact ih hserves.2 hends.2 hnext hle hmax

/-- How often a file is opened in a run. -/
def opens (es : List (FileStore × FileEvent)) : Nat :=
  es.countP fun e => e.2 matches .open ..

/-- The counter stands at a number up to `n`, and the numbers in use are below it. -/
structure Numbered (s : FileHandles) (n : Nat) : Prop where
  counter : 1 ≤ s.nextFrsm ∧ s.nextFrsm ≤ n
  below : ∀ h ∈ s.handles, h.frsmId < s.nextFrsm

theorem Numbered.mono {m : Nat} (h : s.Numbered n) (hnm : n ≤ m) : s.Numbered m :=
  ⟨⟨h.counter.1, h.counter.2.trans (Int.ofNat_le.mpr hnm)⟩, h.below⟩

theorem Numbered.nextFree (h : s.Numbered n) (assoc : AssocId) : s.NextFree assoc := by
  intro handle hhandle
  rw [Bool.eq_false_iff, Ne, isOf_eq_true]
  rintro ⟨heq, -⟩
  exact absurd heq (Int.ne_of_lt (h.below handle hhandle))

theorem Numbered.fileOpen (limits : FileLimits) (store : FileStore) (h : s.Numbered n)
    (hn : n < 2 ^ 31 - 1) (assoc : AssocId) (path : Bytes) (position : Nat) :
    (s.fileOpen limits store assoc path position).2.Numbered (n + 1) := by
  unfold FileHandles.fileOpen
  split
  · exact h.mono (Nat.le_succ n)
  · split
    · exact h.mono (Nat.le_succ n)
    · obtain ⟨⟨hpos, hle⟩, hbelow⟩ := h
      have hsucc : max (wrappingSucc s.nextFrsm) 1 = s.nextFrsm + 1 := by
        rw [wrappingSucc, if_neg (by omega)]
        omega
      refine ⟨?_, ?_⟩
      · dsimp only
        omega
      · dsimp only
        rw [hsucc, List.forall_mem_append, List.forall_mem_singleton]
        refine ⟨?_, Int.lt_succ _⟩
        intro handle hhandle
        exact (hbelow handle hhandle).trans (Int.lt_succ _)

theorem mem_deliveredTo {hs : List FileHandle} {delivered : Nat}
    (hh : h ∈ deliveredTo assoc frsmId delivered hs) : ∃ h' ∈ hs, h'.frsmId = h.frsmId := by
  induction hs with
  | nil => cases hh
  | cons h' hs ih =>
    rw [List.exists_mem_cons_iff]
    rw [deliveredTo] at hh
    split at hh
    · rcases List.mem_cons.mp hh with rfl | hh
      · exact Or.inl rfl
      · exact Or.inr ⟨h, hh, rfl⟩
    · rcases List.mem_cons.mp hh with rfl | hh
      · exact Or.inl rfl
      · exact Or.inr (ih hh)

theorem Numbered.step (h : s.Numbered n) {e : FileEvent}
    (he : ∀ assoc path position, e ≠ .open assoc path position) :
    (s.step limits store e).2.Numbered n := by
  cases e with
  | «open» assoc path position => exact absurd rfl (he assoc path position)
  | read assoc frsmId =>
    rw [FileHandles.step]
    dsimp only
    unfold fileRead
    split
    · exact h
    · refine ⟨h.counter, ?_⟩
      intro handle hhandle
      obtain ⟨handle', hhandle', heq⟩ := mem_deliveredTo hhandle
      rw [← heq]
      exact h.below handle' hhandle'
  | close assoc frsmId => exact ⟨h.counter, fun _ hh => h.below _ (List.mem_filter.mp hh).1⟩
  | ended assoc => exact ⟨h.counter, fun _ hh => h.below _ (List.mem_filter.mp hh).1⟩

theorem Numbered.run (h : s.Numbered n) (hfew : n + opens es ≤ 2 ^ 31 - 1) :
    (run limits s es).Numbered (n + opens es) := by
  induction es generalizing s n with
  | nil => exact h
  | cons e es ih =>
    obtain ⟨store, e⟩ := e
    rw [FileHandles.run]
    cases e with
    | «open» assoc path position =>
      have hopens : opens ((store, .open assoc path position) :: es) = opens es + 1 :=
        List.countP_cons_of_pos rfl
      rw [hopens] at hfew ⊢
      have hnext := ih (h.fileOpen limits store (by omega) assoc path
        position) (by omega)
      exact hnext.mono (by omega)
    | read assoc frsmId => exact ih (h.step nofun) hfew
    | close assoc frsmId => exact ih (h.step nofun) hfew
    | ended assoc => exact ih (h.step nofun) hfew

/-- The counter comes round after two to the 31st opens; until then the next number is free. -/
theorem nextFree_of_opens (limits : FileLimits) {before : List (FileStore × FileEvent)}
    (hfew : opens before < 2 ^ 31 - 1) (assoc : AssocId) :
    (FileHandles.run limits initial before).NextFree assoc := by
  have hstart : initial.Numbered 1 := ⟨⟨Int.le_refl 1, Int.le_refl 1⟩, nofun⟩
  exact (hstart.run (by omega)).nextFree assoc

/-! ### Two records -/

/-- What is in the files. -/
def recordOctets (path : Bytes) : Option Bytes :=
  if path = ascii "a.cfg" then some [1, 2, 3] else if path = ascii "b.cfg" then some [4] else none

/-- Two files that do not change. -/
def twoRecords : FileStore where
  info path := (recordOctets path).map fun bytes => ⟨path, bytes.length, none⟩
  readAt path offset len := (recordOctets path).map fun bytes => (bytes.drop offset).take len

theorem twoRecords_serves {path bytes : Bytes} (h : recordOctets path = some bytes) :
    twoRecords.Serves path bytes where
  info := ⟨⟨path, bytes.length, none⟩, by simp [twoRecords, h], rfl⟩
  octets := by
    intro offset len
    simp [twoRecords, h]

/-- A read, another client's open, and a read. -/
def interleaved : List (FileStore × FileEvent) :=
  [(twoRecords, .read 1 1), (twoRecords, .open 2 (ascii "b.cfg") 0), (twoRecords, .read 1 1)]

/-- A client opens and closes a file, again and again. -/
def churn (i : Int) : Nat → List (FileStore × FileEvent)
  | 0 => []
  | n + 1 => (twoRecords, .open 2 (ascii "b.cfg") 0) :: (twoRecords, .close 2 i) :: churn (i + 1) n

theorem run_append (limits : FileLimits) (s : FileHandles) (es es' : List (FileStore × FileEvent)) :
    run limits s (es ++ es') = run limits (run limits s es) es' := by
  induction es generalizing s with
  | nil => rfl
  | cons e es ih => exact ih _

theorem run_churn (hassoc : h.assoc = 1) {i : Int} (hpos : 1 ≤ i) (hi : i + n ≤ 2 ^ 31 - 1) :
    run ⟨4, 4⟩ ⟨[h], i⟩ (churn i n) = ⟨[h], i + n⟩ := by
  induction n generalizing i with
  | zero => simp [churn, run]
  | succ n ih =>
    have hsucc : max (wrappingSucc i) 1 = i + 1 := by
      rw [wrappingSucc, if_neg (by omega)]
      omega
    have hopen : (step ⟨4, 4⟩ twoRecords ⟨[h], i⟩ (.open 2 (ascii "b.cfg") 0)).2 =
        ⟨[h, ⟨i, 2, ascii "b.cfg", 0, 1⟩], i + 1⟩ := by
      have hroom : ¬ 4 ≤ ([h].filter fun h => h.assoc = 2).length := by
        simp [hassoc]
      rw [step]
      dsimp only
      rw [fileOpen, if_neg hroom, ← hsucc]
      rfl
    have hclose : (step ⟨4, 4⟩ twoRecords ⟨[h, ⟨i, 2, ascii "b.cfg", 0, 1⟩], i + 1⟩
        (.close 2 i)).2 = ⟨[h], i + 1⟩ := by
      simp [step, fileClose, FileHandle.isOf, hassoc]
    rw [churn, run, hopen, run, hclose, ih (by omega) (by omega)]
    congr 1
    omega

/-- The record that the first client has open. -/
def kept : FileHandle := ⟨1, 1, ascii "a.cfg", 0, 3⟩

/-- A client keeps a file open while another one opens files until the counter comes round. -/
def roundTrip : List (FileStore × FileEvent) :=
  (twoRecords, .open 1 (ascii "a.cfg") 0) :: (churn 2 (2 ^ 31 - 3) ++
    [(twoRecords, .open 2 (ascii "b.cfg") 0), (twoRecords, .close 2 (2 ^ 31 - 1))])

theorem run_roundTrip : run ⟨4, 4⟩ initial roundTrip = ⟨[kept], 1⟩ := by
  have hfirst : (step ⟨4, 4⟩ twoRecords initial (.open 1 (ascii "a.cfg") 0)).2 = ⟨[kept], 2⟩ := rfl
  have hchurn : run ⟨4, 4⟩ ⟨[kept], 2⟩ (churn 2 (2 ^ 31 - 3)) = ⟨[kept], 2 ^ 31 - 1⟩ :=
    run_churn rfl (by decide) (by decide)
  rw [roundTrip, run, hfirst, run_append, hchurn]
  rfl

end FileHandles

end Iec61850.Server
