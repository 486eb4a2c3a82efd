import Iec61850.Mms.Report
import Iec61850.Theory.Paging

/-!
# The log store

`MemoryLog` of `server/log.rs`: one bounded list of entries per log, the two queries over it, and
what happens to a store, one operation at a time.
-/

namespace Iec61850.Server.Log

open Theory Mms

def defaultLogCapacity : UInt64 := 1024

structure Entry where
  entryId : UInt64
  occurred : EntryTime
  values : List (Bytes × Value)
  reason : Option ReasonCode
  deriving Repr

/-- `NewEntry`: an entry that no store has numbered yet. -/
structure NewEntry where
  occurred : EntryTime
  values : List (Bytes × Value)
  reason : Option ReasonCode
  deriving Repr

structure LogBounds where
  oldest : UInt64 × EntryTime
  newest : UInt64 × EntryTime
  deriving DecidableEq, Repr

/-- `Journal`: one log and everything written into it. -/
structure Journal where
  entries : List Entry
  nextId : UInt64
  deriving Repr

/-- `MemoryLog`: the logs by their references, and how many entries each may hold. -/
structure MemoryLog where
  logs : Bytes → Option Journal
  capacity : UInt64
  positive : 0 < capacity.toNat

theorem four_positive : 0 < (4 : UInt64).toNat := by decide

def page (matching : List Entry) (limit : Nat) : List Entry × Bool :=
  Theory.page (max limit 1) matching

def Entry.key (e : Entry) : UInt64 × EntryTime := (e.entryId, e.occurred)

/-! ### One log -/

namespace Journal

/-- A log with no entries yet. -/
def empty : Journal := ⟨[], 1⟩

/-- The entry a log makes of a new one. -/
def number (j : Journal) (entry : NewEntry) : Entry :=
  ⟨j.nextId, entry.occurred, entry.values, entry.reason⟩

/-- The journal's part of `LogStore::append`. -/
def append (capacity : UInt64) (j : Journal) (entry : NewEntry) : Journal × LogBounds :=
  let pushed := j.entries ++ [j.number entry]
  let entries := if capacity.toNat < pushed.length then pushed.tail else pushed
  (⟨entries, j.nextId + 1⟩,
    ⟨(entries.head?.map Entry.key).getD (j.number entry).key, (j.number entry).key⟩)

/-- The journal's part of `LogStore::by_time`. -/
def byTime (j : Journal) (start stop : Option EntryTime) (limit : Nat) : List Entry × Bool :=
  page (j.entries.filter fun e =>
    start.all (fun f => decide (f ≤ e.occurred)) && stop.all (fun t => decide (e.occurred ≤ t))) limit

/-- The entries after one, by its identifier, or by its time when the log does not hold it. -/
def matchingAfter (j : Journal) (entryId : UInt64) (time : EntryTime) : List Entry :=
  match j.entries.findIdx? (fun e => decide (e.entryId = entryId)) with
  | some i => j.entries.drop (i + 1)
  | none => j.entries.filter fun e => decide (time < e.occurred)

/-- The journal's part of `LogStore::after_entry`. -/
def afterEntry (j : Journal) (entryId : UInt64) (time : EntryTime) (limit : Nat) :
    List Entry × Bool :=
  page (j.matchingAfter entryId time) limit

/-- The journal's part of `LogStore::purge`. -/
def purge (j : Journal) : Journal := { j with entries := [] }

end Journal

/-! ### The store -/

namespace MemoryLog

def forLogs (references : List Bytes) (capacity : UInt64) : MemoryLog where
  logs := fun log => if log ∈ references then some .empty else none
  capacity := max capacity 1
  positive := by
    have hmax : max capacity 1 = if capacity ≤ 1 then 1 else capacity := rfl
    rw [hmax]
    split
    · exact Nat.zero_lt_one
    · rename_i hlt
      rw [UInt64.le_iff_toNat_le] at hlt
      exact Nat.lt_trans Nat.zero_lt_one (Nat.not_le.mp hlt)

variable (s : MemoryLog)

/-- `LogStore::append`. -/
def append (log : Bytes) (entry : NewEntry) : MemoryLog × Option LogBounds :=
  match s.logs log with
  | none => (s, none)
  | some j =>
    let (j, bounds) := j.append s.capacity entry
    ({ s with logs := Function.update s.logs log (some j) }, some bounds)

/-- `LogStore::by_time`. -/
def byTime (log : Bytes) (start stop : Option EntryTime) (limit : Nat) : List Entry × Bool :=
  match s.logs log with
  | none => ([], false)
  | some j => j.byTime start stop limit

/-- `LogStore::after_entry`. -/
def afterEntry (log : Bytes) (entryId : UInt64) (time : EntryTime) (limit : Nat) :
    List Entry × Bool :=
  match s.logs log with
  | none => ([], false)
  | some j => j.afterEntry entryId time limit

/-- `LogStore::purge`. -/
def purge (log : Bytes) : MemoryLog :=
  match s.logs log with
  | none => s
  | some j => { s with logs := Function.update s.logs log (some j.purge) }

/-- The entries a log holds. -/
def held (log : Bytes) : List Entry := ((s.logs log).map (·.entries)).getD []

/-! ### Runs -/

/-- What happens to a store. -/
inductive Action where
  | append (log : Bytes) (entry : NewEntry)
  | purge (log : Bytes)

/-- The store after an action. -/
def next : Action → MemoryLog
  | .append log entry => (s.append log entry).1
  | .purge log => s.purge log

/-- The store after all of them. -/
def after (xs : List Action) : MemoryLog := xs.foldl next s

/-- What was appended to a log, in order. -/
def appended (log : Bytes) (xs : List Action) : List NewEntry :=
  xs.filterMap fun
    | .append l entry => if l = log then some entry else none
    | .purge _ => none

/-- Entries numbered one after the other. -/
def numbered : UInt64 → List NewEntry → List Entry
  | _, [] => []
  | id, entry :: rest => ⟨id, entry.occurred, entry.values, entry.reason⟩ :: numbered (id + 1) rest

/-- Everything ever appended to a log, with the identifiers it was given. -/
def history (log : Bytes) (xs : List Action) : List Entry := numbered 1 (appended log xs)

end MemoryLog

end Iec61850.Server.Log
