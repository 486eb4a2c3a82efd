import Iec61850.Mms.Report
import Iec61850.Theory.Runs
import Iec61850.Theory.SwapRemove

/-!
# Joining the segments of a report

The `ReportAssembler` of `proto/mms/report.rs`: the table of reports under way, the rules for a
segment that follows, skips or begins one, and the merging of a segment into the report held.
-/

namespace Iec61850.Mms

open Theory

/-- `SubSeqNum`, zero when the report has none. -/
def Report.sub (r : Report) : UInt32 := r.subSeqNum.getD 0

/-- What ties the segments of a report together: its `RptID` and `SqNum`. -/
def Report.key (r : Report) : Bytes × Option UInt32 := (r.rptId, r.seqNum)

/-- `u32::saturating_add(1)`. -/
def satNext (n : UInt32) : UInt32 := if n = UInt32.ofNat u32Max then n else n + 1

theorem satNext_toNat (n : UInt32) : (satNext n).toNat = min u32Max (n.toNat + 1) := by
  have hlt := n.toNat_lt
  have hmax : u32Max = 4294967295 := rfl
  have hof : (UInt32.ofNat u32Max).toNat = 4294967295 := rfl
  unfold satNext
  split
  · rename_i h
    rw [h, hof]
    omega
  · rename_i h
    have hne : n.toNat ≠ 4294967295 := fun heq => h (UInt32.toNat_inj.mp (heq.trans hof.symm))
    rw [UInt32.toNat_add]
    have hone : (1 : UInt32).toNat = 1 := rfl
    omega

/-! ### Merging -/

/-- The inclusion bits of two segments together. -/
def mergeInclusion (whole part : UInt8 × Bytes) : UInt8 × Bytes :=
  let ored := orInto whole.2 part.2
  if whole.2.length < part.2.length then (part.1, ored ++ part.2.drop whole.2.length)
  else (whole.1, ored)

/-- `merge`: fold a segment into the whole, the entries in index order (the sort is stable). -/
def merge (whole segment : Report) : Report :=
  { whole with
    inclusion := mergeInclusion whole.inclusion segment.inclusion
    entries := (whole.entries ++ segment.entries).insertionSort fun a b => a.index ≤ b.index
    subSeqNum := segment.subSeqNum
    bufOvfl := if segment.bufOvfl = some true then some true else whole.bufOvfl }

/-! ### The assembler -/

/-- `Pending`: one report under way. -/
structure PartialReport where
  key : Bytes × Option UInt32
  nextSubSeq : UInt32
  report : Report
  deriving Repr

structure AssemblerStats where
  reassembled : Nat := 0
  outOfOrder : Nat := 0
  evicted : Nat := 0
  oversized : Nat := 0
  deriving DecidableEq, Repr

structure ReportAssembler where
  partials : List PartialReport
  capacity : Nat
  maxEntries : Nat
  stats : AssemblerStats
  deriving Repr

namespace ReportAssembler

def withMaxEntries (capacity maxEntries : Nat) : ReportAssembler :=
  ⟨[], max capacity 1, max maxEntries 1, {}⟩

def new (capacity : Nat) : ReportAssembler :=
  withMaxEntries capacity Limits.default.maxDatasetMembers

def clear (a : ReportAssembler) : ReportAssembler := { a with partials := [] }

/-- A run abandoned because a segment number was skipped or repeated. -/
def countOutOfOrder (a : ReportAssembler) : ReportAssembler :=
  { a with stats := { a.stats with outOfOrder := min u64Max (a.stats.outOfOrder + 1) } }

/-- A run abandoned because it grew past the bound. -/
def countOversized (a : ReportAssembler) : ReportAssembler :=
  { a with stats := { a.stats with oversized := min u64Max (a.stats.oversized + 1) } }

def start (a : ReportAssembler) (r : Report) : ReportAssembler × Option Report :=
  if ¬ r.moreSegmentsFollow then (a, some r)
  else if r.sub ≠ 0 then (a.countOutOfOrder, none)
  else if a.maxEntries < r.entries.length then (a.countOversized, none)
  else
    let held : PartialReport := ⟨r.key, satNext r.sub, r⟩
    if a.capacity ≤ a.partials.length then
      ({ a with
          partials := a.partials.tail ++ [held]
          stats := { a.stats with evicted := min u64Max (a.stats.evicted + 1) } }, none)
    else ({ a with partials := a.partials ++ [held] }, none)

/-- A segment that is the one the report held at index `i` waits for. -/
def extend (a : ReportAssembler) (i : Nat) (p : PartialReport) (r : Report) :
    ReportAssembler × Option Report :=
  if a.maxEntries < p.report.entries.length + r.entries.length then
    (({ a with partials := swapRemove a.partials i } : ReportAssembler).countOversized, none)
  else
    let merged := merge p.report r
    if r.moreSegmentsFollow then
      ({ a with partials := a.partials.set i ⟨p.key, satNext r.sub, merged⟩ }, none)
    else
      ({ a with
          partials := swapRemove a.partials i
          stats := { a.stats with reassembled := min u64Max (a.stats.reassembled + 1) } },
        some { merged with moreSegmentsFollow := false })

def push (a : ReportAssembler) (r : Report) : ReportAssembler × Option Report :=
  if ¬ r.optFlds.segmentation then (a, some r)
  else
    match a.partials.findIdx? (fun p => decide (p.key = r.key)) with
    | none => a.start r
    | some i =>
      match a.partials[i]? with
      | none => (a, none)
      | some p =>
        if r.sub ≠ p.nextSubSeq then
          (({ a with partials := swapRemove a.partials i } : ReportAssembler).countOutOfOrder).start r
        else a.extend i p r

end ReportAssembler

end Iec61850.Mms
