import Iec61850.Mms.Pdu
import Iec61850.Mms.Report
import Iec61850.Theory.Bisection

/-!
# Splitting a report into segments

The encoding half of `server/rcb.rs`: a report as an unconfirmed PDU, and `segments`, which
splits what does not fit the budget. Its loops are recursions on fuel: the outer one takes at
least one entry each time round, the bisection narrows the interval it searches.
-/

namespace Iec61850.Server

open Theory Ber Mms

def reportListName : Bytes := ascii "RPT"

/-- One encoded value as an access result. -/
def successOf (bytes : Bytes) : Except Error AccessResult := do
  let (t, _) ← (Cursor.new bytes).nextRequired
  .ok (.success t)

/-- The results of a report as the unconfirmed PDU that carries them. -/
def reportPdu (results : List AccessResult) : Pdu :=
  .unconfirmed (.informationReport (.variableListName (.vmdSpecific reportListName)) results)

def encode (r : Report) : Except Error Bytes := do
  let values ← r.toValues
  let encoded ← values.mapM fun v => Value.encodeAll [v]
  let results ← encoded.mapM successOf
  (reportPdu results).write

/-- `segment`: `count` entries from `start`, with the inclusion bits of just those members. -/
def segment (r : Report) (start count : Nat) (sub : UInt32) (more : Bool) : Report :=
  let entries := (r.entries.drop start).take count
  { r with
    optFlds := r.optFlds.withSegmentation true
    subSeqNum := some sub
    moreSegmentsFollow := more
    inclusion := inclusionFor (inclusionLen r.inclusion) (entries.map (·.index))
    entries }

/-- A segment of `count` entries, more following when entries are left. -/
def candidate (r : Report) (start count : Nat) (sub : UInt32) : Except Error Bytes :=
  encode (segment r start count sub (decide (start + count < r.entries.length)))

/-- `Ok(bytes) if bytes.len() <= budget`. -/
def within (budget : Nat) : Except Error Bytes → Option Bytes
  | .ok bytes => if bytes.length ≤ budget then some bytes else none
  | .error _ => none

/-- `unwrap_or_default`. -/
def orDefault : Except Error Bytes → Bytes
  | .ok bytes => bytes
  | .error _ => []

/-- How many entries the segment from `start` on takes, and its encoding: one entry is emitted
whatever its size, and one more than remain is known not to fit. -/
def cut (r : Report) (budget start : Nat) (sub : UInt32) : Nat × Bytes :=
  let remaining := r.entries.length - start
  let first := orDefault (encode (segment r start 1 sub (decide (1 < remaining))))
  bisect (fun count => within budget (candidate r start count sub)) remaining 1 (remaining + 1) first

/-- The outer loop of `segments`, from the entry at `start` on. -/
def segmentsFrom (r : Report) (budget : Nat) : Nat → Nat → UInt32 → List Bytes
  | 0, _, _ => []
  | fuel + 1, start, sub =>
    if start < r.entries.length then
      let (count, best) := cut r budget start sub
      if best.isEmpty then []
      else best :: segmentsFrom r budget fuel (start + count) (sub + 1)
    else []

def segments (r : Report) (budget : Nat) : List Bytes :=
  match within budget (encode r) with
  | some whole => [whole]
  | none => if r.entries.isEmpty then [] else segmentsFrom r budget r.entries.length 0 0

def minSegmentBudget : Nat := 512

end Iec61850.Server
