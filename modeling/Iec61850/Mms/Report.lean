import Iec61850.Mms.Access
import Iec61850.Theory.BitString
import Mathlib.Data.List.Sort

/-!
# Reports

`common/flags.rs` and the codec half of `proto/mms/report.rs`: the packed option lists, the
report, the list of values it is sent as, and the way back.
-/

namespace Iec61850

open Theory

/-! ### Packed option lists -/

/-- `OptFlds`: which fields a report carries. Bit 0 is reserved. -/
abbrev OptFlds := BitVec 10

/-- `TrgOps`: what makes the server send a report. Bit 0 is reserved. -/
abbrev TrgOps := BitVec 6

/-- `ReasonCode`: why a member was included. Bit 0 is reserved. -/
abbrev ReasonCode := BitVec 6

/-- The setter `packed_bits!` gives each flag. -/
def withBit {width : Nat} (v : BitVec width) (bit : Nat) (on : Bool) : BitVec width :=
  if on then v ||| BitVec.twoPow width bit else v &&& ~~~(BitVec.twoPow width bit)

theorem getLsbD_withBit {width bit : Nat} (v : BitVec width) (on : Bool) (hbit : bit < width)
    (i : Nat) : (withBit v bit on).getLsbD i = if i = bit then on else v.getLsbD i := by
  by_cases hi : i < width
  · by_cases hib : i = bit
    · subst hib
      cases on <;> simp [withBit, hbit]
    · cases on <;> simp [withBit, hi, hib]
  · have hib : i ≠ bit := fun h => hi (h ▸ hbit)
    have hge : width ≤ i := Nat.le_of_not_lt hi
    rw [if_neg hib, BitVec.getLsbD_of_ge _ _ hge, BitVec.getLsbD_of_ge _ _ hge]

namespace OptFlds

def sequenceNumber (o : OptFlds) : Bool := o.getLsbD 1
def reportTimeStamp (o : OptFlds) : Bool := o.getLsbD 2
def reasonForInclusion (o : OptFlds) : Bool := o.getLsbD 3
def dataSetName (o : OptFlds) : Bool := o.getLsbD 4
def dataReference (o : OptFlds) : Bool := o.getLsbD 5
def bufferOverflow (o : OptFlds) : Bool := o.getLsbD 6
def entryId (o : OptFlds) : Bool := o.getLsbD 7
def confRevision (o : OptFlds) : Bool := o.getLsbD 8
def segmentation (o : OptFlds) : Bool := o.getLsbD 9

def withBufferOverflow (o : OptFlds) (on : Bool) : OptFlds := withBit o 6 on
def withEntryId (o : OptFlds) (on : Bool) : OptFlds := withBit o 7 on
def withSegmentation (o : OptFlds) (on : Bool) : OptFlds := withBit o 9 on

theorem getLsbD_withSegmentation (o : OptFlds) (on : Bool) {i : Nat} (hi : i ≠ 9) :
    (o.withSegmentation on).getLsbD i = o.getLsbD i := by
  rw [withSegmentation, getLsbD_withBit o on (by decide), if_neg hi]

@[simp] theorem segmentation_withSegmentation (o : OptFlds) (on : Bool) :
    (o.withSegmentation on).segmentation = on := by
  rw [segmentation, withSegmentation, getLsbD_withBit o on (by decide), if_pos rfl]

end OptFlds

/-- The reasons of `ReasonCode`, and the triggers of `TrgOps`, by their bits. -/
def bitDataChange : Nat := 1
def bitQualityChange : Nat := 2
def bitDataUpdate : Nat := 3
def bitIntegrity : Nat := 4
def bitGeneralInterrogation : Nat := 5

/-- `to_value` of a packed option list. -/
def packedToValue {width : Nat} (v : BitVec width) : Value :=
  .bitString (toBitString v).1 (toBitString v).2

/-- `from_value` of a packed option list. -/
def packedFromValue (width : Nat) : Value → Option (BitVec width)
  | .bitString _ bytes => some (fromBitString width bytes)
  | _ => none

@[simp] theorem packedFromValue_packedToValue {width : Nat} (v : BitVec width) :
    packedFromValue width (packedToValue v) = some v := by
  rw [packedToValue, packedFromValue, fromBitString_toBitString]

/-! ### Typed readings of a value -/

/-- `Typed::as_str`. -/
def Value.asStr : Value → Option Bytes
  | .visibleString s | .mmsString s => some s
  | _ => none

/-- `Typed::as_bool`. -/
def Value.asBool : Value → Option Bool
  | .boolean b => some b
  | _ => none

namespace Mms

/-! ### The report -/

/-- `ReportEntry`: one member of a data set, as a report delivered it. -/
structure ReportEntry where
  index : Nat
  reference : Option Bytes
  value : Value
  reason : Option ReasonCode
  deriving Repr

structure Report where
  rptId : Bytes
  optFlds : OptFlds
  seqNum : Option UInt32
  timeOfEntry : Option EntryTime
  dataSet : Option Bytes
  bufOvfl : Option Bool
  entryId : Option Bytes
  confRev : Option UInt32
  subSeqNum : Option UInt32
  moreSegmentsFollow : Bool
  inclusion : UInt8 × Bytes
  entries : List ReportEntry
  deriving Repr

/-- `inclusion_len`: how many members the data set has. -/
def inclusionLen (inclusion : UInt8 × Bytes) : Nat :=
  inclusion.2.length * 8 - inclusion.1.toNat

def includedIndices (inclusion : UInt8 × Bytes) : List Nat :=
  (List.range (inclusionLen inclusion)).filter (bitAt inclusion.2)

/-- `Report::inclusion_for`. -/
def inclusionFor (total : Nat) (included : List Nat) : UInt8 × Bytes :=
  (UInt8.ofNat (octetsFor total * 8 - total),
    setBits (List.replicate (octetsFor total) 0) (included.filter (· < total)))

/-! ### Reading -/

/-- The next of the values still to be read. -/
def nextValue (what : String) : List Value → Except Error (Value × List Value)
  | [] => .error (.notFound what)
  | v :: rest => .ok (v, rest)

/-- A field that is always there, with the reason its value may be refused for. -/
def field {α : Type} (what refused : String) (f : Value → Option α) (values : List Value) :
    Except Error (α × List Value) :=
  match nextValue what values with
  | .error e => .error e
  | .ok (v, rest) =>
    match f v with
    | some a => .ok (a, rest)
    | none => .error (.invalidValue refused)

/-- A field that is there when its flag is set. -/
def flagged {α : Type} (flag : Bool) (f : List Value → Except Error (α × List Value))
    (values : List Value) : Except Error (Option α × List Value) :=
  if flag then do
    let (a, rest) ← f values
    .ok (some a, rest)
  else .ok (none, values)

/-- A field read `n` times over. -/
def times {α : Type} (f : List Value → Except Error (α × List Value)) :
    Nat → List Value → Except Error (List α × List Value)
  | 0, values => .ok ([], values)
  | n + 1, values => do
      let (a, rest) ← f values
      let (as, rest) ← times f n rest
      .ok (a :: as, rest)

/-- The number `unsigned` accepts: a signed one may stand for it when it is not negative. -/
def unsignedField : Value → Option UInt32
  | .unsigned n => if n ≤ u32Max then some (UInt32.ofNat n) else none
  | .integer i => if 0 ≤ i ∧ i ≤ u32Max then some (UInt32.ofNat i.toNat) else none
  | _ => none

/-- `entry_time`: a stamp in `UtcTime` is accepted as well. -/
def entryTime (values : List Value) : Except Error (EntryTime × List Value) :=
  match nextValue "TimeOfEntry" values with
  | .error e => .error e
  | .ok (.binaryTime b, rest) =>
    match EntryTime.fromOctets b with
    | some t => .ok (t, rest)
    | none => .error (.invalidValue "TimeOfEntry is not six octets")
  | .ok (.utcTime t, rest) => .ok (EntryTime.fromUnixMillis (t.toUnixNanos / 1000000), rest)
  | .ok _ => .error (.invalidValue "TimeOfEntry is not a binary time")

/-- The octets of an octet string. -/
def octetsOf : Value → Option Bytes
  | .octetString b => some b
  | _ => none

/-- The unused bits and octets of a bit string. -/
def bitsOf : Value → Option (UInt8 × Bytes)
  | .bitString unused bytes => some (unused, bytes)
  | _ => none

/-- The fields of a segment: its number, and whether another one follows. -/
def segmentFields (values : List Value) : Except Error ((UInt32 × Bool) × List Value) := do
  let (n, rest) ← field "SubSeqNum" "SubSeqNum" unsignedField values
  let (more, rest) ←
    field "MoreSegmentsFollow" "MoreSegmentsFollow is not a boolean" Value.asBool rest
  .ok ((n, more), rest)

/-- The entries of a report from the three runs of fields they are sent as. -/
def entriesOf (indices : List Nat) (references : List Bytes) (values : List Value)
    (reasons : List ReasonCode) : Except Error (List ReportEntry) :=
  indices.zipIdx.mapM fun (index, n) =>
    match values[n]? with
    | some value => .ok ⟨index, references[n]?, value, reasons[n]?⟩
    | none => .error (.notFound "a value for an included member")

def Report.fromValues (values : List Value) : Except Error Report := do
  let (rptId, vs) ← field "RptID" "RptID is not a string" Value.asStr values
  let (opt, vs) ← field "OptFlds" "OptFlds is not a bit string" (packedFromValue 10) vs
  let (seqNum, vs) ← flagged (OptFlds.sequenceNumber opt) (field "SqNum" "SqNum" unsignedField) vs
  let (timeOfEntry, vs) ← flagged (OptFlds.reportTimeStamp opt) entryTime vs
  let (dataSet, vs) ←
    flagged (OptFlds.dataSetName opt) (field "DatSet" "DatSet is not a string" Value.asStr) vs
  let (bufOvfl, vs) ←
    flagged (OptFlds.bufferOverflow opt) (field "BufOvfl" "BufOvfl is not a boolean" Value.asBool) vs
  let (entryId, vs) ←
    flagged (OptFlds.entryId opt) (field "EntryID" "EntryID is not an octet string" octetsOf) vs
  let (confRev, vs) ← flagged (OptFlds.confRevision opt) (field "ConfRev" "ConfRev" unsignedField) vs
  let (part, vs) ← flagged (OptFlds.segmentation opt) segmentFields vs
  let (inclusion, vs) ← field "Inclusion" "the inclusion field is not a bit string" bitsOf vs
  let indices := includedIndices inclusion
  let (references, vs) ← flagged (OptFlds.dataReference opt)
    (times (field "data-reference" "a data reference is not a string" Value.asStr) indices.length) vs
  let (entryValues, vs) ← times (nextValue "value") indices.length vs
  let (reasons, vs) ← flagged (OptFlds.reasonForInclusion opt)
    (times (field "ReasonCode" "a reason code is not a bit string" (packedFromValue 6))
      indices.length) vs
  if ¬ vs.isEmpty then .error (.decode .trailingBytes (values.length - vs.length))
  else do
    let entries ← entriesOf indices (references.getD []) entryValues (reasons.getD [])
    .ok { rptId, optFlds := opt, seqNum, timeOfEntry, dataSet, bufOvfl, entryId, confRev,
          subSeqNum := part.map (·.1), moreSegmentsFollow := (part.map (·.2)).getD false,
          inclusion, entries }

/-- One result of `Report::parse`. -/
def resultToValue (limits : Limits) : AccessResult → Except Error Value
  | .success t => do
      let view ← DataView.fromTlv t
      view.toOwned limits
  | .failure code => .error (.dataAccess code)

def Report.parse (results : List AccessResult) (limits : Limits) : Except Error Report := do
  let values ← results.mapM (resultToValue limits)
  Report.fromValues values

/-! ### Writing -/

/-- A field the flags promise must be there. -/
def pushField (flag : Bool) (missing : String) (value : Option Value) : Except Error (List Value) :=
  if flag then
    match value with
    | some v => .ok [v]
    | none => .error (.invalidValue missing)
  else .ok []

/-- `self.opt_flds.segmentation()` of `Report::to_values`. -/
def segmentValues (r : Report) : Except Error (List Value) :=
  if r.optFlds.segmentation then
    match r.subSeqNum with
    | some n => .ok [.unsigned n.toNat, .boolean r.moreSegmentsFollow]
    | none => .error (.invalidValue "OptFlds promises SubSeqNum but the report has none")
  else .ok []

/-- The fields of `Report::to_values` that the flags ask for, up to the segment number. -/
def Report.optionalValues (r : Report) : Except Error (List Value) := do
  let seqNum ← pushField r.optFlds.sequenceNumber "OptFlds promises SqNum but the report has none"
    (r.seqNum.map fun n => .unsigned n.toNat)
  let time ← pushField r.optFlds.reportTimeStamp
    "OptFlds promises TimeOfEntry but the report has none"
    (r.timeOfEntry.map fun t => .binaryTime t.toOctets)
  let dataSet ← pushField r.optFlds.dataSetName "OptFlds promises DatSet but the report has none"
    (r.dataSet.map .visibleString)
  let bufOvfl ← pushField r.optFlds.bufferOverflow
    "OptFlds promises BufOvfl but the report has none" (r.bufOvfl.map .boolean)
  let entryId ← pushField r.optFlds.entryId "OptFlds promises EntryID but the report has none"
    (r.entryId.map .octetString)
  let confRev ← pushField r.optFlds.confRevision "OptFlds promises ConfRev but the report has none"
    (r.confRev.map fun n => .unsigned n.toNat)
  .ok (seqNum ++ time ++ dataSet ++ bufOvfl ++ entryId ++ confRev)

/-- The value of one field of an entry, which the flags promise. -/
def promised {α : Type} (missing : String) (f : α → Value) : Option α → Except Error Value
  | some a => .ok (f a)
  | none => .error (.invalidValue missing)

/-- One run of fields: a value for each entry, when the flags ask for it. -/
def runOf (flag : Bool) (f : ReportEntry → Except Error Value) (entries : List ReportEntry) :
    Except Error (List Value) :=
  if flag then entries.mapM f else .ok []

/-- The entries of `Report::to_values`, in three runs. -/
def entryValues (opt : OptFlds) (entries : List ReportEntry) : Except Error (List Value) := do
  let references ← runOf opt.dataReference (fun e =>
    promised "OptFlds promises data references but an entry has none" .visibleString e.reference)
    entries
  let reasons ← runOf opt.reasonForInclusion (fun e =>
    promised "OptFlds promises reason codes but an entry has none" packedToValue e.reason) entries
  .ok (references ++ entries.map (·.value) ++ reasons)

def Report.toValues (r : Report) : Except Error (List Value) := do
  let fields ← r.optionalValues
  let part ← segmentValues r
  if (includedIndices r.inclusion).length ≠ r.entries.length then
    .error (.invalidValue "the inclusion bit string does not match the number of entries")
  else do
    let entries ← entryValues r.optFlds r.entries
    .ok (.visibleString r.rptId :: packedToValue r.optFlds :: (fields ++ (part ++
      .bitString r.inclusion.1 r.inclusion.2 :: entries)))

/-! ### Inclusion bits -/

theorem inclusionLen_inclusionFor (total : Nat) (included : List Nat) :
    inclusionLen (inclusionFor total included) = total := by
  have hmod : (octetsFor total * 8 - total) % 256 = octetsFor total * 8 - total := by
    unfold octetsFor
    omega
  simp only [inclusionLen, inclusionFor, setBits_length, List.length_replicate, toNat_ofNat8, hmod]
  unfold octetsFor
  omega

theorem includedIndices_sorted (inclusion : UInt8 × Bytes) :
    (includedIndices inclusion).Pairwise (· < ·) :=
  List.pairwise_lt_range.filter _

theorem lt_of_mem_includedIndices {inclusion : UInt8 × Bytes} {i : Nat}
    (h : i ∈ includedIndices inclusion) : i < inclusionLen inclusion :=
  List.mem_range.mp (List.mem_of_mem_filter h)

theorem eq_of_sorted {is js : List Nat} (his : is.Pairwise (· < ·)) (hjs : js.Pairwise (· < ·))
    (h : ∀ i, i ∈ is ↔ i ∈ js) : is = js := by
  have hperm : is.Perm js := by
    refine (List.perm_ext_iff_of_nodup ?_ ?_).mpr h
    · exact his.imp Nat.ne_of_lt
    · exact hjs.imp Nat.ne_of_lt
  exact hperm.eq_of_pairwise (fun a b _ _ hab hba => absurd hab (Nat.lt_asymm hba)) his hjs

/-- The inclusion bits made for some members name just them. -/
theorem includedIndices_inclusionFor {total : Nat} {included : List Nat}
    (hsorted : included.Pairwise (· < ·)) (hlt : ∀ i ∈ included, i < total) :
    includedIndices (inclusionFor total included) = included := by
  apply eq_of_sorted (includedIndices_sorted _) hsorted
  intro i
  have hall : included.filter (· < total) = included := by
    rw [List.filter_eq_self]
    intro j hj
    exact decide_eq_true (hlt j hj)
  rw [includedIndices, inclusionLen_inclusionFor, List.mem_filter, List.mem_range, inclusionFor,
    hall, bitAt_setBits_zeros hlt, decide_eq_true_iff]
  constructor
  · exact fun h => h.2
  · exact fun h => ⟨hlt i h, h⟩

end Mms

end Iec61850
