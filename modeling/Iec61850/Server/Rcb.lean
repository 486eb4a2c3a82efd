import Iec61850.Server.Ied
import Iec61850.Server.Segments

/-!
# A report control block

The report engine of `server/rcb.rs` for one block: its state, the writes, the end of an
association, the gathering window, the building of reports and the replay of the buffer; and the
writes of a client as `server/acsi.rs` brings them to the block. The engine keeps its blocks in
a map and serves each one by itself, with the block's own attributes in the value store, so that
a block and its attributes are one state here.
-/

namespace Iec61850.Server

open Theory Mms

def defaultBuffer : Nat := 64

/-- The reasons of some members: a map by member reference. -/
abbrev Reasons := List (Bytes × ReasonCode)

/-- `Reservation`: who holds a block it has not enabled, for how many seconds after its
association ends, and until when once it has. -/
structure Reservation where
  assoc : AssocId
  lingerSecs : Option Nat
  lapsesAt : Option Instant
  deriving DecidableEq, Repr

/-- `Buffered`: one entry. -/
structure Buffered where
  entryId : UInt64
  madeAt : EntryTime
  reasons : Reasons
  values : List (Bytes × Value)
  deriving Repr

structure Rcb where
  buffered : Bool
  owner : Option AssocId
  reserved : Option Reservation
  pending : Reasons
  due : Option Instant
  integrityDue : Option Instant
  buffer : List Buffered
  nextEntry : UInt64
  overflowed : Bool
  seq : UInt32
  deriving Repr

/-- A report handed over to an association, with the entry it was made from and the members its
inclusion bits stand for; the PDUs it goes out as are its segments for the association's budget. -/
structure Delivery where
  assoc : AssocId
  entry : Buffered
  members : List Bytes
  report : Report
  budget : Nat
  deriving Repr

/-- The PDUs a report goes out as. -/
def Delivery.pdus (d : Delivery) : List Bytes := segments d.report d.budget

/-- `Engine::budget`. -/
def Peers.budget (p : Peers) (assoc : AssocId) : Nat :=
  max ((p.pdu assoc).getD p.defaultPdu) minSegmentBudget

/-- One control block: its reference, whether its edition has reservations, its state in the
engine, its attributes, and the reports that wait for the response to a request to go first. -/
structure ControlBlock where
  reference : Bytes
  reservation : Bool
  rcb : Rcb
  values : Attribute → Option Value
  deferred : List Delivery

/-- `Engine::new`, for one block with its engineered attributes. -/
def ControlBlock.new (reference : Bytes) (buffered reservation : Bool)
    (values : Attribute → Option Value) : ControlBlock where
  reference
  reservation
  rcb :=
    { buffered
      owner := none
      reserved := none
      pending := []
      due := none
      integrityDue := none
      buffer := []
      nextEntry := 1
      overflowed := false
      seq := 0 }
  values
  deferred := []

/-- A block with the values the file gives it. -/
def ControlBlock.engineered (rcb : ReportControl) (reference : Bytes) (dataSet : Option Bytes)
    (reservation : Bool) : ControlBlock :=
  .new reference rcb.buffered reservation
    fun a => (rcbDefaults rcb reference dataSet reservation).lookup a

namespace ControlBlock

variable (b : ControlBlock)

/-! ### Attributes -/

def typeOf (a : Attribute) : Option BType :=
  (rcbComponents b.rcb.buffered b.reservation).lookup a

/-- `Ied::write_leaf`. -/
def writeLeaf (a : Attribute) (v : Value) : ControlBlock × Except Int Unit :=
  match b.typeOf a with
  | none => (b, .error dataAccessNonExistent)
  | some t =>
    if accepts t v then ({ b with values := Function.update b.values a (some v) }, .ok ())
    else (b, .error dataAccessTypeInconsistent)

/-- `Ied::set_internal`, whose result every caller here drops. -/
def setInternal (a : Attribute) (v : Value) : ControlBlock := (b.writeLeaf a v).1

/-- `RptEna`, as everyone reads it. -/
def enabled : Bool := ((b.values .rptEna).bind boolOf).getD false

def trgOps : TrgOps := ((b.values .trgOps).bind (packedFromValue 6)).getD 0

def optFlds : OptFlds := ((b.values .optFlds).bind (packedFromValue 10)).getD 0

def integrityPeriod : Option Nat :=
  if b.trgOps.getLsbD bitIntegrity then ((b.values .intgPd).bind unsignedOf).filter (0 < ·)
  else none

/-- The data set the block reports, when the server has it. -/
def dataSet (ied : Ied) : Option (Bytes × List DataSetMember) :=
  ((b.values .datSet).bind stringOf).bind fun name => (ied.dataSet name).map fun ms => (name, ms)

/-! ### Writes -/

def ownedByOther (assoc : AssocId) : Bool := b.rcb.owner.any (· ≠ assoc)

def reservedByOther (assoc : AssocId) : Bool := b.rcb.reserved.any (·.assoc ≠ assoc)

/-- `RptEna = true`. -/
def enable (assoc : AssocId) (now : Instant) : Except Int ControlBlock :=
  if b.ownedByOther assoc || b.reservedByOther assoc then .error dataAccessDenied
  else
    let integrityDue := b.integrityPeriod.map fun ms => Instant.plusMillis now ms
    .ok (({ b with
      rcb := { b.rcb with
        owner := some assoc, pending := [], due := none, seq := 0, integrityDue } } :
        ControlBlock).setInternal .sqNum (.unsigned 0))

/-- `RptEna = false`. -/
def disable (assoc : AssocId) : Except Int ControlBlock :=
  if b.ownedByOther assoc then .error dataAccessDenied
  else .ok { b with
    rcb := { b.rcb with owner := none, integrityDue := none, pending := [], due := none } }

/-- `Resv` and `ResvTms`; `linger` is none when the write releases. -/
def reserve (assoc : AssocId) (linger : Option (Option Nat)) : Except Int ControlBlock :=
  match linger with
  | some lingerSecs =>
    if b.reservedByOther assoc || b.ownedByOther assoc then .error dataAccessDenied
    else .ok { b with rcb := { b.rcb with reserved := some ⟨assoc, lingerSecs, none⟩ } }
  | none =>
    if b.rcb.reserved.any (·.assoc = assoc) then
      .ok { b with rcb := { b.rcb with reserved := none } }
    else .ok b

/-- `DatSet`: another data set raises `ConfRev`. -/
def changeDataSet (ied : Ied) (value : Value) : Except Int ControlBlock :=
  match stringOf value with
  | none => .error dataAccessValueInvalid
  | some name =>
    if (ied.dataSet name).isNone then .error dataAccessValueInvalid
    else if (b.values .datSet).bind stringOf ≠ some name then
      let confRev := ((b.values .confRev).bind unsignedOf).getD 0
      .ok (b.setInternal .confRev (.unsigned ((confRev + 1) % 2 ^ 32)))
    else .ok b

/-- The seconds of a `ResvTms` write. -/
def lingerOf (value : Value) : Option (Option Nat) :=
  let n := (integerOf value).getD 0
  if 0 < n then some (some (min n.toNat u32Max)) else none

/-- `Engine::on_write`. -/
def onWrite (ied : Ied) (assoc : AssocId) (a : Attribute) (value : Value) (now : Instant) :
    Except Int ControlBlock :=
  match a with
  | .rptEna => if (boolOf value).getD false then b.enable assoc now else b.disable assoc
  | .gi | .purgeBuf => if b.rcb.owner ≠ some assoc then .error dataAccessDenied else .ok b
  | .resv => b.reserve assoc (if (boolOf value).getD false then some none else none)
  | .resvTms => b.reserve assoc (lingerOf value)
  | .datSet =>
    if b.enabled || b.ownedByOther assoc || b.reservedByOther assoc then .error dataAccessDenied
    else b.changeDataSet ied value
  | _ =>
    if b.enabled || b.ownedByOther assoc || b.reservedByOther assoc then .error dataAccessDenied
    else .ok b

/-- `Engine::holder`. -/
def holder : Option AssocId := b.rcb.owner.or (b.rcb.reserved.map (·.assoc))

/-- `publish_owner`: an Edition 1 block has no `Owner`. -/
def publishOwner (peers : Peers) : ControlBlock :=
  if (b.values .owner).isNone then b
  else b.setInternal .owner (.octetString ((b.holder.map peers.identity).getD []))

/-! ### Building a report -/

inductive Trigger where
  | change
  | integrity
  | generalInterrogation
  deriving DecidableEq, Repr

structure ReportHeader where
  seqNum : UInt32
  entryTime : EntryTime
  dataSet : Bytes
  confRev : UInt32
  entryId : UInt64
  buffered : Bool
  overflowed : Bool

/-- The flags a report is built from: the two that an unbuffered block cannot have, and the one
that belongs to the segmenter, are cleared. -/
def effectiveFlags (opt : OptFlds) (buffered : Bool) : OptFlds :=
  let opt := if buffered then opt
    else (OptFlds.withEntryId (OptFlds.withBufferOverflow opt false) false)
  OptFlds.withSegmentation opt false

/-- One member of `assemble`, included when it has both a reason and a value. -/
def assembleEntry (opt : OptFlds) (reasons : Reasons) (values : List (Bytes × Value))
    (member : Bytes × Nat) : Option ReportEntry :=
  match reasons.lookup member.1, values.lookup member.1 with
  | some reason, some value =>
    some ⟨member.2, if opt.dataReference then some member.1 else none, value,
      if opt.reasonForInclusion then some reason else none⟩
  | _, _ => none

def assemble (rptId : Bytes) (opt : OptFlds) (members : List Bytes) (reasons : Reasons)
    (values : List (Bytes × Value)) (header : ReportHeader) : Report :=
  let opt := effectiveFlags opt header.buffered
  let entries := members.zipIdx.filterMap (assembleEntry opt reasons values)
  { rptId
    optFlds := opt
    seqNum := if opt.sequenceNumber then some header.seqNum else none
    timeOfEntry := if opt.reportTimeStamp then some header.entryTime else none
    dataSet := if opt.dataSetName then some header.dataSet else none
    bufOvfl := if opt.bufferOverflow then some header.overflowed else none
    entryId := if OptFlds.entryId opt then some (entryIdBytes header.entryId) else none
    confRev := if opt.confRevision then some header.confRev else none
    subSeqNum := none
    moreSegmentsFollow := false
    inclusion := inclusionFor members.length (entries.map (·.index))
    entries }

/-- The report of one entry, under the block's current attributes. -/
def reportOf (dataSet : Bytes × List DataSetMember) (entry : Buffered) (seq : UInt32)
    (buffered overflowed : Bool) : Report :=
  assemble (((b.values .rptID).bind stringOf).getD b.reference) b.optFlds
    (dataSet.2.map (·.reference)) entry.reasons entry.values
    { seqNum := seq
      entryTime := entry.madeAt
      dataSet := dataSet.1
      confRev := UInt32.ofNat (((b.values .confRev).bind unsignedOf).getD 0)
      entryId := entry.entryId
      buffered
      overflowed }

/-- The reasons a report is built with. -/
def reasonsFor (members : List DataSetMember) : Trigger → Reasons
  | .generalInterrogation =>
    members.map fun m => (m.reference, withBit 0 bitGeneralInterrogation true)
  | .integrity => members.map fun m => (m.reference, withBit 0 bitIntegrity true)
  | .change => b.rcb.pending

/-- The values of the members that have one. -/
def valuesOf (ied : Ied) (reasons : Reasons) : List (Bytes × Value) :=
  reasons.filterMap fun (m, _) => (ied.readReference m).map fun v => (m, v)

/-- The entry a report is made from: a member without a value is not part of it. -/
def entryFor (ied : Ied) (reasons : Reasons) (wall : EntryTime) : Buffered :=
  let values := valuesOf ied reasons
  ⟨b.rcb.nextEntry, wall, reasons.filter fun (m, _) => (values.lookup m).isSome, values⟩

/-- Keep an entry, at the cost of the oldest one when there is no room. -/
def record (entry : Buffered) : ControlBlock :=
  if defaultBuffer ≤ b.rcb.buffer.length then
    { b with rcb := { b.rcb with buffer := b.rcb.buffer.tail ++ [entry], overflowed := true } }
  else { b with rcb := { b.rcb with buffer := b.rcb.buffer ++ [entry] } }

/-- `SqNum`, `EntryID` and `TimeOfEntry`, as the report just sent has them. -/
def publishEntry (entry : Buffered) (seq : UInt32) : ControlBlock :=
  ((b.setInternal .sqNum (.unsigned seq.toNat)).setInternal .entryID
    (.octetString (entryIdBytes entry.entryId))).setInternal .timeOfEntry
      (.binaryTime entry.madeAt.toOctets)

/-- The second half of `Engine::build`: hand the entry over to the owner, if there is one. -/
def deliver (peers : Peers) (dataSet : Bytes × List DataSetMember) (entry : Buffered) :
    ControlBlock × List Delivery :=
  match b.rcb.owner with
  | none => (b, [])
  | some assoc =>
    let seq := b.rcb.seq
    let overflowed := b.rcb.overflowed
    let next := if b.rcb.buffered then (seq + 1) % 0x10000 else (seq + 1) % 0x100
    let sent : ControlBlock := { b with rcb := { b.rcb with overflowed := false, seq := next } }
    let sent :=
      if b.rcb.buffered then sent.publishEntry entry seq
      else sent.setInternal .sqNum (.unsigned seq.toNat)
    (sent, [⟨assoc, entry, dataSet.2.map (·.reference),
      b.reportOf dataSet entry seq b.rcb.buffered overflowed, peers.budget assoc⟩])

/-- A change report takes what is pending. -/
def takePending (trigger : Trigger) : ControlBlock :=
  if trigger = .change then { b with rcb := { b.rcb with pending := [], due := none } } else b

/-- Whether an entry goes into the buffer: not when it only answers a request. -/
def keeps (trigger : Trigger) : Bool := b.rcb.buffered && trigger != .generalInterrogation

/-- An entry takes its number. -/
def number : ControlBlock := { b with rcb := { b.rcb with nextEntry := b.rcb.nextEntry + 1 } }

/-- Number an entry, and keep it if it is to be kept. -/
def file (trigger : Trigger) (entry : Buffered) : ControlBlock :=
  if b.keeps trigger then b.number.record entry else b.number

/-- `Engine::build`. The attributes a report is assembled from are not among those that handing
it over changes. -/
def build (ied : Ied) (peers : Peers) (trigger : Trigger) (wall : EntryTime) :
    ControlBlock × List Delivery :=
  match b.dataSet ied with
  | none => (b, [])
  | some dataSet =>
    let reasons := b.reasonsFor dataSet.2 trigger
    let b := b.takePending trigger
    let entry := b.entryFor ied reasons wall
    if entry.reasons.isEmpty then (b, [])
    else (b.file trigger entry).deliver peers dataSet entry

/-! ### Gathering -/

def mergeReason (x y : ReasonCode) : ReasonCode :=
  fromBitString 6 (orInto (toBitString x).2 (toBitString y).2)

def reasonFor (trigger trgOps : TrgOps) : ReasonCode :=
  let both (bit : Nat) := trigger.getLsbD bit && trgOps.getLsbD bit
  let reason := if both bitDataChange then withBit 0 bitDataChange true else 0
  let reason := if both bitQualityChange then withBit reason bitQualityChange true else reason
  if both bitDataUpdate then withBit reason bitDataUpdate true else reason

/-- The reason one member is reported for: the triggers of its leaves folded into one. -/
def memberReason (dirty : Bytes → Option TrgOps) (trgOps : TrgOps) (m : DataSetMember) :
    ReasonCode :=
  m.leaves.foldl (fun reason leaf =>
    match dirty leaf with
    | some trigger => mergeReason reason (reasonFor trigger trgOps)
    | none => reason) 0

/-- The members of the data set that changed in a way the block reports. -/
def hits (ied : Ied) (dirty : Bytes → Option TrgOps) : Reasons :=
  match b.dataSet ied with
  | none => []
  | some (_, members) =>
    members.filterMap fun m =>
      let reason := memberReason dirty b.trgOps m
      if reason = 0 then none else some (m.reference, reason)

/-- `pending.entry(member).or_insert(NONE)`, merged with the reason. -/
def addReason : Reasons → Bytes × ReasonCode → Reasons
  | [], (m, reason) => [(m, mergeReason 0 reason)]
  | (m', reason') :: rest, (m, reason) =>
    if m' = m then (m', mergeReason reason' reason) :: rest
    else (m', reason') :: addReason rest (m, reason)

/-- `Engine::gather`. -/
def gather (ied : Ied) (dirty : Bytes → Option TrgOps) (now : Instant) : ControlBlock :=
  if b.rcb.owner.isNone && !b.rcb.buffered then b
  else
    let found := b.hits ied dirty
    if found.isEmpty then b
    else
      let bufTm := ((b.values .bufTm).bind unsignedOf).getD 0
      let due := b.rcb.due.getD (Instant.plusMillis now bufTm)
      { b with rcb := { b.rcb with pending := found.foldl addReason b.rcb.pending, due := some due } }

/-! ### What is due -/

/-- A general interrogation, when the owner has written `GI`. -/
def emitInterrogation (ied : Ied) (peers : Peers) (wall : EntryTime) :
    ControlBlock × List Delivery :=
  if b.rcb.owner.isSome && (b.values .gi).bind boolOf == some true then
    (b.setInternal .gi (.boolean false)).build ied peers .generalInterrogation wall
  else (b, [])

/-- A purge of the buffer, when `PurgeBuf` is set. -/
def purge : ControlBlock :=
  if ((b.values .purgeBuf).bind boolOf).getD false then
    let b := b.setInternal .purgeBuf (.boolean false)
    { b with rcb := { b.rcb with buffer := [], overflowed := false } }
  else b

/-- The next integrity period begins. -/
def rearm (now : Instant) : ControlBlock :=
  let integrityDue := b.integrityPeriod.map fun ms => Instant.plusMillis now ms
  { b with rcb := { b.rcb with integrityDue } }

/-- An integrity report, when its period has elapsed. -/
def emitIntegrity (ied : Ied) (peers : Peers) (wall : EntryTime) (now : Instant) :
    ControlBlock × List Delivery :=
  if b.rcb.integrityDue.any (· ≤ now) then (b.rearm now).build ied peers .integrity wall
  else (b, [])

/-- The report of the gathering window, when it has closed. -/
def emitChange (ied : Ied) (peers : Peers) (wall : EntryTime) (now : Instant) :
    ControlBlock × List Delivery :=
  if b.rcb.due.any (· ≤ now) then b.build ied peers .change wall else (b, [])

/-! ### Replay of the buffer -/

/-- The sequence number of the next report to replay. -/
def advance : ControlBlock := { b with rcb := { b.rcb with seq := (b.rcb.seq + 1) % 0x10000 } }

/-- `Engine::replay`. -/
def replay (ied : Ied) (peers : Peers) (assoc : AssocId) (entry : Buffered) (overflowed : Bool) :
    ControlBlock × List Delivery :=
  match b.dataSet ied with
  | none => (b.advance, [])
  | some dataSet =>
    (b.advance.publishEntry entry b.rcb.seq,
      [⟨assoc, entry, dataSet.2.map (·.reference),
        b.reportOf dataSet entry b.rcb.seq true overflowed, peers.budget assoc⟩])

/-- The loop of `drain_buffer`: only the first report says that the buffer overflowed. -/
def replayAll (ied : Ied) (peers : Peers) (assoc : AssocId) :
    ControlBlock → Bool → List Buffered → ControlBlock × List Delivery
  | b, _, [] => (b, [])
  | b, overflowed, entry :: entries =>
    let (b, first) := b.replay ied peers assoc entry overflowed
    let (b, rest) := replayAll ied peers assoc b false entries
    (b, first ++ rest)

/-- Where `drain_buffer` starts, and whether the resume point is gone. -/
def resumePoint (after : Option UInt64) : Nat × Bool :=
  match after with
  | none => (0, false)
  | some id =>
    match b.rcb.buffer.findIdx? (fun e => decide (e.entryId = id)) with
    | some i => (i + 1, false)
    | none => (0, true)

/-- `Engine::drain_buffer`. The entries stay. -/
def drainBuffer (ied : Ied) (peers : Peers) (after : Option UInt64) : ControlBlock × List Delivery :=
  match b.rcb.owner with
  | none => (b, [])
  | some assoc =>
    let (start, lost) := b.resumePoint after
    let pending := b.rcb.buffer.drop start
    let overflowed := b.rcb.overflowed || lost
    replayAll ied peers assoc { b with rcb := { b.rcb with overflowed := false } } overflowed pending

/-! ### A client's writes -/

/-- Whether a write of this attribute changes who the block belongs to. -/
def movesOwner : Attribute → Bool
  | .rptEna | .resv | .resvTms => true
  | _ => false

/-- The replay an enabling write sets off: it waits until the response has gone out. -/
def resume (ied : Ied) (peers : Peers) : ControlBlock :=
  let after := (b.values .entryID).bind entryIdOf
  let (b, replayed) := b.drainBuffer ied peers after
  { b with deferred := b.deferred ++ replayed }

/-- `Acsi::write_reference`, for an attribute of the block. -/
def writeAttribute (ied : Ied) (peers : Peers) (assoc : AssocId) (a : Attribute) (value : Value)
    (now : Instant) : ControlBlock × Except Int Unit :=
  if ¬ writableBlockAttribute a then (b, .error dataAccessDenied)
  else
    match b.onWrite ied assoc a value now with
    | .error code => (b, .error code)
    | .ok b =>
      match b.writeLeaf a value with
      | (b, .error code) => (b, .error code)
      | (b, .ok ()) =>
        let b := if movesOwner a then b.publishOwner peers else b
        let b := if a = .rptEna && b.rcb.owner = some assoc then b.resume ied peers else b
        (b, .ok ())

/-- The loop of `Acsi::write_value` over the components of a structure. -/
def writeLeaves : ControlBlock → List (Attribute × Value) → ControlBlock × Except Int Unit
  | b, [] => (b, .ok ())
  | b, (a, v) :: rest =>
    match b.writeLeaf a v with
    | (b, .error code) => (b, .error code)
    | (b, .ok ()) => writeLeaves b rest

/-- `Acsi::write_reference`, for the block as one structure. The functional constraint of a
report control block is one a client may write, and the engine has no block by the name of the
node above, so that the value goes to the components without the engine being asked. -/
def writeWhole (value : Value) : ControlBlock × Except Int Unit :=
  match value with
  | .structure members =>
    let components := (rcbComponents b.rcb.buffered b.reservation).map (·.1)
    if members.length ≠ components.length then (b, .error dataAccessTypeInconsistent)
    else writeLeaves b (components.zip members)
  | _ => (b, .error dataAccessTypeInconsistent)

/-! ### Reservations and the end of an association -/

/-- Set an attribute that the block has to a value. -/
def reset (r : Attribute × Value) : ControlBlock :=
  if (b.values r.1).isSome then b.setInternal r.1 r.2 else b

def resetAll (resets : List (Attribute × Value)) : ControlBlock := resets.foldl reset b

def releaseReservation : ControlBlock :=
  b.resetAll [(.resv, .boolean false), (.resvTms, .integer 0), (.owner, .octetString [])]

/-- The state of a block whose owner has gone: a buffered one keeps its entries. -/
def released (r : Rcb) : Rcb :=
  let buffer := if r.buffered then r.buffer else []
  { r with owner := none, due := none, pending := [], buffer }

/-- The owner's part of `Engine::on_association_closed`. -/
def releaseOwner (assoc : AssocId) : ControlBlock :=
  if b.rcb.owner = some assoc then
    ({ b with rcb := released b.rcb } : ControlBlock).resetAll
      [(.rptEna, .boolean false), (.gi, .boolean false), (.purgeBuf, .boolean false),
        (.resv, .boolean false)]
  else b

/-- The reservation's part: a `ResvTms` outlives the association. -/
def lingerReservation (assoc : AssocId) (now : Instant) : ControlBlock :=
  match b.rcb.reserved with
  | some ⟨held, some secs, _⟩ =>
    if held = assoc then
      let lapses := Instant.plusMillis now (secs * 1000)
      { b with rcb := { b.rcb with reserved := some ⟨assoc, some secs, some lapses⟩ } }
    else b
  | some ⟨held, none, _⟩ =>
    if held = assoc then
      ({ b with rcb := { b.rcb with reserved := none } } : ControlBlock).releaseReservation
    else b
  | none => b

/-- `Acsi::on_association_closed`: `Owner` is published again for a block the association held. -/
def closed (peers : Peers) (assoc : AssocId) (now : Instant) : ControlBlock :=
  let held := b.rcb.owner = some assoc || b.rcb.reserved.any (·.assoc = assoc)
  let b := (b.releaseOwner assoc).lingerReservation assoc now
  if held then b.publishOwner peers else b

/-- `Engine::expire_reservations`. -/
def expire (now : Instant) : ControlBlock :=
  if b.rcb.reserved.any (fun r => r.lapsesAt.any (· ≤ now)) then
    ({ b with rcb := { b.rcb with reserved := none } } : ControlBlock).releaseReservation
  else b

end ControlBlock

end Iec61850.Server
