import Iec61850.Server.ControlRuns
import Iec61850.Server.DataSets
import Iec61850.Server.Logs
import Iec61850.Server.RcbRuns
import Iec61850.Server.SettingRuns
import Iec61850.Server.Tracking
import Iec61850.Theory.Deadlines

/-!
# The services of a server together

`server/acsi.rs`: the engines of the controls, the setting groups, the reports and the logs over the
values they share, what a commit and a timeout do with them, and the end of an association. Each
engine keeps the part of the values that is its own, so that a reference is a place in one of the
parts.
-/

namespace Iec61850.Server

open Theory Mms

/-! ### A report control block -/

/-- `Engine::emit_due`, for one block: what it sends. What the emissions write is in no data set, so
that all are made from the values as they are before. -/
def ControlBlock.emitDue (b : ControlBlock) (ied : Ied) (peers : Peers) (wall : EntryTime)
    (now : Instant) : ControlBlock × List Delivery :=
  let (b, interrogation) := b.emitInterrogation ied peers wall
  let (b, integrity) := b.purge.emitIntegrity ied peers wall now
  let (b, change) := b.emitChange ied peers wall now
  (b, interrogation ++ integrity ++ change)

/-- A report control block, and which of its attributes have been written since the last commit. -/
structure ReportBlock where
  block : ControlBlock
  marks : Attribute → Option TrgOps

namespace ReportBlock

variable (r : ReportBlock)

/-- The attributes as a part of the values. -/
def attributes : LeafStore Attribute where
  node a := (r.block.typeOf a).map .leaf
  values := r.block.values
  dirty := r.marks

/-- A client's write of an attribute. -/
def write (ied : Ied) (peers : Peers) (assoc : AssocId) (a : Attribute) (value : Value)
    (now : Instant) : ReportBlock :=
  let (block, result) := r.block.writeAttribute ied peers assoc a value now
  ⟨block, if result.isOk then (r.attributes.writeLeaf a value).1.dirty else r.marks⟩

/-- The marks of the components that a write of the whole block stores. -/
def markAll : LeafStore Attribute → List (Attribute × Value) → LeafStore Attribute
  | s, [] => s
  | s, (a, v) :: rest => if s.takes a v then markAll (s.writeLeaf a v).1 rest else s

/-- A client's write of the whole block. -/
def writeWhole (value : Value) : ReportBlock :=
  let components := (rcbComponents r.block.rcb.buffered r.block.reservation).map (·.1)
  let marks :=
    match value with
    | .structure members =>
      if members.length ≠ components.length then r.marks
      else (markAll r.attributes (components.zip members)).dirty
    | _ => r.marks
  ⟨(r.block.writeWhole value).1, marks⟩

end ReportBlock

/-! ### The values -/

/-- Where the value of a leaf is kept: among the data, in a logical device with setting groups, or in
a report or a log control block. -/
inductive Place where
  | data (r : Reference)
  | setting (device : Nat) (key : Key)
  | report (i : Nat) (a : Attribute)
  | log (i : Nat) (a : LogAttribute)
  deriving DecidableEq

/-- A variable, by the places of its leaves. -/
inductive Shape where
  | leaf (place : Place)
  | struct (members : List Shape)
  | array (elements : List Shape)

mutual

/-- `Ied::read_node`. -/
def Shape.read (value : Place → Option Value) : Shape → Option Value
  | .leaf place => value place
  | .struct members => (Shape.readAll value members).map .structure
  | .array elements => (Shape.readAll value elements).map .array

def Shape.readAll (value : Place → Option Value) : List Shape → Option (List Value)
  | [] => some []
  | s :: rest => (s.read value).bind fun v => (Shape.readAll value rest).map (v :: ·)

end

/-- `Acsi`: the engines with their parts of the values, the data sets, the associations, and what each
reference of the model denotes. -/
structure Acsi where
  control : Control.System
  devices : List Device
  reports : List ReportBlock
  released : List Bytes
  logs : Logs
  dataSets : DataSets
  tree : ServedTree
  layout : Bytes → Option Shape
  tracking : Tracking
  peers : Peers

namespace Acsi

variable (a : Acsi)

/-- The value of a leaf. -/
def value : Place → Option Value
  | .data r => a.control.ied.values r
  | .setting j key => (a.devices[j]?).bind (·.ied.values key)
  | .report i x => (a.reports[i]?).bind (·.block.values x)
  | .log i x => (a.logs.controls[i]?).bind (·.attributes.values x)

/-- Why a leaf is to be published. -/
def mark : Place → Option TrgOps
  | .data r => a.control.ied.dirty r
  | .setting j key => (a.devices[j]?).bind (·.ied.dirty key)
  | .report i x => (a.reports[i]?).bind (·.marks x)
  | .log i x => (a.logs.controls[i]?).bind (·.attributes.dirty x)

/-- `Ied::read_reference`. -/
def readReference (text : Bytes) : Option Value := (a.layout text).bind (Shape.read a.value)

/-- The values as the engines of the reports and the logs use them. -/
def view : Ied where
  dataSet name := (a.dataSets.find name).map (·.members)
  readReference := a.readReference

/-- What has been written since the last commit, by reference. -/
def dirty (text : Bytes) : Option TrgOps :=
  match a.layout text with
  | some (.leaf place) => a.mark place
  | _ => none

/-- Nothing has been written since the last commit. -/
def Clean : Prop := ∀ place, a.mark place = none

/-- `Ied::take_dirty`, what it leaves. -/
def takeDirty : Acsi :=
  { a with
    control := { a.control with ied := { a.control.ied with dirty := fun _ => none } }
    devices := a.devices.map fun d => { d with ied := { d.ied with dirty := fun _ => none } }
    reports := a.reports.map fun r => { r with marks := fun _ => none }
    logs := { a.logs with
      controls := a.logs.controls.map fun b =>
        { b with attributes := { b.attributes with dirty := fun _ => none }, declared := b.declared } } }

/-! ### Publishing -/

/-- The PDUs of some reports, each with its association. -/
def reportPdus (ds : List Delivery) : List (AssocId × Bytes) :=
  ds.flatMap fun d => d.pdus.map fun pdu => (d.assoc, pdu)

/-- `Controls::take_pending`. -/
def takePending : Acsi × List (AssocId × Bytes) :=
  ({ a with control := a.control.next .takePending },
    a.control.controls.pending.map fun t => (t.assoc, t.pdu))

/-- `Engine::emit_due`. -/
def emitDue (wall : EntryTime) (now : Instant) : Acsi × List Delivery :=
  let served := a.reports.map fun r => (r, r.block.emitDue a.view a.peers wall now)
  ({ a with reports := served.map fun p => { p.1 with block := p.2.1 } }, served.flatMap (·.2.2))

theorem emitDue_fst (wall : EntryTime) (now : Instant) :
    (a.emitDue wall now).1 =
      { a with reports := a.reports.map fun r =>
          { r with block := (r.block.emitDue a.view a.peers wall now).1 } } := by
  unfold emitDue
  dsimp only
  rw [List.map_map]
  rfl

/-- The first half of `Engine::commit`. -/
def gather (dirty : Bytes → Option TrgOps) (now : Instant) : Acsi :=
  { a with reports := a.reports.map fun r => { r with block := r.block.gather a.view dirty now } }

/-- The reports that wait for the response to a request. -/
def takeDeferred : Acsi × List Delivery :=
  ({ a with reports := a.reports.map fun r => { r with block := r.block.next .flush } },
    a.reports.flatMap (·.block.deferred))

def commit (now : Now) : Acsi × List (AssocId × Bytes) :=
  let dirty := a.dirty
  let a := a.takeDirty
  let a : Acsi := { a with logs := a.logs.commit a.view dirty now.entry }
  let (a, due) := (a.gather dirty now.mono).emitDue now.entry now.mono
  let (a, deferred) := a.takeDeferred
  let (a, terminations) := a.takePending
  (a, reportPdus (due ++ deferred) ++ terminations)

/-! ### Time, and the end of an association -/

/-- The functional constraint in the reference of a control block (`tree::split_item`). -/
def fcOf (text : Bytes) : Option Fc :=
  let item := (text.dropWhile (· ≠ 47)).tail
  let second := ((item.dropWhile (· ≠ 36)).tail).takeWhile (· ≠ 36)
  if second = ascii "BR" then some .br else if second = ascii "RP" then some .rp else none

/-- The service that is tracked for a block that the server released. -/
def releaseOf (block : Bytes) : Tracked :=
  ⟨classFor (fcOf block), block, internalChange, noError, []⟩

/-- The value of a leaf at a reference (`Ied::value`). -/
def valueAt (text : Bytes) : Option Value :=
  match a.layout text with
  | some (.leaf place) => a.value place
  | _ => none

/-- The loop of `Acsi::track_released`. -/
def recordAll (shown : Bytes → Option Value) (ied : Store) (now : Now) (blocks : List Bytes) : Store :=
  blocks.foldl (fun ied block => a.tracking.record shown ied (releaseOf block) now) ied

/-- `Acsi::track_released`. What the tracking objects mirror are attributes of the blocks. -/
def trackReleased (now : Now) : Acsi :=
  if a.tracking.isEmpty || a.released.isEmpty then { a with released := [] }
  else
    { a with
      control := { a.control with
        ied := a.recordAll a.valueAt a.control.ied now a.released }
      released := [] }

/-- Tracking the releases of some blocks stores nothing. -/
def Unrecorded (blocks : List Bytes) : Prop :=
  ∀ block ∈ blocks, ∀ tracker, a.tracking.select (releaseOf block) = some tracker →
    a.tracking.Still a.control.ied tracker

theorem recordAll_still {shown : Bytes → Option Value} {now : Now} {blocks : List Bytes}
    (h : a.Unrecorded blocks) : a.recordAll shown a.control.ied now blocks = a.control.ied := by
  unfold recordAll
  induction blocks with
  | nil => rfl
  | cons block blocks ih =>
    rw [List.foldl_cons, Tracking.record_still (h block List.mem_cons_self)]
    exact ih fun b hb => h b (List.mem_cons_of_mem _ hb)

theorem trackReleased_still (h : a.Unrecorded a.released) (now : Now) :
    a.trackReleased now = { a with released := [] } := by
  unfold trackReleased
  split
  · rfl
  · rw [a.recordAll_still h]

/-- `Engine::expire_reservations`. -/
def expireReservations (now : Instant) : Acsi :=
  let lapsed (r : ReportBlock) : Bool :=
    r.block.rcb.reserved.any fun v => v.lapsesAt.any (· ≤ now)
  { a with
    reports := a.reports.map fun r => { r with block := r.block.expire now }
    released := a.released ++ (a.reports.filter lapsed).map (·.block.reference) }

def onTimeout (now : Now) : Acsi × List (AssocId × Bytes) :=
  let a : Acsi := { a with control := a.control.next (.timeout now.mono) }
  let a : Acsi := { a with devices := a.devices.map fun d => d.next (.timeout now.mono) }
  let a := a.trackReleased now
  let (a, due) := (a.expireReservations now.mono).emitDue now.entry now.mono
  let (a, terminations) := a.takePending
  (a, reportPdus due ++ terminations)

def onAssociationOpened (assoc : AssocId) (identity : Bytes) : Acsi :=
  { a with peers := { a.peers with identity := Function.update a.peers.identity assoc identity } }

def onAssociationClosed (assoc : AssocId) (now : Now) : Acsi :=
  let owned := (a.reports.filter fun r => r.block.rcb.owner = some assoc).map (·.block.reference)
  let a : Acsi :=
    { a with
      reports := a.reports.map fun r => { r with block := r.block.closed a.peers assoc now.mono }
      released := a.released ++ owned }
  let a := a.trackReleased now
  { a with
    peers :=
      { a.peers with
        identity := Function.update a.peers.identity assoc []
        pdu := Function.update a.peers.pdu assoc none }
    control := a.control.next (.closed assoc)
    devices := a.devices.map fun d => d.next (.closed assoc) }

/-! ### Deadlines -/

/-- The deadlines of one report control block. -/
def ReportBlock.deadlines (r : ReportBlock) : List (Option Instant) :=
  [r.block.rcb.due, r.block.rcb.integrityDue, r.block.rcb.reserved.bind (·.lapsesAt)]

/-- `Engine::next_timeout`. -/
def reportsTimeout : Option Instant :=
  ((a.reports.flatMap ReportBlock.deadlines).filterMap id).min?

/-- `SettingGroups::next_timeout`. -/
def devicesTimeout : Option Instant :=
  ((a.devices.filter (·.groups.editor.isSome)).filterMap (·.groups.editorUntil)).min?

/-- A deadline of the controls: of a selection, or of a command that waits. -/
def ControlDeadline (u : Instant) : Prop :=
  (∃ object s, a.control.controls.selections object = some s ∧ s.expires = u) ∨
    ∃ t ∈ a.control.controls.timed, t.due = u

/-- `Acsi::next_timeout`. The selections are a function here, so that their earliest deadline
(`Controls::next_timeout`) is given by what it is. -/
def NextTimeout (d : Option Instant) : Prop :=
  ∃ c, Earliest a.ControlDeadline c ∧
    d = ([a.reportsTimeout, c, a.devicesTimeout].filterMap id).min?

end Acsi

end Iec61850.Server
