import Iec61850.Mms.Control
import Iec61850.Server.Segments
import Iec61850.Server.Store

/-!
# The control engine

`server/control.rs`: selections, operates and cancels of controllable objects, the commands that
wait for their `operTm`, and the terminations that answer them. The status a command sets is
written into the served values.
-/

namespace Iec61850.Server.Control

open Theory Mms

def defaultSboTimeoutMs : Nat := 30000

/-! ### References -/

/-- The item of a reference, its names joined by `$`. -/
def itemText (item : List Bytes) : Bytes := (ascii "$").intercalate item

/-- A reference as one string. -/
def textOf (r : Reference) : Bytes := r.domain ++ ascii "/" ++ itemText r.item

/-- The logical node and the path of a controllable object (`strip_prefix("CO$")`). -/
def controlPath (object : Reference) : Option (Bytes × List Bytes) :=
  match object.item with
  | ln :: fc :: name :: rest => if fc = ascii "CO" then some (ln, name :: rest) else none
  | _ => none

/-! ### What the application is asked -/

inductive Stage where
  | select
  | operate
  | cancel
  deriving DecidableEq, Repr

structure ControlEvent where
  object : Reference
  stage : Stage
  request : ControlRequest
  model : ControlModel
  deriving Repr

abbrev ControlHook := ControlEvent → Except AddCause Unit

/-- The cause of a refusal. -/
def causeOf : Except AddCause Unit → Option AddCause
  | .ok () => none
  | .error cause => some cause

/-! ### The behaviour of a logical node -/

inductive Behaviour where
  | on
  | blocked
  | test
  | testBlocked
  | off
  deriving DecidableEq, Repr

namespace Behaviour

def fromCode : Int → Behaviour
  | 2 => .blocked
  | 3 => .test
  | 4 => .testBlocked
  | 5 => .off
  | _ => .on

def acceptsCommands : Behaviour → Bool
  | .on | .test => true
  | _ => false

def isTest : Behaviour → Bool
  | .test | .testBlocked => true
  | _ => false

end Behaviour

/-- The code of an enumeration. -/
def codeOf : Value → Option Int
  | .integer i => some i
  | .unsigned u => if u < 2 ^ 63 then some u else none
  | _ => none

/-- `behaviour_of`: `Beh`, or `Mod` where there is none. -/
def behaviourOf (ied : Store) (object : Reference) : Behaviour :=
  match object.item with
  | ln :: _ :: _ =>
    let code (name : Bytes) : Option Int :=
      (ied.values ⟨object.domain, [ln, ascii "ST", name, ascii "stVal"]⟩).bind codeOf
    (((code (ascii "Beh")).or (code (ascii "Mod"))).map Behaviour.fromCode).getD .on
  | _ => .on

def modeRefusal (behaviour : Behaviour) (test : Bool) : Option AddCause :=
  if !behaviour.acceptsCommands then some .blockedByMode
  else if test != behaviour.isTest then some .blockedByMode
  else none

def modelOf (ied : Store) (object : Reference) : Option ControlModel := do
  let (ln, path) ← controlPath object
  let value ← ied.values ⟨object.domain, ln :: ascii "CF" :: (path ++ [ascii "ctlModel"])⟩
  let code ← codeOf value
  ControlModel.fromCode code

/-- The attribute of the object's status with this name. -/
def statusOf (object : Reference) (name : Bytes) : Option Reference :=
  (controlPath object).map fun (ln, path) =>
    ⟨object.domain, ln :: ascii "ST" :: (path ++ [name])⟩

/-- A write of the server into the object's status, whose result is dropped. -/
def writeStatus (ied : Store) (object : Reference) (name : Bytes) (value : Value) : Store :=
  match statusOf object name with
  | none => ied
  | some status => (ied.writeLeaf status value).1

def apply (ied : Store) (object : Reference) (request : ControlRequest) (wall : UtcTime) : Store :=
  let ied := writeStatus ied object (ascii "stVal") request.ctlVal
  writeStatus ied object (ascii "t") (.utcTime wall)

/-! ### Terminations -/

/-- `report`: empty when a value or the PDU cannot be encoded. -/
def report (names : List VariableSpecification) (values : List Value) : Bytes :=
  orDefault do
    let encoded ← values.mapM fun v => Value.encodeAll [v]
    let results ← encoded.mapM successOf
    (Pdu.unconfirmed (.informationReport (.listOfVariable names) results)).write

/-- The `Oper` of an object as the name of a variable. -/
def operName (object : Reference) : VariableSpecification :=
  .name (.domainSpecific object.domain (itemText (object.item ++ [ascii "Oper"])))

def positive (object : Reference) (request : ControlRequest) : Bytes :=
  report [operName object] [request.toValue]

def negative (object : Reference) (request : ControlRequest) (error : LastApplError) : Bytes :=
  report [.name (.vmdSpecific (ascii "LastApplError")), operName object]
    [error.toValue, request.toValue]

/-- The `LastApplError` of a refused command. -/
def applError (object : Reference) (request : ControlRequest) (cause : AddCause) : LastApplError :=
  ⟨textOf object ++ ascii "$Oper", .unknown, request.origin, request.ctlNum, cause⟩

structure Termination where
  assoc : AssocId
  pdu : Bytes
  deriving DecidableEq, Repr

/-! ### The engine -/

structure Selection where
  assoc : AssocId
  value : Option Value
  ctlNum : UInt8
  expires : Instant
  deriving Repr

/-- `Timed`: a command that waits for its `operTm`. -/
structure Timed where
  assoc : AssocId
  object : Reference
  request : ControlRequest
  model : ControlModel
  due : Instant
  deriving Repr

structure Controls where
  selections : Reference → Option Selection
  timed : List Timed
  hook : Option ControlHook
  sboTimeoutMs : Nat
  pending : List Termination
  lastCause : Option AddCause

/-- The attributes of a controllable object that are services. -/
inductive Attribute where
  | oper
  | sbow
  | sbo
  | cancel
  deriving DecidableEq, Repr

/-- The stage a refused write of the attribute is reported at. -/
def Attribute.stage : Attribute → Stage
  | .oper => .operate
  | .cancel => .cancel
  | .sbow | .sbo => .select

namespace Controls

def new : Controls := ⟨fun _ => none, [], none, defaultSboTimeoutMs, [], none⟩

variable (c : Controls)

def ask (object : Reference) (stage : Stage) (request : ControlRequest) (model : ControlModel) :
    Except AddCause Unit :=
  match c.hook with
  | some hook => hook ⟨object, stage, request, model⟩
  | none => .ok ()

/-- A termination is sent after the response. -/
def push (assoc : AssocId) (pdu : Bytes) : Controls :=
  { c with pending := c.pending ++ [⟨assoc, pdu⟩] }

/-- `Controls::refuse`: a refused operate of an enhanced object is accepted first. -/
def refuse (assoc : AssocId) (object : Reference) (request : ControlRequest) (model : ControlModel)
    (stage : Stage) (cause : AddCause) : Controls × Except Int Unit :=
  let c := { c with lastCause := some cause }
  let c := c.push assoc (negative object request (applError object request cause))
  if model.enhancedSecurity && stage = .operate then (c, .ok ()) else (c, .error dataAccessDenied)

def heldByOther (object : Reference) (assoc : AssocId) (now : Instant) : Bool :=
  (c.selections object).any fun s => s.assoc ≠ assoc && decide (now < s.expires)

/-- `selections.insert`. -/
def insert (object : Reference) (s : Selection) : Controls :=
  { c with selections := Function.update c.selections object (some s) }

/-- `selections.remove`. -/
def remove (object : Reference) : Controls :=
  { c with selections := Function.update c.selections object none }

/-- The selection of an object that a request makes, if it makes one. -/
def selectionOf (assoc : AssocId) (value : Option Value) (ctlNum : UInt8) (now : Now) : Selection :=
  ⟨assoc, value, ctlNum, Instant.plusMillis now.mono c.sboTimeoutMs⟩

/-! ### The end of an association, and time -/

def onAssociationClosed (assoc : AssocId) : Controls :=
  { c with
    selections := fun object => (c.selections object).filter (·.assoc ≠ assoc)
    timed := c.timed.filter (·.assoc ≠ assoc) }

/-- Why a command that has fallen due is refused, if it is. -/
def timedRefusal (ied : Store) (t : Timed) : Option AddCause :=
  (modeRefusal (behaviourOf ied t.object) t.request.test).or
    (causeOf (c.ask t.object .operate t.request t.model))

/-- A command that has fallen due: one round of the loop of `on_timeout`. -/
def runTimed (ied : Store) (t : Timed) : Controls × Store :=
  match c.timedRefusal ied t with
  | some cause =>
    (c.push t.assoc (negative t.object t.request (applError t.object t.request cause)), ied)
  | none =>
    let ied := apply ied t.object t.request t.request.t
    if t.model.enhancedSecurity then (c.push t.assoc (positive t.object t.request), ied)
    else (c, ied)

/-- The loop of `on_timeout`. -/
def runAll : Controls → Store → List Timed → Controls × Store
  | c, ied, [] => (c, ied)
  | c, ied, t :: ts =>
    let (c, ied) := c.runTimed ied t
    runAll c ied ts

/-- Selections end at their deadline. -/
def expire (now : Instant) : Controls :=
  { c with selections := fun object => (c.selections object).filter (now < ·.expires) }

/-- The commands that have fallen due. -/
def dueAt (now : Instant) : List Timed := c.timed.filter (·.due ≤ now)

/-- The others go on waiting. -/
def wait (now : Instant) : Controls :=
  { c with timed := c.timed.filter fun t => !decide (t.due ≤ now) }

/-- `Controls::on_timeout`: `partition` keeps the order of the list. -/
def onTimeout (ied : Store) (now : Instant) : Controls × Store :=
  runAll ((c.expire now).wait now) ied (c.dueAt now)

/-! ### Selecting -/

/-- Whether a `Read` of `SBO` is refused. -/
def selectRefused (assoc : AssocId) (ied : Store) (object : Reference) (now : Now) : Bool :=
  modelOf ied object ≠ some .sboNormal || c.heldByOther object assoc now.mono ||
    (modeRefusal (behaviourOf ied object) false).isSome ||
    (causeOf (c.ask object .select (.new (.boolean false) 0 now.wall) .sboNormal)).isSome

/-- `Controls::select`: the answer is empty when the selection is refused. -/
def select (assoc : AssocId) (ied : Store) (object : Reference) (now : Now) : Controls × Value :=
  if c.selectRefused assoc ied object now then (c, .visibleString [])
  else (c.insert object (c.selectionOf assoc none 0 now), .visibleString (textOf object))

/-- Why an `SBOw` is refused, if it is. -/
def sbowRefusal (assoc : AssocId) (object : Reference) (request : ControlRequest)
    (model : ControlModel) (now : Now) : Option AddCause :=
  if model ≠ .sboEnhanced then some .notSupported
  else if c.heldByOther object assoc now.mono then some .objectAlreadySelected
  else causeOf (c.ask object .select request model)

/-- `SBOw`. -/
def selectWithValue (assoc : AssocId) (object : Reference) (request : ControlRequest)
    (model : ControlModel) (now : Now) : Controls × Except Int Unit :=
  match c.sbowRefusal assoc object request model now with
  | some cause => c.refuse assoc object request model .select cause
  | none =>
    (c.insert object (c.selectionOf assoc (some request.ctlVal) request.ctlNum now), .ok ())

/-! ### Cancelling -/

/-- `Cancel`: of a command that waits, and of the selection. -/
def cancel (assoc : AssocId) (object : Reference) (request : ControlRequest)
    (model : ControlModel) : Controls × Except Int Unit :=
  match causeOf (c.ask object .cancel request model) with
  | some cause => c.refuse assoc object request model .cancel cause
  | none =>
    let hadTimed := c.timed.any fun t => t.object = object && t.assoc = assoc
    let c := { c with timed := c.timed.filter fun t => !(t.object = object && t.assoc = assoc) }
    if (c.selections object).any (·.assoc = assoc) then (c.remove object, .ok ())
    else if hadTimed then (c, .ok ())
    else c.refuse assoc object request model .cancel .objectNotSelected

/-! ### Operating -/

/-- Why the selection does not authorise an operate, if it does not. -/
def selectionRefusal (assoc : AssocId) (object : Reference) (request : ControlRequest) :
    Option AddCause :=
  match c.selections object with
  | none => some .objectNotSelected
  | some s =>
    if s.assoc ≠ assoc then some .objectNotSelected
    else if s.value.any fun v => !v.equals request.ctlVal then some .inconsistentParameters
    else if s.ctlNum ≠ 0 && s.ctlNum ≠ request.ctlNum then some .inconsistentParameters
    else none

/-- Why an operate is refused, if it is. -/
def operRefusal (assoc : AssocId) (object : Reference) (request : ControlRequest)
    (model : ControlModel) : Option AddCause :=
  if model = .statusOnly then some .notSupported
  else (if model.needsSelect then c.selectionRefusal assoc object request else none).or
    (causeOf (c.ask object .operate request model))

/-- How long a command waits for its `operTm`, when that is in the future. -/
def waitOf (request : ControlRequest) (now : Now) : Option Nat :=
  (request.operTm.map fun operTm => operTm.toUnixNanos - now.wall.toUnixNanos).filter (0 < ·)

/-- A command that waits replaces the one the association has waiting for the object. -/
def arm (t : Timed) : Controls :=
  { c with timed := c.timed.filter (fun t' => !(t'.object = t.object && t'.assoc = t.assoc)) ++ [t] }

/-- The command of a request that is to wait. -/
def timedOf (assoc : AssocId) (object : Reference) (request : ControlRequest)
    (model : ControlModel) (now : Now) (wait : Nat) : Timed :=
  ⟨assoc, object, { request with t := now.wall }, model, Instant.plusNanos now.mono wait⟩

def operate (assoc : AssocId) (ied : Store) (object : Reference) (request : ControlRequest)
    (model : ControlModel) (now : Now) : Controls × Store × Except Int Unit :=
  match c.operRefusal assoc object request model with
  | some cause =>
    let (c, result) := c.refuse assoc object request model .operate cause
    (c, ied, result)
  | none =>
    let c := c.remove object
    match waitOf request now with
    | some wait => (c.arm (timedOf assoc object request model now wait), ied, .ok ())
    | none =>
      let ied := apply ied object request now.wall
      if model.enhancedSecurity then (c.push assoc (positive object request), ied, .ok ())
      else (c, ied, .ok ())

/-! ### Writing -/

/-- Why the behaviour of the node refuses a write of the attribute: a `Cancel` is exempt. -/
def writeRefusal (ied : Store) (object : Reference) (a : Attribute)
    (request : ControlRequest) : Option AddCause :=
  if a = .cancel then none else modeRefusal (behaviourOf ied object) request.test

/-- The service an attribute stands for, once time has been taken into account. -/
def serve (assoc : AssocId) (ied : Store) (object : Reference) (a : Attribute)
    (request : ControlRequest) (model : ControlModel) (now : Now) :
    Controls × Store × Except Int Unit :=
  match writeRefusal ied object a request with
  | some cause =>
    let (c, result) := c.refuse assoc object request model a.stage cause
    (c, ied, result)
  | none =>
    match a with
    | .sbow =>
      let (c, result) := c.selectWithValue assoc object request model now
      (c, ied, result)
    | .cancel =>
      let (c, result) := c.cancel assoc object request model
      (c, ied, result)
    | .oper => c.operate assoc ied object request model now
    | .sbo => (c, ied, .error dataAccessDenied)

def write (assoc : AssocId) (ied : Store) (object : Reference) (a : Attribute)
    (value : Value) (now : Now) : Controls × Store × Except Int Unit :=
  match modelOf ied object with
  | none => (c, ied, .error dataAccessDenied)
  | some model =>
    match ControlRequest.fromValue value with
    | .error _ => (c, ied, .error dataAccessValueInvalid)
    | .ok request =>
      let (c, ied) := c.onTimeout ied now.mono
      c.serve assoc ied object a request model now

end Controls

end Iec61850.Server.Control
