import Iec61850.Server.Control
import Iec61850.Theory.History
import Iec61850.Theory.Runs

/-!
# Runs of the control engine

What happens to the engine and the served values, one action at a time, and the journal this
leaves: selections, operates, cancels, ends of associations, readings of the clock, and the
commands that ran, or were refused, when they fell due.
-/

namespace Iec61850.Server.Control

open Theory Mms

/-! ### Actions -/

/-- The engine with the values it works on. -/
structure System where
  controls : Controls
  ied : Store

/-- One action. The process and the other services change the served values as they like, the
control models and the behaviours of the logical nodes among them (`store`). -/
inductive Action where
  | select (assoc : AssocId) (object : Reference) (now : Now)
  | write (assoc : AssocId) (object : Reference) (a : Attribute) (value : Value) (now : Now)
  | timeout (now : Instant)
  | closed (assoc : AssocId)
  | store (ied : Store)
  | onControl (hook : Option ControlHook)
  | setSboTimeoutMs (ms : Nat)
  | takePending
  | takeLastCause

/-- The system after an action. -/
def System.next (s : System) : Action → System
  | .select assoc object now => { s with controls := (s.controls.select assoc s.ied object now).1 }
  | .write assoc object a value now =>
    let (c, ied, _) := s.controls.write assoc s.ied object a value now
    ⟨c, ied⟩
  | .timeout now =>
    let (c, ied) := s.controls.onTimeout s.ied now
    ⟨c, ied⟩
  | .closed assoc => { s with controls := s.controls.onAssociationClosed assoc }
  | .store ied => { s with ied }
  | .onControl hook => { s with controls := { s.controls with hook } }
  | .setSboTimeoutMs ms => { s with controls := { s.controls with sboTimeoutMs := ms } }
  | .takePending => { s with controls := { s.controls with pending := [] } }
  | .takeLastCause => { s with controls := { s.controls with lastCause := none } }

/-- No action stops the system. -/
def step (s : System) (x : Action) : Option System := some (s.next x)

/-! ### The journal -/

/-- An operate that was accepted takes effect at once, or leaves a command that waits. -/
inductive Event where
  | tick (now : Instant)
  | selected (object : Reference) (selection : Selection)
  | operated (object : Reference) (assoc : AssocId) (request : ControlRequest)
      (model : ControlModel) (armed : Option Timed)
  | cancelled (object : Reference) (assoc : AssocId)
  | closed (assoc : AssocId)
  | ran (t : Timed)
  | dropped (t : Timed)

namespace Controls

variable (c : Controls)

/-- What becomes of a command that has fallen due. -/
def timedEvent (ied : Store) (t : Timed) : Event :=
  if (c.timedRefusal ied t).isSome then .dropped t else .ran t

/-- What the loop of `on_timeout` leaves in the journal. -/
def runEvents : Controls → Store → List Timed → List Event
  | _, _, [] => []
  | c, ied, t :: ts =>
    c.timedEvent ied t :: runEvents (c.runTimed ied t).1 (c.runTimed ied t).2 ts

def timeoutEvents (ied : Store) (now : Instant) : List Event :=
  .tick now :: runEvents ((c.expire now).wait now) ied (c.dueAt now)

/-- What a service leaves in the journal when it is granted. -/
def serveEvents (assoc : AssocId) (ied : Store) (object : Reference) (a : Attribute)
    (request : ControlRequest) (model : ControlModel) (now : Now) : List Event :=
  if (writeRefusal ied object a request).isSome then []
  else
    match a with
    | .sbow =>
      if (c.sbowRefusal assoc object request model now).isSome then []
      else [.selected object (c.selectionOf assoc (some request.ctlVal) request.ctlNum now)]
    | .cancel =>
      if (c.cancel assoc object request model).2.isOk then [.cancelled object assoc] else []
    | .oper =>
      if (c.operRefusal assoc object request model).isSome then []
      else [.operated object assoc request model
        ((waitOf request now).map (timedOf assoc object request model now))]
    | .sbo => []

def writeEvents (assoc : AssocId) (ied : Store) (object : Reference) (a : Attribute)
    (value : Value) (now : Now) : List Event :=
  match modelOf ied object, ControlRequest.fromValue value with
  | some model, .ok request =>
    c.timeoutEvents ied now.mono ++
      (c.onTimeout ied now.mono).1.serveEvents assoc (c.onTimeout ied now.mono).2 object a
        request model now
  | _, _ => []

end Controls

/-- What an action leaves in the journal. -/
def events (s : System) : Action → List Event
  | .select assoc object now =>
    if s.controls.selectRefused assoc s.ied object now then []
    else [.selected object (s.controls.selectionOf assoc none 0 now)]
  | .write assoc object a value now => s.controls.writeEvents assoc s.ied object a value now
  | .timeout now => s.controls.timeoutEvents s.ied now
  | .closed assoc => [.closed assoc]
  | .store _ | .onControl _ | .setSboTimeoutMs _ | .takePending | .takeLastCause => []

/-! ### What the loop of `on_timeout` leaves alone -/

namespace Controls

/-- Only what is sent and what is told about a refusal differ. -/
structure SameAuthority (c c' : Controls) : Prop where
  selections : c'.selections = c.selections
  timed : c'.timed = c.timed

variable (c : Controls)

theorem sameAuthority_refl : SameAuthority c c := ⟨rfl, rfl⟩

theorem SameAuthority.trans {c d e : Controls} (h : SameAuthority c d) (h' : SameAuthority d e) :
    SameAuthority c e :=
  ⟨h'.selections.trans h.selections, h'.timed.trans h.timed⟩

theorem sameAuthority_runTimed (ied : Store) (t : Timed) :
    SameAuthority c (c.runTimed ied t).1 := by
  unfold runTimed
  split
  · exact ⟨rfl, rfl⟩
  · dsimp only
    split
    · exact ⟨rfl, rfl⟩
    · exact sameAuthority_refl c

theorem sameAuthority_runAll (ied : Store) (ts : List Timed) :
    SameAuthority c (runAll c ied ts).1 := by
  induction ts generalizing c ied with
  | nil => exact sameAuthority_refl c
  | cons t ts ih => exact (sameAuthority_runTimed c ied t).trans (ih _ _)

theorem runTimed_hook (ied : Store) (t : Timed) :
    (c.runTimed ied t).1.hook = c.hook := by
  unfold runTimed
  split
  · rfl
  · dsimp only
    split
    · rfl
    · rfl

theorem sameAuthority_refuse (assoc : AssocId) (object : Reference)
    (request : ControlRequest) (model : ControlModel) (stage : Stage) (cause : AddCause) :
    SameAuthority c (c.refuse assoc object request model stage cause).1 := by
  unfold refuse
  dsimp only
  split
  · exact ⟨rfl, rfl⟩
  · exact ⟨rfl, rfl⟩

theorem onTimeout_authority (ied : Store) (now : Instant) :
    SameAuthority ((c.expire now).wait now) (c.onTimeout ied now).1 :=
  sameAuthority_runAll _ ied (c.dueAt now)

end Controls

/-! ### A switch -/

/-- A switch of a bay. -/
def position : Reference := ⟨ascii "LD", [ascii "CSWI1", ascii "CO", ascii "Pos"]⟩

/-- Its control model, and the type of its status. -/
def switchgear (ctlModel : Int) (btype : BType) : Store where
  node r :=
    if r.item.getLast? = some (ascii "stVal") then some (.leaf btype)
    else if r.item.getLast? = some (ascii "t") then some (.leaf .timestamp)
    else none
  values r :=
    if r.item.getLast? = some (ascii "ctlModel") then some (.integer ctlModel) else none
  dirty _ := none

def atSecond (n : Nat) : Now := ⟨n * 1000000000, ⟨n, 0, .synchronized⟩⟩

/-- A command for the switch, some seconds from the start. -/
def operAt (value : Bool) (second : Nat) : ControlRequest :=
  { ControlRequest.new (.boolean value) 1 ⟨0, 0, .synchronized⟩ with
    operTm := some ⟨second, 0, .synchronized⟩ }

end Iec61850.Server.Control
