import Iec61850.Server.Acsi

/-!
# The server loop

What the loop of `server/net.rs` does with the services: requests and transactions, which it commits,
the passing of time, and associations that begin and end.
-/

namespace Iec61850.Server

open Theory Mms

/-- What a request or a transaction does to the model. What it writes into the tracking objects are
writes of the data as well. -/
inductive Operation where
  | write (r : Reference) (value : Value)
  | select (assoc : AssocId) (object : Reference) (now : Now)
  | control (assoc : AssocId) (object : Reference) (x : Control.Attribute) (value : Value)
      (now : Now)
  | setting (j : Nat) (assoc : AssocId) (key : Key) (value : Value) (now : Now)
  | settingWhole (j : Nat) (assoc : AssocId) (value : Value)
  | report (i : Nat) (assoc : AssocId) (x : Attribute) (value : Value) (now : Instant)
  | reportWhole (i : Nat) (value : Value)
  | log (i : Nat) (x : LogAttribute) (value : Value)
  | logWhole (i : Nat) (value : Value)
  | createDataSet (name : ObjectName) (specs : List VariableSpecification)
  | deleteDataSets (scope : Int) (names : List ObjectName)

/-- What the loop handles. -/
inductive LoopEvent where
  | request (operations : List Operation) (now : Now)
  | transaction (writes : List (Reference × Value)) (now : Now)
  | timeout (now : Now)
  | opened (assoc : AssocId) (identity : Bytes)
  | negotiated (assoc : AssocId) (maxPdu : Nat)
  | closed (assoc : AssocId) (now : Now)

namespace Acsi

variable (a : Acsi)

/-- A write to the setting group block of one logical device looks at the reservations of them all. -/
def writeSetting (j : Nat) (assoc : AssocId) (key : Key) (value : Value) (now : Now) : Acsi :=
  let written (k : Nat) (d : Device) : Device :=
    if k = j then d.next (.write assoc key value now)
    else
      match key with
      | .block x => if x.writable then d.next (.elsewhere now.mono) else d
      | _ => d
  { a with devices := a.devices.mapIdx written }

/-- One operation of a request. -/
def perform : Operation → Acsi
  | .write r value =>
    { a with control := { a.control with ied := (a.control.ied.writeLeaf r value).1 } }
  | .select assoc object now => { a with control := a.control.next (.select assoc object now) }
  | .control assoc object x value now =>
    { a with control := a.control.next (.write assoc object x value now) }
  | .setting j assoc key value now => a.writeSetting j assoc key value now
  | .settingWhole j assoc value =>
    { a with devices := a.devices.modify j (·.next (.writeWhole assoc value)) }
  | .report i assoc x value now =>
    { a with reports := a.reports.modify i (·.write a.view a.peers assoc x value now) }
  | .reportWhole i value => { a with reports := a.reports.modify i (·.writeWhole value) }
  | .log i x value =>
    { a with logs := { a.logs with
        controls := a.logs.controls.modify i fun b => (b.write x value).1 } }
  | .logWhole i value =>
    { a with logs := { a.logs with
        controls := a.logs.controls.modify i fun b => (b.writeWhole value).1 } }
  | .createDataSet name specs =>
    { a with dataSets := (a.dataSets.createService a.tree name specs).1 }
  | .deleteDataSets scope names =>
    { a with dataSets := (a.dataSets.deleteService scope names).1 }

/-- The server after an event. A transaction of no writes is not committed. -/
def next : LoopEvent → Acsi
  | .request operations now => ((operations.foldl perform a).commit now).1
  | .transaction writes now =>
    if writes.isEmpty then a
    else ((writes.foldl (fun a w => a.perform (.write w.1 w.2)) a).commit now).1
  | .timeout now => (a.onTimeout now).1
  | .opened assoc identity => a.onAssociationOpened assoc identity
  | .negotiated assoc maxPdu =>
    { a with peers := { a.peers with pdu := Function.update a.peers.pdu assoc (some maxPdu) } }
  | .closed assoc now => a.onAssociationClosed assoc now

/-- The loop goes on. -/
def step (a : Acsi) (x : LoopEvent) : Option Acsi := some (a.next x)

end Acsi

end Iec61850.Server
