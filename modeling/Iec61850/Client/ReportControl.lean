import Iec61850.Client.SettingGroup

/-!
# The services on a report control block

`client/rcb.rs` with `Client::read_access_results` and `Client::write_many`: reading a block,
configuring it, and configuring it and turning it on. As with the editing of a setting group the
server may answer each request as it likes, and what a service has asked for is read off the calls.
-/

namespace Iec61850.Client

open Theory Ber Mms Server

/-! ### Attributes and settings -/

/-- The attributes a client asks a block for; the entry time is asked for in two spellings. -/
inductive RcbAttribute where
  | rptId | rptEna | datSet | confRev | optFlds | bufTm | sqNum | trgOps | intgPd | gi | owner
  | purgeBuf | entryId | timeOfEntry | timeofEntry | resvTms
  | resv
  deriving DecidableEq, Repr

namespace RcbAttribute

def name : RcbAttribute → String
  | rptId => "RptID"
  | rptEna => "RptEna"
  | datSet => "DatSet"
  | confRev => "ConfRev"
  | optFlds => "OptFlds"
  | bufTm => "BufTm"
  | sqNum => "SqNum"
  | trgOps => "TrgOps"
  | intgPd => "IntgPd"
  | gi => "GI"
  | owner => "Owner"
  | purgeBuf => "PurgeBuf"
  | entryId => "EntryID"
  | timeOfEntry => "TimeOfEntry"
  | timeofEntry => "TimeofEntry"
  | resvTms => "ResvTms"
  | resv => "Resv"

def common : List RcbAttribute :=
  [rptId, rptEna, datSet, confRev, optFlds, bufTm, sqNum, trgOps, intgPd, gi, owner]

def buffered : List RcbAttribute := [purgeBuf, entryId, timeOfEntry, timeofEntry, resvTms]

def unbuffered : List RcbAttribute := [resv]

/-- `{base}${attribute}`. -/
def under (base : Bytes) (a : RcbAttribute) : Bytes := base ++ sep :: ascii a.name

end RcbAttribute

def attributeNames (buffered : Bool) : List RcbAttribute :=
  RcbAttribute.common ++ if buffered then RcbAttribute.buffered else RcbAttribute.unbuffered

/-- `Rcb`: a block as the server has it. -/
structure Rcb where
  reference : Bytes
  buffered : Bool
  rptId : Option Bytes := none
  rptEna : Bool := false
  dataSet : Option Bytes := none
  confRev : Option Nat := none
  optFlds : Option OptFlds := none
  bufTm : Option Nat := none
  sqNum : Option Nat := none
  trgOps : Option TrgOps := none
  intgPd : Option Nat := none
  gi : Option Bool := none
  resv : Option Bool := none
  purgeBuf : Option Bool := none
  entryId : Option Bytes := none
  timeOfEntry : Option EntryTime := none
  resvTms : Option Int := none
  owner : Option Bytes := none
  deriving DecidableEq

/-- `RcbSettings`: what to write into a block. -/
structure RcbSettings where
  rptId : Option Bytes := none
  dataSet : Option Bytes := none
  optFlds : Option OptFlds := none
  trgOps : Option TrgOps := none
  bufTm : Option UInt32 := none
  intgPd : Option UInt32 := none
  resvTms : Option Int := none
  entryId : Option Bytes := none
  deriving DecidableEq

/-- `Typed::as_i64`. -/
def asI64 : Value → Option Int
  | .integer i => some i
  | _ => none

/-- `unsigned`. -/
def unsignedIn : Value → Option Nat
  | .unsigned n => if n ≤ u32Max then some n else none
  | .integer i => if 0 ≤ i ∧ i ≤ u32Max then some i.toNat else none
  | _ => none

/-- `octets`. -/
def octetsIn : Value → Option Bytes
  | .octetString b | .binaryTime b => some b
  | .visibleString s | .mmsString s => some s
  | _ => none

/-- The entry time in a value. -/
def entryTimeIn : Value → Option EntryTime
  | .binaryTime b => EntryTime.fromOctets b
  | _ => none

/-- What the loop of `read_rcb` makes of a value under the name of an attribute. -/
def Rcb.take (rcb : Rcb) (a : RcbAttribute) (v : Value) : Rcb :=
  match a with
  | .rptId => { rcb with rptId := v.asStr }
  | .rptEna => { rcb with rptEna := v.asBool.getD false }
  | .datSet => { rcb with dataSet := v.asStr }
  | .confRev => { rcb with confRev := unsignedIn v }
  | .optFlds => { rcb with optFlds := packedFromValue 10 v }
  | .bufTm => { rcb with bufTm := unsignedIn v }
  | .sqNum => { rcb with sqNum := unsignedIn v }
  | .trgOps => { rcb with trgOps := packedFromValue 6 v }
  | .intgPd => { rcb with intgPd := unsignedIn v }
  | .gi => { rcb with gi := v.asBool }
  | .resv => { rcb with resv := v.asBool }
  | .purgeBuf => { rcb with purgeBuf := v.asBool }
  | .entryId => { rcb with entryId := octetsIn v }
  -- whichever of the two spellings the server has
  | .timeOfEntry | .timeofEntry =>
    { rcb with timeOfEntry := (entryTimeIn v).or rcb.timeOfEntry }
  | .resvTms => { rcb with resvTms := asI64 v }
  | .owner => { rcb with owner := octetsIn v }

/-- One round of the loop of `read_rcb`; a value that is a failure is skipped. -/
def Rcb.round (rcb : Rcb) (result : RcbAttribute × Except Failure Value) : Rcb :=
  match result.2 with
  | .ok v => rcb.take result.1 v
  | .error _ => rcb

def settingsWrites (base : Bytes) (buffered : Bool) (s : RcbSettings) : List (Bytes × Value) :=
  let write (a : RcbAttribute) (v : Option Value) : List (Bytes × Value) :=
    v.toList.map fun v => (a.under base, v)
  write .rptId (s.rptId.map .visibleString) ++
  write .datSet (s.dataSet.map .visibleString) ++
  write .optFlds (s.optFlds.map packedToValue) ++
  write .trgOps (s.trgOps.map packedToValue) ++
  write .bufTm (s.bufTm.map fun v => .unsigned v.toNat) ++
  write .intgPd (s.intgPd.map fun v => .unsigned v.toNat) ++
  if buffered then
    write .resvTms (s.resvTms.map .integer) ++ write .entryId (s.entryId.map .octetString)
  else []

def rcbBase (reference : Bytes) (fc : Fc) : Except Error (Bytes × Bool) := do
  let parsed ← ObjectReference.parse reference
  let fc := parsed.fc.getD fc
  if fc ≠ .rp ∧ fc ≠ .br then
    .error (.invalidReference "a report control block is under RP or BR")
  else
    let (domain, item) := parsed.toMms fc
    .ok (domain ++ slash :: item, fc = .br)

/-! ### The services -/

/-- What a call asks for. -/
inductive Asked where
  | read (names : List Bytes)
  | write (writes : List (Bytes × Value))

/-- A call that was made, and how it ended. -/
structure RcbCall where
  asked : Asked
  request : ConfirmedRequest
  answer : Answer

/-- A client: whether its association is up, and the calls it has made. -/
structure RcbSession where
  up : Bool
  calls : List RcbCall

/-- One result of `read_access_results`. -/
def accessResult (limits : Limits) : AccessResult → Except Failure Value
  | .failure code => .error (.own (.dataAccess code))
  | .success t =>
    match DataView.fromTlv t with
    | .error e => .error (.own e)
    | .ok view =>
      match view.toOwned limits with
      | .error e => .error (.own e)
      | .ok v => .ok v

namespace RcbSession

variable (limits : Limits) (answers : Nat → Answer)

def call (c : RcbSession) (asked : Asked) (request : ConfirmedRequest) :
    RcbSession × Except Failure (Except Error ConfirmedResponse) :=
  if ¬ c.up then (c, .error (.io "association is not established"))
  else
    let a := answers c.calls.length
    let called : RcbSession := ⟨true, c.calls ++ [⟨asked, request, a⟩]⟩
    match a with
    | .response r => (called, .ok r)
    | .failed f | .unsent f => (called, .error f)
    | .lost f => ({ called with up := false }, .error f)

/-- `Client::read_many_results` with `Client::read_access_results`. -/
def readManyResults (c : RcbSession) (names : List Bytes) :
    RcbSession × Except Failure (List (Except Failure Value)) :=
  match readManyRequest (names.map fun name => (name, .st)) with
  | .error e => (c, .error (.own e))
  | .ok request =>
    match c.call answers (.read names) request with
    | (c, .error f) => (c, .error f)
    | (c, .ok (.error e)) => (c, .error (.own e))
    | (c, .ok (.ok (.read _ results))) => (c, .ok (results.map (accessResult limits)))
    | (c, .ok (.ok _)) => (c, .error (.own (.invalidValue "not a Read response")))

def writeMany (c : RcbSession) (writes : List (Bytes × Value)) :
    RcbSession × Except Failure (List (Except Failure Unit)) :=
  match writeManyRequest writes with
  | .error e => (c, .error (.own e))
  | .ok request =>
    match c.call answers (.write writes) request with
    | (c, .error f) => (c, .error f)
    | (c, .ok (.error e)) => (c, .error (.own e))
    | (c, .ok (.ok (.write results))) => (c, .ok (results.map Session.writeResult))
    | (c, .ok (.ok _)) => (c, .error (.own (.invalidValue "not a Write response")))

/-- What `read_rcb` makes of the results. -/
def rcbOf (base : Bytes) (buffered : Bool) (values : List (Except Failure Value)) :
    Except Failure Rcb :=
  let rcb := ((attributeNames buffered).zip values).foldl Rcb.round { reference := base, buffered }
  if rcb.rptId = none ∧ rcb.dataSet = none ∧ rcb.optFlds = none then
    .error (.own (.notFound "report control block"))
  else .ok rcb

def readRcb (c : RcbSession) (reference : Bytes) (fc : Fc) : RcbSession × Except Failure Rcb :=
  match rcbBase reference fc with
  | .error e => (c, .error (.own e))
  | .ok (base, buffered) =>
    match c.readManyResults limits answers
        ((attributeNames buffered).map (RcbAttribute.under base)) with
    | (c, .error f) => (c, .error f)
    | (c, .ok values) => (c, rcbOf base buffered values)

def writeRcb (c : RcbSession) (reference : Bytes) (fc : Fc) (settings : RcbSettings) :
    RcbSession × Except Failure Unit :=
  match rcbBase reference fc with
  | .error e => (c, .error (.own e))
  | .ok (base, buffered) =>
    let writes := settingsWrites base buffered settings
    if writes.isEmpty then (c, .ok ())
    else
      match c.writeMany answers writes with
      | (c, .error f) => (c, .error f)
      | (c, .ok results) => (c, Session.collected results)

def writeOne (c : RcbSession) (reference : Bytes) (value : Value) :
    RcbSession × Except Failure Unit :=
  match c.writeMany answers [(reference, value)] with
  | (c, .error f) => (c, .error f)
  | (c, .ok []) => (c, .error (.own (.invalidValue "empty Write response")))
  | (c, .ok (r :: _)) => (c, r)

/-- The start of `enable_rcb`: a block that is enabled is turned off, if there is something to
write. -/
def takeOver (c : RcbSession) (base : Bytes) (buffered : Bool) (fc : Fc) (settings : RcbSettings) :
    RcbSession × Except Failure Unit :=
  if (settingsWrites base buffered settings).isEmpty then (c, .ok ())
  else
    match c.readRcb limits answers base fc with
    | (c, .error f) => (c, .error f)
    | (c, .ok rcb) =>
      if rcb.rptEna then c.writeOne answers (RcbAttribute.under base .rptEna) (.boolean false)
      else (c, .ok ())

/-- The end of `enable_rcb`: the block is turned on and read back. -/
def turnOn (c : RcbSession) (base : Bytes) (fc : Fc) : RcbSession × Except Failure Rcb :=
  match c.writeOne answers (RcbAttribute.under base .rptEna) (.boolean true) with
  | (c, .error f) => (c, .error f)
  | (c, .ok ()) =>
    match c.readRcb limits answers base fc with
    | (c, .error f) => (c, .error f)
    | (c, .ok rcb) =>
      if rcb.rptEna then (c, .ok rcb)
      else (c, .error (.own (.invalidValue
        "the server accepted the write but did not enable reporting")))

def enableRcb (c : RcbSession) (reference : Bytes) (fc : Fc) (settings : RcbSettings) :
    RcbSession × Except Failure Rcb :=
  match rcbBase reference fc with
  | .error e => (c, .error (.own e))
  | .ok (base, buffered) =>
    match c.takeOver limits answers base buffered fc settings with
    | (c, .error f) => (c, .error f)
    | (c, .ok ()) =>
      match c.writeRcb answers base fc settings with
      | (c, .error f) => (c, .error f)
      | (c, .ok ()) => c.turnOn limits answers base fc

/-- A client that has not called yet. -/
def fresh (up : Bool) : RcbSession := ⟨up, []⟩

end RcbSession

end Iec61850.Client
