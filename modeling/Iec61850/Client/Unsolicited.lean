import Iec61850.Mms.Control
import Iec61850.Mms.PduReread
import Iec61850.Mms.Report

/-!
# What a client is sent unasked

`Unsolicited::from_pdu` and `termination` of `client/mod.rs`: an information report is a report, the
end of a command, or handed over as it arrived.
-/

namespace Iec61850.Client

open Theory Ber Mms

inductive Unsolicited where
  | report (r : Report)
  | commandTermination (t : CommandTermination)
  | other (name : Bytes) (values : List Value) (raw : Bytes)

def objectName : ObjectName → Bytes
  | .domainSpecific domain item => domain ++ ascii "/" ++ item
  | .vmdSpecific n | .aaSpecific n => n

/-- `specification_name`: a form without a name has the empty one. -/
def specificationName : VariableSpecification → Bytes
  | .name n | .element n _ => objectName n
  | .other _ => []

/-- `is_oper` of `termination`. -/
def isOper (n : Bytes) : Bool :=
  (ascii "$Oper").isSuffixOf n || (ascii "$SBOw").isSuffixOf n || (ascii "$Cancel").isSuffixOf n

/-- `.ok()`. -/
def okay {α : Type} : Except Error α → Option α
  | .ok a => some a
  | .error _ => none

/-- `termination`, after the names are spelt out: positive with the control object's `Oper` alone,
negative with `LastApplError` before it or by itself. -/
def terminationOf : List Bytes → List Value → Option CommandTermination
  | [first], [v] =>
    if isOper first then do
      let request ← okay (ControlRequest.fromValue v)
      some (.positive first request)
    else if first = ascii "LastApplError" then do
      let error ← okay (LastApplError.fromValue v)
      some (.negative error none)
    else none
  | [first, second], [err, oper] =>
    if first = ascii "LastApplError" ∧ isOper second then do
      let error ← okay (LastApplError.fromValue err)
      some (.negative error (okay (ControlRequest.fromValue oper)))
    else none
  | _, _ => none

def termination (names : List VariableSpecification) (values : List Value) :
    Option CommandTermination :=
  terminationOf (names.map specificationName) values

/-- The names of a list of variables in one line. -/
def namesText (names : List VariableSpecification) : Bytes :=
  (ascii ", ").intercalate (names.map specificationName)

namespace Unsolicited

variable (limits : Limits)

/-- A report one of whose accesses failed: it is handed over without its values. -/
def incomplete (access : VariableAccess) (pdu : Bytes) : Unsolicited :=
  match access with
  | .variableListName n => .other (objectName n) [] pdu
  | .listOfVariable names => .other (namesText names) [] pdu

/-- A report all of whose values decode. -/
def complete (access : VariableAccess) (values : List Value) (pdu : Bytes) : Unsolicited :=
  match access with
  | .variableListName n =>
    match Report.fromValues values with
    | .ok r => .report r
    | .error _ => .other (objectName n) values pdu
  | .listOfVariable names =>
    match termination names values with
    | some t => .commandTermination t
    | none => .other (namesText names) values pdu

def fromPdu (pdu : Bytes) : Option Unsolicited :=
  match Pdu.parse pdu limits with
  | .ok (.unconfirmed (.informationReport access results)) =>
    match results.mapM (resultToValue limits) with
    | .ok values => some (complete access values pdu)
    | .error _ => some (incomplete access pdu)
  | _ => none

end Unsolicited

end Iec61850.Client
