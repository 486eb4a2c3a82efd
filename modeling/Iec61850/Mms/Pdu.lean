import Iec61850.Mms.Services

/-!
# MMS PDUs

The envelope of `proto/mms/mod.rs`: the Initiate parameters, the PDU choice, and the
identifier that is read off an undecodable PDU.
-/

namespace Iec61850.Mms

open Theory Ber

/-- `Initiate`: the negotiated parameters of an association. -/
structure Initiate where
  localDetail : Option Int
  maxServOutstandingCalling : Int
  maxServOutstandingCalled : Int
  dataStructureNestingLevel : Option Int
  version : Int
  parameterCbb : UInt8 × Bytes
  servicesSupported : UInt8 × Bytes
  deriving DecidableEq, Repr

/-- `Initiate::request`: the proposal one end makes. -/
def Initiate.request (maxPdu outstanding : Int) (parameterCbb servicesSupported : UInt8 × Bytes) :
    Initiate :=
  { localDetail := some maxPdu
    maxServOutstandingCalling := outstanding
    maxServOutstandingCalled := outstanding
    dataStructureNestingLevel := some 5
    version := 1
    parameterCbb
    servicesSupported }

def Initiate.parse (t : Tlv) : Except Error Initiate := do
  let (localDetail, c) ← optional t.children (Tag.context 0) Tlv.integerI64
  let (calling, c) ← required c (Tag.context 1) Tlv.integerI64
  let (called, c) ← required c (Tag.context 2) Tlv.integerI64
  let (nesting, c) ← optional c (Tag.context 3) Tlv.integerI64
  let (detail, _) ← c.nextTag (svc 4)
  let (version, d) ← required detail.children (Tag.context 0) Tlv.integerI64
  let (parameterCbb, d) ← required d (Tag.context 1) Tlv.bitString
  let (servicesSupported, _) ← required d (Tag.context 2) Tlv.bitString
  .ok ⟨localDetail, calling, called, nesting, version, parameterCbb, servicesSupported⟩

def Initiate.write (i : Initiate) (tag : Tag) : Except Error Bytes :=
  constructed tag (concatM [
    optM i.localDetail (integer (Tag.context 0)),
    integer (Tag.context 1) i.maxServOutstandingCalling,
    integer (Tag.context 2) i.maxServOutstandingCalled,
    optM i.dataStructureNestingLevel (integer (Tag.context 3)),
    constructed (svc 4) (concatM [
      integer (Tag.context 0) i.version,
      bitString (Tag.context 1) i.parameterCbb.1 i.parameterCbb.2,
      bitString (Tag.context 2) i.servicesSupported.1 i.servicesSupported.2])])

/-- `service_error::SERVICE` and `service_error::PRIMITIVES_OUT_OF_SEQUENCE`. -/
def serviceErrorService : Nat := 4
def primitivesOutOfSequence : Int := 1

/-- `ServiceError::encode`. -/
def serviceErrorEncode (tag : Tag) (cls : Nat) (code : Int) : Except Error Bytes :=
  constructed tag (constructed (svc 0) (integer (Tag.context cls) code))

inductive Unconfirmed where
  | informationReport (access : VariableAccess) (results : List AccessResult)
  | other (t : Tlv)
  deriving DecidableEq, Repr

/-- `Mms`: an MMS PDU. -/
inductive Pdu where
  | confirmedRequest (invokeId : Int) (service : ConfirmedRequest)
  | confirmedResponse (invokeId : Int) (service : ConfirmedResponse)
  | confirmedError (invokeId : Int) (modifierPosition : Option Nat) (error : Tlv)
  | unconfirmed (service : Unconfirmed)
  | reject (r : Reject)
  | cancelRequest (invokeId : Int)
  | cancelResponse (invokeId : Int)
  | cancelError (invokeId : Int) (error : Tlv)
  | initiateRequest (i : Initiate)
  | initiateResponse (i : Initiate)
  | initiateError (t : Tlv)
  | concludeRequest
  | concludeResponse
  | concludeError (t : Tlv)
  | other (t : Tlv)
  deriving Repr

/-- `Mms::peek_invoke_id`: the identifier of a confirmed PDU, without decoding its service. The
tag numbers are the source's, requests and cancel requests among them. -/
def peekInvokeId (buf : Bytes) : Option Int :=
  match (Cursor.new buf).nextRequired with
  | .error _ => none
  | .ok (top, _) =>
    if top.tag.cls ≠ .context ∨ ¬ (top.tag.number ∈ [0, 1, 2, 5]) then none
    else
      match top.children.next with
      | some (.ok first, _) =>
        if first.tag ≠ tagInteger ∧ first.tag ≠ Tag.context 0 then none
        else first.integerI64.toOption
      | _ => none

/-- The unconfirmed service of `Mms::parse`. -/
def Unconfirmed.parse (service : Tlv) (limits : Limits) : Except Error Unconfirmed :=
  if service.tag = svc 0 then do
    let (a, c) ← service.children.nextRequired
    let access ← VariableAccess.parse a
    let (list, _) ← c.nextTag (svc 0)
    .informationReport access <$> parseAccessResults list limits
  else .ok (.other service)

/-- The confirmed request of `Mms::parse`: a list of modifiers is skipped. -/
def Pdu.parseRequest (top : Tlv) (limits : Limits) : Except Error Pdu := do
  let (invokeId, c) ← required top.children tagInteger invokeIdOf
  let (next, c) ← c.nextRequired
  let (next, _) ← if next.tag = tagSequence then c.nextRequired else .ok (next, c)
  .confirmedRequest invokeId <$> ConfirmedRequest.parse next limits

def Pdu.parse (buf : Bytes) (limits : Limits) : Except Error Pdu := do
  let (top, _) ← (Cursor.new buf).nextRequired
  if top.tag.cls ≠ .context then .error (.decode .unexpectedTag top.offset)
  else
    match top.tag.number with
    | 0 => Pdu.parseRequest top limits
    | 1 => do
        let (invokeId, c) ← required top.children tagInteger invokeIdOf
        let (service, _) ← c.nextRequired
        .confirmedResponse invokeId <$> ConfirmedResponse.parse service limits
    | 2 => do
        let (invokeId, c) ← required top.children (Tag.context 0) invokeIdOf
        let (modifier, c) ← optional c (Tag.context 1) Tlv.unsignedLenientU32
        let (error, _) ← c.nextRequired
        .ok (.confirmedError invokeId modifier error)
    | 3 => do
        let service ← firstChild top
        .unconfirmed <$> Unconfirmed.parse service limits
    | 4 => .reject <$> Reject.parse top
    | 5 => .cancelRequest <$> invokeIdOf top
    | 6 => .cancelResponse <$> invokeIdOf top
    | 7 => do
        let (invokeId, c) ← required top.children (Tag.context 0) invokeIdOf
        let (error, _) ← c.nextRequired
        .ok (.cancelError invokeId error)
    | 8 => .initiateRequest <$> Initiate.parse top
    | 9 => .initiateResponse <$> Initiate.parse top
    | 10 => .ok (.initiateError top)
    | 11 => .ok .concludeRequest
    | 12 => .ok .concludeResponse
    | 13 => .ok (.concludeError top)
    | _ => .ok (.other top)

/-- `u64::try_from(id).unwrap_or(0)`. -/
def idOrZero (id : Int) : Nat := id.toNat

def Pdu.write : Pdu → Except Error Bytes
  | .confirmedRequest invokeId service =>
    constructed (svc 0) (concatM [integer tagInteger invokeId, service.encode])
  | .confirmedResponse invokeId service =>
    constructed (svc 1) (concatM [integer tagInteger invokeId, service.encode])
  | .confirmedError invokeId modifierPosition error =>
    constructed (svc 2) (concatM [
      integer (Tag.context 0) invokeId,
      optM modifierPosition (unsigned (Tag.context 1)),
      primitive error.tag error.value])
  | .unconfirmed (.informationReport access results) =>
    constructed (svc 3) (constructed (svc 0)
      (concatM [access.write, writeAccessResults results (svc 0)]))
  | .unconfirmed (.other t) => constructed (svc 3) (primitive t.tag t.value)
  | .cancelRequest invokeId => unsigned (Tag.context 5) (idOrZero invokeId)
  | .cancelResponse invokeId => unsigned (Tag.context 6) (idOrZero invokeId)
  | .cancelError invokeId error =>
    constructed (svc 7) (concatM [
      unsigned (Tag.context 0) (idOrZero invokeId), primitive error.tag error.value])
  | .initiateRequest i => i.write (svc 8)
  | .initiateResponse i => i.write (svc 9)
  | .concludeRequest => primitive (Tag.context 11) []
  | .concludeResponse => primitive (Tag.context 12) []
  | .reject r => r.write
  | .initiateError t | .concludeError t | .other t => primitive t.tag t.value

end Iec61850.Mms
