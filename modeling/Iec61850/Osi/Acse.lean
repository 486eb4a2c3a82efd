import Iec61850.Osi.Presentation

/-!
# ACSE, the association control service element

`proto/osi/acse.rs`: the AARQ and AARE with the MMS Initiate in their user information, and
the release and abort APDUs.
-/

namespace Iec61850.Osi.Acse

open Theory Ber Presentation

def tagAarq : Tag := Tag.applicationConstructed 0
def tagAare : Tag := Tag.applicationConstructed 1
def tagRlrq : Tag := Tag.applicationConstructed 2
def tagRlre : Tag := Tag.applicationConstructed 3
def tagAbrt : Tag := Tag.applicationConstructed 4
def tagExternal : Tag := Tag.universal 8 true
def resultAccepted : Int := 0
def resultRejectedPermanent : Int := 1

def diagnosticServiceUserNull : Bytes := [0xA1, 0x03, 0x02, 0x01, 0x00]

def diagnosticServiceUser (reason : UInt8) : Bytes := [0xA1, 0x03, 0x02, 0x01, reason]

/-- The `EXTERNAL` inside `user-information`. -/
structure UserInformation where
  directReference : Option Bytes := none
  indirectReference : Option Int := none
  value : Bytes := []
  deriving DecidableEq, Repr

/-- The fields of an AARQ or AARE. -/
structure Associate where
  protocolVersion : Option (UInt8 × Bytes) := none
  contextName : Option Bytes := none
  result : Option Int := none
  resultDiagnostic : Option Bytes := none
  calledApTitle : Option Bytes := none
  calledAeQualifier : Option Bytes := none
  respondingApTitle : Option Bytes := none
  respondingAeQualifier : Option Bytes := none
  callingApTitle : Option Bytes := none
  callingAeQualifier : Option Bytes := none
  senderRequirements : Option (UInt8 × Bytes) := none
  mechanismName : Option Bytes := none
  authenticationValue : Option Bytes := none
  userInformation : Option UserInformation := none
  deriving DecidableEq, Repr

/-- An ACSE APDU. -/
inductive Apdu where
  | associate (a : Associate)
  | associateResponse (a : Associate)
  | release (reason : Option Int)
  | releaseResponse (reason : Option Int)
  | abort (source : Option Int)
  deriving DecidableEq, Repr

def Associate.request (calledApTitle callingApTitle : Option Bytes) (mmsContext : Int)
    (initiate : Bytes) : Associate :=
  { protocolVersion := some (7, [0x80])
    contextName := some Oid.mmsApplicationContext
    calledApTitle
    callingApTitle
    userInformation := some ⟨some Oid.ber, some mmsContext, initiate⟩ }

def Associate.accepted (a : Associate) : Bool := a.result == some resultAccepted

def Associate.mmsPdu (a : Associate) : Option Bytes := a.userInformation.map UserInformation.value

/-- `parse_external`: the optional references, then the encoding. -/
def parseExternal (t : Tlv) : Except Error UserInformation := do
  let t ← t.expect tagExternal
  let (next, c) ← t.children.nextRequired
  let (direct, next, c) ←
    if next.tag = tagOid then do
      let (after, c) ← c.nextRequired
      pure (some next.value, after, c)
    else .ok (none, next, c)
  let (indirect, next, _) ←
    if next.tag = tagInteger then do
      let i ← next.integerI64
      let (after, c) ← c.nextRequired
      pure (some i, after, c)
    else .ok (none, next, c)
  if next.tag.cls = .context ∧ (next.tag.number = 0 ∨ next.tag.number = 1) then
    .ok ⟨direct, indirect, next.value⟩
  else .error (.decode .unexpectedTag next.offset)

/-- One field of an AARQ (`request`) or AARE. Fields of other classes, and fields this profile
does not use, are skipped. -/
def parseField (request : Bool) (a : Associate) (f : Tlv) : Except Error Associate :=
  if f.tag.cls ≠ .context then .ok a
  else
    match f.tag.number, request with
    | 0, _ => do
        let v ← f.bitString
        .ok { a with protocolVersion := some v }
    | 1, _ => do
        let (v, _) ← f.children.nextRequired
        .ok { a with contextName := some v.value }
    | 2, true => .ok { a with calledApTitle := some f.value }
    | 2, false => do
        let (v, _) ← f.children.nextRequired
        let r ← v.integerI64
        .ok { a with result := some r }
    | 3, true => .ok { a with calledAeQualifier := some f.value }
    | 3, false => .ok { a with resultDiagnostic := some f.value }
    | 4, false => .ok { a with respondingApTitle := some f.value }
    | 5, false => .ok { a with respondingAeQualifier := some f.value }
    | 6, _ => .ok { a with callingApTitle := some f.value }
    | 7, _ => .ok { a with callingAeQualifier := some f.value }
    | 8, false => do
        let v ← f.bitString
        .ok { a with senderRequirements := some v }
    | 10, true => do
        let v ← f.bitString
        .ok { a with senderRequirements := some v }
    | 9, false => .ok { a with mechanismName := some f.value }
    | 11, true => .ok { a with mechanismName := some f.value }
    | 10, false => .ok { a with authenticationValue := some f.value }
    | 12, true => .ok { a with authenticationValue := some f.value }
    | 30, _ => do
        let (v, _) ← f.children.nextRequired
        let u ← parseExternal v
        .ok { a with userInformation := some u }
    | _, _ => .ok a

/-- The single optional integer of a release or abort APDU. -/
def parseReason (v : Option Int) (f : Tlv) : Except Error (Option Int) :=
  if f.tag.cls = .context ∧ f.tag.number = 0 then some <$> f.integerI64 else .ok v

def Apdu.parse (buf : Bytes) : Except Error Apdu := do
  let (top, _) ← (Cursor.new buf).nextRequired
  if top.tag.cls ≠ .application then .error (.decode .unexpectedTag top.offset)
  else
    match top.tag.number with
    | 0 => .associate <$> forItems top.children {} (parseField true)
    | 1 => .associateResponse <$> forItems top.children {} (parseField false)
    | 2 => .release <$> forItems top.children none parseReason
    | 3 => .releaseResponse <$> forItems top.children none parseReason
    | 4 => .abort <$> forItems top.children none parseReason
    | _ => .error (.decode .unexpectedTag top.offset)

/-- The user information of an AARQ or AARE. -/
def writeExternal (u : UserInformation) : Except Error Bytes :=
  constructed (Tag.contextConstructed 30) (constructed tagExternal (concatM [
    optM u.directReference (primitive tagOid),
    optM u.indirectReference (integer tagInteger),
    constructed (Tag.contextConstructed 0) (.ok u.value)]))

/-- The fields of an AARQ only, in their place after the context name. -/
def writeCalled (a : Associate) : Except Error Bytes :=
  concatM [
    optM a.calledApTitle (primitive (Tag.contextConstructed 2)),
    optM a.calledAeQualifier (primitive (Tag.contextConstructed 3))]

/-- The fields of an AARE only: a response that carries a result carries a diagnostic. -/
def writeResult (a : Associate) : Except Error Bytes :=
  concatM [
    optM a.result (fun r => constructed (Tag.contextConstructed 2) (integer tagInteger r)),
    match a.resultDiagnostic, a.result with
    | some d, _ => primitive (Tag.contextConstructed 3) d
    | none, some _ => primitive (Tag.contextConstructed 3) diagnosticServiceUserNull
    | none, none => .ok [],
    optM a.respondingApTitle (primitive (Tag.contextConstructed 4)),
    optM a.respondingAeQualifier (primitive (Tag.contextConstructed 5))]

/-- The fields of an AARQ or AARE, in tag order. The requirement, mechanism and authentication
fields sit at 10, 11 and 12 of an AARQ and at 8, 9 and 10 of an AARE. -/
def writeAssociate (request : Bool) (a : Associate) : Except Error Bytes :=
  concatM [
    optM a.protocolVersion (fun v => bitString (Tag.context 0) v.1 v.2),
    optM a.contextName (fun oid => constructed (Tag.contextConstructed 1) (primitive tagOid oid)),
    if request then writeCalled a else writeResult a,
    optM a.callingApTitle (primitive (Tag.contextConstructed 6)),
    optM a.callingAeQualifier (primitive (Tag.contextConstructed 7)),
    optM a.senderRequirements
      (fun v => bitString (Tag.context (if request then 10 else 8)) v.1 v.2),
    optM a.mechanismName (primitive (Tag.context (if request then 11 else 9))),
    optM a.authenticationValue (primitive (Tag.contextConstructed (if request then 12 else 10))),
    optM a.userInformation writeExternal]

/-- The single optional integer of a release or abort APDU. -/
def writeReason (v : Option Int) : Except Error Bytes := optM v (integer (Tag.context 0))

def Apdu.write : Apdu → Except Error Bytes
  | .associate a => constructed tagAarq (writeAssociate true a)
  | .associateResponse a => constructed tagAare (writeAssociate false a)
  | .release v => constructed tagRlrq (writeReason v)
  | .releaseResponse v => constructed tagRlre (writeReason v)
  | .abort v => constructed tagAbrt (writeReason v)

end Iec61850.Osi.Acse
