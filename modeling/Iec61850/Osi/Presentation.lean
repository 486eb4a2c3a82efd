import Iec61850.Osi.Session

/-!
# The OSI presentation layer

`proto/osi/presentation.rs` and the identifiers of `proto/osi/oid.rs`: the context list of the
CP and CPA, and the PDV lists that label every later PDU with its context. An object
identifier is kept as its encoded contents octets, as the source keeps it.
-/

namespace Iec61850.Osi

open Theory Ber

/-! ### The object identifiers of the profile -/

namespace Oid

def acseAbstractSyntax : Bytes := [0x52, 0x01, 0x00, 0x01]
def mmsAbstractSyntax : Bytes := [0x28, 0xCA, 0x22, 0x02, 0x01]
def mmsApplicationContext : Bytes := [0x28, 0xCA, 0x22, 0x02, 0x03]
def ber : Bytes := [0x51, 0x01]
def passwordMechanism : Bytes := [0x52, 0x03, 0x01]

end Oid

namespace Presentation

def tagSet : Tag := Tag.universal 17 true
def tagFullyEncodedData : Tag := Tag.applicationConstructed 1
def tagSequence : Tag := Tag.universal universalSequence true
def tagInteger : Tag := Tag.universal universalInteger false
def tagOid : Tag := Tag.universal universalOid false
def modeNormal : Int := 1
def resultAcceptance : Int := 0
def resultUserRejection : Int := 1
def resultProviderRejection : Int := 2

/-- One entry of the context definition list of a CP; the identifier is a `u16`. -/
structure ContextDefinition where
  id : Nat
  abstractSyntax : Bytes
  transferSyntax : Bytes
  deriving DecidableEq, Repr

/-- One entry of the result list of a CPA. -/
structure ContextResult where
  result : Int
  transferSyntax : Option Bytes
  deriving DecidableEq, Repr

/-- The presentation data values of one PDV-list. -/
inductive PdvValues where
  | singleAsn1Type (value : Bytes)
  | octetAligned (value : Bytes)
  | arbitrary (unused : UInt8) (bytes : Bytes)
  deriving DecidableEq, Repr

def PdvValues.single : PdvValues → Option Bytes
  | .singleAsn1Type v => some v
  | _ => none

/-- One PDV-list: a context identifier and the values encoded in it. -/
structure Pdv where
  contextId : Nat
  values : PdvValues
  deriving DecidableEq, Repr

def Pdv.single (contextId : Nat) (value : Bytes) : Pdv := ⟨contextId, .singleAsn1Type value⟩

/-- The parameters of a CP, CPA or CPR. -/
structure Cp where
  protocolVersion : Option (UInt8 × Bytes) := none
  callingPsel : Option Bytes := none
  calledPsel : Option Bytes := none
  respondingPsel : Option Bytes := none
  contexts : List ContextDefinition := []
  results : List ContextResult := []
  requirements : Option (UInt8 × Bytes) := none
  providerReason : Option Int := none
  userData : List Pdv := []
  deriving DecidableEq, Repr

/-- A presentation PDU. -/
inductive Ppdu where
  | connect (cp : Cp)
  | accept (cp : Cp)
  | reject (cp : Cp)
  | userData (pdvs : List Pdv)
  deriving DecidableEq, Repr

/-- `Cp::connect`: the CP that IEC 61850-8-1 sends. -/
def Cp.connectRequest (callingPsel calledPsel : Bytes) (acseContext mmsContext : Nat) (aarq : Bytes) :
    Cp :=
  { protocolVersion := some (7, [0x80])
    callingPsel := some callingPsel
    calledPsel := some calledPsel
    contexts := [⟨acseContext, Oid.acseAbstractSyntax, Oid.ber⟩,
      ⟨mmsContext, Oid.mmsAbstractSyntax, Oid.ber⟩]
    requirements := some (6, [0x00])
    userData := [Pdv.single acseContext aarq] }

def Cp.contextFor (cp : Cp) (abstractSyntax : Bytes) : Option Nat :=
  (cp.contexts.find? (fun c => c.abstractSyntax == abstractSyntax)).map ContextDefinition.id

def Cp.allAccepted (cp : Cp) : Bool :=
  !cp.results.isEmpty && cp.results.all (fun r => r.result == resultAcceptance)

def oidOf (t : Tlv) : Except Error Bytes :=
  if t.tag = tagOid then .ok t.value else .error (.decode .unexpectedTag t.offset)

/-- `u16::try_from` of a decoded integer, with the offset the source reports. -/
def toU16 (v : Int) (offset : Nat) : Except Error Nat :=
  if 0 ≤ v ∧ v ≤ 65535 then .ok v.toNat else .error (.decode .badValue offset)

/-- The values of one PDV-list by the tag of the element that holds them. -/
def parsePdvValues (v : Tlv) : Except Error PdvValues :=
  match v.tag.cls, v.tag.number, v.tag.constructed with
  | .context, 0, true => .ok (.singleAsn1Type v.value)
  | .context, 1, false => .ok (.octetAligned v.value)
  | .context, 2, false => do
      let (unused, bytes) ← v.bitString
      .ok (.arbitrary unused bytes)
  | _, _, _ => .error (.decode .unexpectedTag v.offset)

/-- One element of `parse_pdvs`. The optional transfer syntax in front is skipped. -/
def parsePdv (item : Tlv) : Except Error Pdv := do
  let item ← item.expect tagSequence
  let (first, c) ← item.children.nextRequired
  let (next, c) ← if first.tag = tagOid then c.nextRequired else .ok (first, c)
  let next ← next.expect tagInteger
  let id ← next.integerI64
  let contextId ← toU16 id next.valueOffset
  let (v, _) ← c.nextRequired
  let values ← parsePdvValues v
  .ok ⟨contextId, values⟩

def parsePdvs (t : Tlv) : Except Error (List Pdv) :=
  forItems t.children [] (fun out item => do
    let pdv ← parsePdv item
    .ok (out ++ [pdv]))

/-- The values of a PDV-list as one element. -/
def writePdvValues : PdvValues → Except Error Bytes
  | .singleAsn1Type v => constructed (Tag.contextConstructed 0) (.ok v)
  | .octetAligned v => primitive (Tag.context 1) v
  | .arbitrary unused bytes => bitString (Tag.context 2) unused bytes

def writePdvs (pdvs : List Pdv) : Except Error Bytes :=
  constructed tagFullyEncodedData (concatM (pdvs.map fun p =>
    constructed tagSequence (concatM [integer tagInteger p.contextId, writePdvValues p.values])))

/-- One context definition of `parse_normal_mode`; `offset` is that of the whole list. -/
def parseContext (offset : Nat) (item : Tlv) : Except Error ContextDefinition := do
  let item ← item.expect tagSequence
  let (idTlv, c) ← item.children.nextTag tagInteger
  let id ← idTlv.integerI64
  let id ← toU16 id offset
  let (syntaxTlv, c) ← c.nextRequired
  let abstractSyntax ← oidOf syntaxTlv
  let (list, _) ← c.nextTag tagSequence
  let (transfer, _) ← list.children.nextRequired
  let transferSyntax ← oidOf transfer
  .ok ⟨id, abstractSyntax, transferSyntax⟩

/-- One context result of `parse_normal_mode`. -/
def parseResult (item : Tlv) : Except Error ContextResult := do
  let item ← item.expect tagSequence
  let (r, c) ← item.children.nextTag (Tag.context 0)
  let result ← r.integerI64
  let (transfer, _) ← c.nextIfTag (Tag.context 1)
  .ok ⟨result, transfer.map Tlv.value⟩

/-- One parameter of `parse_normal_mode`: the fields so far, and whether a field that only a
responder sends was seen. The arms look at the tag number and the constructed bit only, in
this order, as the source's match does. -/
def parseParameter (st : Cp × Bool) (p : Tlv) : Except Error (Cp × Bool) :=
  let (cp, isResponse) := st
  match p.tag.number, p.tag.constructed with
  | 0, false => do
      let v ← p.bitString
      .ok ({ cp with protocolVersion := some v }, isResponse)
  | 1, false => .ok ({ cp with callingPsel := some p.value }, isResponse)
  | 2, false => .ok ({ cp with calledPsel := some p.value }, isResponse)
  | 3, false => .ok ({ cp with respondingPsel := some p.value }, true)
  | 4, true => do
      let contexts ← forItems p.children cp.contexts (fun out item => do
        let d ← parseContext p.offset item
        .ok (out ++ [d]))
      .ok ({ cp with contexts }, isResponse)
  | 5, true => do
      let results ← forItems p.children cp.results (fun out item => do
        let r ← parseResult item
        .ok (out ++ [r]))
      .ok ({ cp with results }, true)
  | 8, false => do
      let v ← p.bitString
      .ok ({ cp with requirements := some v }, isResponse)
  | 10, false => do
      let v ← p.integerI64
      .ok ({ cp with providerReason := some v }, isResponse)
  | number, _ =>
    if p.tag.cls = .application ∧ number = 1 then do
      let pdvs ← parsePdvs p
      .ok ({ cp with userData := pdvs }, isResponse)
    else .ok (cp, isResponse)

def parseNormalMode (field : Tlv) (cp : Cp) : Except Error (Cp × Bool) :=
  forItems field.children (cp, false) parseParameter

/-- `write_normal_mode`: the fields in tag order, the user data last. -/
def writeNormalMode (cp : Cp) : Except Error Bytes :=
  concatM [
    optM cp.protocolVersion (fun v => bitString (Tag.context 0) v.1 v.2),
    optM cp.callingPsel (primitive (Tag.context 1)),
    optM cp.calledPsel (primitive (Tag.context 2)),
    optM cp.respondingPsel (primitive (Tag.context 3)),
    if cp.contexts.isEmpty then .ok [] else
      constructed (Tag.contextConstructed 4) (concatM (cp.contexts.map fun c =>
        constructed tagSequence (concatM [
          integer tagInteger c.id,
          primitive tagOid c.abstractSyntax,
          constructed tagSequence (primitive tagOid c.transferSyntax)]))),
    if cp.results.isEmpty then .ok [] else
      constructed (Tag.contextConstructed 5) (concatM (cp.results.map fun r =>
        constructed tagSequence (concatM [
          integer (Tag.context 0) r.result,
          optM r.transferSyntax (primitive (Tag.context 1))]))),
    optM cp.requirements (fun v => bitString (Tag.context 8) v.1 v.2),
    optM cp.providerReason (integer (Tag.context 10)),
    if cp.userData.isEmpty then .ok [] else writePdvs cp.userData]

/-- The fields of a CP or CPA as `Ppdu::parse` walks them: the mode, and the parameters. -/
def parseField (st : Int × Cp × Bool) (field : Tlv) : Except Error (Int × Cp × Bool) :=
  let (mode, cp, isAccept) := st
  match field.tag.number, field.tag.constructed with
  | 0, true => do
      let (m, _) ← field.children.nextTag (Tag.context 0)
      let mode ← m.integerI64
      .ok (mode, cp, isAccept)
  | 2, true => do
      let (cp, response) ← parseNormalMode field cp
      .ok (mode, cp, isAccept || response)
  | _, _ => .ok (mode, cp, isAccept)

/-- `Ppdu::parse`; `handshake` says whether a CP, CPA or CPR is expected. -/
def Ppdu.parse (buf : Bytes) (handshake : Bool) : Except Error Ppdu := do
  let (top, _) ← (Cursor.new buf).nextRequired
  if handshake = false then do
    let top ← top.expect tagFullyEncodedData
    .userData <$> parsePdvs top
  else if top.tag = tagSequence then do
    let (cp, _) ← parseNormalMode top {}
    .ok (.reject cp)
  else do
    let set ← top.expect tagSet
    let (mode, cp, isAccept) ← forItems set.children (0, {}, false) parseField
    if mode ≠ modeNormal then .error (.decode .badValue top.valueOffset)
    else .ok (if isAccept then .accept cp else .connect cp)

/-- `Ppdu::write` of a CP or CPA. -/
def writeConnect (cp : Cp) : Except Error Bytes :=
  constructed tagSet (concatM [
    constructed (Tag.contextConstructed 0) (integer (Tag.context 0) modeNormal),
    constructed (Tag.contextConstructed 2) (writeNormalMode cp)])

def Ppdu.write : Ppdu → Except Error Bytes
  | .userData pdvs => writePdvs pdvs
  | .reject cp => constructed tagSequence (writeNormalMode cp)
  | .connect cp => writeConnect cp
  | .accept cp => writeConnect cp

end Presentation

end Iec61850.Osi
