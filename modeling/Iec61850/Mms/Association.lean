import Iec61850.Osi.Acse
import Iec61850.Mms.Pdu
import Iec61850.Common.EventQueue

/-!
# The MMS association

`proto/mms/association.rs`: the state machine over the six OSI layers, for both roles. Bytes
and deadlines go in, packets and events come out.

A handler that fails with an error has changed the association before it failed, so the
result of a handler is the association it leaves together with how it ended (`Outcome`).
The pure middle parts of the two handshake handlers, which only decode or only encode, are
functions of their own.
-/

namespace Iec61850.Mms

open Theory Ber Osi
open Osi.Cotp (Tpdu tpduSize tpduSizeMinExp)
open Osi.Session (Spdu)
open Osi.Presentation (Ppdu Cp Pdv ContextResult)
open Osi.Acse (Apdu Associate)

/-! ### Configuration, events and state -/

def acseContextDefault : Nat := 1
def mmsContextDefault : Nat := 3
/-- `LOCAL_REF`: our own transport reference. -/
def localRef : Nat := 1

inductive Role where
  | client
  | server
  deriving DecidableEq, Repr

/-- `Selectors`: how one end is addressed at each layer. -/
structure Selectors where
  tSel : Bytes := []
  sSel : Bytes := []
  pSel : Bytes := []
  apTitle : Option (List UInt32) := none
  aeQualifier : Option Int := none
  deriving DecidableEq, Repr

def Selectors.defaults : Selectors := { tSel := [0x00, 0x01] }

/-- The base-128 octets of one arc (the closure `push` of `oid::encode`): leading empty groups
are left out, the continuation bit is on all groups but the last. -/
def oidArc (value : Nat) : Bytes :=
  let groups := [value / 2 ^ 28 % 128, value / 2 ^ 21 % 128, value / 2 ^ 14 % 128, value / 2 ^ 7 % 128]
  (groups.dropWhile (· == 0)).map (fun g => UInt8.ofNat (g + 128)) ++ [UInt8.ofNat (value % 128)]

/-- `oid::encode`: the contents octets of an object identifier, if the arcs can be encoded. -/
def oidEncode : List UInt32 → Option Bytes
  | first :: second :: rest =>
    if first.toNat > 2 ∨ (first.toNat < 2 ∧ second.toNat ≥ 40) then none
    else
      let combined := first.toNat * 40 + second.toNat
      if combined > u32Max then none
      else some (oidArc combined ++ (rest.map (fun arc => oidArc arc.toNat)).flatten)
  | _ => none

def Selectors.apTitleElement (s : Selectors) : Option Bytes := do
  let arcs ← s.apTitle
  let contents ← oidEncode arcs
  (primitive (Tag.universal universalOid false) contents).toOption

def Selectors.aeQualifierElement (s : Selectors) : Option Bytes := do
  let q ← s.aeQualifier
  (integer (Tag.universal universalInteger false) q).toOption

structure AssociationConfig where
  localEnd : Selectors := Selectors.defaults
  remoteEnd : Selectors := Selectors.defaults
  maxPdu : UInt32 := 64000
  tpduSizeExp : UInt8 := 13
  maxOutstanding : UInt8 := 10
  password : Option Bytes := none
  connectTimeoutMs : UInt64 := 10000
  requestTimeoutMs : UInt64 := 30000
  maxTsdu : Nat := 256 * 1024
  limits : Limits := Limits.default
  eventCapacity : Nat := 64
  deriving DecidableEq, Repr

/-- `Negotiated`: what the handshake settled. -/
structure Negotiated where
  maxPdu : Nat
  maxOutstanding : Nat
  tpduData : Nat
  mmsContext : Nat
  deriving DecidableEq, Repr

inductive CloseReason where
  | released
  | peerReleased
  | aborted
  | connectTimeout
  | refused
  | protocolError
  deriving DecidableEq, Repr

inductive AssociationEvent where
  | established (n : Negotiated)
  | refused (layer : String) (code : Option Int)
  | response (invokeId : Int) (pdu : Bytes)
  | request (invokeId : Int) (pdu : Bytes)
  | cancelled (invokeId : Int)
  | cancelRefused (invokeId : Int)
  | unconfirmed (pdu : Bytes)
  | malformed (invokeId : Option Int) (error : Error)
  | rejected (invokeId : Option Int) (reject : Reject)
  | timeout (invokeId : Int)
  | closed (reason : CloseReason)
  deriving DecidableEq, Repr

/-- `AssociationStats`; every counter is a saturating `u64`. -/
structure AssociationStats where
  requestsSent : Nat := 0
  responsesReceived : Nat := 0
  reportsReceived : Nat := 0
  timeouts : Nat := 0
  malformed : Nat := 0
  rejected : Nat := 0
  packetsSent : Nat := 0
  packetsReceived : Nat := 0
  eventsDropped : Nat := 0
  deriving DecidableEq, Repr

/-- `State`. -/
inductive Phase where
  | idle
  | connecting
  | associating
  | established
  | releasing
  | closed
  deriving DecidableEq, Repr

/-- The outstanding requests: invoke identifier to deadline, in the order of the identifiers. -/
abbrev Outstanding := Std.ExtTreeMap Int Instant

theorem tpduSize_bounds (exp : Nat) : 125 ≤ tpduSize exp - 3 ∧ tpduSize exp - 3 ≤ 8189 := by
  have hlow : 7 ≤ Cotp.clampExp exp := Nat.le_max_left _ _
  have hhigh : Cotp.clampExp exp ≤ 13 := by
    simp only [Cotp.clampExp, Cotp.tpduSizeMinExp, Cotp.tpduSizeMaxExp]
    omega
  have h1 : 2 ^ 7 ≤ 2 ^ Cotp.clampExp exp := Nat.pow_le_pow_right (by omega) hlow
  have h2 : 2 ^ Cotp.clampExp exp ≤ 2 ^ 13 := Nat.pow_le_pow_right (by omega) hhigh
  simp only [tpduSize]
  omega

/-- `Association`. The bounds on the TPDU payload are a field, so that an association that
cannot frame its own TPDUs cannot be built. -/
structure Association where
  cfg : AssociationConfig
  role : Role
  state : Phase
  reader : Tpkt.Reader
  reassembler : Cotp.Reassembler
  out : List Bytes
  events : EventQueue AssociationEvent
  stats : AssociationStats
  outstanding : Outstanding
  nextInvoke : Int
  negotiated : Option Negotiated
  connectDeadline : Option Instant
  peerMaxPdu : Nat
  tpduData : Nat
  acseContext : Nat
  mmsContext : Nat
  peerRef : Nat
  tpduData_bounds : 125 ≤ tpduData ∧ tpduData ≤ 8189

/-- How a handler can end short of success: with an error, or with a panic of the process. -/
inductive Fault where
  | error (e : Error)
  | panic
  deriving DecidableEq, Repr

/-- The association a handler leaves, and how the handler ended. -/
abbrev Outcome := Association × Except Fault Unit

namespace Association

def new (cfg : AssociationConfig) (role : Role) : Association where
  cfg := cfg
  role := role
  state := .idle
  reader := {}
  reassembler := { limit := cfg.maxTsdu }
  out := []
  events := EventQueue.new cfg.eventCapacity
  stats := {}
  outstanding := {}
  nextInvoke := 1
  negotiated := none
  connectDeadline := none
  peerMaxPdu := 0
  tpduData := tpduSize cfg.tpduSizeExp.toNat - 3
  acseContext := acseContextDefault
  mmsContext := mmsContextDefault
  peerRef := 0
  tpduData_bounds := tpduSize_bounds _

def client (cfg : AssociationConfig) : Association := new cfg .client

def server (cfg : AssociationConfig) : Association := new cfg .server

/-! ### Ending a handler -/

def done (a : Association) : Outcome := (a, .ok ())

def fail (e : Error) (a : Association) : Outcome := (a, .error (.error e))

def panicked (a : Association) : Outcome := (a, .error .panic)

/-- The `?` of the source: go on only after success. -/
def andThen (o : Outcome) (k : Association → Outcome) : Outcome :=
  match o with
  | (a, .ok ()) => k a
  | (a, .error f) => (a, .error f)

/-! ### Bookkeeping -/

def emit (event : AssociationEvent) (a : Association) : Association :=
  let events := a.events.push event
  { a with events, stats := { a.stats with eventsDropped := events.dropped } }

def close (reason : CloseReason) (a : Association) : Association :=
  if a.state = .closed then a
  else
    emit (.closed reason)
      { a with
        state := .closed
        connectDeadline := none
        outstanding := {}
        reassembler := a.reassembler.take }

/-- `Association::established`. -/
def establish (n : Negotiated) (a : Association) : Association :=
  emit (.established n) { a with state := .established, connectDeadline := none, negotiated := some n }

def armConnectDeadline (now : Instant) (a : Association) : Association :=
  if a.cfg.connectTimeoutMs.toNat > 0 then
    { a with connectDeadline := some (now.plusMillis a.cfg.connectTimeoutMs.toNat) }
  else a

/-- The loop of `take_invoke_id`: the identifier found, and the next one to try. -/
def takeInvokeIdLoop (outstanding : Outstanding) : Nat → Int → Int × Int
  | 0, next => (next, next)
  | tries + 1, next =>
    let after := if next ≥ (u32Max : Int) then 1 else next + 1
    if outstanding.contains next then takeInvokeIdLoop outstanding tries after else (next, after)

/-- `Association::take_invoke_id`: one attempt more than there are outstanding requests. -/
def takeInvokeId (a : Association) : Int × Association :=
  let (id, next) := takeInvokeIdLoop a.outstanding (a.outstanding.size + 1) a.nextInvoke
  (id, { a with nextInvoke := next })

/-! ### Outbound -/

def queueTpkt (tpdu : Bytes) (a : Association) : Outcome :=
  match Tpkt.header tpdu.length with
  | .error e => fail e a
  | .ok header => done { a with out := a.out ++ [header ++ tpdu] }

/-- Encode a TPDU and queue it. -/
def queueTpdu (tpdu : Tpdu) (a : Association) : Outcome :=
  match tpdu.write with
  | .error e => fail e a
  | .ok body => queueTpkt body a

/-- The DT TPDUs a TSDU is split into: end mark and payload. Each takes at least an octet, so
the length of the TSDU bounds them. -/
def segments (chunk : Nat) : Nat → Bytes → List (Bool × Bytes)
  | 0, rest => [(true, rest)]
  | fuel + 1, rest =>
    if rest.length ≤ chunk then [(true, rest)]
    else (false, rest.take chunk) :: segments chunk fuel (rest.drop chunk)

/-- Queue DT TPDUs in order, stopping at the first that cannot be framed. -/
def sendSegments : List (Bool × Bytes) → Association → Outcome
  | [], a => done a
  | (eot, payload) :: rest, a => andThen (queueTpdu (.data eot payload) a) (sendSegments rest)

def sendTsdu (tsdu : Bytes) (a : Association) : Outcome :=
  sendSegments (segments (max a.tpduData 1) tsdu.length tsdu) a

/-- A session SPDU around one PDV, sent as a TSDU. -/
def sendPdv (wrap : Bytes → Spdu) (pdv : Pdv) (a : Association) : Outcome :=
  match (Ppdu.userData [pdv]).write with
  | .error e => fail e a
  | .ok ppdu =>
    match (wrap ppdu).write with
    | .error e => fail e a
    | .ok spdu => sendTsdu spdu a

def sendUserData (context : Nat) (value : Bytes) (a : Association) : Outcome :=
  sendPdv .dataTransfer (Pdv.single context value) a

def sendPduUnchecked (pdu : Pdu) (a : Association) : Outcome :=
  match pdu.write with
  | .error e => fail e a
  | .ok bytes => sendUserData a.mmsContext bytes a

/-- The ACSE APDU `apdu` in a presentation PDU under the session SPDU `wrap`. -/
def sendAcse (wrap : Bytes → Spdu) (apdu : Apdu) (a : Association) : Outcome :=
  match apdu.write with
  | .error e => fail e a
  | .ok bytes => sendPdv wrap (Pdv.single a.acseContext bytes) a

def parameterCbb : UInt8 × Bytes := (5, [0xF1, 0x00])

def servicesSupported : UInt8 × Bytes :=
  (4, [0xEE, 0x1C, 0x00, 0x00, 0x00, 0x00, 0x00, 0x00, 0x41, 0xED, 0x20])

/-- The AARQ of `send_associate_request`, around an encoded Initiate. -/
def associateRequest (cfg : AssociationConfig) (initiate : Bytes) : Except Error Associate := do
  let aarq := { Associate.request cfg.remoteEnd.apTitleElement cfg.localEnd.apTitleElement
      mmsContextDefault initiate with
    calledAeQualifier := cfg.remoteEnd.aeQualifierElement
    callingAeQualifier := cfg.localEnd.aeQualifierElement }
  match cfg.password with
  | none => .ok aarq
  | some p => do
      let password ← primitive (Tag.context 0) p
      .ok { aarq with
        senderRequirements := some (7, [0x80])
        mechanismName := some Oid.passwordMechanism
        authenticationValue := some password }

/-- The TSDU of `send_associate_request`: session CONNECT, presentation CP, AARQ, Initiate. -/
def associateRequestTsdu (cfg : AssociationConfig) : Except Error Bytes := do
  let initiate ← (Pdu.initiateRequest (Initiate.request cfg.maxPdu.toNat cfg.maxOutstanding.toNat
    parameterCbb servicesSupported)).write
  let aarq ← associateRequest cfg initiate
  let aarqBytes ← (Apdu.associate aarq).write
  let ppdu ← (Ppdu.connect (Cp.connectRequest cfg.localEnd.pSel cfg.remoteEnd.pSel
    acseContextDefault mmsContextDefault aarqBytes)).write
  (Spdu.connect (Session.Connect.new (some cfg.localEnd.sSel) (some cfg.remoteEnd.sSel) ppdu)).write

def sendAssociateRequest (a : Association) : Outcome :=
  match associateRequestTsdu a.cfg with
  | .error e => fail e a
  | .ok tsdu => sendTsdu tsdu a

/-- The Initiate response of `answer_associate`: every number is negotiated down. -/
def initiateAnswer (cfg : AssociationConfig) (peer : Initiate) : Initiate :=
  let maxPdu := min (cfg.maxPdu.toNat : Int) (peer.localDetail.getD cfg.maxPdu.toNat)
  let mine : Int := cfg.maxOutstanding.toNat
  { Initiate.request maxPdu mine parameterCbb servicesSupported with
    maxServOutstandingCalling := min mine (max peer.maxServOutstandingCalling 1)
    maxServOutstandingCalled := min mine (max peer.maxServOutstandingCalled 1) }

/-- The AARE of `answer_associate`. -/
def associateAnswer (cfg : AssociationConfig) (mmsContext : Nat) (initiate : Bytes) : Associate :=
  { protocolVersion := some (7, [0x80])
    contextName := some Oid.mmsApplicationContext
    result := some Acse.resultAccepted
    resultDiagnostic := some Acse.diagnosticServiceUserNull
    respondingApTitle := cfg.localEnd.apTitleElement
    respondingAeQualifier := cfg.localEnd.aeQualifierElement
    userInformation := some ⟨some Oid.ber, some mmsContext, initiate⟩ }

/-- The TSDU of `answer_associate`: session ACCEPT, presentation CPA, AARE, Initiate response. -/
def associateAnswerTsdu (cfg : AssociationConfig) (cp : Cp) (mmsContext acseContext : Nat)
    (peer : Initiate) : Except Error Bytes := do
  let initiate ← (Pdu.initiateResponse (initiateAnswer cfg peer)).write
  let aareBytes ← (Apdu.associateResponse (associateAnswer cfg mmsContext initiate)).write
  let results := cp.contexts.map (fun _ =>
    (⟨Presentation.resultAcceptance, some Oid.ber⟩ : ContextResult))
  let ppdu ← (Ppdu.accept {
    protocolVersion := some (7, [0x80])
    respondingPsel := some cfg.localEnd.pSel
    results
    requirements := some (6, [0x00])
    userData := [Pdv.single acseContext aareBytes] }).write
  (Spdu.accept (Session.Connect.new (some cfg.localEnd.sSel) (some cfg.remoteEnd.sSel) ppdu)).write

def answerAssociate (cp : Cp) (mmsContext acseContext : Nat) (peer : Initiate) (a : Association) :
    Outcome :=
  match associateAnswerTsdu a.cfg cp mmsContext acseContext peer with
  | .error e => fail e a
  | .ok tsdu => sendTsdu tsdu a

/-! ### Inbound: the handshake -/

/-- The ACSE PDU of a CP or CPA: the first PDV in the ACSE context, when it is a single value. -/
def acsePdu (cp : Cp) (acseContext : Nat) (missing : String) : Except Error Bytes :=
  match (cp.userData.find? (fun p => p.contextId == acseContext)).bind (fun p => p.values.single) with
  | some bytes => .ok bytes
  | none => .error (.invalidValue missing)

/-- The Initiate of an AARQ inside a CP (the middle of `on_session_connect`); `none` stands for
a PDU of another kind, on which the source closes. -/
def initiateOf (limits : Limits) (acseContext : Nat) (cp : Cp) : Except Error (Option Initiate) := do
  let aarq ← acsePdu cp acseContext "CP carries no ACSE PDU"
  match ← Apdu.parse aarq with
  | .associate a =>
    match a.mmsPdu with
    | none => .error (.invalidValue "AARQ carries no Initiate")
    | some bytes =>
      match ← Pdu.parse bytes limits with
      | .initiateRequest init => .ok (some init)
      | _ => .ok none
  | _ => .ok none

/-- The context identifiers a CP proposes for MMS and ACSE, with the source's defaults. -/
def mmsContextOf (cp : Cp) : Nat := (cp.contextFor Oid.mmsAbstractSyntax).getD mmsContextDefault

def acseContextOf (cp : Cp) : Nat := (cp.contextFor Oid.acseAbstractSyntax).getD acseContextDefault

/-- `usize::clamp`, which panics when the bounds are out of order. -/
def clamp (lo hi x : Nat) : Option Nat := if lo ≤ hi then some (max lo (min x hi)) else none

/-- What both ends take from the Initiate they received, with their share of the outstanding
requests. -/
def negotiatedFrom (a : Association) (maxOutstanding : Nat) : Negotiated :=
  { maxPdu := if a.peerMaxPdu = 0 then a.cfg.maxPdu.toNat else a.peerMaxPdu
    maxOutstanding
    tpduData := a.tpduData
    mmsContext := a.mmsContext }

/-- The server's share: the called end's budget, capped by its own configuration. -/
def serverOutstanding (cfg : AssociationConfig) (init : Initiate) : Nat :=
  max 1 (min init.maxServOutstandingCalled.toNat (max cfg.maxOutstanding.toNat 1))

def onSessionConnect (ppduBytes : Bytes) (a : Association) : Outcome :=
  if a.role ≠ .server then done (close .protocolError a)
  else
    match Ppdu.parse ppduBytes true with
    | .error e => fail e a
    | .ok (.connect cp) =>
      let a := { a with mmsContext := mmsContextOf cp, acseContext := acseContextOf cp }
      match initiateOf a.cfg.limits a.acseContext cp with
      | .error e => fail e a
      | .ok none => done (close .protocolError a)
      | .ok (some init) =>
        let a := { a with peerMaxPdu := (init.localDetail.getD 0).toNat }
        andThen (answerAssociate cp a.mmsContext a.acseContext init a) fun a =>
          done (establish (a.negotiatedFrom (serverOutstanding a.cfg init)) a)
    | .ok _ => done (close .protocolError a)

/-- A refusal by the peer, named by layer and code. -/
def refuse (layer : String) (code : Option Int) (a : Association) : Outcome :=
  done (close .refused (emit (.refused layer code) a))

/-- The AARE of a CPA; `none` stands for another APDU, on which the source closes. -/
def aareOf (acseContext : Nat) (cp : Cp) : Except Error (Option Associate) := do
  let aare ← acsePdu cp acseContext "CPA carries no ACSE PDU"
  match ← Apdu.parse aare with
  | .associateResponse a => .ok (some a)
  | _ => .ok none

/-- The MMS PDU of an accepted AARE. -/
def initiateResponseOf (limits : Limits) (aare : Associate) : Except Error Pdu :=
  match aare.mmsPdu with
  | none => .error (.invalidValue "AARE carries no Initiate response")
  | some bytes => Pdu.parse bytes limits

/-- The end of `on_session_accept`: the answer to our Initiate. -/
def onInitiateResponse (pdu : Pdu) (a : Association) : Outcome :=
  match pdu with
  | .initiateResponse init =>
    let a := { a with peerMaxPdu := (init.localDetail.getD 0).toNat }
    match clamp 1 a.cfg.maxOutstanding.toNat init.maxServOutstandingCalling.toNat with
    | none => panicked a
    | some mine => done (establish (a.negotiatedFrom mine) a)
  | .initiateError _ => refuse "mms" none a
  | _ => done (close .protocolError a)

/-- The AARE of an accepted CPA. -/
def onAare (aare : Associate) (a : Association) : Outcome :=
  if aare.accepted then
    match initiateResponseOf a.cfg.limits aare with
    | .error e => fail e a
    | .ok pdu => onInitiateResponse pdu a
  else refuse "acse" aare.result a

def onSessionAccept (ppduBytes : Bytes) (a : Association) : Outcome :=
  if a.role ≠ .client then done (close .protocolError a)
  else
    match Ppdu.parse ppduBytes true with
    | .error e => fail e a
    | .ok (.accept cp) =>
      if cp.allAccepted then
        match aareOf a.acseContext cp with
        | .error e => fail e a
        | .ok none => done (close .protocolError a)
        | .ok (some aare) => onAare aare a
      else
        refuse "presentation"
          ((cp.results.map ContextResult.result).find? (· != Presentation.resultAcceptance)) a
    | .ok (.reject cp) => refuse "presentation" cp.providerReason a
    | .ok _ => done (close .protocolError a)

/-- The TPDU size exponent that answers the one a peer proposed. -/
def negotiatedExp (cfg : AssociationConfig) (c : Cotp.Connect) : Nat :=
  min (c.tpduSizeExp.getD tpduSizeMinExp) cfg.tpduSizeExp.toNat

/-- The transport parameters both handlers take from the peer's CR or CC. -/
def setTransport (c : Cotp.Connect) (a : Association) : Association :=
  { a with
    tpduData := tpduSize (negotiatedExp a.cfg c) - 3
    peerRef := c.srcRef
    tpduData_bounds := tpduSize_bounds _ }

/-- The CC that answers a CR. -/
def connectionConfirm (cfg : AssociationConfig) (c : Cotp.Connect) : Tpdu :=
  .connectionConfirm {
    dstRef := c.srcRef
    srcRef := localRef
    classOptions := 0
    tpduSizeExp := some (negotiatedExp cfg c)
    srcTsel := c.dstTsel
    dstTsel := c.srcTsel }

def onConnectionRequest (now : Instant) (c : Cotp.Connect) (a : Association) : Outcome :=
  if a.role ≠ .server then done (close .protocolError a)
  else
    andThen (queueTpdu (connectionConfirm a.cfg c) (setTransport c a)) fun a =>
      done (armConnectDeadline now { a with state := .associating })

def onConnectionConfirm (c : Cotp.Connect) (a : Association) : Outcome :=
  if a.role ≠ .client ∨ a.state ≠ .connecting then done (close .protocolError a)
  else sendAssociateRequest { setTransport c a with state := .associating }

/-! ### Inbound: an association that is up -/

def onPeerFinish (a : Association) : Outcome :=
  andThen (sendAcse .disconnect (.releaseResponse (some 0)) a) fun a =>
    done (close .peerReleased a)

/-- The answer to a cancel request: a cancel error saying that the request is not outstanding.
A failure to send it is ignored. -/
def answerCancel (invokeId : Int) (a : Association) : Association :=
  let error := (serviceErrorEncode (Tag.contextConstructed 1) serviceErrorService
    primitivesOutOfSequence).toOption.getD []
  match (Cursor.new error).nextRequired with
  | .error _ => a
  | .ok (tlv, _) => (sendPduUnchecked (.cancelError invokeId tlv) a).1

/-- Release the slot of an outstanding request, if it has one. -/
def releaseSlot (id : Int) (a : Association) : Association :=
  { a with outstanding := a.outstanding.erase id }

/-- An MMS PDU that did not decode: an identifier read off it releases its slot. -/
def deliverMalformed (bytes : Bytes) (error : Error) (a : Association) : Association :=
  let a := { a with stats := { a.stats with malformed := satInc a.stats.malformed } }
  match (peekInvokeId bytes).filter (fun id => a.outstanding.contains id) with
  | some id => emit (.malformed (some id) error) (releaseSlot id a)
  | none => emit (.malformed none error) a

/-- An MMS PDU that did decode. -/
def deliverPdu (bytes : Bytes) (pdu : Pdu) (a : Association) : Association :=
  match pdu with
  | .confirmedResponse invokeId _ | .confirmedError invokeId _ _ =>
    let a := releaseSlot invokeId a
    emit (.response invokeId bytes)
      { a with stats := { a.stats with responsesReceived := satInc a.stats.responsesReceived } }
  | .confirmedRequest invokeId _ => emit (.request invokeId bytes) a
  | .unconfirmed _ =>
    emit (.unconfirmed bytes)
      { a with stats := { a.stats with reportsReceived := satInc a.stats.reportsReceived } }
  | .reject r =>
    let a := match r.originalInvokeId with
      | some id => releaseSlot id a
      | none => a
    emit (.rejected r.originalInvokeId r)
      { a with stats := { a.stats with rejected := satInc a.stats.rejected } }
  | .cancelRequest invokeId => emit (.cancelRefused invokeId) (answerCancel invokeId a)
  | .cancelResponse invokeId => emit (.cancelled invokeId) (releaseSlot invokeId a)
  | .cancelError invokeId _ => emit (.cancelRefused invokeId) a
  | .concludeRequest => close .peerReleased (sendPduUnchecked .concludeResponse a).1
  | .concludeResponse => close .released a
  | _ => emit (.unconfirmed bytes) a

def deliverMms (bytes : Bytes) (a : Association) : Association :=
  match Pdu.parse bytes a.cfg.limits with
  | .error e => deliverMalformed bytes e a
  | .ok pdu => deliverPdu bytes pdu a

/-- The loop of `on_user_data` over the PDVs. -/
def userDataLoop : List Pdv → Association → Outcome
  | [], a => done a
  | pdv :: rest, a =>
    match pdv.values.single with
    | none => userDataLoop rest a
    | some value =>
      if pdv.contextId = a.acseContext then
        match Apdu.parse value with
        | .ok (.release _) => onPeerFinish a
        | .ok (.releaseResponse _) => done (close .released a)
        | .ok (.abort _) => done (close .aborted a)
        | _ => userDataLoop rest a
      else userDataLoop rest (deliverMms value a)

def onUserData (ppduBytes : Bytes) (a : Association) : Outcome :=
  match Ppdu.parse ppduBytes false with
  | .error e => fail e a
  | .ok (.userData pdvs) => userDataLoop pdvs a
  | .ok _ => done (close .protocolError a)

def onTsdu (tsdu : Bytes) (a : Association) : Outcome :=
  match Spdu.parse tsdu with
  | .error e => fail e a
  | .ok (.connect c) => onSessionConnect c.userData a
  | .ok (.accept c) => onSessionAccept c.userData a
  | .ok (.refuse reason _) => refuse "session" (reason.map fun r => (r.toNat : Int)) a
  | .ok (.dataTransfer p) => onUserData p a
  | .ok (.finish _) => onPeerFinish a
  | .ok (.disconnect _) => done (close .released a)
  | .ok (.abort _) => done (close .aborted a)
  | .ok .abortAccept => done (close .aborted a)
  | .ok (.other _ _) => done (close .protocolError a)

/-- A DT TPDU: the TSDU it completes, if it does, is handled at once. -/
def onData (eot : Bool) (payload : Bytes) (a : Association) : Outcome :=
  match a.reassembler.push eot payload with
  | .error e => fail e a
  | .ok (none, reassembler) => done { a with reassembler }
  | .ok (some tsdu, reassembler) => onTsdu tsdu { a with reassembler := reassembler.take }

def onTpdu (now : Instant) (tpdu : Bytes) (a : Association) : Outcome :=
  match Tpdu.parse tpdu with
  | .error e => fail e a
  | .ok (.connectionRequest c) => onConnectionRequest now c a
  | .ok (.connectionConfirm c) => onConnectionConfirm c a
  | .ok (.disconnectRequest _ _ _) => done (close .aborted a)
  | .ok (.data eot payload) => onData eot payload a
  | .ok (.other _ _) => done (close .protocolError a)

/-! ### The public operations -/

def start (now : Instant) (a : Association) : Outcome :=
  if a.role ≠ .client then fail (.invalidValue "only a client association starts a connection") a
  else if a.state ≠ .idle then fail (.invalidValue "association already started") a
  else
    andThen (queueTpdu (.connectionRequest (Cotp.Connect.request localRef a.cfg.localEnd.tSel
        a.cfg.remoteEnd.tSel a.cfg.tpduSizeExp.toNat)) a) fun a =>
      done (armConnectDeadline now { a with state := .connecting })

/-- One packet handed out by the reader, as `on_bytes` counts it. -/
def received (reader : Tpkt.Reader) (a : Association) : Association :=
  { a with reader, stats := { a.stats with packetsReceived := satInc a.stats.packetsReceived } }

/-- A TPDU that could not be handled ends the association. -/
def protocolFailure (e : Error) (a : Association) : Association :=
  close .protocolError (emit (.malformed none e)
    { a with stats := { a.stats with malformed := satInc a.stats.malformed } })

/-- The loop of `on_bytes`; `none` is a panic. Every packet takes four octets or more off the
reader, so the octets held bound the number of rounds. -/
def drain (now : Instant) : Nat → Association → Option Association
  | 0, a => some a
  | fuel + 1, a =>
    match a.reader.nextTpdu with
    | .error _ => some (close .protocolError a)
    | .ok none => some a
    | .ok (some (tpdu, reader)) =>
      match onTpdu now tpdu (received reader a) with
      | (_, .error .panic) => none
      | (a, .error (.error e)) => some (protocolFailure e a)
      | (a, .ok ()) => if a.state = .closed then some a else drain now fuel a

/-- `Association::on_bytes`; `none` is a panic. -/
def onBytes (now : Instant) (bytes : Bytes) (a : Association) : Option Association :=
  if a.state = .closed then some a
  else
    let a := { a with reader := a.reader.push bytes }
    drain now (a.reader.buf.length + 1) a

/-- The outstanding requests whose deadline has passed, in the order of their identifiers. -/
def expired (now : Instant) (a : Association) : List Int :=
  (a.outstanding.toList.filter (fun r => decide (now ≥ r.2))).map Prod.fst

/-- One request that went unanswered. -/
def timeOut (a : Association) (id : Int) : Association :=
  let a := releaseSlot id a
  emit (.timeout id) { a with stats := { a.stats with timeouts := satInc a.stats.timeouts } }

/-- The second half of `on_timeout`: requests that went unanswered. -/
def expireRequests (now : Instant) (a : Association) : Association :=
  if a.cfg.requestTimeoutMs = 0 then a else (a.expired now).foldl timeOut a

def onTimeout (now : Instant) (a : Association) : Association :=
  match a.connectDeadline with
  | none => expireRequests now a
  | some deadline =>
    if now < deadline then expireRequests now a
    else
      match a.state with
      | .releasing => close .released a
      | .established | .closed => expireRequests now a
      | _ => close .connectTimeout a

def pollTransmit (a : Association) : Option Bytes × Association :=
  match a.out with
  | [] => (none, a)
  | packet :: rest =>
    (some packet, { a with
      out := rest
      stats := { a.stats with packetsSent := satInc a.stats.packetsSent } })

def pollEvent (a : Association) : Option AssociationEvent × Association :=
  let (e, events) := a.events.pop
  (e, { a with events, stats := { a.stats with eventsDropped := events.dropped } })

def sendEncoded (pdu : Bytes) (a : Association) : Outcome :=
  if a.state ≠ .established then fail (.invalidValue "association is not established") a
  else if a.peerMaxPdu > 0 ∧ pdu.length > a.peerMaxPdu then
    fail (.limitExceeded "peer max PDU" pdu.length) a
  else sendUserData a.mmsContext pdu a

/-- `Association::send`: the state is looked at before the PDU is encoded. -/
def send (pdu : Pdu) (a : Association) : Outcome :=
  if a.state ≠ .established then fail (.invalidValue "association is not established") a
  else
    match pdu.write with
    | .error e => fail e a
    | .ok bytes => sendEncoded bytes a

/-- How many requests this end may have outstanding. -/
def allowed (a : Association) : Nat :=
  match a.negotiated with
  | some n => n.maxOutstanding
  | none => a.cfg.maxOutstanding.toNat

/-- `Association::call`: the invoke identifier of the request, or why it was refused. -/
def call (now : Instant) (service : ConfirmedRequest) (a : Association) :
    Except Fault Int × Association :=
  if a.state ≠ .established then
    (.error (.error (.invalidValue "association is not established")), a)
  else if a.outstanding.size ≥ a.allowed then
    (.error (.error (.limitExceeded "max_outstanding" (a.outstanding.size + 1))), a)
  else
    let (invokeId, a) := a.takeInvokeId
    match send (.confirmedRequest invokeId service) a with
    | (a, .error f) => (.error f, a)
    | (a, .ok ()) =>
      let deadline := now.plusMillis a.cfg.requestTimeoutMs.toNat
      (.ok invokeId, { a with
        outstanding := a.outstanding.insert invokeId deadline
        stats := { a.stats with requestsSent := satInc a.stats.requestsSent } })

def respond (invokeId : Int) (service : ConfirmedResponse) (a : Association) : Outcome :=
  send (.confirmedResponse invokeId service) a

/-- `Association::cancel`: the request keeps its slot until the peer answers. -/
def cancel (invokeId : Int) (a : Association) : Outcome :=
  if a.outstanding.contains invokeId then send (.cancelRequest invokeId) a
  else fail (.notFound "no such outstanding request") a

def release (now : Instant) (a : Association) : Outcome :=
  if a.state ≠ .established then fail (.invalidValue "association is not established") a
  else
    andThen (sendAcse .finish (.release (some 0)) a) fun a =>
      done { a with
        state := .releasing
        connectDeadline := some (now.plusMillis a.cfg.connectTimeoutMs.toNat) }

/-- `Association::abort`: a disconnect request, and the association is over. -/
def abort (a : Association) : Association :=
  if a.state = .closed then a
  else close .aborted (queueTpdu (.disconnectRequest a.peerRef localRef 0) a).1

end Association

end Iec61850.Mms
