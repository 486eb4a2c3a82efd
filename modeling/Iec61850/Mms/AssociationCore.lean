import Iec61850.Mms.AssociationSend

/-!
# The abstract association

What the life of an association is about, without its outgoing packets, counters, buffers and
deadlines: the handshake state, what was negotiated, the requests that are outstanding and the
events that were emitted. Every handler of the faithful model changes this core by a short
list of effects. `Causes` says, once, which lists a TPDU can cause and under which guard, and
`onTpdu_leads` proves that the handlers do nothing else; every statement about runs is
derived from that inversion.
-/

namespace Iec61850.Mms

open Theory Ber Osi
open Osi.Cotp (Tpdu)
open Osi.Session (Spdu)
open Osi.Presentation (Ppdu Cp Pdv)
open Osi.Acse (Apdu Associate)

/-- The core of an association. -/
structure Core where
  cfg : AssociationConfig
  role : Role
  state : Phase
  negotiated : Option Negotiated
  tpduData : Nat
  acseContext : Nat
  outstanding : Outstanding
  nextInvoke : Int
  events : EventQueue AssociationEvent

/-- What can happen to the core. -/
inductive Effect where
  /-- An event that changes nothing else. -/
  | emit (e : AssociationEvent)
  /-- An event that ends the outstanding request it names, if there is one. -/
  | answer (id : Int) (e : AssociationEvent)
  /-- A PDU that did not decode, with the identifier read off it. -/
  | unreadable (peeked : Option Int) (error : Error)
  | resize (tpduData : Nat)
  | contexts (acseContext : Nat)
  | enter (state : Phase)
  | establish (n : Negotiated)
  | close (reason : CloseReason)
  | issue (id : Int) (deadline : Instant)
  | draw (nextInvoke : Int)
  /-- The application takes an event. -/
  | poll

namespace Core

/-- All events emitted so far. -/
def history (c : Core) : List AssociationEvent := c.events.history

def emit (e : AssociationEvent) (c : Core) : Core := { c with events := c.events.push e }

def releaseSlot (id : Int) (c : Core) : Core := { c with outstanding := c.outstanding.erase id }

end Core

/-- The effect on the core. -/
def Effect.apply (c : Core) : Effect → Core
  | .emit e => c.emit e
  | .answer id e => (c.releaseSlot id).emit e
  | .unreadable peeked error =>
    match peeked.filter (fun id => c.outstanding.contains id) with
    | some id => (c.releaseSlot id).emit (.malformed (some id) error)
    | none => c.emit (.malformed none error)
  | .resize tpduData => { c with tpduData }
  | .contexts acseContext => { c with acseContext }
  | .enter state => { c with state }
  | .establish n => Core.emit (.established n) { c with state := .established, negotiated := some n }
  | .close reason =>
    if c.state = .closed then c
    else Core.emit (.closed reason) { c with state := .closed, outstanding := {} }
  | .issue id deadline => { c with outstanding := c.outstanding.insert id deadline }
  | .draw nextInvoke => { c with nextInvoke }
  | .poll => { c with events := c.events.pop.2 }

/-- The effects that neither move the association forward nor issue a request. -/
def Effect.passive : Effect → Bool
  | .emit _ | .answer _ _ | .unreadable _ _ | .contexts _ | .close _ => true
  | .resize _ | .enter _ | .establish _ | .issue _ _ | .draw _ | .poll => false

/-- Effects one after the other. -/
def Core.after (c : Core) (es : List Effect) : Core := es.foldl Effect.apply c

@[simp] theorem Core.after_nil (c : Core) : c.after [] = c := rfl

@[simp] theorem Core.after_cons (c : Core) (e : Effect) (es : List Effect) :
    c.after (e :: es) = (e.apply c).after es := rfl

@[simp] theorem Core.after_append (c : Core) (es fs : List Effect) :
    c.after (es ++ fs) = (c.after es).after fs := List.foldl_append

namespace Association

/-- The core of the faithful model's state. -/
def core (a : Association) : Core where
  cfg := a.cfg
  role := a.role
  state := a.state
  negotiated := a.negotiated
  tpduData := a.tpduData
  acseContext := a.acseContext
  outstanding := a.outstanding
  nextInvoke := a.nextInvoke
  events := a.events

@[simp] theorem core_emit (e : AssociationEvent) (a : Association) :
    (emit e a).core = a.core.emit e := rfl

@[simp] theorem core_close (r : CloseReason) (a : Association) :
    (close r a).core = Effect.apply a.core (.close r) := by
  unfold close
  simp only [Effect.apply]
  by_cases h : a.state = .closed
  · have h' : a.core.state = .closed := h
    rw [if_pos h, if_pos h']
  · have h' : ¬ a.core.state = .closed := h
    rw [if_neg h, if_neg h']
    rfl

@[simp] theorem core_establish (n : Negotiated) (a : Association) :
    (establish n a).core = Effect.apply a.core (.establish n) := rfl

@[simp] theorem core_releaseSlot (id : Int) (a : Association) :
    (releaseSlot id a).core = a.core.releaseSlot id := rfl

@[simp] theorem core_armConnectDeadline (now : Instant) (a : Association) :
    (armConnectDeadline now a).core = a.core := by
  unfold armConnectDeadline
  split <;> rfl

theorem OnlySent.core_eq {a : Association} {o : Outcome} (h : OnlySent a o) : o.1.core = a.core := by
  cases h <;> rfl

theorem OnlySent.cases_on {a : Association} {o : Outcome} (h : OnlySent a o) :
    (∃ b, o = done b ∧ b.core = a.core) ∨ ∃ e, o = fail e a := by
  cases h with
  | sent packets => exact Or.inl ⟨_, rfl, rfl⟩
  | failed e => exact Or.inr ⟨e, rfl⟩

/-! ### MMS PDUs -/

/-- The effects of an MMS PDU that decoded. -/
def pduEffects (bytes : Bytes) : Pdu → List Effect
  | .confirmedResponse invokeId _ | .confirmedError invokeId _ _ =>
    [.answer invokeId (.response invokeId bytes)]
  | .confirmedRequest invokeId _ => [.emit (.request invokeId bytes)]
  | .reject r =>
    match r.originalInvokeId with
    | some id => [.answer id (.rejected (some id) r)]
    | none => [.emit (.rejected none r)]
  | .cancelRequest invokeId => [.emit (.cancelRefused invokeId)]
  | .cancelResponse invokeId => [.answer invokeId (.cancelled invokeId)]
  | .cancelError invokeId _ => [.emit (.cancelRefused invokeId)]
  | .concludeRequest => [.close .peerReleased]
  | .concludeResponse => [.close .released]
  | _ => [.emit (.unconfirmed bytes)]

/-- The effects of the octets of an MMS PDU. -/
def mmsEffects (limits : Limits) (bytes : Bytes) : List Effect :=
  match Pdu.parse bytes limits with
  | .error e => [.unreadable (peekInvokeId bytes) e]
  | .ok pdu => pduEffects bytes pdu

theorem core_answerCancel (invokeId : Int) (a : Association) :
    (answerCancel invokeId a).core = a.core := by
  simp only [answerCancel]
  split
  · rfl
  · exact (sendPduUnchecked_onlySent _ a).core_eq

theorem core_deliverMalformed (bytes : Bytes) (error : Error) (a : Association) :
    (deliverMalformed bytes error a).core =
      Effect.apply a.core (.unreadable (peekInvokeId bytes) error) := by
  simp only [deliverMalformed, Effect.apply]
  have hout : a.core.outstanding = a.outstanding := rfl
  rw [hout]
  cases (peekInvokeId bytes).filter (fun id => a.outstanding.contains id) with
  | none => rfl
  | some id => rfl

theorem core_deliverPdu (bytes : Bytes) (pdu : Pdu) (a : Association) :
    (deliverPdu bytes pdu a).core = a.core.after (pduEffects bytes pdu) := by
  cases pdu with
  | reject r =>
    simp only [deliverPdu, pduEffects]
    cases r.originalInvokeId with
    | none => rfl
    | some id => rfl
  | cancelRequest invokeId =>
    simp only [deliverPdu, pduEffects, core_emit, core_answerCancel]
    rfl
  | concludeRequest =>
    simp only [deliverPdu, pduEffects, core_close,
      (sendPduUnchecked_onlySent .concludeResponse a).core_eq]
    rfl
  | concludeResponse =>
    simp only [deliverPdu, pduEffects, core_close]
    rfl
  | _ => rfl

theorem core_deliverMms (bytes : Bytes) (a : Association) :
    (deliverMms bytes a).core = a.core.after (mmsEffects a.cfg.limits bytes) := by
  simp only [deliverMms, mmsEffects]
  cases Pdu.parse bytes a.cfg.limits with
  | error e => exact core_deliverMalformed bytes e a
  | ok pdu => exact core_deliverPdu bytes pdu a

/-! ### Effects leave the configuration alone -/

theorem apply_const (c : Core) (e : Effect) :
    (e.apply c).cfg = c.cfg ∧ (e.apply c).role = c.role := by
  cases e with
  | unreadable peeked error =>
    simp only [Effect.apply]
    split <;> exact ⟨rfl, rfl⟩
  | close r =>
    simp only [Effect.apply]
    split <;> exact ⟨rfl, rfl⟩
  | _ => exact ⟨rfl, rfl⟩

theorem after_const (c : Core) (es : List Effect) :
    (c.after es).cfg = c.cfg ∧ (c.after es).role = c.role := by
  induction es generalizing c with
  | nil => exact ⟨rfl, rfl⟩
  | cons e es ih =>
    have h := apply_const c e
    rw [Core.after_cons, (ih (e.apply c)).1, (ih (e.apply c)).2]
    exact h

theorem acseContext_mmsEffects (limits : Limits) (bytes : Bytes) (c : Core) :
    (c.after (mmsEffects limits bytes)).acseContext = c.acseContext := by
  unfold mmsEffects
  cases Pdu.parse bytes limits with
  | error e =>
    simp only [Core.after_cons, Core.after_nil, Effect.apply]
    split <;> rfl
  | ok pdu =>
    cases pdu with
    | reject r =>
      simp only [pduEffects]
      cases r.originalInvokeId <;> rfl
    | concludeRequest =>
      simp only [pduEffects, Core.after_cons, Core.after_nil, Effect.apply]
      split <;> rfl
    | concludeResponse =>
      simp only [pduEffects, Core.after_cons, Core.after_nil, Effect.apply]
      split <;> rfl
    | _ => rfl

/-! ### Effects that only answer or end -/

theorem history_prefix_apply (c : Core) (e : Effect) : c.history <+: (e.apply c).history := by
  cases e with
  | emit ev => exact List.prefix_append _ _
  | answer id ev => exact List.prefix_append _ _
  | unreadable peeked error =>
    simp only [Effect.apply]
    split <;> exact List.prefix_append _ _
  | establish n => exact List.prefix_append _ _
  | close r =>
    simp only [Effect.apply]
    split
    · exact List.prefix_refl _
    · exact List.prefix_append _ _
  | _ => exact List.prefix_refl _

theorem history_prefix_after (c : Core) (es : List Effect) :
    c.history <+: (c.after es).history := by
  induction es generalizing c with
  | nil => exact List.prefix_refl _
  | cons e es ih => exact (history_prefix_apply c e).trans (ih (e.apply c))

/-- What passive effects leave as it was: of the state they can only make it closed, and of the
outstanding requests they can only take some away. -/
structure Calmer (c d : Core) : Prop where
  negotiated : d.negotiated = c.negotiated
  tpduData : d.tpduData = c.tpduData
  state : d.state = c.state ∨ d.state = .closed
  outstanding : ∀ id, id ∈ d.outstanding → id ∈ c.outstanding
  size : d.outstanding.size ≤ c.outstanding.size
  nextInvoke : d.nextInvoke = c.nextInvoke

theorem Calmer.refl (c : Core) : Calmer c c :=
  ⟨rfl, rfl, Or.inl rfl, fun _ h => h, Nat.le_refl _, rfl⟩

theorem Calmer.trans {c d e : Core} (h : Calmer c d) (h' : Calmer d e) : Calmer c e := by
  refine ⟨h'.negotiated.trans h.negotiated, h'.tpduData.trans h.tpduData, ?_,
    fun id hid => h.outstanding id (h'.outstanding id hid), Nat.le_trans h'.size h.size,
    h'.nextInvoke.trans h.nextInvoke⟩
  rcases h'.state with heq | hclosed
  · rw [heq]
    exact h.state
  · exact Or.inr hclosed

theorem calmer_apply {e : Effect} (he : e.passive = true) (c : Core) : Calmer c (e.apply c) := by
  have hsame : ∀ ev, Calmer c (c.emit ev) := fun ev =>
    ⟨rfl, rfl, Or.inl rfl, fun _ h => h, Nat.le_refl _, rfl⟩
  have herase : ∀ (id : Int) (ev : AssociationEvent), Calmer c ((c.releaseSlot id).emit ev) := by
    intro id ev
    refine ⟨rfl, rfl, Or.inl rfl, fun x hx => Std.ExtTreeMap.mem_of_mem_erase hx, ?_, rfl⟩
    change (c.outstanding.erase id).size ≤ c.outstanding.size
    rw [Std.ExtTreeMap.size_erase]
    split <;> omega
  cases e with
  | emit ev => exact hsame ev
  | answer id ev => exact herase id ev
  | unreadable peeked error =>
    simp only [Effect.apply]
    cases peeked.filter (fun id => c.outstanding.contains id) with
    | none => exact hsame _
    | some id => exact herase id _
  | contexts k => exact ⟨rfl, rfl, Or.inl rfl, fun _ h => h, Nat.le_refl _, rfl⟩
  | close r =>
    simp only [Effect.apply]
    split
    · exact Calmer.refl c
    · exact ⟨rfl, rfl, Or.inr rfl, fun id h => absurd h Std.ExtTreeMap.not_mem_empty,
        Nat.zero_le _, rfl⟩
  | _ => cases he

theorem calmer_after {es : List Effect} (hes : ∀ e ∈ es, e.passive = true) (c : Core) :
    Calmer c (c.after es) := by
  induction es generalizing c with
  | nil => exact Calmer.refl c
  | cons e es ih =>
    have hhead := calmer_apply (hes e List.mem_cons_self) c
    exact hhead.trans (ih (fun x hx => hes x (List.mem_cons_of_mem e hx)) (e.apply c))

theorem passive_mmsEffects (limits : Limits) (bytes : Bytes) :
    ∀ e ∈ mmsEffects limits bytes, e.passive = true := by
  intro e he
  unfold mmsEffects at he
  cases hp : Pdu.parse bytes limits with
  | error err =>
    rw [hp, List.mem_singleton] at he
    rw [he]
    rfl
  | ok pdu =>
    rw [hp] at he
    cases pdu with
    | reject r =>
      simp only [pduEffects] at he
      cases hid : r.originalInvokeId <;> rw [hid, List.mem_singleton] at he <;> rw [he] <;> rfl
    | _ =>
      simp only [pduEffects, List.mem_singleton] at he
      rw [he]
      rfl

/-! ### User data -/

/-- What an ACSE APDU among the user data does: it ends the walk, or is passed over. -/
def acseEnding (value : Bytes) : Option CloseReason :=
  match Apdu.parse value with
  | .ok (.release _) => some .peerReleased
  | .ok (.releaseResponse _) => some .released
  | .ok (.abort _) => some .aborted
  | _ => none

/-- The MMS PDUs that a list of PDVs delivers, in order. -/
def delivered (acseContext : Nat) : List Pdv → List Bytes
  | [] => []
  | pdv :: rest =>
    match pdv.values.single with
    | none => delivered acseContext rest
    | some value =>
      if pdv.contextId = acseContext then
        match acseEnding value with
        | some _ => []
        | none => delivered acseContext rest
      else value :: delivered acseContext rest

/-! ### The decoded content of a TPDU -/

/-- The TSDU that a TPDU completes. -/
def tsduOf (a : Association) (tpdu : Bytes) : Option Bytes :=
  match Tpdu.parse tpdu with
  | .ok (.data eot payload) =>
    match a.reassembler.push eot payload with
    | .ok (tsdu, _) => tsdu
    | .error _ => none
  | _ => none

/-- The presentation data values of a DATA TRANSFER. -/
def pdvsIn (tsdu : Bytes) : Option (List Pdv) :=
  match Spdu.parse tsdu with
  | .ok (.dataTransfer p) =>
    match Ppdu.parse p false with
    | .ok (.userData pdvs) => some pdvs
    | _ => none
  | _ => none

/-- The presentation CONNECT of a session CONNECT with its Initiate request, when both decode. -/
def proposalIn (limits : Limits) (tsdu : Bytes) : Option (Cp × Initiate) :=
  match Spdu.parse tsdu with
  | .ok (.connect c) =>
    match Ppdu.parse c.userData true with
    | .ok (.connect cp) =>
      match initiateOf limits (acseContextOf cp) cp with
      | .ok (some init) => some (cp, init)
      | _ => none
    | _ => none
  | _ => none

/-- The Initiate response of a session ACCEPT that every layer accepts. -/
def acceptanceIn (limits : Limits) (acseContext : Nat) (tsdu : Bytes) : Option Initiate :=
  match Spdu.parse tsdu with
  | .ok (.accept c) =>
    match Ppdu.parse c.userData true with
    | .ok (.accept cp) =>
      match cp.allAccepted, aareOf acseContext cp with
      | true, .ok (some aare) =>
        match aare.accepted, initiateResponseOf limits aare with
        | true, .ok (.initiateResponse init) => some init
        | _, _ => none
      | _, _ => none
    | _ => none
  | _ => none

/-- The share of the outstanding requests that a handshake PDU settles, when it is one that
completes the handshake: a CONNECT on the server, an ACCEPT on the client. -/
def completion (c : Core) (tsdu : Bytes) : Option Nat :=
  match c.role with
  | .server =>
    match proposalIn c.cfg.limits tsdu with
    | some (cp, init) =>
      match associateAnswerTsdu c.cfg cp (mmsContextOf cp) (acseContextOf cp) init with
      | .ok _ => some (serverOutstanding c.cfg init)
      | .error _ => none
    | none => none
  | .client =>
    match acceptanceIn c.cfg.limits c.acseContext tsdu with
    | some init => clamp 1 c.cfg.maxOutstanding.toNat init.maxServOutstandingCalling.toNat
    | none => none

/-- The share of the outstanding requests that a TPDU settles, when it completes the handshake. -/
def completes (a : Association) (tpdu : Bytes) : Option Nat :=
  (tsduOf a tpdu).bind (completion a.core)

/-- The MMS PDUs that a TPDU delivers, in order. -/
def deliveredBy (a : Association) (tpdu : Bytes) : List Bytes :=
  match (tsduOf a tpdu).bind pdvsIn with
  | some pdvs => delivered a.acseContext pdvs
  | none => []

/-! ### What a TPDU can cause -/

/-- How an association that is not served any further ends. -/
inductive Ends : List Effect → Prop
  | closed (r : CloseReason) : Ends [.close r]
  | refused (layer : String) (code : Option Int) (r : CloseReason) :
      Ends [.emit (.refused layer code), .close r]
  | failed (e : Error) (r : CloseReason) : Ends [.emit (.malformed none e), .close r]

/-- The effects of a walk over presentation data values: what they deliver, and then perhaps an
end. -/
def Carried (limits : Limits) (ps : List Bytes) (es : List Effect) : Prop :=
  ∃ tail, (tail = [] ∨ ∃ r, tail = [.close r]) ∧ es = ps.flatMap (mmsEffects limits) ++ tail

/-- What a TSDU without user data can cause, under which guard. -/
inductive TsduCauses (c : Core) (tsdu : Bytes) : List Effect → Prop
  | ends {es : List Effect} (h : Ends es) : TsduCauses c tsdu es
  | endsAfterContexts (k : Nat) {es : List Effect} (h : Ends es) :
      TsduCauses c tsdu (.contexts k :: es)
  | completes (k : Nat) (n : Negotiated) (h : completion c tsdu = some n.maxOutstanding)
      (hsize : n.tpduData = c.tpduData) : TsduCauses c tsdu [.contexts k, .establish n]

theorem Ends.passive {es : List Effect} (h : Ends es) : ∀ e ∈ es, e.passive = true := by
  intro e he
  cases h <;> simp only [List.mem_cons, List.not_mem_nil, or_false] at he <;>
    rcases he with rfl | rfl <;> rfl

theorem Carried.passive {limits : Limits} {ps : List Bytes} {es : List Effect}
    (h : Carried limits ps es) : ∀ e ∈ es, e.passive = true := by
  obtain ⟨tail, htail, rfl⟩ := h
  intro e he
  rcases List.mem_append.mp he with he | he
  · obtain ⟨p, -, hp⟩ := List.mem_flatMap.mp he
    exact passive_mmsEffects limits p e hp
  · rcases htail with rfl | ⟨r, rfl⟩
    · cases he
    · rw [List.mem_singleton] at he
      rw [he]
      rfl

/-- A CR or CC that its receiver acts upon. -/
def connects (c : Core) (tpdu : Bytes) : Bool :=
  match Tpdu.parse tpdu with
  | .ok (.connectionRequest _) => decide (c.role = .server)
  | .ok (.connectionConfirm _) => decide (c.role = .client ∧ c.state = .connecting)
  | _ => false

/-- What a TPDU can cause, under which guard. -/
inductive Causes (a : Association) (tpdu : Bytes) : List Effect → Prop
  | nothing (hnone : deliveredBy a tpdu = []) : Causes a tpdu []
  | ends {es : List Effect} (h : Ends es) (hnone : deliveredBy a tpdu = []) : Causes a tpdu es
  | endsAfterContexts (k : Nat) {es : List Effect} (h : Ends es)
      (hnone : deliveredBy a tpdu = []) : Causes a tpdu (.contexts k :: es)
  | connects (size : Nat) (h : connects a.core tpdu = true) {es : List Effect}
      (htail : es = [] ∨ Ends es) (hnone : deliveredBy a tpdu = []) :
      Causes a tpdu (.resize size :: .enter .associating :: es)
  | connectFails (size : Nat) (h : connects a.core tpdu = true) {es : List Effect}
      (htail : Ends es) (hnone : deliveredBy a tpdu = []) : Causes a tpdu (.resize size :: es)
  | completes (k : Nat) (n : Negotiated) (h : completes a tpdu = some n.maxOutstanding)
      (hsize : n.tpduData = a.tpduData) (hnone : deliveredBy a tpdu = []) :
      Causes a tpdu [.contexts k, .establish n]
  | carries {es : List Effect} (hes : Carried a.cfg.limits (deliveredBy a tpdu) es) :
      Causes a tpdu es

/-- What is left of a handler that ended with an error: the association is closed. A panic
leaves nothing. -/
def settle : Outcome → Option Association
  | (a, .ok ()) => some a
  | (a, .error (.error e)) => some (protocolFailure e a)
  | (_, .error .panic) => none

@[simp] theorem settle_done (a : Association) : settle (done a) = some a := rfl

@[simp] theorem settle_fail (e : Error) (a : Association) :
    settle (fail e a) = some (protocolFailure e a) := rfl

@[simp] theorem settle_panicked (a : Association) : settle (panicked a) = none := rfl

@[simp] theorem andThen_done (a : Association) (k : Association → Outcome) :
    andThen (done a) k = k a := rfl

@[simp] theorem andThen_fail (e : Error) (a : Association) (k : Association → Outcome) :
    andThen (fail e a) k = fail e a := rfl

theorem core_protocolFailure (e : Error) (a : Association) : (protocolFailure e a).core =
      a.core.after [.emit (.malformed none e), .close .protocolError] := by
  simp only [protocolFailure, core_close, core_emit]
  rfl

/-- Whatever the handler leaves, the core `c` came to it by effects that meet `P`. -/
def Leads (c : Core) (P : List Effect → Prop) (o : Outcome) : Prop :=
  ∀ b, settle o = some b → ∃ es, P es ∧ b.core = c.after es

variable {c : Core} {P : List Effect → Prop} {a : Association} {tsdu tpdu : Bytes}

theorem leads_done (es : List Effect) (hP : P es) (h : a.core = c.after es) :
    Leads c P (done a) := by
  intro b hb
  cases hb
  exact ⟨es, hP, h⟩

theorem leads_close (r : CloseReason) (h : a.core = c) (hP : P [.close r]) :
    Leads c P (done (close r a)) :=
  leads_done [.close r] hP (by rw [core_close, h]; rfl)

theorem leads_fail (e : Error) (h : a.core = c)
    (hP : P [.emit (.malformed none e), .close .protocolError]) : Leads c P (fail e a) := by
  intro b hb
  cases hb
  exact ⟨_, hP, by rw [core_protocolFailure, h]⟩

theorem leads_refuse (layer : String) (code : Option Int) (h : a.core = c)
    (hP : P [.emit (.refused layer code), .close .refused]) : Leads c P (refuse layer code a) :=
  leads_done _ hP (by
    rw [core_close, core_emit, h]
    rfl)

theorem leads_panicked : Leads c P (panicked a) := by
  intro b hb
  cases hb

theorem Leads.after {Q : List Effect → Prop} {o : Outcome} (pre : List Effect)
    (h : Leads (c.after pre) P o) (hPQ : ∀ es, P es → Q (pre ++ es)) : Leads c Q o := by
  intro b hb
  obtain ⟨es, hes, hcore⟩ := h b hb
  exact ⟨pre ++ es, hPQ es hes, by rw [hcore, Core.after_append]⟩

theorem Leads.mono {Q : List Effect → Prop} {o : Outcome} (h : Leads c P o)
    (hPQ : ∀ es, P es → Q es) : Leads c Q o :=
  h.after [] hPQ

/-! ### User data -/

theorem onPeerFinish_leads (a : Association) :
    Leads a.core (fun es => ∃ r, es = [.close r]) (onPeerFinish a) := by
  obtain ⟨packets, hsent⟩ := sendReleaseResponse_sent a
  rw [onPeerFinish, hsent, andThen_done]
  exact leads_close .peerReleased rfl ⟨_, rfl⟩

theorem userDataLoop_leads (pdvs : List Pdv) (a : Association) :
    Leads a.core (Carried a.cfg.limits (delivered a.acseContext pdvs)) (userDataLoop pdvs a) := by
  induction pdvs generalizing a with
  | nil => exact leads_done [] ⟨[], Or.inl rfl, rfl⟩ rfl
  | cons pdv rest ih =>
    rw [userDataLoop]
    cases hsingle : pdv.values.single with
    | none =>
      refine (ih a).mono ?_
      rintro es ⟨tail, htail, rfl⟩
      exact ⟨tail, htail, by simp only [delivered, hsingle]⟩
    | some value =>
      by_cases hacse : pdv.contextId = a.acseContext
      · -- an ACSE APDU is passed over or ends the walk; it delivers nothing
        have hpass : ∀ o, acseEnding value = none → o = userDataLoop rest a →
            Leads a.core (Carried a.cfg.limits (delivered a.acseContext (pdv :: rest))) o := by
          rintro o hnone rfl
          refine (ih a).mono ?_
          rintro es ⟨tail, htail, rfl⟩
          exact ⟨tail, htail, by simp only [delivered, hsingle, if_pos hacse, hnone]⟩
        have hends : ∀ o r, acseEnding value = some r →
            Leads a.core (fun es => ∃ r, es = [.close r]) o →
            Leads a.core (Carried a.cfg.limits (delivered a.acseContext (pdv :: rest))) o := by
          intro o r hsome ho
          refine ho.mono fun es hes => ⟨es, Or.inr hes, ?_⟩
          simp only [delivered, hsingle, if_pos hacse, hsome, List.flatMap_nil,
            List.nil_append]
        simp only [if_pos hacse]
        cases hparse : Apdu.parse value with
        | error e => exact hpass _ (by simp only [acseEnding, hparse]) rfl
        | ok apdu =>
          cases apdu with
          | release v =>
            exact hends _ .peerReleased (by simp only [acseEnding, hparse])
              (onPeerFinish_leads a)
          | releaseResponse v =>
            exact hends _ .released (by simp only [acseEnding, hparse])
              (leads_close .released rfl ⟨_, rfl⟩)
          | abort v =>
            exact hends _ .aborted (by simp only [acseEnding, hparse])
              (leads_close .aborted rfl ⟨_, rfl⟩)
          | associate v => exact hpass _ (by simp only [acseEnding, hparse]) rfl
          | associateResponse v => exact hpass _ (by simp only [acseEnding, hparse]) rfl
      · simp only [if_neg hacse]
        have hcore := core_deliverMms value a
        have hcfg : (deliverMms value a).cfg = a.cfg := by
          change (deliverMms value a).core.cfg = a.cfg
          rw [hcore]
          exact (after_const _ _).1
        have hctx : (deliverMms value a).acseContext = a.acseContext := by
          change (deliverMms value a).core.acseContext = a.acseContext
          rw [hcore]
          exact acseContext_mmsEffects _ _ _
        have hrest := ih (deliverMms value a)
        rw [hcore, hcfg, hctx] at hrest
        refine hrest.after (mmsEffects a.cfg.limits value) ?_
        rintro es ⟨tail, htail, rfl⟩
        refine ⟨tail, htail, ?_⟩
        simp only [delivered, hsingle, if_neg hacse, List.flatMap_cons, List.append_assoc]

/-! ### The handshake -/

theorem answerAssociate_cases (cp : Cp) (mmsContext acseContext : Nat) (init : Initiate)
    (a : Association) : (∃ e, associateAnswerTsdu a.cfg cp mmsContext acseContext init = .error e ∧
      answerAssociate cp mmsContext acseContext init a = fail e a) ∨
    ∃ tsdu, associateAnswerTsdu a.cfg cp mmsContext acseContext init = .ok tsdu ∧
      answerAssociate cp mmsContext acseContext init a =
        done { a with out := a.out ++ tsduPackets a.tpduData tsdu } := by
  unfold answerAssociate
  cases h : associateAnswerTsdu a.cfg cp mmsContext acseContext init with
  | error e => exact Or.inl ⟨e, rfl, rfl⟩
  | ok tsdu =>
    refine Or.inr ⟨tsdu, rfl, ?_⟩
    simp only [sendTsdu_eq]

theorem onSessionConnect_leads {c : Session.Connect} (htsdu : Spdu.parse tsdu = .ok (.connect c)) :
    Leads a.core (TsduCauses a.core tsdu) (onSessionConnect c.userData a) := by
  unfold onSessionConnect
  by_cases hrole : a.role = .server
  · rw [if_neg (by simp [hrole])]
    cases hppdu : Ppdu.parse c.userData true with
    | error e => exact leads_fail e rfl (.ends (.failed e _))
    | ok ppdu =>
      cases ppdu with
      | connect cp =>
        simp only
        have hctx : ({ a with mmsContext := mmsContextOf cp, acseContext := acseContextOf cp }
            : Association).core = a.core.after [.contexts (acseContextOf cp)] := rfl
        cases hinit : initiateOf a.cfg.limits (acseContextOf cp) cp with
        | error e =>
          exact (leads_fail (P := Ends) e hctx (.failed e _)).after _
            (fun es hes => .endsAfterContexts _ hes)
        | ok found =>
          cases found with
          | none =>
            exact (leads_close (P := Ends) .protocolError hctx (.closed _)).after _
              (fun es hes => .endsAfterContexts _ hes)
          | some init =>
            simp only
            have hproposal : proposalIn a.cfg.limits tsdu = some (cp, init) := by
              simp only [proposalIn, htsdu, hppdu, hinit]
            have hpeer : ({ a with
                mmsContext := mmsContextOf cp
                acseContext := acseContextOf cp
                peerMaxPdu := (init.localDetail.getD 0).toNat } : Association).core =
                a.core.after [.contexts (acseContextOf cp)] := rfl
            rcases answerAssociate_cases cp (mmsContextOf cp) (acseContextOf cp) init
              { a with
                mmsContext := mmsContextOf cp
                acseContext := acseContextOf cp
                peerMaxPdu := (init.localDetail.getD 0).toNat } with
              ⟨e, herr, heq⟩ | ⟨out, hok, heq⟩
            · rw [heq, andThen_fail]
              exact (leads_fail (P := Ends) e hpeer (.failed e _)).after _
                (fun es hes => .endsAfterContexts _ hes)
            · rw [heq]
              refine leads_done _ (.completes (acseContextOf cp) _ ?_ ?_) rfl
              · have hrole' : a.core.role = .server := hrole
                have hproposal' : proposalIn a.core.cfg.limits tsdu = some (cp, init) :=
                  hproposal
                simp only [completion, hrole', hproposal']
                have hok' : associateAnswerTsdu a.core.cfg cp (mmsContextOf cp)
                    (acseContextOf cp) init = .ok out := hok
                simp only [hok']
                rfl
              · rfl
      | accept cp => exact leads_close .protocolError rfl (.ends (.closed _))
      | reject cp => exact leads_close .protocolError rfl (.ends (.closed _))
      | _ => exact leads_close .protocolError rfl (.ends (.closed _))
  · rw [if_pos hrole]
    exact leads_close .protocolError rfl (.ends (.closed _))

theorem onInitiateResponse_leads {pdu : Pdu} (hrole : a.role = .client)
    (hpdu : ∀ init, pdu = .initiateResponse init →
      acceptanceIn a.cfg.limits a.acseContext tsdu = some init) :
    Leads a.core (TsduCauses a.core tsdu) (onInitiateResponse pdu a) := by
  unfold onInitiateResponse
  cases pdu with
  | initiateResponse init =>
    simp only
    cases hclamp : clamp 1 a.cfg.maxOutstanding.toNat init.maxServOutstandingCalling.toNat with
    | none => exact leads_panicked
    | some mine =>
      have hrole' : a.core.role = .client := hrole
      have hacc : acceptanceIn a.core.cfg.limits a.core.acseContext tsdu = some init :=
        hpdu init rfl
      have hmine : clamp 1 a.core.cfg.maxOutstanding.toNat
          init.maxServOutstandingCalling.toNat = some mine := hclamp
      refine leads_done _ (.completes a.acseContext _ ?_ rfl) rfl
      simp only [completion, hrole', hacc, hmine]
      rfl
  | initiateError t => exact leads_refuse _ _ rfl (.ends (.refused _ _ _))
  | _ => exact leads_close .protocolError rfl (.ends (.closed _))

theorem onSessionAccept_leads {c : Session.Connect} (htsdu : Spdu.parse tsdu = .ok (.accept c)) :
    Leads a.core (TsduCauses a.core tsdu) (onSessionAccept c.userData a) := by
  unfold onSessionAccept
  by_cases hrole : a.role = .client
  · rw [if_neg (by simp [hrole])]
    cases hppdu : Ppdu.parse c.userData true with
    | error e => exact leads_fail e rfl (.ends (.failed e _))
    | ok ppdu =>
      cases ppdu with
      | accept cp =>
        simp only
        cases hall : cp.allAccepted with
        | false => exact leads_refuse _ _ rfl (.ends (.refused _ _ _))
        | true =>
          simp only [if_true]
          cases haare : aareOf a.acseContext cp with
          | error e => exact leads_fail e rfl (.ends (.failed e _))
          | ok found =>
            cases found with
            | none => exact leads_close .protocolError rfl (.ends (.closed _))
            | some aare =>
              simp only [onAare]
              cases hacc : aare.accepted with
              | false => exact leads_refuse _ _ rfl (.ends (.refused _ _ _))
              | true =>
                simp only [if_true]
                cases hresp : initiateResponseOf a.cfg.limits aare with
                | error e => exact leads_fail e rfl (.ends (.failed e _))
                | ok pdu =>
                  refine onInitiateResponse_leads hrole ?_
                  rintro init rfl
                  simp only [acceptanceIn, htsdu, hppdu, hall, haare, hacc, hresp]
      | reject cp => exact leads_refuse _ _ rfl (.ends (.refused _ _ _))
      | _ => exact leads_close .protocolError rfl (.ends (.closed _))
  · rw [if_pos hrole]
    exact leads_close .protocolError rfl (.ends (.closed _))

theorem onTsdu_carries {pdvs : List Pdv} (h : pdvsIn tsdu = some pdvs) :
    Leads a.core (Carried a.cfg.limits (delivered a.acseContext pdvs)) (onTsdu tsdu a) := by
  unfold pdvsIn at h
  split at h
  · rename_i p htsdu
    split at h
    · rename_i found hppdu
      cases h
      simp only [onTsdu, htsdu, onUserData, hppdu]
      exact userDataLoop_leads pdvs a
    · cases h
  · cases h

theorem onTsdu_leads (hnone : pdvsIn tsdu = none) (a : Association) :
    Leads a.core (TsduCauses a.core tsdu) (onTsdu tsdu a) := by
  unfold onTsdu
  cases htsdu : Spdu.parse tsdu with
  | error e => exact leads_fail e rfl (.ends (.failed e _))
  | ok spdu =>
    cases spdu with
    | connect c => exact onSessionConnect_leads htsdu
    | accept c => exact onSessionAccept_leads htsdu
    | refuse reason userData => exact leads_refuse _ _ rfl (.ends (.refused _ _ _))
    | dataTransfer p =>
      simp only [onUserData]
      cases hppdu : Ppdu.parse p false with
      | error e => exact leads_fail e rfl (.ends (.failed e _))
      | ok ppdu =>
        cases ppdu with
        | userData pdvs =>
          simp only [pdvsIn, htsdu, hppdu] at hnone
          cases hnone
        | _ => exact leads_close .protocolError rfl (.ends (.closed _))
    | finish userData =>
      refine (onPeerFinish_leads a).mono ?_
      rintro es ⟨r, rfl⟩
      exact .ends (.closed r)
    | disconnect userData => exact leads_close .released rfl (.ends (.closed _))
    | abort userData => exact leads_close .aborted rfl (.ends (.closed _))
    | abortAccept => exact leads_close .aborted rfl (.ends (.closed _))
    | other si body => exact leads_close .protocolError rfl (.ends (.closed _))

/-! ### TPDUs -/

theorem deliveredBy_of_not_data (h : ∀ eot payload, Tpdu.parse tpdu ≠ .ok (.data eot payload)) :
    deliveredBy a tpdu = [] := by
  have htsdu : tsduOf a tpdu = none := by
    unfold tsduOf
    split
    · rename_i eot payload hdata
      exact absurd hdata (h eot payload)
    · rfl
  simp only [deliveredBy, htsdu, Option.bind_none]

theorem onConnectionRequest_leads {c : Cotp.Connect} (now : Instant)
    (htpdu : Tpdu.parse tpdu = .ok (.connectionRequest c)) :
    Leads a.core (Causes a tpdu) (onConnectionRequest now c a) := by
  have hnone : deliveredBy a tpdu = [] := deliveredBy_of_not_data (by simp [htpdu])
  unfold onConnectionRequest
  by_cases hrole : a.role = .server
  · rw [if_neg (by simp [hrole])]
    have hconnects : connects a.core tpdu = true := by
      have hrole' : a.core.role = .server := hrole
      simp only [connects, htpdu, hrole', decide_true]
    have hcore : (setTransport c a).core =
        a.core.after [.resize (Cotp.tpduSize (negotiatedExp a.cfg c) - 3)] := rfl
    rcases (queueTpdu_onlySent (connectionConfirm a.cfg c) (setTransport c a)).cases_on with
      ⟨b, heq, hb⟩ | ⟨e, heq⟩
    · rw [heq, andThen_done]
      refine leads_done _ (.connects (Cotp.tpduSize (negotiatedExp a.cfg c) - 3) hconnects
        (Or.inl rfl) hnone) ?_
      rw [core_armConnectDeadline]
      change { b.core with state := .associating } = _
      rw [hb, hcore]
      rfl
    · rw [heq, andThen_fail]
      exact (leads_fail (P := Ends) e hcore (.failed e _)).after _
        (fun es hes => .connectFails _ hconnects hes hnone)
  · rw [if_pos hrole]
    exact leads_close .protocolError rfl (.ends (.closed _) hnone)

theorem onConnectionConfirm_leads {c : Cotp.Connect}
    (htpdu : Tpdu.parse tpdu = .ok (.connectionConfirm c)) :
    Leads a.core (Causes a tpdu) (onConnectionConfirm c a) := by
  have hnone : deliveredBy a tpdu = [] := deliveredBy_of_not_data (by simp [htpdu])
  unfold onConnectionConfirm
  by_cases hguard : a.role = .client ∧ a.state = .connecting
  · rw [if_neg (by simp [hguard])]
    have hconnects : connects a.core tpdu = true := by
      have hguard' : a.core.role = .client ∧ a.core.state = .connecting := hguard
      simp only [connects, htpdu, hguard', and_self, decide_true]
    have hcore : ({ setTransport c a with state := .associating } : Association).core =
        a.core.after [.resize (Cotp.tpduSize (negotiatedExp a.cfg c) - 3),
          .enter .associating] := rfl
    rcases (sendAssociateRequest_onlySent
      { setTransport c a with state := .associating }).cases_on with ⟨b, heq, hb⟩ | ⟨e, heq⟩
    · rw [heq]
      exact leads_done _ (.connects _ hconnects (Or.inl rfl) hnone) (by rw [hb, hcore])
    · rw [heq]
      exact (leads_fail (P := Ends) e hcore (.failed e _)).after _
        (fun es hes => .connects _ hconnects (Or.inr hes) hnone)
  · rw [if_pos (by
      by_cases hrole : a.role = .client
      · exact Or.inr fun hstate => hguard ⟨hrole, hstate⟩
      · exact Or.inl hrole)]
    exact leads_close .protocolError rfl (.ends (.closed _) hnone)

theorem onData_leads {eot : Bool} {payload : Bytes}
    (htpdu : Tpdu.parse tpdu = .ok (.data eot payload)) :
    Leads a.core (Causes a tpdu) (onData eot payload a) := by
  unfold onData
  cases hpush : a.reassembler.push eot payload with
  | error e =>
    have hnone : deliveredBy a tpdu = [] := by
      simp only [deliveredBy, tsduOf, htpdu, hpush, Option.bind_none]
    exact leads_fail e rfl (.ends (.failed e _) hnone)
  | ok r =>
    obtain ⟨tsdu, reassembler⟩ := r
    cases tsdu with
    | none =>
      have hnone : deliveredBy a tpdu = [] := by
        simp only [deliveredBy, tsduOf, htpdu, hpush, Option.bind_none]
      exact leads_done [] (.nothing hnone) rfl
    | some tsdu =>
      have htsdu : tsduOf a tpdu = some tsdu := by simp only [tsduOf, htpdu, hpush]
      cases hpdvs : pdvsIn tsdu with
      | some pdvs =>
        have hdelivered : deliveredBy a tpdu = delivered a.acseContext pdvs := by
          simp only [deliveredBy, htsdu, Option.bind_some, hpdvs]
        refine (onTsdu_carries (a := { a with reassembler := reassembler.take })
          hpdvs).mono ?_
        intro es hes
        exact .carries (by rw [hdelivered]; exact hes)
      | none =>
        have hnone : deliveredBy a tpdu = [] := by
          simp only [deliveredBy, htsdu, Option.bind_some, hpdvs]
        refine (onTsdu_leads hpdvs { a with reassembler := reassembler.take }).mono ?_
        intro es hes
        cases hes with
        | ends h => exact .ends h hnone
        | endsAfterContexts k h => exact .endsAfterContexts k h hnone
        | completes k n h hsize =>
          exact .completes k n (by rw [completes, htsdu]; exact h) hsize hnone

/-- Handling a TPDU refines the effects it can cause: the one place where the handlers are
looked into. -/
theorem onTpdu_leads (now : Instant) (tpdu : Bytes) (a : Association) :
    Leads a.core (Causes a tpdu) (onTpdu now tpdu a) := by
  unfold onTpdu
  cases htpdu : Tpdu.parse tpdu with
  | error e =>
    exact leads_fail e rfl (.ends (.failed e _) (deliveredBy_of_not_data (by simp [htpdu])))
  | ok t =>
    cases t with
    | connectionRequest c => exact onConnectionRequest_leads now htpdu
    | connectionConfirm c => exact onConnectionConfirm_leads htpdu
    | disconnectRequest d s reason =>
      exact leads_close .aborted rfl
        (.ends (.closed _) (deliveredBy_of_not_data (by simp [htpdu])))
    | data eot payload => exact onData_leads htpdu
    | other code body =>
      exact leads_close .protocolError rfl
        (.ends (.closed _) (deliveredBy_of_not_data (by simp [htpdu])))

end Association

end Iec61850.Mms
