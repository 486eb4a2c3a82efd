import Iec61850.Client.Unsolicited
import Iec61850.Mms.Association
import Iec61850.Mms.ReportAssembler

/-!
# Waiting for an answer

`call`, `take_answer` and `keep_unsolicited` of `client/mod.rs`. A call takes the events of its
association in batches, one for each read of the socket: it keeps what it is sent unasked and goes
through the batch to its end, unless an event ends the call first.
-/

namespace Iec61850.Client

open Theory Ber Mms

/-! ### How a call ends -/

structure ServiceError where
  cls : Nat
  code : Int
  additional : Option Int
  deriving DecidableEq, Repr

def ServiceError.parse (t : Tlv) : Except Error ServiceError :=
  forItems t.children ⟨0, 0, none⟩ fun out f =>
    match f.tag.cls, f.tag.number with
    | .context, 0 => do
        let (inner, _) ← f.children.nextRequired
        .ok { out with cls := inner.tag.number, code := (okay inner.integerI64).getD 0 }
    | .context, 1 => do
        let additional ← f.integerI64
        .ok { out with additional := some additional }
    | _, _ => .ok out

/-- What a call fails with. -/
inductive CallFailure where
  | own (e : Error)
  | service (cls : Nat) (code : Int)
  | rejected (invokeId : Option Int) (reasonTag : Nat) (code : Int)
  | io (what : String)
  deriving DecidableEq, Repr

def rejected (r : Reject) : CallFailure :=
  .rejected r.originalInvokeId r.reason.parts.1 r.reason.parts.2

def closed : CloseReason → CallFailure
  | .released | .peerReleased => .io "the association was released"
  | .aborted => .io "the association was aborted"
  | .connectTimeout => .io "the association handshake timed out"
  | .refused => .io "the peer refused the association"
  | .protocolError => .io "the peer sent something that is not the protocol"

/-- The code of a refusal, as `{:?}` writes it. -/
def codeText : Option Int → String
  | none => "None"
  | some code => "Some(" ++ toString code ++ ")"

section

variable (limits : Limits)

/-- What an answer is not a response for: an error that the server confirms, or that it does not
decode. -/
def failureIn (pdu : Bytes) : Option CallFailure :=
  match Pdu.parse pdu limits with
  | .error e => some (.own e)
  | .ok (.confirmedError _ _ error) =>
    match ServiceError.parse error with
    | .error e => some (.own e)
    | .ok e => some (.service e.cls e.code)
  | .ok _ => none

/-- What the answer to a request makes of the call. -/
def answerOf (pdu : Bytes) : Except CallFailure Bytes :=
  match failureIn limits pdu with
  | some f => .error f
  | none => .ok pdu

/-- The failure with which `take_answer` returns at an event; `none` when it goes on. -/
def endingOf (invokeId : Int) : AssociationEvent → Option CallFailure
  | .response id pdu => if id = invokeId then failureIn limits pdu else none
  | .timeout id => if id = invokeId then some (.io "request timed out") else none
  | .rejected (some id) reject => if id = invokeId then some (rejected reject) else none
  | .rejected none reject => some (rejected reject)
  | .cancelled id => if id = invokeId then some (.io "the peer cancelled the request") else none
  | .malformed (some id) error => if id = invokeId then some (.own error) else none
  | .refused layer code =>
    some (.io ("association refused at " ++ layer ++ ": " ++ codeText code))
  | .closed reason => some (closed reason)
  | .malformed none _ | .unconfirmed _ | .request _ _ | .cancelRefused _ | .established _ => none

/-- The answer in hand after an event. -/
def answerAfter (invokeId : Int) (answer : Option Bytes) : AssociationEvent → Option Bytes
  | .response id pdu => if id = invokeId then some pdu else answer
  | _ => answer

/-! ### What comes unasked -/

/-- What an unconfirmed PDU hands to the application: a report when it is whole. -/
def whole (a : ReportAssembler) (pdu : Bytes) : ReportAssembler × Option Unsolicited :=
  match Unsolicited.fromPdu limits pdu with
  | none => (a, none)
  | some (.report r) => ((a.push r).1, (a.push r).2.map .report)
  | some item => (a, some item)

/-- The reports under way and the items that wait for the application, no more than 256 of them. -/
structure Inbox where
  assembler : ReportAssembler
  unsolicited : List Unsolicited
  length_le : unsolicited.length ≤ 256

def Inbox.keepUnsolicited (k : Inbox) (pdu : Bytes) : Inbox :=
  match (whole limits k.assembler pdu).2 with
  | none => { k with assembler := (whole limits k.assembler pdu).1 }
  | some item =>
    { assembler := (whole limits k.assembler pdu).1
      unsolicited := pushDropping 256 k.unsolicited item
      length_le := pushDropping_length_le (by decide) k.length_le item }

/-- What an event is kept as. -/
def Inbox.keep (k : Inbox) : AssociationEvent → Inbox
  | .unconfirmed pdu => k.keepUnsolicited limits pdu
  | _ => k

/-! ### The drain -/

/-- The loop of `take_answer`; also the events that it leaves in the association. -/
def drain (invokeId : Int) : Inbox → Option Bytes → List AssociationEvent →
    Except CallFailure (Option Bytes) × Inbox × List AssociationEvent
  | k, answer, [] => (.ok answer, k, [])
  | k, answer, e :: es =>
    match endingOf limits invokeId e with
    | some f => (.error f, k, es)
    | none => drain invokeId (k.keep limits e) (answerAfter invokeId answer e) es

/-- `take_answer`, with the outcome of the flush at its end. -/
def takeAnswer (invokeId : Int) (k : Inbox) (events : List AssociationEvent)
    (flushed : Except CallFailure Unit) :
    Except CallFailure (Option Bytes) × Inbox × List AssociationEvent :=
  match drain limits invokeId k none events with
  | (.error f, k, left) => (.error f, k, left)
  | (.ok answer, k, left) =>
    match flushed with
    | .error f => (.error f, k, left)
    | .ok () => (.ok answer, k, left)

/-- One turn of the loop of `call`: the events that are there, the flush, whether the deadline has
passed, and the next read. -/
structure Turn where
  events : List AssociationEvent
  flushed : Except CallFailure Unit
  late : Bool
  read : Except CallFailure Unit

/-- The loop of `call`; `none` while it has not come to an end. -/
def callLoop (invokeId : Int) : Inbox → List Turn → Option (Except CallFailure Bytes × Inbox)
  | _, [] => none
  | k, t :: turns =>
    match takeAnswer limits invokeId k t.events t.flushed with
    | (.error f, k, _) => some (.error f, k)
    | (.ok (some pdu), k, _) => some (.ok pdu, k)
    | (.ok none, k, _) =>
      if t.late then some (.error (.io "request timed out"), k)
      else
        match t.read with
        | .error f => some (.error f, k)
        | .ok () => callLoop invokeId k turns

end

/-! ### What a batch brings -/

section

variable (limits : Limits)

/-- The reports under way after a batch. -/
def assembled (a : ReportAssembler) : List AssociationEvent → ReportAssembler
  | [] => a
  | .unconfirmed pdu :: es => assembled (whole limits a pdu).1 es
  | _ :: es => assembled a es

/-- The items that a batch has for the application. -/
def itemsIn (a : ReportAssembler) : List AssociationEvent → List Unsolicited
  | [] => []
  | .unconfirmed pdu :: es => (whole limits a pdu).2.toList ++ itemsIn (whole limits a pdu).1 es
  | _ :: es => itemsIn a es

/-- The last answer to a request in a batch. -/
def lastAnswer (invokeId : Int) (answer : Option Bytes) (es : List AssociationEvent) :
    Option Bytes :=
  es.foldl (answerAfter invokeId) answer

/-- Nothing in the batch ends the call. -/
def Quiet (invokeId : Int) (es : List AssociationEvent) : Prop :=
  ∀ e ∈ es, endingOf limits invokeId e = none

end

variable {limits : Limits} {invokeId : Int}

theorem itemsIn_append (a : ReportAssembler) (es es' : List AssociationEvent) :
    itemsIn limits a (es ++ es') =
      itemsIn limits a es ++ itemsIn limits (assembled limits a es) es' := by
  induction es generalizing a with
  | nil => rfl
  | cons e es ih =>
    cases e with
    | unconfirmed pdu =>
      rw [List.cons_append, itemsIn, itemsIn, assembled, ih, List.append_assoc]
    | _ => exact ih a

/-- What is kept of a batch: the reports under way, and of the items the last 256. -/
theorem foldl_keep (k : Inbox) (es : List AssociationEvent) :
    (es.foldl (Inbox.keep limits) k).assembler = assembled limits k.assembler es ∧
      (es.foldl (Inbox.keep limits) k).unsolicited =
        lastN 256 (k.unsolicited ++ itemsIn limits k.assembler es) := by
  induction es generalizing k with
  | nil =>
    refine ⟨rfl, ?_⟩
    rw [itemsIn, List.append_nil, lastN_of_length_le k.length_le]
    rfl
  | cons e es ih =>
    cases e with
    | unconfirmed pdu =>
      obtain ⟨hassembler, hitems⟩ := ih (k.keepUnsolicited limits pdu)
      rw [List.foldl_cons, Inbox.keep, hassembler, hitems, assembled, itemsIn]
      unfold Inbox.keepUnsolicited
      cases (whole limits k.assembler pdu).2 with
      | none => exact ⟨rfl, rfl⟩
      | some item =>
        refine ⟨rfl, ?_⟩
        dsimp only
        rw [pushDropping_eq_lastN (by decide) k.length_le, lastN_append_lastN,
          List.append_assoc]
        rfl
    | _ => exact ih k

/-- What is kept is all of it as long as no more than 256 items wait. -/
theorem foldl_keep_eq_iff (limits : Limits) (k : Inbox) (es : List AssociationEvent) :
    (es.foldl (Inbox.keep limits) k).unsolicited = k.unsolicited ++ itemsIn limits k.assembler es ↔
      (k.unsolicited ++ itemsIn limits k.assembler es).length ≤ 256 := by
  rw [(foldl_keep k es).2]
  constructor
  · intro h
    rw [← h]
    exact lastN_length_le _ _
  · exact lastN_of_length_le

/-! ### How far a drain goes -/

theorem drain_quiet {es : List AssociationEvent} (h : Quiet limits invokeId es) (k : Inbox)
    (answer : Option Bytes) (es' : List AssociationEvent) :
    drain limits invokeId k answer (es ++ es') =
      drain limits invokeId (es.foldl (Inbox.keep limits) k)
        (lastAnswer invokeId answer es) es' := by
  induction es generalizing k answer with
  | nil => rfl
  | cons e es ih =>
    rw [Quiet, List.forall_mem_cons] at h
    rw [List.cons_append, drain, h.1]
    exact ih h.2 _ _

theorem drain_ended {es : List AssociationEvent} (h : ¬ Quiet limits invokeId es) (k : Inbox)
    (answer : Option Bytes) :
    ∃ f k' left, drain limits invokeId k answer es = (.error f, k', left) := by
  induction es generalizing k answer with
  | nil => exact absurd nofun h
  | cons e es ih =>
    rw [drain]
    cases hending : endingOf limits invokeId e with
    | some f => exact ⟨f, k, es, rfl⟩
    | none =>
      apply ih
      intro hquiet
      apply h
      rw [Quiet, List.forall_mem_cons]
      exact ⟨hending, hquiet⟩

theorem lastAnswer_isSome (invokeId : Int) (pdu : Bytes) (es : List AssociationEvent) :
    (lastAnswer invokeId (some pdu) es).isSome = true := by
  induction es generalizing pdu with
  | nil => rfl
  | cons e es ih =>
    cases e with
    | response id pdu' =>
      rw [lastAnswer, List.foldl_cons]
      by_cases hid : id = invokeId
      · rw [answerAfter, if_pos hid]
        exact ih pdu'
      · rw [answerAfter, if_neg hid]
        exact ih pdu
    | _ => exact ih pdu

theorem takeAnswer_quiet {es : List AssociationEvent} (h : Quiet limits invokeId es) (k : Inbox)
    (flushed : Except CallFailure Unit) :
    takeAnswer limits invokeId k es flushed =
      (match flushed with
        | .error f => .error f
        | .ok () => .ok (lastAnswer invokeId none es), es.foldl (Inbox.keep limits) k, []) := by
  have hdrain := drain_quiet h k none []
  rw [List.append_nil, drain] at hdrain
  rw [takeAnswer, hdrain]
  cases flushed <;> rfl

theorem takeAnswer_ended {es : List AssociationEvent} (h : ¬ Quiet limits invokeId es) (k : Inbox)
    (flushed : Except CallFailure Unit) :
    ∃ f k' left, takeAnswer limits invokeId k es flushed = (.error f, k', left) := by
  obtain ⟨f, k', left, hdrain⟩ := drain_ended h k none
  rw [takeAnswer, hdrain]
  exact ⟨f, k', left, rfl⟩

/-- Behind a confirmed error the rest of the batch is left. -/
theorem takeAnswer_failure {before : List AssociationEvent} (hbefore : Quiet limits invokeId before)
    {pdu : Bytes} {f : CallFailure} (hf : failureIn limits pdu = some f) (k : Inbox)
    (after : List AssociationEvent) (flushed : Except CallFailure Unit) :
    takeAnswer limits invokeId k (before ++ .response invokeId pdu :: after) flushed =
      (.error f, before.foldl (Inbox.keep limits) k, after) := by
  have hending : endingOf limits invokeId (.response invokeId pdu) = some f := by
    rw [endingOf, if_pos rfl, hf]
  rw [takeAnswer, drain_quiet hbefore, drain, hending]

/-! ### The call -/

/-- The call returns what its answer is, and the items of the batch all wait for the application. -/
def Answered (limits : Limits) (invokeId : Int) (k : Inbox) (pdu : Bytes) (t : Turn)
    (turns : List Turn) : Prop :=
  ∃ k', callLoop limits invokeId k (t :: turns) = some (answerOf limits pdu, k') ∧
    k'.unsolicited = k.unsolicited ++ itemsIn limits k.assembler t.events

/-- There is room for the items. Behind a confirmed error there are none; behind a response nothing
ends the call, no other response takes its place, and the flush does not fail. -/
def Undisturbed (limits : Limits) (invokeId : Int) (k : Inbox) (before : List AssociationEvent)
    (pdu : Bytes) (after : List AssociationEvent) (t : Turn) : Prop :=
  (k.unsolicited ++ itemsIn limits k.assembler t.events).length ≤ 256 ∧
    match failureIn limits pdu with
    | some _ => itemsIn limits (assembled limits k.assembler before) after = []
    | none => Quiet limits invokeId after ∧ lastAnswer invokeId (some pdu) after = some pdu ∧
        t.flushed = .ok ()

theorem answered_iff (limits : Limits) (invokeId : Int) (k : Inbox)
    (before : List AssociationEvent) (hbefore : Quiet limits invokeId before) (pdu : Bytes)
    (after : List AssociationEvent) (t : Turn)
    (ht : t.events = before ++ .response invokeId pdu :: after) (turns : List Turn) :
    Answered limits invokeId k pdu t turns ↔ Undisturbed limits invokeId k before pdu after t := by
  have hitems : itemsIn limits k.assembler t.events = itemsIn limits k.assembler before ++
      itemsIn limits (assembled limits k.assembler before) after := by
    rw [ht, itemsIn_append]
    rfl
  rw [Answered, Undisturbed, callLoop, answerOf]
  cases hf : failureIn limits pdu with
  | some f =>
    have htake := takeAnswer_failure hbefore hf k after t.flushed
    rw [← ht] at htake
    rw [htake, hitems]
    dsimp only
    have hkeep := foldl_keep_eq_iff limits k before
    have hlen := (before.foldl (Inbox.keep limits) k).length_le
    rw [← List.append_assoc]
    generalize itemsIn limits (assembled limits k.assembler before) after = behind
    constructor
    · rintro ⟨k', heq, hkept⟩
      cases heq
      rw [hkept] at hlen
      have hroom := hkeep.mpr (le_trans (by simp) hlen)
      rw [hroom] at hkept
      exact ⟨hlen, List.self_eq_append_right.mp hkept⟩
    · rintro ⟨hroom, rfl⟩
      rw [List.append_nil] at hroom ⊢
      exact ⟨_, rfl, hkeep.mpr hroom⟩
  | none =>
    have hending : endingOf limits invokeId (.response invokeId pdu) = none := by
      rw [endingOf, if_pos rfl, hf]
    by_cases hafter : Quiet limits invokeId after
    · have hquiet : Quiet limits invokeId t.events := by
        rw [ht, Quiet, List.forall_mem_append, List.forall_mem_cons]
        exact ⟨hbefore, hending, hafter⟩
      have hlast : lastAnswer invokeId none t.events = lastAnswer invokeId (some pdu) after := by
        rw [ht, lastAnswer, List.foldl_append, List.foldl_cons, answerAfter, if_pos rfl]
        rfl
      have hkeep := foldl_keep_eq_iff limits k t.events
      rw [takeAnswer_quiet hquiet, hlast]
      obtain ⟨pdu', hpdu'⟩ := Option.isSome_iff_exists.mp
        (lastAnswer_isSome invokeId pdu after)
      rw [hpdu']
      cases hflushed : t.flushed with
      | error f =>
        refine iff_of_false ?_ (fun ⟨_, _, _, h⟩ => nomatch h)
        rintro ⟨k', heq, -⟩
        cases heq
      | ok u =>
        constructor
        · rintro ⟨k', heq, hkept⟩
          cases heq
          exact ⟨hkeep.mp hkept, hafter, rfl, rfl⟩
        · rintro ⟨hroom, -, hsame, -⟩
          cases hsame
          exact ⟨_, rfl, hkeep.mpr hroom⟩
    · have hended : ¬ Quiet limits invokeId t.events := by
        rw [ht, Quiet, List.forall_mem_append, List.forall_mem_cons]
        exact fun h => hafter h.2.2
      obtain ⟨f, k', left, htake⟩ := takeAnswer_ended hended k t.flushed
      rw [htake]
      refine iff_of_false ?_ (fun h => hafter h.2.1)
      rintro ⟨k', heq, -⟩
      cases heq

/-! ### A confirmed write -/

/-- A `Write` response to invoke 7: success. -/
def writeConfirmed : Bytes := [0xA1, 0x07, 0x02, 0x01, 0x07, 0xA5, 0x02, 0x81, 0x00]

/-- A client that nothing waits at. -/
def emptyInbox : Inbox := ⟨.new 8, [], by decide⟩

/-- A read of the socket that these events come of. -/
def turnOf (events : List AssociationEvent) : Turn := ⟨events, .ok (), false, .ok ()⟩

theorem answered_iff_confirmed : Quiet Limits.default 7 [] ∧
      Answered Limits.default 7 emptyInbox writeConfirmed
        (turnOf [.response 7 writeConfirmed]) [] := by
  have hquiet : Quiet Limits.default 7 [] := nofun
  have hok : failureIn Limits.default writeConfirmed = none := rfl
  refine ⟨hquiet, (answered_iff Limits.default 7 emptyInbox [] hquiet writeConfirmed [] _ rfl
    []).mpr ?_⟩
  rw [Undisturbed, hok]
  exact ⟨Nat.zero_le _, nofun, rfl, rfl⟩

/-- The server confirms the write and closes: the call fails with the close. -/
theorem confirmed_reported_failed :
    let t := turnOf [.response 7 writeConfirmed, .closed .peerReleased]
    answerOf Limits.default writeConfirmed = .ok writeConfirmed ∧
      callLoop Limits.default 7 emptyInbox [t] =
        some (.error (.io "the association was released"), emptyInbox) ∧
      ¬ Answered Limits.default 7 emptyInbox writeConfirmed t [] := by
  intro t
  have hanswer : answerOf Limits.default writeConfirmed = .ok writeConfirmed := rfl
  have hcall : callLoop Limits.default 7 emptyInbox [t] =
      some (.error (.io "the association was released"), emptyInbox) := rfl
  refine ⟨hanswer, hcall, ?_⟩
  rintro ⟨k', heq, -⟩
  rw [hcall, hanswer] at heq
  cases heq

end Iec61850.Client
