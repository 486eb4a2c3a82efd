import Iec61850.Mms.AssociationCore
import Iec61850.Theory.Runs

/-!
# Runs of an association

The public operations of an association as the inputs of a machine. A chunk of octets is
handled TPDU by TPDU; `visits` names the associations and TPDUs that one chunk brings
together, in order, so that a condition on what the peer sends can be stated where the peer's
octets meet the association. Results about runs go through `perform_journal`, which asks for
an invariant between the core and a journal of what happened, kept by each list of effects.
-/

namespace Iec61850.Mms

open Theory

/-- The public operations. -/
inductive Op where
  | start (now : Instant)
  | onBytes (now : Instant) (bytes : Bytes)
  | onTimeout (now : Instant)
  | call (now : Instant) (service : ConfirmedRequest)
  | respond (invokeId : Int) (service : ConfirmedResponse)
  | cancel (invokeId : Int)
  | send (pdu : Pdu)
  | sendEncoded (pdu : Bytes)
  | release (now : Instant)
  | abort
  | pollTransmit
  | pollEvent

namespace Association

/-- What an operation leaves behind; `none` is a panic. An operation that fails with an error
leaves the association as it was at that point. -/
def perform (a : Association) : Op → Option Association
  | .start now => some (start now a).1
  | .onBytes now bytes => onBytes now bytes a
  | .onTimeout now => some (onTimeout now a)
  | .call now service => some (call now service a).2
  | .respond invokeId service => some (respond invokeId service a).1
  | .cancel invokeId => some (cancel invokeId a).1
  | .send pdu => some (send pdu a).1
  | .sendEncoded pdu => some (sendEncoded pdu a).1
  | .release now => some (release now a).1
  | .abort => some (abort a)
  | .pollTransmit => some a.pollTransmit.2
  | .pollEvent => some a.pollEvent.2

/-! ### The TPDUs of a chunk -/

/-- The TPDUs that the loop of `on_bytes` handles, each with the association it meets. -/
def drainVisits (now : Instant) : Nat → Association → List (Association × Bytes)
  | 0, _ => []
  | fuel + 1, a =>
    match a.reader.nextTpdu with
    | .ok (some (tpdu, reader)) =>
      (received reader a, tpdu) ::
        (match settle (onTpdu now tpdu (received reader a)) with
          | some b => if b.state = .closed then [] else drainVisits now fuel b
          | none => [])
    | _ => []

/-- The TPDUs that an operation handles. -/
def visits (a : Association) : Op → List (Association × Bytes)
  | .onBytes now bytes =>
    if a.state = .closed then []
    else
      let a := { a with reader := a.reader.push bytes }
      drainVisits now (a.reader.buf.length + 1) a
  | _ => []

theorem state_close (r : CloseReason) (a : Association) : (close r a).state = .closed := by
  unfold close
  split
  · assumption
  · rfl

theorem state_protocolFailure (e : Error) (a : Association) :
    (protocolFailure e a).state = .closed := state_close _ _

/-- One round of the loop, over what the handler settled to. -/
theorem drain_succ (now : Instant) (fuel : Nat) (a : Association) :
    drain now (fuel + 1) a =
      match a.reader.nextTpdu with
      | .error _ => some (close .protocolError a)
      | .ok none => some a
      | .ok (some (tpdu, reader)) =>
        (settle (onTpdu now tpdu (received reader a))).bind fun b =>
          if b.state = .closed then some b else drain now fuel b := by
  rw [drain]
  rcases a.reader.nextTpdu with e | (_ | ⟨tpdu, reader⟩)
  · rfl
  · rfl
  · simp only
    rcases onTpdu now tpdu (received reader a) with ⟨b, (e | _) | u⟩
    · simp only [settle, Option.bind_some, state_protocolFailure, if_true]
    · rfl
    · rfl

/-! ### What the other operations can cause -/

/-- The requests that `on_timeout` expires: none when it closes the association instead. -/
def due (now : Instant) (a : Association) : List Int :=
  if a.cfg.requestTimeoutMs = 0 then [] else a.expired now

theorem mem_expired {now : Instant} {a : Association} {id : Int} :
    id ∈ a.expired now ↔ ∃ deadline, a.outstanding[id]? = some deadline ∧ now ≥ deadline := by
  simp [expired, List.mem_map, List.mem_filter, Std.ExtTreeMap.mem_toList_iff_getElem?_eq_some]

theorem mem_outstanding_of_due {now : Instant} {a : Association} {id : Int}
    (h : id ∈ a.due now) : id ∈ a.outstanding := by
  unfold due at h
  split at h
  · cases h
  · obtain ⟨deadline, hget, -⟩ := mem_expired.mp h
    rw [Std.ExtTreeMap.mem_iff_isSome_getElem?, hget]
    rfl

/-- The effect of a request that goes unanswered. -/
def timeoutEffect (id : Int) : Effect := .answer id (.timeout id)

/-- `on_timeout` closes the association: the connect deadline has passed in a state that it is
about. -/
def connectExpired (now : Instant) (a : Association) : Bool :=
  match a.connectDeadline with
  | none => false
  | some deadline => decide (¬ now < deadline ∧ a.state ≠ .established ∧ a.state ≠ .closed)

/-- The operations that neither call, nor look at the clock for requests, nor take an event. -/
def Quiet : Op → Prop
  | .call _ _ | .onTimeout _ | .pollEvent => False
  | _ => True

/-- What an operation other than `on_bytes` can cause, under which guard. -/
inductive OpCauses (a : Association) : Op → List Effect → Prop
  | nothing (op : Op) (hquiet : Quiet op) : OpCauses a op []
  | starts (now : Instant) (hrole : a.role = .client) (h : a.state = .idle) :
      OpCauses a (.start now) [.enter .connecting]
  | expires (now : Instant) (h : connectExpired now a = false) :
      OpCauses a (.onTimeout now) ((a.due now).map timeoutEffect)
  | timesOut (now : Instant) (r : CloseReason) (h : connectExpired now a = true)
      (hopen : a.state ≠ .closed) : OpCauses a (.onTimeout now) [.close r]
  | refused (now : Instant) (service : ConfirmedRequest) (f : Fault)
      (hcall : (call now service a).1 = .error f) : OpCauses a (.call now service) []
  | draws (now : Instant) (service : ConfirmedRequest) (f : Fault)
      (hcall : (call now service a).1 = .error f) (hstate : a.state = .established)
      (hsize : a.outstanding.size < a.allowed) :
      OpCauses a (.call now service) [.draw a.takeInvokeId.2.nextInvoke]
  | calls (now : Instant) (service : ConfirmedRequest)
      (hcall : (call now service a).1 = .ok a.takeInvokeId.1) (hstate : a.state = .established)
      (hsize : a.outstanding.size < a.allowed) (deadline : Instant) :
      OpCauses a (.call now service)
        [.draw a.takeInvokeId.2.nextInvoke, .issue a.takeInvokeId.1 deadline]
  | releases (now : Instant) (h : a.state = .established) :
      OpCauses a (.release now) [.enter .releasing]
  | aborts (r : CloseReason) : OpCauses a .abort [.close r]
  | polls : OpCauses a .pollEvent [.poll]

theorem core_timeOut (a : Association) (id : Int) :
    (timeOut a id).core = (timeoutEffect id).apply a.core := rfl

theorem core_foldl_timeOut (ids : List Int) (a : Association) :
    (ids.foldl timeOut a).core = a.core.after (ids.map timeoutEffect) := by
  induction ids generalizing a with
  | nil => rfl
  | cons id ids ih => rw [List.foldl_cons, ih, core_timeOut, List.map_cons, Core.after_cons]

theorem core_expireRequests (now : Instant) (a : Association) :
    (expireRequests now a).core = a.core.after ((a.due now).map timeoutEffect) := by
  unfold expireRequests due
  split
  · rfl
  · exact core_foldl_timeOut _ a

theorem onTimeout_causes (now : Instant) (a : Association) :
    ∃ es, OpCauses a (.onTimeout now) es ∧ (onTimeout now a).core = a.core.after es := by
  have hexpire : connectExpired now a = false → ∃ es, OpCauses a (.onTimeout now) es ∧
      (expireRequests now a).core = a.core.after es :=
    fun h => ⟨_, .expires now h, core_expireRequests now a⟩
  have hclose : ∀ r, connectExpired now a = true → a.state ≠ .closed →
      ∃ es, OpCauses a (.onTimeout now) es ∧ (close r a).core = a.core.after es :=
    fun r h hopen => ⟨_, .timesOut now r h hopen, core_close r a⟩
  unfold onTimeout
  unfold connectExpired at hexpire hclose
  cases hdeadline : a.connectDeadline with
  | none => exact hexpire (by rw [hdeadline])
  | some deadline =>
    simp only [hdeadline] at hexpire hclose ⊢
    by_cases hearly : now < deadline
    · rw [if_pos hearly]
      exact hexpire (by simp [hearly])
    · rw [if_neg hearly]
      cases hstate : a.state with
      | established => exact hexpire (by simp [hstate])
      | closed => exact hexpire (by simp [hstate])
      | _ => exact hclose _ (by simp [hstate, hearly]) (by simp [hstate])

/-- A call with the association up and room for a request sends it under a fresh identifier. -/
theorem call_eq (now : Instant) (service : ConfirmedRequest) {a : Association}
    (hstate : a.state = .established) (hsize : a.outstanding.size < a.allowed) :
    call now service a =
      match send (.confirmedRequest a.takeInvokeId.1 service) a.takeInvokeId.2 with
      | (b, .error f) => (.error f, b)
      | (b, .ok ()) => (.ok a.takeInvokeId.1, { b with
          outstanding := b.outstanding.insert a.takeInvokeId.1
            (now.plusMillis b.cfg.requestTimeoutMs.toNat)
          stats := { b.stats with requestsSent := satInc b.stats.requestsSent } }) := by
  unfold call
  exact (if_neg (by simp [hstate])).trans (if_neg (Nat.not_le.mpr hsize))

theorem call_causes (now : Instant) (service : ConfirmedRequest) (a : Association) :
    ∃ es, OpCauses a (.call now service) es ∧ (call now service a).2.core = a.core.after es := by
  by_cases hstate : a.state = .established
  · by_cases hsize : a.outstanding.size ≥ a.allowed
    · have heq : call now service a = (.error (.error (.limitExceeded "max_outstanding"
          (a.outstanding.size + 1))), a) := by
        unfold call
        rw [if_neg (by simp [hstate]), if_pos hsize]
      exact ⟨[], .refused now service _ (by rw [heq]), by rw [heq]; rfl⟩
    · have hlt : a.outstanding.size < a.allowed := by omega
      have hcore : a.takeInvokeId.2.core =
          a.core.after [.draw a.takeInvokeId.2.nextInvoke] := rfl
      have hcall := call_eq now service hstate hlt
      rcases (send_onlySent (.confirmedRequest a.takeInvokeId.1 service) a.takeInvokeId.2).cases_on
        with ⟨b, heq, hb⟩ | ⟨e, heq⟩
      · rw [heq] at hcall
        have hcfg : b.cfg = a.cfg := by
          change b.core.cfg = a.core.cfg
          rw [hb]
          rfl
        refine ⟨_, .calls now service (by rw [hcall]; rfl) hstate hlt
          (now.plusMillis a.cfg.requestTimeoutMs.toNat), ?_⟩
        rw [hcall]
        change Effect.apply b.core (.issue a.takeInvokeId.1
          (now.plusMillis b.cfg.requestTimeoutMs.toNat)) = _
        rw [hb, hcore, hcfg]
        rfl
      · rw [heq] at hcall
        exact ⟨_, .draws now service (.error e) (by rw [hcall]; rfl) hstate hlt,
          by rw [hcall]; exact hcore⟩
  · have heq : call now service a =
        (.error (.error (.invalidValue "association is not established")), a) := by
      unfold call
      rw [if_pos hstate]
    exact ⟨[], .refused now service _ (by rw [heq]), by rw [heq]; rfl⟩

theorem perform_causes (a : Association) (op : Op) (hop : ∀ now bytes, op ≠ .onBytes now bytes) :
    ∃ b es, perform a op = some b ∧ OpCauses a op es ∧ b.core = a.core.after es := by
  have hsent : Quiet op → ∀ (o : Outcome), OnlySent a o → ∃ b es, some o.1 = some b ∧
      OpCauses a op es ∧ b.core = a.core.after es :=
    fun hquiet o ho => ⟨o.1, [], rfl, .nothing op hquiet, ho.core_eq⟩
  have hnothing : Quiet op → ∀ b : Association, b.core = a.core → ∃ c es, some b = some c ∧
      OpCauses a op es ∧ c.core = a.core.after es :=
    fun hquiet b hb => ⟨b, [], rfl, .nothing op hquiet, hb⟩
  cases op with
  | onBytes now bytes => exact absurd rfl (hop now bytes)
  | start now =>
    simp only [perform, start]
    by_cases hrole : a.role = .client
    · by_cases hidle : a.state = .idle
      · rw [if_neg (by simp [hrole]), if_neg (by simp [hidle])]
        rcases (queueTpdu_onlySent (.connectionRequest (Osi.Cotp.Connect.request localRef
          a.cfg.localEnd.tSel a.cfg.remoteEnd.tSel a.cfg.tpduSizeExp.toNat)) a).cases_on with
          ⟨b, heq, hb⟩ | ⟨e, heq⟩
        · rw [heq, andThen_done]
          refine ⟨_, _, rfl, .starts now hrole hidle, ?_⟩
          change (armConnectDeadline now { b with state := .connecting }).core = _
          rw [core_armConnectDeadline]
          change { b.core with state := .connecting } = _
          rw [hb]
          rfl
        · rw [heq, andThen_fail]
          exact hnothing trivial _ rfl
      · rw [if_neg (by simp [hrole]), if_pos hidle]
        exact hnothing trivial _ rfl
    · rw [if_pos hrole]
      exact hnothing trivial _ rfl
  | onTimeout now =>
    obtain ⟨es, hes, hcore⟩ := onTimeout_causes now a
    exact ⟨_, es, rfl, hes, hcore⟩
  | call now service =>
    obtain ⟨es, hes, hcore⟩ := call_causes now service a
    exact ⟨_, es, rfl, hes, hcore⟩
  | respond invokeId service => exact hsent trivial _ (send_onlySent _ a)
  | cancel invokeId =>
    simp only [perform, cancel]
    split
    · exact hsent trivial _ (send_onlySent _ a)
    · exact hnothing trivial _ rfl
  | send pdu => exact hsent trivial _ (send_onlySent pdu a)
  | sendEncoded pdu => exact hsent trivial _ (sendEncoded_onlySent pdu a)
  | release now =>
    simp only [perform, release]
    by_cases hstate : a.state = .established
    · rw [if_neg (by simp [hstate])]
      rcases (sendAcse_onlySent .finish (.release (some 0)) a).cases_on with
        ⟨b, heq, hb⟩ | ⟨e, heq⟩
      · rw [heq, andThen_done]
        refine ⟨_, _, rfl, .releases now hstate, ?_⟩
        change { b.core with state := .releasing } = _
        rw [hb]
        rfl
      · rw [heq, andThen_fail]
        exact hnothing trivial _ rfl
    · rw [if_pos hstate]
      exact hnothing trivial _ rfl
  | abort =>
    simp only [perform, abort]
    split
    · exact hnothing trivial _ rfl
    · refine ⟨_, _, rfl, .aborts .aborted, ?_⟩
      rw [core_close, (queueTpdu_onlySent _ a).core_eq]
      rfl
  | pollTransmit =>
    simp only [perform, pollTransmit]
    split <;> exact hnothing trivial _ rfl
  | pollEvent => exact ⟨_, _, rfl, .polls, rfl⟩

/-! ### The step rule -/

section Journal

variable {τ : Type} (visitMark : Association → Bytes → List τ) (opMark : Association → Op → List τ)

/-- What an operation leaves in a journal: the marks of the TPDUs it handles, or its own. -/
def marks (a : Association) (op : Op) : List τ :=
  (visits a op).flatMap (fun v => visitMark v.1 v.2) ++ opMark a op

variable {visitMark opMark} {J : List τ → Core → Prop} {C : Association → Bytes → Prop}
  (hclose : ∀ T c, J T c → J T (c.after [.close .protocolError]))
  (htpdu : ∀ T a tpdu es, a.state ≠ .closed → J T a.core → C a tpdu → Causes a tpdu es →
    J (T ++ visitMark a tpdu) (a.core.after es))

include hclose htpdu

/-- The loop of `on_bytes`, by induction on its rounds. -/
theorem drain_journal (now : Instant) (fuel : Nat) {T : List τ} {a b : Association}
    (hopen : a.state ≠ .closed) (hJ : J T a.core)
    (hC : ∀ v ∈ drainVisits now fuel a, C v.1 v.2) (hb : drain now fuel a = some b) :
    J (T ++ (drainVisits now fuel a).flatMap (fun v => visitMark v.1 v.2)) b.core := by
  induction fuel generalizing a T with
  | zero =>
    cases hb
    simpa [drainVisits] using hJ
  | succ fuel ih =>
    rw [drain_succ] at hb
    rw [drainVisits] at hC ⊢
    rcases hnext : a.reader.nextTpdu with e | (_ | ⟨tpdu, reader⟩)
    · rw [hnext] at hb
      cases hb
      simp only [List.flatMap_nil, List.append_nil, core_close]
      exact hclose T a.core hJ
    · rw [hnext] at hb
      cases hb
      simpa using hJ
    · simp only [hnext] at hb hC ⊢
      simp only [Option.bind_eq_some_iff] at hb
      obtain ⟨m, hm, hrest⟩ := hb
      obtain ⟨es, hes, hcore⟩ := onTpdu_leads now tpdu (received reader a) m hm
      have hstep : J (T ++ visitMark (received reader a) tpdu) m.core := by
        rw [hcore]
        exact htpdu T (received reader a) tpdu es hopen hJ (hC _ List.mem_cons_self) hes
      rw [List.flatMap_cons, ← List.append_assoc]
      simp only [hm] at hC ⊢
      by_cases hclosed : m.state = .closed
      · rw [if_pos hclosed] at hrest
        cases hrest
        simpa [hclosed] using hstep
      · rw [if_neg hclosed] at hrest hC ⊢
        exact ih hclosed hstep (fun v hv => hC v (List.mem_cons_of_mem _ hv)) hrest

/-- The step rule: an invariant between a journal and the core is kept by every operation whose
TPDUs meet the condition, when each list of effects keeps it. -/
theorem perform_journal (hbytes : ∀ a now bytes, opMark a (.onBytes now bytes) = []) {op : Op}
    (hop : ∀ T a es, J T a.core → OpCauses a op es → J (T ++ opMark a op) (a.core.after es))
    {T : List τ} {a b : Association} (hJ : J T a.core)
    (hC : ∀ v ∈ visits a op, C v.1 v.2) (hb : perform a op = some b) :
    J (T ++ marks visitMark opMark a op) b.core := by
  by_cases hisBytes : ∃ now bytes, op = .onBytes now bytes
  · obtain ⟨now, bytes, rfl⟩ := hisBytes
    rw [marks, hbytes, List.append_nil]
    simp only [perform, onBytes] at hb
    simp only [visits] at hC ⊢
    by_cases hclosed : a.state = .closed
    · rw [if_pos hclosed] at hb ⊢
      cases hb
      simpa using hJ
    · rw [if_neg hclosed] at hb hC ⊢
      exact drain_journal hclose htpdu now _ (a := { a with reader := a.reader.push bytes })
        hclosed hJ hC hb
  · have hother : ∀ now bytes, op ≠ .onBytes now bytes := fun now bytes h =>
      hisBytes ⟨now, bytes, h⟩
    obtain ⟨c, es, hc, hes, hcore⟩ := perform_causes a op hother
    have hvisits : visits a op = [] := by
      cases op with
      | onBytes now bytes => exact absurd rfl (hother now bytes)
      | _ => rfl
    rw [hc] at hb
    cases hb
    rw [marks, hvisits, hcore]
    exact hop T a es hJ hes

end Journal

/-- The TPDUs that a run handles, each with the association it meets. -/
def handled (a : Association) (ops : List Op) : List (Association × Bytes) :=
  journal perform visits a ops

theorem marks_visits (a : Association) (op : Op) :
    marks (fun a tpdu => [(a, tpdu)]) (fun _ _ => []) a op = visits a op := by
  simp [marks]

/-- The condition on the TPDUs of a step, as a condition on the step. -/
def EachVisit (C : Association → Bytes → Prop) (a : Association) (op : Op) : Prop :=
  ∀ v ∈ visits a op, C v.1 v.2

instance EachVisit.decidable {C : Association → Bytes → Prop} [∀ a tpdu, Decidable (C a tpdu)]
    (a : Association) (op : Op) : Decidable (EachVisit C a op) :=
  inferInstanceAs (Decidable (∀ v ∈ visits a op, C v.1 v.2))

/-- The step rule for an invariant and a preorder on the core, without a journal. -/
theorem perform_keeps {I : Core → Prop} {R : Core → Core → Prop} {C : Association → Bytes → Prop}
    (hrefl : ∀ c, R c c) (htrans : ∀ a b c, R a b → R b c → R a c)
    (hclose : ∀ c, I c → I (c.after [.close .protocolError]) ∧
      R c (c.after [.close .protocolError]))
    (htpdu : ∀ a tpdu es, a.state ≠ .closed → I a.core → C a tpdu → Causes a tpdu es →
      I (a.core.after es) ∧ R a.core (a.core.after es)) {op : Op}
    (hop : ∀ a es, I a.core → OpCauses a op es → I (a.core.after es) ∧ R a.core (a.core.after es))
    {a b : Association} (hI : I a.core) (hC : EachVisit C a op)
    (hb : perform a op = some b) : I b.core ∧ R a.core b.core := by
  -- the state at the start of the step is the fixed end of the relation
  have h := @perform_journal Unit (fun _ _ => []) (fun _ _ => [])
    (fun _ c => I c ∧ R a.core c) C
    (fun T c hc => ⟨(hclose c hc.1).1, htrans _ _ _ hc.2 (hclose c hc.1).2⟩)
    (fun T s tpdu es hopen hs hCs hes =>
      have hk := htpdu s tpdu es hopen hs.1 hCs hes
      ⟨hk.1, htrans _ _ _ hs.2 hk.2⟩)
    (fun _ _ _ => rfl)
    op (fun T s es hs hes =>
      have hk := hop s es hs.1 hes
      ⟨hk.1, htrans _ _ _ hs.2 hk.2⟩)
    [] a b ⟨hI, hrefl _⟩ hC hb
  exact h

/-! ### Packets of a default client and a default server -/

/-- The packet of a TSDU that fits one TPDU. -/
def dtPacket (tsdu : Bytes) : Bytes := packet (dataTpdu (true, tsdu))

/-- The packet of MMS PDUs, each in a presentation data value of its own. -/
def mmsPacket (ps : List Bytes) : Bytes :=
  dtPacket ((do
    let ppdu ← (Osi.Presentation.Ppdu.userData
      (ps.map (Osi.Presentation.Pdv.single mmsContextDefault))).write
    (Osi.Session.Spdu.dataTransfer ppdu).write : Except Error Bytes).toOption.getD [])

/-- The CR of a default client. -/
def crPacket : Bytes :=
  packet [17, Osi.Cotp.CR, 0, 0, 0, 1, 0, 0xC0, 1, 13, 0xC1, 2, 0, 1, 0xC2, 2, 0, 1]

/-- The session CONNECT of a client. -/
def connectPacket (cfg : AssociationConfig) : Bytes :=
  dtPacket ((associateRequestTsdu cfg).toOption.getD [])

/-- The CC of a default server. -/
def ccPacket : Bytes :=
  packet [17, Osi.Cotp.CC, 0, 1, 0, 1, 0, 0xC0, 1, 13, 0xC1, 2, 0, 1, 0xC2, 2, 0, 1]

/-- The session ACCEPT with which a server answers a default client. -/
def acceptPacket (cfg : AssociationConfig) : Bytes :=
  dtPacket ((do
    let connect ← (associateRequestTsdu {}).toOption
    let (cp, init) ← proposalIn cfg.limits connect
    (associateAnswerTsdu cfg cp (mmsContextOf cp) (acseContextOf cp) init).toOption :
      Option Bytes).getD [])

/-- A confirmed Identify request. -/
def identifyPdu (invokeId : UInt8) : Bytes := [0xA0, 5, 2, 1, invokeId, 0x82, 0]

end Association

end Iec61850.Mms
