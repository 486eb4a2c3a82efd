import Iec61850.Mms.AssociationRuns

/-!
# Deadlines and the read loop

Both read loops, the server's `serve` and the client's `read_once`, tell an association the
time only when a read of the socket finds nothing. The loop iteration is modelled as that
choice, between two iterations the application may do whatever it likes, and a `Slot` carries
beside the association the time at which the handshake in progress began. What a handler may
do to a handshake is said once, in `Held`: all of them but the connection request leave its
deadline alone.
-/

namespace Iec61850.Mms

open Theory Ber Osi
open Osi.Cotp (Tpdu)
open Osi.Session (Spdu)
open Osi.Presentation (Ppdu Cp Pdv)
open Osi.Acse (Apdu Associate)

/-- A handshake has begun and is not complete. -/
def Phase.handshaking : Phase → Bool
  | .connecting | .associating => true
  | .idle | .established | .releasing | .closed => false

namespace Association

/-- One iteration of a read loop: what was read, or that the read found nothing. -/
def readOnce (now : Instant) : Option Bytes → Op
  | some bytes => .onBytes now bytes
  | none => .onTimeout now

/-- The deadline of the handshake, or of the release, in progress. -/
def handshakeDeadline (a : Association) : Option Instant :=
  match a.state with
  | .established | .closed => none
  | _ => a.connectDeadline

/-- The first deadline of an outstanding request. -/
def requestDeadline (a : Association) : Option Instant :=
  if a.cfg.requestTimeoutMs = 0 then none else (a.outstanding.toList.map Prod.snd).min?

def nextTimeout (a : Association) : Option Instant :=
  match handshakeDeadline a, requestDeadline a with
  | some x, some y => some (min x y)
  | x, y => x.or y

/-- The time a handshake that began at `began` has. -/
def connectTime (cfg : AssociationConfig) (began : Instant) : Instant :=
  began.plusMillis cfg.connectTimeoutMs.toNat

/-- A connection request that a server receives in the middle of a handshake: it arms the
deadline anew. -/
def restarts (a : Association) (tpdu : Bytes) : Bool :=
  match Tpdu.parse tpdu with
  | .ok (.connectionRequest _) =>
    decide (a.role = .server ∧ 0 < a.cfg.connectTimeoutMs.toNat) && a.state.handshaking
  | _ => false

/-- The events that a step emitted. -/
def emitted (a b : Association) : List AssociationEvent :=
  b.core.history.drop a.core.history.length

/-! ### When a handshake began -/

/-- When the handshake in progress after a step at `now` began: it is the one in progress
before the step, or it began with it. -/
def sinceStep (now : Instant) (since : Option Instant) (a b : Association) : Option Instant :=
  if b.state.handshaking then (if a.state.handshaking then since else some now) else none

/-- The same over the loop of `on_bytes`, TPDU by TPDU. -/
def drainSince (now : Instant) : Nat → Association → Option Instant → Option Instant
  | 0, _, since => since
  | fuel + 1, a, since =>
    match a.reader.nextTpdu with
    | .error _ => none
    | .ok none => since
    | .ok (some (tpdu, reader)) =>
      (settle (onTpdu now tpdu (received reader a))).bind fun b =>
        if b.state = .closed then none else drainSince now fuel b (sinceStep now since a b)

end Association

/-- An association slot: the association, and when the handshake in progress began. -/
structure Slot where
  assoc : Association
  since : Option Instant

namespace Slot

open Association

/-- A slot that was just opened. -/
def opened (cfg : AssociationConfig) (role : Role) : Slot := ⟨new cfg role, none⟩

/-- When the handshake in progress after an operation began. -/
def sinceAfter (s : Slot) (b : Association) : Op → Option Instant
  | .onBytes now bytes =>
    if s.assoc.state = .closed then none
    else
      let a := { s.assoc with reader := s.assoc.reader.push bytes }
      drainSince now (a.reader.buf.length + 1) a s.since
  | .start now => sinceStep now s.since s.assoc b
  | _ => if b.state.handshaking then s.since else none

/-- An operation on the slot; `none` is a panic. -/
def perform (s : Slot) (op : Op) : Option Slot :=
  (Association.perform s.assoc op).map fun b => ⟨b, s.sinceAfter b op⟩

/-- The handshake in progress has used up the time it has. A timeout of zero sets no limit. -/
def overdue (s : Slot) (now : Instant) : Bool :=
  match s.since with
  | some began =>
    decide (0 < s.assoc.cfg.connectTimeoutMs.toNat ∧ connectTime s.assoc.cfg began ≤ now)
  | none => false

/-- What is asked of a loop iteration: a handshake whose time is up is closed, and a request
whose deadline has passed is released and reported, by an event of its own unless the
association itself is closed at this point. -/
structure Timely (s : Slot) (now : Instant) (t : Slot) : Prop where
  handshake : s.overdue now = true → t.assoc.state = .closed
  released : ∀ id ∈ s.assoc.due now, id ∉ t.assoc.outstanding
  reported : ∀ id ∈ s.assoc.due now, AssociationEvent.timeout id ∈ emitted s.assoc t.assoc ∨
    connectExpired now s.assoc = true ∧ ∃ r, AssociationEvent.closed r ∈ emitted s.assoc t.assoc

/-- The condition on a step: octets are read only while nothing is overdue, and none of them
restarts a handshake. -/
def InTime (s : Slot) : Op → Prop
  | .onBytes now bytes =>
    s.overdue now = false ∧ s.assoc.due now = [] ∧
      ∀ v ∈ visits s.assoc (.onBytes now bytes), restarts v.1 v.2 = false
  | _ => True

instance InTime.decidable (s : Slot) (op : Op) : Decidable (s.InTime op) := by
  cases op <;> unfold InTime <;> infer_instance

end Slot

namespace Association

/-! ### What a handler does to a handshake -/

/-- From `a` to `b` no handshake began, and one that is still in progress kept its deadline. -/
structure Held (a b : Association) : Prop where
  cfg : b.cfg = a.cfg
  kept : b.state.handshaking = true →
    a.state.handshaking = true ∧ b.connectDeadline = a.connectDeadline

theorem Held.refl (a : Association) : Held a a := ⟨rfl, fun h => ⟨h, rfl⟩⟩

variable {a b : Association} {o : Outcome} {now deadline : Instant} {since : Option Instant}

theorem Held.trans {c : Association} (h : Held a b) (h' : Held b c) : Held a c := by
  refine ⟨h'.cfg.trans h.cfg, ?_⟩
  intro hc
  obtain ⟨hb, hdeadline⟩ := h'.kept hc
  obtain ⟨ha, hdeadline'⟩ := h.kept hb
  exact ⟨ha, hdeadline.trans hdeadline'⟩

theorem held_of_same (hcfg : b.cfg = a.cfg) (hstate : b.state = a.state)
    (hdeadline : b.connectDeadline = a.connectDeadline) : Held a b :=
  ⟨hcfg, fun h => ⟨hstate ▸ h, hdeadline⟩⟩

theorem held_of_over (hcfg : b.cfg = a.cfg) (hover : b.state.handshaking = false) : Held a b := by
  refine ⟨hcfg, ?_⟩
  intro h
  rw [hover] at h
  cases h

theorem handshaking_close (r : CloseReason) (a : Association) :
    (close r a).state.handshaking = false := by
  rw [state_close]
  rfl

theorem held_close (r : CloseReason) (a : Association) : Held a (close r a) := by
  refine held_of_over ?_ (handshaking_close r a)
  unfold close
  split <;> rfl

theorem held_emit (e : AssociationEvent) (a : Association) : Held a (emit e a) :=
  held_of_same rfl rfl rfl

theorem held_establish (n : Negotiated) (a : Association) : Held a (establish n a) :=
  held_of_over rfl rfl

theorem held_protocolFailure (e : Error) (a : Association) : Held a (protocolFailure e a) := by
  unfold protocolFailure
  refine Held.trans ?_ (held_close _ _)
  exact held_of_same rfl rfl rfl

theorem OnlySent.held (h : OnlySent a o) : Held a o.1 := by
  cases h with
  | sent packets => exact held_of_same rfl rfl rfl
  | failed e => exact Held.refl a

theorem held_andThen {k : Association → Outcome} (ho : Held a o.1)
    (hk : ∀ b, Held a b → Held a (k b).1) : Held a (andThen o k).1 := by
  obtain ⟨b, (f | _)⟩ := o
  · exact ho
  · exact hk b ho

theorem held_settle (ho : Held a o.1) (hb : settle o = some b) : Held a b := by
  obtain ⟨c, ((e | _) | _)⟩ := o
  · cases hb
    exact ho.trans (held_protocolFailure e c)
  · cases hb
  · cases hb
    exact ho

theorem held_refuse (layer : String) (code : Option Int) (a : Association) :
    Held a (refuse layer code a).1 :=
  (held_emit _ a).trans (held_close _ _)

theorem held_onPeerFinish (a : Association) : Held a (onPeerFinish a).1 := by
  apply held_andThen (sendAcse_onlySent _ _ a).held
  intro b hb
  exact hb.trans (held_close _ b)

/-! ### User data -/

theorem held_answerCancel (invokeId : Int) (a : Association) :
    Held a (answerCancel invokeId a) := by
  unfold answerCancel
  simp only
  split
  · exact Held.refl a
  · exact (sendPduUnchecked_onlySent _ a).held

theorem held_deliverMalformed (bytes : Bytes) (error : Error) (a : Association) :
    Held a (deliverMalformed bytes error a) := by
  unfold deliverMalformed
  simp only
  split
  · exact held_of_same rfl rfl rfl
  · exact held_of_same rfl rfl rfl

theorem held_deliverPdu (bytes : Bytes) (pdu : Pdu) (a : Association) :
    Held a (deliverPdu bytes pdu a) := by
  cases pdu with
  | cancelRequest invokeId => exact (held_answerCancel invokeId a).trans (held_emit _ _)
  | concludeRequest => exact (sendPduUnchecked_onlySent _ a).held.trans (held_close _ _)
  | concludeResponse => exact held_close _ a
  | reject r =>
    obtain ⟨(_ | id), reason⟩ := r
    · exact held_of_same rfl rfl rfl
    · exact held_of_same rfl rfl rfl
  | _ => exact held_of_same rfl rfl rfl

theorem held_deliverMms (bytes : Bytes) (a : Association) : Held a (deliverMms bytes a) := by
  unfold deliverMms
  split
  · exact held_deliverMalformed bytes _ a
  · exact held_deliverPdu bytes _ a

theorem held_userDataLoop (pdvs : List Pdv) (a : Association) : Held a (userDataLoop pdvs a).1 := by
  induction pdvs generalizing a with
  | nil => exact Held.refl a
  | cons pdv rest ih =>
    unfold userDataLoop
    split
    · exact ih a
    · split
      · split
        · exact held_onPeerFinish a
        · exact held_close _ a
        · exact held_close _ a
        · exact ih a
      · exact (held_deliverMms _ a).trans (ih _)

theorem held_onUserData (ppduBytes : Bytes) (a : Association) :
    Held a (onUserData ppduBytes a).1 := by
  unfold onUserData
  split
  · exact Held.refl a
  · exact held_userDataLoop _ a
  · exact held_close _ a

/-! ### The handshake -/

theorem held_answerAssociate (cp : Cp) (mmsContext acseContext : Nat) (peer : Initiate)
    (a : Association) : Held a (answerAssociate cp mmsContext acseContext peer a).1 := by
  unfold answerAssociate
  split
  · exact Held.refl a
  · rw [sendTsdu_eq]
    exact held_of_same rfl rfl rfl

theorem held_onSessionConnect (ppduBytes : Bytes) (a : Association) :
    Held a (onSessionConnect ppduBytes a).1 := by
  unfold onSessionConnect
  split
  · exact held_close _ a
  · split
    · exact Held.refl a
    · simp only
      split
      · exact held_of_same rfl rfl rfl
      · refine Held.trans ?_ (held_close _ _)
        exact held_of_same rfl rfl rfl
      · refine held_andThen (Held.trans ?_ (held_answerAssociate _ _ _ _ _)) ?_
        · exact held_of_same rfl rfl rfl
        intro b hb
        exact hb.trans (held_establish _ b)
    · exact held_close _ a

theorem held_onInitiateResponse (pdu : Pdu) (a : Association) :
    Held a (onInitiateResponse pdu a).1 := by
  unfold onInitiateResponse
  split
  · simp only
    split
    · exact held_of_same rfl rfl rfl
    · refine Held.trans ?_ (held_establish _ _)
      exact held_of_same rfl rfl rfl
  · exact held_refuse _ _ a
  · exact held_close _ a

theorem held_onAare (aare : Associate) (a : Association) : Held a (onAare aare a).1 := by
  unfold onAare
  split
  · split
    · exact Held.refl a
    · exact held_onInitiateResponse _ a
  · exact held_refuse _ _ a

theorem held_onSessionAccept (ppduBytes : Bytes) (a : Association) :
    Held a (onSessionAccept ppduBytes a).1 := by
  unfold onSessionAccept
  split
  · exact held_close _ a
  · split
    · exact Held.refl a
    · split
      · split
        · exact Held.refl a
        · exact held_close _ a
        · exact held_onAare _ a
      · exact held_refuse _ _ a
    · exact held_refuse _ _ a
    · exact held_close _ a

theorem held_onTsdu (tsdu : Bytes) (a : Association) : Held a (onTsdu tsdu a).1 := by
  unfold onTsdu
  split
  · exact Held.refl a
  · exact held_onSessionConnect _ a
  · exact held_onSessionAccept _ a
  · exact held_refuse _ _ a
  · exact held_onUserData _ a
  · exact held_onPeerFinish a
  all_goals exact held_close _ a

theorem held_onData (eot : Bool) (payload : Bytes) (a : Association) :
    Held a (onData eot payload a).1 := by
  unfold onData
  split
  · exact Held.refl a
  · exact held_of_same rfl rfl rfl
  · refine Held.trans ?_ (held_onTsdu _ _)
    exact held_of_same rfl rfl rfl

theorem held_onConnectionConfirm (c : Cotp.Connect) (a : Association) :
    Held a (onConnectionConfirm c a).1 := by
  unfold onConnectionConfirm
  split
  · exact held_close _ a
  · rename_i hguard
    have hstate : a.state = .connecting := by
      by_contra h
      exact hguard (Or.inr h)
    refine Held.trans ?_ (sendAssociateRequest_onlySent _).held
    refine ⟨rfl, ?_⟩
    intro _
    rw [hstate]
    exact ⟨rfl, rfl⟩

/-! ### One TPDU -/

/-- A handshake is in progress whose deadline is that of one that began at `now`. -/
def Armed (now : Instant) (a b : Association) : Prop :=
  b.cfg = a.cfg ∧ b.state.handshaking = true ∧
    (0 < a.cfg.connectTimeoutMs.toNat → b.connectDeadline = some (connectTime a.cfg now))

theorem armConnectDeadline_armed (now : Instant) (h : a.state.handshaking = true) :
    Armed now a (armConnectDeadline now a) := by
  unfold armConnectDeadline
  by_cases hpos : a.cfg.connectTimeoutMs.toNat > 0
  · rw [if_pos hpos]
    exact ⟨rfl, h, fun _ => rfl⟩
  · rw [if_neg hpos]
    exact ⟨rfl, h, fun hpos' => absurd hpos' hpos⟩

theorem onConnectionRequest_cases {c : Cotp.Connect}
    (hb : settle (onConnectionRequest now c a) = some b) :
    Held a b ∨ a.role = .server ∧ Armed now a b := by
  unfold onConnectionRequest at hb
  by_cases hrole : a.role ≠ .server
  · rw [if_pos hrole] at hb
    cases hb
    exact Or.inl (held_close _ a)
  · rw [if_neg hrole] at hb
    have hsent := queueTpdu_onlySent (connectionConfirm a.cfg c) (setTransport c a)
    generalize queueTpdu (connectionConfirm a.cfg c) (setTransport c a) = o at hsent hb
    cases hsent with
    | sent packets =>
      cases hb
      refine Or.inr ⟨not_not.mp hrole, ?_⟩
      exact armConnectDeadline_armed now (a := { setTransport c a with
        out := (setTransport c a).out ++ packets, state := .associating }) rfl
    | failed e =>
      cases hb
      refine Or.inl (Held.trans ?_ (held_protocolFailure e _))
      exact held_of_same rfl rfl rfl

/-- What one TPDU does to a handshake. -/
theorem onTpdu_cases {tpdu : Bytes} (hb : settle (onTpdu now tpdu a) = some b) :
    Held a b ∨ Armed now a b ∧ (restarts a tpdu = false → 0 < a.cfg.connectTimeoutMs.toNat →
      a.state.handshaking = false) := by
  unfold onTpdu at hb
  split at hb
  · exact Or.inl (held_settle (o := fail _ a) (Held.refl a) hb)
  · rename_i c hparse
    rcases onConnectionRequest_cases hb with hheld | ⟨hrole, harmed⟩
    · exact Or.inl hheld
    · refine Or.inr ⟨harmed, ?_⟩
      intro hrestarts hpos
      simpa [restarts, hparse, hrole, hpos] using hrestarts
  · exact Or.inl (held_settle (held_onConnectionConfirm _ a) hb)
  · exact Or.inl (held_settle (held_close _ a) hb)
  · exact Or.inl (held_settle (held_onData _ _ a) hb)
  · exact Or.inl (held_settle (held_close _ a) hb)

/-- The deadline that stands is that of the handshake in progress. -/
def Dated (a : Association) (since : Option Instant) : Prop :=
  ∀ began, since = some began → a.state.handshaking = true ∧
    (0 < a.cfg.connectTimeoutMs.toNat → a.connectDeadline = some (connectTime a.cfg began))

theorem dated_none (a : Association) : Dated a none := by
  intro began h
  cases h

theorem Dated.held (h : Dated a since) (hheld : Held a b) (hb : b.state.handshaking = true) :
    Dated b since := by
  intro began hbegan
  obtain ⟨-, hdeadline⟩ := h began hbegan
  refine ⟨hb, ?_⟩
  rw [hheld.cfg, (hheld.kept hb).2]
  exact hdeadline

theorem Dated.step_held (h : Dated a since) (hheld : Held a b) (now : Instant) :
    Dated b (sinceStep now since a b) := by
  unfold sinceStep
  by_cases hb : b.state.handshaking = true
  · rw [if_pos hb, if_pos (hheld.kept hb).1]
    exact h.held hheld hb
  · rw [if_neg hb]
    exact dated_none b

theorem Dated.step_armed (harmed : Armed now a b)
    (hfirst : 0 < a.cfg.connectTimeoutMs.toNat → a.state.handshaking = false) :
    Dated b (sinceStep now since a b) := by
  obtain ⟨hcfg, hb, hdeadline⟩ := harmed
  unfold sinceStep
  rw [if_pos hb]
  intro began hbegan
  refine ⟨hb, ?_⟩
  rw [hcfg]
  intro hpos
  rw [if_neg (by simp [hfirst hpos])] at hbegan
  cases hbegan
  exact hdeadline hpos

/-- The loop of `on_bytes`, by induction on its rounds. -/
theorem drain_dated (now : Instant) (fuel : Nat) (h : Dated a since)
    (hvisits : ∀ v ∈ drainVisits now fuel a, restarts v.1 v.2 = false)
    (hb : drain now fuel a = some b) : Dated b (drainSince now fuel a since) := by
  induction fuel generalizing a since with
  | zero =>
    cases hb
    exact h
  | succ fuel ih =>
    rw [drain_succ] at hb
    rw [drainVisits] at hvisits
    rw [drainSince]
    rcases hnext : a.reader.nextTpdu with e | (_ | ⟨tpdu, reader⟩)
    · exact dated_none b
    · rw [hnext] at hb
      cases hb
      exact h
    · simp only [hnext] at hb hvisits ⊢
      obtain ⟨m, hm, hrest⟩ := Option.bind_eq_some_iff.mp hb
      rw [hm, Option.bind_some]
      simp only [hm] at hvisits
      by_cases hclosed : m.state = .closed
      · rw [if_pos hclosed]
        exact dated_none b
      · rw [if_neg hclosed] at hrest hvisits ⊢
        refine ih ?_ (fun v hv => hvisits v (List.mem_cons_of_mem _ hv)) hrest
        rcases onTpdu_cases hm with hheld | ⟨harmed, hfirst⟩
        · refine Dated.step_held h (Held.trans (b := received reader a) ?_ hheld) now
          exact held_of_same rfl rfl rfl
        · exact Dated.step_armed harmed (hfirst (hvisits _ List.mem_cons_self))

/-! ### The other operations -/

/-- Requests that expire leave the handshake alone. -/
theorem expireRequests_same (now : Instant) (a : Association) :
    (expireRequests now a).cfg = a.cfg ∧ (expireRequests now a).state = a.state ∧
      (expireRequests now a).connectDeadline = a.connectDeadline := by
  have hfold : ∀ (ids : List Int) (a : Association), (ids.foldl timeOut a).cfg = a.cfg ∧
      (ids.foldl timeOut a).state = a.state ∧
      (ids.foldl timeOut a).connectDeadline = a.connectDeadline := by
    intro ids
    induction ids with
    | nil =>
      intro a
      exact ⟨rfl, rfl, rfl⟩
    | cons id ids ih =>
      intro a
      exact ih (timeOut a id)
  unfold expireRequests
  split
  · exact ⟨rfl, rfl, rfl⟩
  · exact hfold _ a

theorem held_expireRequests (now : Instant) (a : Association) : Held a (expireRequests now a) := by
  obtain ⟨hcfg, hstate, hdeadline⟩ := expireRequests_same now a
  exact held_of_same hcfg hstate hdeadline

theorem held_onTimeout (now : Instant) (a : Association) : Held a (onTimeout now a) := by
  unfold onTimeout
  split
  · exact held_expireRequests now a
  · split
    · exact held_expireRequests now a
    · split
      · exact held_close _ a
      · exact held_expireRequests now a
      · exact held_expireRequests now a
      · exact held_close _ a

theorem held_call (now : Instant) (service : ConfirmedRequest) (a : Association) :
    Held a (call now service a).2 := by
  unfold call
  split
  · exact Held.refl a
  · split
    · exact Held.refl a
    · simp only
      have hsent := send_onlySent (.confirmedRequest a.takeInvokeId.1 service) a.takeInvokeId.2
      generalize send (.confirmedRequest a.takeInvokeId.1 service) a.takeInvokeId.2 = o
        at hsent ⊢
      cases hsent with
      | sent packets => exact held_of_same rfl rfl rfl
      | failed e => exact held_of_same rfl rfl rfl

theorem held_perform {op : Op} (hstart : ∀ now, op ≠ .start now)
    (hbytes : ∀ now bytes, op ≠ .onBytes now bytes) (hb : perform a op = some b) : Held a b := by
  cases op with
  | start now => exact absurd rfl (hstart now)
  | onBytes now bytes => exact absurd rfl (hbytes now bytes)
  | onTimeout now =>
    cases hb
    exact held_onTimeout now a
  | call now service =>
    cases hb
    exact held_call now service a
  | respond invokeId service =>
    cases hb
    exact (send_onlySent _ a).held
  | cancel invokeId =>
    cases hb
    unfold cancel
    split
    · exact (send_onlySent _ a).held
    · exact Held.refl a
  | send pdu =>
    cases hb
    exact (send_onlySent pdu a).held
  | sendEncoded pdu =>
    cases hb
    exact (sendEncoded_onlySent pdu a).held
  | release now =>
    cases hb
    unfold release
    split
    · exact Held.refl a
    · apply held_andThen (sendAcse_onlySent _ _ a).held
      intro b hb
      exact held_of_over hb.cfg rfl
  | abort =>
    cases hb
    unfold abort
    split
    · exact Held.refl a
    · exact (queueTpdu_onlySent _ a).held.trans (held_close _ _)
  | pollTransmit =>
    cases hb
    unfold pollTransmit
    split
    · exact Held.refl a
    · exact held_of_same rfl rfl rfl
  | pollEvent =>
    cases hb
    exact held_of_same rfl rfl rfl

theorem start_dated (now : Instant) (a : Association) (since : Option Instant)
    (h : Dated a since) : Dated (start now a).1 (sinceStep now since a (start now a).1) := by
  unfold start
  split
  · exact h.step_held (Held.refl a) now
  · split
    · exact h.step_held (Held.refl a) now
    · rename_i hidle
      have hidle' : a.state = .idle := not_not.mp hidle
      have hsent := queueTpdu_onlySent (.connectionRequest (Cotp.Connect.request localRef
        a.cfg.localEnd.tSel a.cfg.remoteEnd.tSel a.cfg.tpduSizeExp.toNat)) a
      generalize queueTpdu _ a = o at hsent ⊢
      cases hsent with
      | failed e => exact h.step_held (Held.refl a) now
      | sent packets =>
        refine Dated.step_armed (armConnectDeadline_armed now (a := { a with
          out := a.out ++ packets, state := .connecting }) rfl) ?_
        intro _
        rw [hidle']
        rfl

/-! ### What a quiet iteration does -/

/-- Requests that expire are released, the others keep their deadlines, and each of those that
expire is reported. -/
theorem after_timeouts (ids : List Int) (c : Core) :
    (∀ id deadline, (c.after (ids.map timeoutEffect)).outstanding[id]? = some deadline ↔
        c.outstanding[id]? = some deadline ∧ id ∉ ids) ∧
      (c.after (ids.map timeoutEffect)).history = c.history ++ ids.map .timeout := by
  induction ids generalizing c with
  | nil => simp
  | cons i ids ih =>
    obtain ⟨hget, hhistory⟩ := ih ((timeoutEffect i).apply c)
    rw [List.map_cons, Core.after_cons]
    constructor
    · intro id deadline
      rw [hget]
      have herase : ((timeoutEffect i).apply c).outstanding[id]? = some deadline ↔
          c.outstanding[id]? = some deadline ∧ id ≠ i := by
        change (c.outstanding.erase i)[id]? = some deadline ↔ _
        rw [Std.ExtTreeMap.getElem?_erase]
        by_cases hid : id = i
        · simp [hid]
        · simp [hid, Ne.symm hid]
      rw [herase, List.mem_cons, not_or, and_assoc]
    · rw [hhistory, List.map_cons]
      change (c.history ++ [.timeout i]) ++ _ = _
      rw [List.append_assoc]
      rfl

/-- A read that finds nothing leaves no request in place whose deadline has passed. -/
theorem onTimeout_releases {id : Int} (hid : id ∈ a.due now) : id ∉ (onTimeout now a).outstanding ∧
      (AssociationEvent.timeout id ∈ emitted a (onTimeout now a) ∨ connectExpired now a = true ∧
          ∃ r, AssociationEvent.closed r ∈ emitted a (onTimeout now a)) := by
  obtain ⟨es, hes, hcore⟩ := onTimeout_causes now a
  have hout : (onTimeout now a).outstanding = (a.core.after es).outstanding := by
    rw [← hcore]
    rfl
  rw [hout, emitted, hcore]
  cases hes with
  | nothing op hquiet => cases hquiet
  | expires now h =>
    obtain ⟨hget, hhistory⟩ := after_timeouts (a.due now) a.core
    constructor
    · intro hmem
      obtain ⟨deadline, hdeadline⟩ := Option.isSome_iff_exists.mp
        (Std.ExtTreeMap.mem_iff_isSome_getElem?.mp hmem)
      exact ((hget id deadline).mp hdeadline).2 hid
    · rw [hhistory, List.drop_left]
      exact Or.inl (List.mem_map_of_mem hid)
  | timesOut now r h hopen =>
    have hclose : a.core.after [.close r] =
        Core.emit (.closed r) { a.core with state := .closed, outstanding := {} } := if_neg hopen
    rw [hclose]
    refine ⟨Std.ExtTreeMap.not_mem_empty, Or.inr ⟨h, r, ?_⟩⟩
    change _ ∈ (a.core.history ++ [_]).drop a.core.history.length
    rw [List.drop_left]
    exact List.mem_singleton_self _

theorem onTimeout_closes (hstate : a.state.handshaking = true)
    (hdeadline : a.connectDeadline = some deadline) (hpast : deadline ≤ now) :
    (onTimeout now a).state = .closed := by
  have hlate : ¬ now < deadline := Nat.not_lt.mpr hpast
  unfold onTimeout
  rw [hdeadline]
  simp only [if_neg hlate]
  cases hphase : a.state with
  | connecting => exact state_close _ a
  | associating => exact state_close _ a
  | _ =>
    rw [hphase] at hstate
    cases hstate

theorem now_lt_request {id : Int} (hset : a.cfg.requestTimeoutMs ≠ 0)
    (h : (onTimeout now a).outstanding[id]? = some deadline) : now < deadline := by
  obtain ⟨es, hes, hcore⟩ := onTimeout_causes now a
  have hout : (onTimeout now a).outstanding = (a.core.after es).outstanding := by
    rw [← hcore]
    rfl
  rw [hout] at h
  cases hes with
  | nothing op hquiet => cases hquiet
  | expires now hearly =>
    obtain ⟨hget, hnot⟩ := ((after_timeouts (a.due now) a.core).1 id deadline).mp h
    by_contra hpast
    refine hnot ?_
    rw [due, if_neg hset]
    exact mem_expired.mpr ⟨deadline, hget, Nat.not_lt.mp hpast⟩
  | timesOut now r hlate hopen =>
    have hclose : a.core.after [.close r] =
        Core.emit (.closed r) { a.core with state := .closed, outstanding := {} } := if_neg hopen
    rw [hclose] at h
    change (∅ : Outstanding)[id]? = some deadline at h
    rw [Std.ExtTreeMap.getElem?_empty] at h
    cases h

theorem now_lt_connectDeadline (hup : (onTimeout now a).state ≠ .established)
    (hopen : (onTimeout now a).state ≠ .closed)
    (h : (onTimeout now a).connectDeadline = some deadline) : now < deadline := by
  obtain ⟨-, hstate, hsame⟩ := expireRequests_same now a
  unfold onTimeout at hup hopen h
  cases hdeadline : a.connectDeadline with
  | none =>
    simp only [hdeadline] at h
    rw [hsame, hdeadline] at h
    cases h
  | some d =>
    simp only [hdeadline] at hup hopen h
    by_cases hearly : now < d
    · rw [if_pos hearly, hsame, hdeadline] at h
      cases h
      exact hearly
    · rw [if_neg hearly] at hup hopen
      cases hphase : a.state with
      | established =>
        rw [hphase] at hup
        exact absurd (hstate.trans hphase) hup
      | closed =>
        rw [hphase] at hopen
        exact absurd (hstate.trans hphase) hopen
      | _ =>
        rw [hphase] at hopen
        exact absurd (state_close _ a) hopen

/-- Once the time is told, the next timer lies ahead: a loop that sleeps until it and tells the
time again never spins. -/
theorem now_lt_nextTimeout (h : nextTimeout (onTimeout now a) = some deadline) :
    now < deadline := by
  have hhandshake : ∀ d, handshakeDeadline (onTimeout now a) = some d → now < d := by
    intro d hd
    unfold handshakeDeadline at hd
    split at hd
    · cases hd
    · cases hd
    · rename_i hup hopen
      exact now_lt_connectDeadline hup hopen hd
  have hrequest : ∀ d, requestDeadline (onTimeout now a) = some d → now < d := by
    intro d hd
    unfold requestDeadline at hd
    split at hd
    · cases hd
    · rename_i hset
      obtain ⟨⟨id, d'⟩, hmem, rfl⟩ := List.mem_map.mp (List.min?_mem hd)
      rw [(held_onTimeout now a).cfg] at hset
      exact now_lt_request hset (Std.ExtTreeMap.mem_toList_iff_getElem?_eq_some.mp hmem)
  unfold nextTimeout at h
  split at h
  · rename_i x y hx hy
    cases h
    exact Nat.lt_min.mpr ⟨hhandshake x hx, hrequest y hy⟩
  · rename_i x y hneither
    rcases Option.or_eq_some_iff.mp h with hx | ⟨-, hy⟩
    · exact hhandshake _ hx
    · exact hrequest _ hy

/-- A client that has just begun its handshake. -/
theorem now_lt_nextTimeout_started : ∃ deadline,
    nextTimeout (onTimeout 5 (start 0 (client {})).1) = some deadline ∧ 5 < deadline := by
  obtain ⟨deadline, h⟩ := Option.isSome_iff_exists.mp
    (show (nextTimeout (onTimeout 5 (start 0 (client {})).1)).isSome = true by decide +kernel)
  exact ⟨deadline, h, now_lt_nextTimeout h⟩

end Association

namespace Slot

open Association

/-! ### Runs -/

theorem overdue_iff {s : Slot} {now : Instant} :
    s.overdue now = true ↔ ∃ began, s.since = some began ∧
      0 < s.assoc.cfg.connectTimeoutMs.toNat ∧ connectTime s.assoc.cfg began ≤ now := by
  unfold overdue
  cases s.since with
  | none => simp
  | some began => simp

theorem dated_perform {s t : Slot} {op : Op} (h : Dated s.assoc s.since) (hC : s.InTime op)
    (hstep : s.perform op = some t) : Dated t.assoc t.since := by
  obtain ⟨b, hb, rfl⟩ := Option.map_eq_some_iff.mp hstep
  have hother : (∀ now, op ≠ .start now) → (∀ now bytes, op ≠ .onBytes now bytes) →
      Dated b (if b.state.handshaking then s.since else none) := by
    intro hstart hbytes
    have hheld := held_perform hstart hbytes hb
    split
    · rename_i hphase
      exact h.held hheld hphase
    · exact dated_none b
  cases op with
  | start now =>
    cases hb
    exact start_dated now s.assoc s.since h
  | onBytes now bytes =>
    obtain ⟨-, -, hvisits⟩ := hC
    simp only [Association.perform, onBytes] at hb
    simp only [visits] at hvisits
    simp only [sinceAfter]
    by_cases hclosed : s.assoc.state = .closed
    · rw [if_pos hclosed]
      exact dated_none b
    · rw [if_neg hclosed] at hb hvisits ⊢
      exact drain_dated now _ (a := { s.assoc with reader := s.assoc.reader.push bytes }) h
        hvisits hb
  | _ => exact hother (fun now => Op.noConfusion) (fun now bytes => Op.noConfusion)

/-- One iteration of the loop. -/
theorem timely_readOnce {s t : Slot} {now : Instant} {arrived : Option Bytes}
    (h : Dated s.assoc s.since) (hC : s.InTime (readOnce now arrived))
    (hstep : s.perform (readOnce now arrived) = some t) : Timely s now t := by
  cases arrived with
  | some bytes =>
    -- nothing is overdue, so that nothing is asked
    obtain ⟨hoverdue, hdue, -⟩ := hC
    refine ⟨?_, ?_, ?_⟩
    · intro hover
      rw [hoverdue] at hover
      cases hover
    · intro id hid
      rw [hdue] at hid
      cases hid
    · intro id hid
      rw [hdue] at hid
      cases hid
  | none =>
    cases hstep
    refine ⟨?_, fun id hid => (onTimeout_releases hid).1,
      fun id hid => (onTimeout_releases hid).2⟩
    intro hover
    obtain ⟨began, hbegan, hpos, hpast⟩ := overdue_iff.mp hover
    obtain ⟨hstate, hdeadline⟩ := h began hbegan
    exact onTimeout_closes hstate (hdeadline hpos) hpast

/-- The defect: a chunk that completes no packet, read once the time of the handshake is up,
leaves the handshake where it is. -/
theorem not_timely_of_partial {s t : Slot} {now : Instant} {bytes : Bytes}
    (hopen : s.assoc.state ≠ .closed) (hover : s.overdue now = true)
    (hpart : (s.assoc.reader.push bytes).nextTpdu = .ok none)
    (hstep : s.perform (readOnce now (some bytes)) = some t) : ¬ Timely s now t := by
  obtain ⟨b, hb, rfl⟩ := Option.map_eq_some_iff.mp hstep
  have hkept : b.state = s.assoc.state := by
    simp only [readOnce, Association.perform, onBytes] at hb
    rw [if_neg hopen, drain_succ, hpart] at hb
    cases hb
    rfl
  intro htimely
  exact hopen (hkept.symm.trans (htimely.handshake hover))

/-- Along every run of a slot in which octets are read only while nothing is overdue and no
connection request restarts a handshake, each loop iteration closes the handshake whose time is
up and releases and reports the requests whose deadlines have passed. -/
theorem run_timely (cfg : AssociationConfig) (role : Role) (ops : List Op) (now : Instant)
    (arrived : Option Bytes) (s t : Slot)
    (hC : Meets perform InTime (opened cfg role) (ops ++ [readOnce now arrived]))
    (hrun : run perform (opened cfg role) ops = some s)
    (hstep : s.perform (readOnce now arrived) = some t) : Timely s now t := by
  have hdated : Dated s.assoc s.since :=
    invariant_run (I := fun s => Dated s.assoc s.since)
      (fun _ _ _ h hC hstep => dated_perform h hC hstep) (dated_none _) hC.append_left hrun
  exact timely_readOnce hdated (meets_last hC hrun) hstep

/-- A connection request, and then silence until the deadline. -/
def silentRun : List Op := [.onBytes 0 crPacket]

/-- The time a default association has for its handshake is ten seconds. -/
theorem run_timely_silent : ∃ s t, run perform (opened {} .server) silentRun = some s ∧
      s.perform (readOnce 10000000000 none) = some t ∧ s.overdue 10000000000 = true ∧
      Timely s 10000000000 t := by
  have hsome : ((run perform (opened {} .server) silentRun).bind fun s =>
      s.perform (readOnce 10000000000 none)).isSome = true := by decide +kernel
  obtain ⟨t, ht⟩ := Option.isSome_iff_exists.mp hsome
  obtain ⟨s, hs, hstep⟩ := Option.bind_eq_some_iff.mp ht
  have hover : (run perform (opened {} .server) silentRun).map
      (fun s => s.overdue 10000000000) = some true := by decide +kernel
  rw [hs] at hover
  exact ⟨s, t, hs, hstep, Option.some.inj hover,
    run_timely {} .server silentRun 10000000000 none s t (by decide +kernel) hs hstep⟩

/-- One octet of the next packet, read at the deadline, keeps the handshake open. -/
theorem overrun : ¬ ∀ (cfg : AssociationConfig) (role : Role) (ops : List Op) (now : Instant)
      (arrived : Option Bytes) (s t : Slot), run perform (opened cfg role) ops = some s →
        s.perform (readOnce now arrived) = some t → Timely s now t := by
  intro h
  have hfinal : (run perform (opened {} .server) silentRun).bind (fun s =>
      (s.perform (readOnce 10000000000 (some [3]))).map fun t =>
        (s.overdue 10000000000, t.assoc.state)) = some (true, .associating) := by decide +kernel
  obtain ⟨s, hs, hfinal⟩ := Option.bind_eq_some_iff.mp hfinal
  obtain ⟨t, ht, hpair⟩ := Option.map_eq_some_iff.mp hfinal
  simp only [Prod.mk.injEq] at hpair
  have hclosed := (h {} .server _ _ _ s t hs ht).handshake hpair.1
  rw [hpair.2] at hclosed
  cases hclosed

end Slot

end Iec61850.Mms
