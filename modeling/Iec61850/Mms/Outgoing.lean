import Iec61850.Mms.AssociationSend

/-!
# What is queued for the socket stays queued

Every handler of an association only appends to its outgoing packets: `poll_transmit` is the
one operation that takes a packet away, and it takes the oldest. So the packets of a run leave
in the order in which they were queued, and none is withdrawn.
-/

namespace Iec61850.Mms.Association

open Theory Osi
open Osi.Presentation (Pdv)

/-- The handler left every packet that was queued before it where it was. -/
def Keeps (a : Association) (o : Outcome) : Prop := a.out <+: o.1.out

/-! ### Combining handlers -/

variable {a b : Association} {o : Outcome}

theorem keeps_of_out_eq (h : b.out = a.out) (r : Except Fault Unit) : Keeps a (b, r) := by
  unfold Keeps
  simp only [h, List.prefix_refl]

theorem Keeps.andThen {k : Association → Outcome} (ho : Keeps a o) (hk : ∀ b, Keeps b (k b)) :
    Keeps a (andThen o k) := by
  obtain ⟨b, e | u⟩ := o
  · exact ho
  · exact List.IsPrefix.trans ho (hk b)

theorem Keeps.congr (h : Keeps b o) (hout : b.out = a.out) : Keeps a o := by
  unfold Keeps at h ⊢
  rw [← hout]
  exact h

theorem OnlySent.keeps (h : OnlySent a o) : Keeps a o := by
  cases h with
  | sent packets => exact List.prefix_append a.out packets
  | failed e => exact List.prefix_refl a.out

/-! ### Bookkeeping touches no packet -/

@[simp] theorem out_emit (e : AssociationEvent) (a : Association) : (emit e a).out = a.out := rfl

@[simp] theorem out_close (r : CloseReason) (a : Association) : (close r a).out = a.out := by
  unfold close
  split <;> rfl

@[simp] theorem out_establish (n : Negotiated) (a : Association) : (establish n a).out = a.out :=
  rfl

variable (now : Instant)

@[simp] theorem out_armConnectDeadline (a : Association) :
    (armConnectDeadline now a).out = a.out := by
  unfold armConnectDeadline
  split <;> rfl

@[simp] theorem out_releaseSlot (id : Int) (a : Association) : (releaseSlot id a).out = a.out := rfl

@[simp] theorem out_received (reader : Tpkt.Reader) (a : Association) :
    (received reader a).out = a.out := rfl

@[simp] theorem out_protocolFailure (e : Error) (a : Association) :
    (protocolFailure e a).out = a.out := by
  simp [protocolFailure]

theorem keeps_done_close (r : CloseReason) (a : Association) : Keeps a (done (close r a)) :=
  keeps_of_out_eq (out_close r a) _

theorem keeps_fail (e : Error) (a : Association) : Keeps a (fail e a) := keeps_of_out_eq rfl _

theorem keeps_refuse (layer : String) (code : Option Int) (a : Association) :
    Keeps a (refuse layer code a) :=
  keeps_of_out_eq (by simp) _

/-! ### The handshake -/

theorem sendTsdu_keeps (tsdu : Bytes) (a : Association) : Keeps a (sendTsdu tsdu a) := by
  rw [sendTsdu_eq]
  exact List.prefix_append a.out _

theorem onConnectionRequest_keeps (c : Cotp.Connect) (a : Association) :
    Keeps a (onConnectionRequest now c a) := by
  unfold onConnectionRequest
  split
  · exact keeps_done_close _ a
  · have hsent : Keeps (setTransport c a) (queueTpdu (connectionConfirm a.cfg c) (setTransport c a)) :=
      (queueTpdu_onlySent _ _).keeps
    exact (hsent.congr rfl).andThen fun b => keeps_of_out_eq (by simp) _

theorem onConnectionConfirm_keeps (c : Cotp.Connect) (a : Association) :
    Keeps a (onConnectionConfirm c a) := by
  unfold onConnectionConfirm
  split
  · exact keeps_done_close _ a
  · exact (sendAssociateRequest_onlySent _).keeps.congr rfl

theorem answerAssociate_keeps (cp : Presentation.Cp) (mmsContext acseContext : Nat)
    (peer : Initiate) (a : Association) :
    Keeps a (answerAssociate cp mmsContext acseContext peer a) := by
  unfold answerAssociate
  split
  · exact keeps_fail _ a
  · exact sendTsdu_keeps _ a

theorem onSessionConnect_keeps (ppdu : Bytes) (a : Association) :
    Keeps a (onSessionConnect ppdu a) := by
  unfold onSessionConnect
  split
  · exact keeps_done_close _ a
  · split
    · exact keeps_fail _ a
    · dsimp only
      split
      · exact List.prefix_refl _
      · exact keeps_of_out_eq (by simp) _
      · apply Keeps.andThen
        · exact (answerAssociate_keeps _ _ _ _ _).congr rfl
        · intro b
          exact List.prefix_refl _
    · exact keeps_done_close _ a

theorem onInitiateResponse_keeps (pdu : Pdu) (a : Association) :
    Keeps a (onInitiateResponse pdu a) := by
  unfold onInitiateResponse
  split
  · dsimp only
    split
    · exact List.prefix_refl _
    · exact List.prefix_refl _
  · exact keeps_refuse _ _ a
  · exact keeps_done_close _ a

theorem onAare_keeps (aare : Acse.Associate) (a : Association) : Keeps a (onAare aare a) := by
  unfold onAare
  split
  · split
    · exact keeps_fail _ a
    · exact onInitiateResponse_keeps _ a
  · exact keeps_refuse _ _ a

theorem onSessionAccept_keeps (ppdu : Bytes) (a : Association) :
    Keeps a (onSessionAccept ppdu a) := by
  unfold onSessionAccept
  split
  · exact keeps_done_close _ a
  · split
    · exact keeps_fail _ a
    · split
      · split
        · exact keeps_fail _ a
        · exact keeps_done_close _ a
        · exact onAare_keeps _ a
      · exact keeps_refuse _ _ a
    · exact keeps_refuse _ _ a
    · exact keeps_done_close _ a

/-! ### An association that is up -/

theorem onPeerFinish_keeps (a : Association) : Keeps a (onPeerFinish a) := by
  unfold onPeerFinish
  refine (sendAcse_onlySent _ _ a).keeps.andThen ?_
  intro b
  exact keeps_done_close _ b

theorem answerCancel_keeps (invokeId : Int) (a : Association) :
    a.out <+: (answerCancel invokeId a).out := by
  unfold answerCancel
  dsimp only
  split
  · exact List.prefix_refl _
  · exact (sendPduUnchecked_onlySent _ a).keeps

theorem deliverMms_keeps (bytes : Bytes) (a : Association) :
    a.out <+: (deliverMms bytes a).out := by
  unfold deliverMms
  split
  · unfold deliverMalformed
    dsimp only
    split
    · exact List.prefix_refl _
    · exact List.prefix_refl _
  · unfold deliverPdu
    split
    case h_6 invokeId _ => exact answerCancel_keeps invokeId a
    case h_9 =>
      rw [out_close]
      exact (sendPduUnchecked_onlySent _ a).keeps
    case h_10 =>
      simp only [out_close, List.prefix_refl]
    case h_5 r _ =>
      cases r.originalInvokeId
      · exact List.prefix_refl _
      · exact List.prefix_refl _
    all_goals exact List.prefix_refl _

theorem userDataLoop_keeps (pdvs : List Pdv) (a : Association) : Keeps a (userDataLoop pdvs a) := by
  induction pdvs generalizing a with
  | nil => exact List.prefix_refl _
  | cons pdv rest ih =>
    rw [userDataLoop]
    split
    · exact ih a
    · split
      · split
        · exact onPeerFinish_keeps a
        · exact keeps_done_close _ a
        · exact keeps_done_close _ a
        · exact ih a
      · exact (deliverMms_keeps _ a).trans (ih _)

theorem onUserData_keeps (ppdu : Bytes) (a : Association) : Keeps a (onUserData ppdu a) := by
  unfold onUserData
  split
  · exact keeps_fail _ a
  · exact userDataLoop_keeps _ a
  · exact keeps_done_close _ a

theorem onTsdu_keeps (tsdu : Bytes) (a : Association) : Keeps a (onTsdu tsdu a) := by
  unfold onTsdu
  split
  · exact keeps_fail _ a
  · exact onSessionConnect_keeps _ a
  · exact onSessionAccept_keeps _ a
  · exact keeps_refuse _ _ a
  · exact onUserData_keeps _ a
  · exact onPeerFinish_keeps a
  all_goals exact keeps_done_close _ a

theorem onTpdu_keeps (tpdu : Bytes) (a : Association) :
    Keeps a (onTpdu now tpdu a) := by
  unfold onTpdu
  split
  · exact keeps_fail _ a
  · exact onConnectionRequest_keeps now _ a
  · exact onConnectionConfirm_keeps _ a
  · exact keeps_done_close _ a
  · unfold onData
    split
    · exact keeps_fail _ a
    · exact List.prefix_refl _
    · exact (onTsdu_keeps _ _).congr rfl
  · exact keeps_done_close _ a

/-! ### The operations -/

theorem drain_keeps (fuel : Nat) (h : drain now fuel a = some b) :
    a.out <+: b.out := by
  induction fuel generalizing a with
  | zero =>
    cases h
    exact List.prefix_refl _
  | succ fuel ih =>
    rw [drain] at h
    split at h
    · cases h
      simp only [out_close, List.prefix_refl]
    · cases h
      exact List.prefix_refl _
    · rename_i tpdu reader hnext
      have hkeeps : Keeps a (onTpdu now tpdu (received reader a)) :=
        (onTpdu_keeps now tpdu (received reader a)).congr rfl
      split at h
      · cases h
      · rename_i c e ho
        rw [ho] at hkeeps
        cases h
        rw [out_protocolFailure]
        exact hkeeps
      · rename_i c ho
        rw [ho] at hkeeps
        split at h
        · cases h
          exact hkeeps
        · exact hkeeps.trans (ih h)

theorem onBytes_keeps {now : Instant} {bytes : Bytes} (h : onBytes now bytes a = some b) :
    a.out <+: b.out := by
  unfold onBytes at h
  split at h
  · cases h
    exact List.prefix_refl _
  · have hkeeps := drain_keeps now _ h
    exact hkeeps

theorem out_foldl_timeOut (ids : List Int) (a : Association) : (ids.foldl timeOut a).out = a.out := by
  induction ids generalizing a with
  | nil => rfl
  | cons id ids ih =>
    rw [List.foldl_cons, ih]
    rfl

theorem expireRequests_keeps (a : Association) :
    (expireRequests now a).out = a.out := by
  unfold expireRequests
  split
  · rfl
  · exact out_foldl_timeOut _ a

theorem onTimeout_keeps (a : Association) : (onTimeout now a).out = a.out := by
  unfold onTimeout
  split
  · exact expireRequests_keeps now a
  · split
    · exact expireRequests_keeps now a
    · split
      · exact out_close _ a
      · exact expireRequests_keeps now a
      · exact expireRequests_keeps now a
      · exact out_close _ a

@[simp] theorem out_pollEvent (a : Association) : a.pollEvent.2.out = a.out := rfl

theorem sendEncoded_keeps (pdu : Bytes) (a : Association) : a.out <+: (sendEncoded pdu a).1.out :=
  (sendEncoded_onlySent pdu a).keeps

end Iec61850.Mms.Association
