import Iec61850.Mms.HandshakeCodec
import Iec61850.Mms.PacketStream

/-!
# The handshake, seen from each end

Between two given configurations the four messages of the handshake are fixed: CR, CC, the
associate request and its answer (`Exchange`). Each end goes through three stages, in each of
which the TPDUs it still has to handle and those it still owes the other end are known; one
step lemma for each end says that the next TPDU takes it on.
-/

namespace Iec61850.Mms.Association

open Theory Osi
open Osi.Cotp (Tpdu tpduSize)
open Osi.Presentation (Cp)

/-! ### The messages -/

/-- The connection request of a configuration. -/
def proposedConnection (cfg : AssociationConfig) : Cotp.Connect :=
  Cotp.Connect.request localRef cfg.localEnd.tSel cfg.remoteEnd.tSel cfg.tpduSizeExp.toNat

/-- The presentation parameters a server answers to; their user data does not matter to it. -/
def proposedParameters (cfg : AssociationConfig) : Cp :=
  Cp.connectRequest cfg.localEnd.pSel cfg.remoteEnd.pSel acseContextDefault mmsContextDefault []

/-- The TPDU payload two configurations agree on. -/
def agreedData (c s : AssociationConfig) : Nat := tpduSize (negotiatedExp s (proposedConnection c)) - 3

/-- A TSDU its receiver takes: it fits one TPDU, or the receiver's limit. -/
def Takeable (limit chunk : Nat) (tsdu : Bytes) : Prop := tsdu.length ≤ limit ∨ tsdu.length ≤ chunk

/-- The four messages between a client and a server configuration, all of which can be encoded
and taken. -/
structure Exchange (c s : AssociationConfig) where
  request : Bytes
  confirm : Bytes
  connect : Bytes
  accept : Bytes
  request_ok : (Tpdu.connectionRequest (proposedConnection c)).write = .ok request
  confirm_ok : (connectionConfirm s (proposedConnection c)).write = .ok confirm
  connect_ok : associateRequestTsdu c = .ok connect
  accept_ok : associateAnswerTsdu s (proposedParameters c) mmsContextDefault acseContextDefault
    (proposal c) = .ok accept
  connect_takeable : Takeable s.maxTsdu (agreedData c s) connect
  accept_takeable : Takeable c.maxTsdu (agreedData c s) accept

section Messages

variable {c s : AssociationConfig} (x : Exchange c s)

theorem clampExp_lt (exp : Nat) : Cotp.clampExp exp < 256 := by
  simp only [Cotp.clampExp, Cotp.tpduSizeMinExp, Cotp.tpduSizeMaxExp]
  omega

theorem proposedConnection_fitting (cfg : AssociationConfig) : (proposedConnection cfg).Fitting := by
  have href : localRef < 65536 := by decide
  refine ⟨by simp [proposedConnection, Cotp.Connect.request], href, fun exp hexp => ?_⟩
  simp only [proposedConnection, Cotp.Connect.request, Option.some.injEq] at hexp
  subst hexp
  exact clampExp_lt _

/-- The parameters of the CC. -/
def confirmedConnection (c s : AssociationConfig) : Cotp.Connect :=
  { dstRef := localRef
    srcRef := localRef
    classOptions := 0
    tpduSizeExp := some (negotiatedExp s (proposedConnection c))
    srcTsel := some c.remoteEnd.tSel
    dstTsel := some c.localEnd.tSel }

theorem confirmedConnection_fitting (c s : AssociationConfig) :
    (confirmedConnection c s).Fitting := by
  have href : localRef < 65536 := by decide
  refine ⟨href, href, fun exp hexp => ?_⟩
  have := s.tpduSizeExp.toNat_lt
  simp only [confirmedConnection, Option.some.injEq] at hexp
  subst hexp
  exact Nat.lt_of_le_of_lt (Nat.min_le_right _ _) (by omega)

theorem agreedData_confirmed (c s : AssociationConfig) :
    tpduSize (negotiatedExp c (confirmedConnection c s)) - 3 = agreedData c s := by
  have h : Cotp.clampExp (negotiatedExp c (confirmedConnection c s)) =
      Cotp.clampExp (negotiatedExp s (proposedConnection c)) := by
    simp only [negotiatedExp, confirmedConnection, proposedConnection, Cotp.Connect.request,
      Option.getD_some, Cotp.clampExp, Cotp.tpduSizeMinExp, Cotp.tpduSizeMaxExp]
    omega
  rw [agreedData, tpduSize, tpduSize, h]

theorem agreedData_bounds (c s : AssociationConfig) : 125 ≤ agreedData c s ∧ agreedData c s ≤ 8189 :=
  tpduSize_bounds _

theorem agreedData_le (c s : AssociationConfig) :
    agreedData c s ≤ tpduSize c.tpduSizeExp.toNat - 3 ∧
      agreedData c s ≤ tpduSize s.tpduSizeExp.toNat - 3 := by
  have hclient : Cotp.clampExp (negotiatedExp s (proposedConnection c)) ≤
      Cotp.clampExp c.tpduSizeExp.toNat := by
    simp only [negotiatedExp, proposedConnection, Cotp.Connect.request, Option.getD_some,
      Cotp.clampExp, Cotp.tpduSizeMinExp, Cotp.tpduSizeMaxExp]
    omega
  have hserver : Cotp.clampExp (negotiatedExp s (proposedConnection c)) ≤
      Cotp.clampExp s.tpduSizeExp.toNat := by
    simp only [negotiatedExp, Cotp.clampExp, Cotp.tpduSizeMinExp, Cotp.tpduSizeMaxExp]
    omega
  exact ⟨Nat.sub_le_sub_right (Nat.pow_le_pow_right (by omega) hclient) 3,
    Nat.sub_le_sub_right (Nat.pow_le_pow_right (by omega) hserver) 3⟩

namespace Exchange

/-- The TPDUs of the associate request. -/
def connectTpdus : List Bytes := tsduTpdus (agreedData c s) x.connect

/-- The TPDUs of its answer. -/
def acceptTpdus : List Bytes := tsduTpdus (agreedData c s) x.accept

theorem request_parse : Tpdu.parse x.request = .ok (.connectionRequest (proposedConnection c)) :=
  Cotp.Tpdu.parse_connectionRequest (proposedConnection_fitting c) x.request_ok

theorem confirm_parse : Tpdu.parse x.confirm = .ok (.connectionConfirm (confirmedConnection c s)) :=
  Cotp.Tpdu.parse_connectionConfirm (confirmedConnection_fitting c s) x.confirm_ok

theorem request_packable : Packable x.request :=
  Nat.le_trans (Cotp.Tpdu.write_length x.request_ok (proposedConnection_fitting c)) (by decide)

theorem confirm_packable : Packable x.confirm :=
  Nat.le_trans (Cotp.Tpdu.write_length x.confirm_ok (confirmedConnection_fitting c s)) (by decide)

theorem segments_packable (tsdu : Bytes) :
    ∀ seg ∈ segments (agreedData c s) tsdu.length tsdu, Packable (dataTpdu seg) := by
  have hbounds := agreedData_bounds c s
  exact tsduTpdus_packable (by omega) hbounds.2 tsdu

end Exchange

end Messages

/-! ### The client -/

/-- The terms on which the client's end is up. -/
def clientTerms (c s : AssociationConfig) : Negotiated :=
  let offered := min s.maxPdu.toNat c.maxPdu.toNat
  { maxPdu := if offered = 0 then c.maxPdu.toNat else offered
    maxOutstanding := min c.maxOutstanding.toNat s.maxOutstanding.toNat
    tpduData := agreedData c s
    mmsContext := mmsContextDefault }

/-- The terms on which the server's end is up. -/
def serverTerms (c s : AssociationConfig) : Negotiated :=
  { maxPdu := if c.maxPdu.toNat = 0 then s.maxPdu.toNat else c.maxPdu.toNat
    maxOutstanding := min c.maxOutstanding.toNat s.maxOutstanding.toNat
    tpduData := agreedData c s
    mmsContext := mmsContextDefault }

/-- What stays the same at one end through the handshake. -/
structure Opening (cfg : AssociationConfig) (role : Role) (a : Association) : Prop where
  config : a.cfg = cfg
  role : a.role = role
  acse : a.acseContext = acseContextDefault
  mms : a.mmsContext = mmsContextDefault
  outstanding : a.outstanding = ∅

/-- The stages of the client: what it still has to handle, what it still owes. -/
inductive ClientStage {c s : AssociationConfig} (x : Exchange c s) :
    List Bytes → List Bytes → Association → Prop
  | connecting {a : Association} (hopening : Opening c .client a) (hstate : a.state = .connecting)
      (hparts : a.reassembler.parts = []) (hlimit : a.reassembler.limit = c.maxTsdu) :
      ClientStage x (x.confirm :: x.acceptTpdus) x.connectTpdus a
  | associating {a : Association} {segs : List (Bool × Bytes)} (hopening : Opening c .client a)
      (hstate : a.state = .associating) (hdata : a.tpduData = agreedData c s)
      (hreceiving : Receiving x.accept segs a.reassembler)
      (hpackable : ∀ seg ∈ segs, Packable (dataTpdu seg)) :
      ClientStage x (segs.map dataTpdu) [] a
  | established {a : Association} (hopening : Opening c .client a) (hstate : a.state = .established)
      (hterms : a.negotiated = some (clientTerms c s)) : ClientStage x [] [] a

/-- The stages of the server. -/
inductive ServerStage {c s : AssociationConfig} (x : Exchange c s) :
    List Bytes → List Bytes → Association → Prop
  | idle {a : Association} (hopening : Opening s .server a) (hstate : a.state = .idle)
      (hparts : a.reassembler.parts = []) (hlimit : a.reassembler.limit = s.maxTsdu) :
      ServerStage x (x.request :: x.connectTpdus) (x.confirm :: x.acceptTpdus) a
  | associating {a : Association} {segs : List (Bool × Bytes)} (hopening : Opening s .server a)
      (hstate : a.state = .associating) (hdata : a.tpduData = agreedData c s)
      (hreceiving : Receiving x.connect segs a.reassembler)
      (hpackable : ∀ seg ∈ segs, Packable (dataTpdu seg)) :
      ServerStage x (segs.map dataTpdu) x.acceptTpdus a
  | established {a : Association} (hopening : Opening s .server a) (hstate : a.state = .established)
      (hterms : a.negotiated = some (serverTerms c s)) : ServerStage x [] [] a

/-- Both ends want at least one request outstanding, and bound the size of a PDU both or
neither. -/
structure Compatible (c s : AssociationConfig) : Prop where
  clientOutstanding : 0 < c.maxOutstanding.toNat
  serverOutstanding : 0 < s.maxOutstanding.toNat
  sizes : c.maxPdu.toNat = 0 ↔ s.maxPdu.toNat = 0

/-- What handling a TPDU does to an end: it may queue packets, and moves on by one stage. -/
def Advances (Stage : List Bytes → List Bytes → Association → Prop) (now : Instant) (tpdu : Bytes)
    (todo owes : List Bytes) (a : Association) : Prop :=
  ∃ a' made owes', onTpdu now tpdu a = done a' ∧ a'.reader = a.reader ∧
    a'.out = a.out ++ made.map packet ∧ owes = made ++ owes' ∧ Stage todo owes' a'

section Steps

-- the sizes are compared as they stand, never computed
attribute [local irreducible] Cotp.tpduSize

variable {c s : AssociationConfig} {x : Exchange c s} {a : Association} (now : Instant)

theorem setTransport_tpduData (peer : Cotp.Connect) :
    (setTransport peer a).tpduData = tpduSize (negotiatedExp a.cfg peer) - 3 := rfl

theorem sendAssociateRequest_eq (hrequest : associateRequestTsdu a.cfg = .ok x.connect)
    (hdata : a.tpduData = agreedData c s) :
    sendAssociateRequest a = done { a with out := a.out ++ x.connectTpdus.map packet } := by
  have hpackets : tsduPackets a.tpduData x.connect = x.connectTpdus.map packet := by
    rw [hdata, tsduPackets_eq]
    rfl
  unfold sendAssociateRequest
  simp only [hrequest, sendTsdu_eq, hpackets]

/-- The CC makes the client send its associate request in TPDUs of the agreed size. -/
theorem client_confirm (hopening : Opening c .client a) (hstate : a.state = .connecting)
    (hparts : a.reassembler.parts = []) (hlimit : a.reassembler.limit = c.maxTsdu) :
    Advances (ClientStage x) now x.confirm x.acceptTpdus x.connectTpdus a := by
  obtain ⟨hcfg, hrole, hacse, hmms, houtstanding⟩ := hopening
  obtain ⟨b, hb, hreader, hout, hbState, hbOpening, hbData, hbParts, hbLimit⟩ :
      ∃ b, onTpdu now x.confirm a = sendAssociateRequest b ∧ b.reader = a.reader ∧ b.out = a.out ∧
        b.state = .associating ∧ Opening c .client b ∧ b.tpduData = agreedData c s ∧
        b.reassembler.parts = [] ∧ b.reassembler.limit = c.maxTsdu := by
    have hdata : (setTransport (confirmedConnection c s) a).tpduData = agreedData c s := by
      rw [setTransport_tpduData, hcfg, agreedData_confirmed]
    refine ⟨{ setTransport (confirmedConnection c s) a with state := .associating }, ?_, rfl, rfl,
      rfl, ⟨hcfg, hrole, hacse, hmms, houtstanding⟩, hdata, hparts, hlimit⟩
    have hcond : ¬ (a.role ≠ .client ∨ a.state ≠ .connecting) := by
      rw [hrole, hstate]
      simp
    unfold onTpdu
    rw [x.confirm_parse]
    simp only [onConnectionConfirm]
    rw [if_neg hcond]
  have hsent := sendAssociateRequest_eq (by rw [hbOpening.config]; exact x.connect_ok) hbData
  refine ⟨_, x.connectTpdus, [], hb.trans hsent, hreader, by rw [← hout], by simp, ?_⟩
  refine ClientStage.associating ⟨hbOpening.config, hbOpening.role, hbOpening.acse, hbOpening.mms,
    hbOpening.outstanding⟩ hbState hbData (Receiving.start hbParts ?_)
    (Exchange.segments_packable x.accept)
  rw [hbLimit]
  exact x.accept_takeable

/-- The terms the client takes from the answer. -/
theorem client_terms (hcompat : Compatible c s) : clamp 1 c.maxOutstanding.toNat
        (initiateAnswer s (proposal c)).maxServOutstandingCalling.toNat =
      some (min c.maxOutstanding.toNat s.maxOutstanding.toNat) ∧
    ((initiateAnswer s (proposal c)).localDetail.getD 0).toNat =
      min s.maxPdu.toNat c.maxPdu.toNat := by
  have h1 := hcompat.clientOutstanding
  have h2 := hcompat.serverOutstanding
  constructor
  · simp only [clamp, initiateAnswer, proposal, Initiate.request]
    rw [if_pos (by omega), Option.some.injEq]
    omega
  · simp only [initiateAnswer, proposal, Initiate.request, Option.getD_some]
    omega

theorem client_accept (hcompat : Compatible c s) (hopening : Opening c .client a)
    (hdata : a.tpduData = agreedData c s) :
    ∃ a', onTsdu x.accept a = done a' ∧ a'.reader = a.reader ∧ a'.out = a.out ∧
      ClientStage x [] [] a' := by
  obtain ⟨unit, cpa, aare, hspdu, hppdu, haccepted, haare, hresult, hinitiate⟩ :=
    associateAnswerTsdu_read (by simp [proposedParameters, Cp.connectRequest]) (by decide) (by decide)
      x.accept_ok
  obtain ⟨hshare, hdetail⟩ := client_terms hcompat
  obtain ⟨rfl, hrole, hacse, hmms, houtstanding⟩ := hopening
  have hcond : ¬ a.role ≠ .client := by
    rw [hrole]
    simp
  let b : Association := { a with peerMaxPdu := min s.maxPdu.toNat a.cfg.maxPdu.toNat }
  have hterms : negotiatedFrom b (min a.cfg.maxOutstanding.toNat s.maxOutstanding.toNat) =
      clientTerms a.cfg s := by
    simp only [negotiatedFrom, clientTerms, b, hdata, hmms]
  have hup : onTsdu x.accept a = done (establish (clientTerms a.cfg s) b) := by
    unfold onTsdu
    rw [hspdu]
    simp only [onSessionAccept]
    rw [if_neg hcond, hppdu]
    simp only [haccepted, if_true]
    rw [hacse, haare]
    simp only [onAare, hresult, if_true, hinitiate, onInitiateResponse, hshare, hdetail]
    rw [← hterms]
  exact ⟨_, hup, rfl, rfl, .established ⟨rfl, hrole, hacse, hmms, houtstanding⟩ rfl rfl⟩

variable {seg : Bool × Bytes} {segs : List (Bool × Bytes)} {tpdu : Bytes} {todo owes : List Bytes}
  {cp : Cp}

/-- A segment of the answer, the last one included. -/
theorem client_segment (hcompat : Compatible c s) (hopening : Opening c .client a)
    (hstate : a.state = .associating) (hdata : a.tpduData = agreedData c s)
    (hreceiving : Receiving x.accept (seg :: segs) a.reassembler)
    (hpackable : ∀ seg' ∈ seg :: segs, Packable (dataTpdu seg')) :
    Advances (ClientStage x) now (dataTpdu seg) (segs.map dataTpdu) [] a := by
  obtain ⟨hcfg, hrole, hacse, hmms, houtstanding⟩ := hopening
  rcases hreceiving.step with ⟨rfl, r, hpush, -⟩ | ⟨-, r, hpush, hrest⟩
  · obtain ⟨a', hup, hreader, hout, hstage⟩ := client_accept (x := x)
      (a := { a with reassembler := r.take }) hcompat ⟨hcfg, hrole, hacse, hmms, houtstanding⟩ hdata
    refine ⟨a', [], [], ?_, hreader, by rw [hout]; simp, rfl, hstage⟩
    unfold onTpdu
    rw [parse_dataTpdu]
    simp only [onData, hpush]
    exact hup
  · refine ⟨{ a with reassembler := r }, [], [], ?_, rfl, by simp, rfl,
      .associating ⟨hcfg, hrole, hacse, hmms, houtstanding⟩ hstate hdata hrest
        fun seg' hseg' => hpackable seg' (List.mem_cons_of_mem seg hseg')⟩
    unfold onTpdu
    rw [parse_dataTpdu]
    simp only [onData, hpush]

theorem client_step (hcompat : Compatible c s) (h : ClientStage x (tpdu :: todo) owes a) :
    Advances (ClientStage x) now tpdu todo owes a := by
  generalize hlist : tpdu :: todo = list at h
  cases h with
  | connecting hopening hstate hparts hlimit =>
    obtain ⟨rfl, rfl⟩ := List.cons.inj hlist
    exact client_confirm now hopening hstate hparts hlimit
  | @associating _ segs hopening hstate hdata hreceiving hpackable =>
    cases segs with
    | nil => cases hlist
    | cons seg segs =>
      rw [List.map_cons] at hlist
      obtain ⟨rfl, rfl⟩ := List.cons.inj hlist
      exact client_segment now hcompat hopening hstate hdata hreceiving hpackable
  | established => cases hlist

/-! ### The server -/

/-- The CR makes the server confirm it, with the agreed size. -/
theorem server_request (hopening : Opening s .server a)
    (hparts : a.reassembler.parts = []) (hlimit : a.reassembler.limit = s.maxTsdu) :
    Advances (ServerStage x) now x.request x.connectTpdus (x.confirm :: x.acceptTpdus) a := by
  obtain ⟨hcfg, hrole, hacse, hmms, houtstanding⟩ := hopening
  have hdata : (setTransport (proposedConnection c) a).tpduData = agreedData c s := by
    rw [setTransport_tpduData, hcfg]
    rfl
  have hcond : ¬ a.role ≠ .server := by
    rw [hrole]
    simp
  let b : Association := setTransport (proposedConnection c) a
  have hqueued : queueTpdu (connectionConfirm s (proposedConnection c)) b =
      done { b with out := a.out ++ [packet x.confirm] } := by
    unfold queueTpdu
    rw [x.confirm_ok]
    exact queueTpkt_eq x.confirm_packable b
  obtain ⟨d, hd⟩ : ∃ d, onTpdu now x.request a = done { b with
      out := a.out ++ [packet x.confirm], state := .associating, connectDeadline := d } := by
    unfold onTpdu
    rw [x.request_parse]
    simp only [onConnectionRequest]
    rw [if_neg hcond, hcfg, hqueued]
    simp only [andThen, done, armConnectDeadline]
    split
    · exact ⟨_, rfl⟩
    · exact ⟨_, rfl⟩
  refine ⟨_, [x.confirm], x.acceptTpdus, hd, rfl, rfl, rfl, ?_⟩
  refine ServerStage.associating ⟨hcfg, hrole, hacse, hmms, houtstanding⟩ rfl hdata
    (Receiving.start hparts ?_) (Exchange.segments_packable x.connect)
  change _ ≤ a.reassembler.limit ∨ _
  rw [hlimit]
  exact x.connect_takeable

theorem server_terms (hcompat : Compatible c s) :
    serverOutstanding s (proposal c) = min c.maxOutstanding.toNat s.maxOutstanding.toNat ∧
      ((proposal c).localDetail.getD 0).toNat = c.maxPdu.toNat := by
  have h1 := hcompat.clientOutstanding
  have h2 := hcompat.serverOutstanding
  constructor
  · simp only [serverOutstanding, proposal, Initiate.request]
    omega
  · simp only [proposal, Initiate.request, Option.getD_some]
    omega

theorem answerAssociate_eq (hcontexts : cp.contexts = proposedContexts) (hcfg : a.cfg = s)
    (hdata : a.tpduData = agreedData c s) :
    answerAssociate cp mmsContextDefault acseContextDefault (proposal c) a =
      done { a with out := a.out ++ x.acceptTpdus.map packet } := by
  have hpackets : tsduPackets a.tpduData x.accept = x.acceptTpdus.map packet := by
    rw [hdata, tsduPackets_eq]
    rfl
  have hanswer : associateAnswerTsdu a.cfg cp mmsContextDefault acseContextDefault (proposal c) =
      .ok x.accept := by
    rw [hcfg, ← x.accept_ok]
    unfold associateAnswerTsdu
    rw [hcontexts]
    rfl
  unfold answerAssociate
  simp only [hanswer, sendTsdu_eq, hpackets]

theorem contexts_read (hcontexts : cp.contexts = proposedContexts) :
    mmsContextOf cp = mmsContextDefault ∧ acseContextOf cp = acseContextDefault := by
  unfold mmsContextOf acseContextOf Cp.contextFor
  rw [hcontexts]
  exact ⟨rfl, rfl⟩

/-- The associate request makes the server answer it and come up. -/
theorem server_connect (hcompat : Compatible c s) (hopening : Opening s .server a)
    (hdata : a.tpduData = agreedData c s) :
    ∃ a', onTsdu x.connect a = done a' ∧ a'.reader = a.reader ∧
      a'.out = a.out ++ x.acceptTpdus.map packet ∧ ServerStage x [] [] a' := by
  obtain ⟨unit, cp, hspdu, hppdu, hcontexts, hinitiate⟩ := associateRequestTsdu_read x.connect_ok
  obtain ⟨hshare, hdetail⟩ := server_terms hcompat
  obtain ⟨hmmsOf, hacseOf⟩ := contexts_read hcontexts
  obtain ⟨rfl, hrole, hacse, hmms, houtstanding⟩ := hopening
  have hcond : ¬ a.role ≠ .server := by
    rw [hrole]
    simp
  let b : Association := { a with
    mmsContext := mmsContextDefault, acseContext := acseContextDefault, peerMaxPdu := c.maxPdu.toNat }
  have hanswer : answerAssociate cp mmsContextDefault acseContextDefault (proposal c) b =
      done { b with out := b.out ++ x.acceptTpdus.map packet } :=
    answerAssociate_eq hcontexts rfl hdata
  have hterms : negotiatedFrom { b with out := b.out ++ x.acceptTpdus.map packet }
      (min c.maxOutstanding.toNat a.cfg.maxOutstanding.toNat) = serverTerms c a.cfg := by
    simp only [negotiatedFrom, serverTerms, b, hdata]
  have hup : onTsdu x.connect a =
      done (establish (serverTerms c a.cfg) { b with out := b.out ++ x.acceptTpdus.map packet }) := by
    unfold onTsdu
    rw [hspdu]
    simp only [onSessionConnect]
    rw [if_neg hcond, hppdu]
    simp only [hmmsOf, hacseOf, hinitiate, hdetail]
    change andThen (answerAssociate cp mmsContextDefault acseContextDefault (proposal c) b) _ = _
    rw [hanswer]
    simp only [andThen, done]
    change done (establish (negotiatedFrom _ (serverOutstanding a.cfg (proposal c))) _) = _
    rw [hshare, hterms]
    rfl
  exact ⟨_, hup, rfl, rfl, .established ⟨rfl, hrole, rfl, rfl, houtstanding⟩ rfl rfl⟩

/-- A segment of the request, the last one included. -/
theorem server_segment (hcompat : Compatible c s) (hopening : Opening s .server a)
    (hstate : a.state = .associating) (hdata : a.tpduData = agreedData c s)
    (hreceiving : Receiving x.connect (seg :: segs) a.reassembler)
    (hpackable : ∀ seg' ∈ seg :: segs, Packable (dataTpdu seg')) :
    Advances (ServerStage x) now (dataTpdu seg) (segs.map dataTpdu) x.acceptTpdus a := by
  obtain ⟨hcfg, hrole, hacse, hmms, houtstanding⟩ := hopening
  rcases hreceiving.step with ⟨rfl, r, hpush, -⟩ | ⟨-, r, hpush, hrest⟩
  · obtain ⟨a', hup, hreader, hout, hstage⟩ := server_connect (x := x)
      (a := { a with reassembler := r.take }) hcompat ⟨hcfg, hrole, hacse, hmms, houtstanding⟩ hdata
    refine ⟨a', x.acceptTpdus, [], ?_, hreader, hout, by simp, hstage⟩
    unfold onTpdu
    rw [parse_dataTpdu]
    simp only [onData, hpush]
    exact hup
  · refine ⟨{ a with reassembler := r }, [], x.acceptTpdus, ?_, rfl, by simp, rfl,
      .associating ⟨hcfg, hrole, hacse, hmms, houtstanding⟩ hstate hdata hrest
        fun seg' hseg' => hpackable seg' (List.mem_cons_of_mem seg hseg')⟩
    unfold onTpdu
    rw [parse_dataTpdu]
    simp only [onData, hpush]

theorem server_step (hcompat : Compatible c s) (h : ServerStage x (tpdu :: todo) owes a) :
    Advances (ServerStage x) now tpdu todo owes a := by
  generalize hlist : tpdu :: todo = list at h
  cases h with
  | idle hopening hstate hparts hlimit =>
    obtain ⟨rfl, rfl⟩ := List.cons.inj hlist
    exact server_request now hopening hparts hlimit
  | @associating _ segs hopening hstate hdata hreceiving hpackable =>
    cases segs with
    | nil => cases hlist
    | cons seg segs =>
      rw [List.map_cons] at hlist
      obtain ⟨rfl, rfl⟩ := List.cons.inj hlist
      exact server_segment now hcompat hopening hstate hdata hreceiving hpackable
  | established => cases hlist

end Steps

end Iec61850.Mms.Association
