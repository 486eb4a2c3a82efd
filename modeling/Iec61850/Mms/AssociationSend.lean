import Iec61850.Mms.Association
import Iec61850.Ber.Sizes

/-!
# What sending does

A TSDU is split into DT TPDUs that all fit a TPKT packet, so sending one cannot fail: it
appends packets and touches nothing else. The functions that wrap a PDU first can fail only
where the PDU cannot be encoded, and have then queued nothing.
-/

namespace Iec61850.Mms.Association

open Theory Ber Osi
open Osi.Cotp (Tpdu)
open Osi.Session (Spdu)
open Osi.Presentation (Ppdu Pdv)
open Osi.Acse (Apdu)

/-- A TPDU in its TPKT packet. -/
def packet (tpdu : Bytes) : Bytes := Tpkt.version :: 0 :: (beBytes 2 (tpdu.length + 4) ++ tpdu)

/-- A DT TPDU. -/
def dataTpdu (segment : Bool × Bytes) : Bytes :=
  2 :: Cotp.DT :: (if segment.1 then 0x80 else 0) :: segment.2

/-- The packets a TSDU goes out in. -/
def tsduPackets (chunk : Nat) (tsdu : Bytes) : List Bytes :=
  (segments chunk tsdu.length tsdu).map (fun s => packet (dataTpdu s))

/-! ### Segmentation -/

theorem segments_payload_le {chunk : Nat} (hchunk : 0 < chunk) :
    ∀ (fuel : Nat) (rest : Bytes), rest.length ≤ fuel →
      ∀ s ∈ segments chunk fuel rest, s.2.length ≤ chunk := by
  intro fuel
  induction fuel with
  | zero =>
    intro rest hlen s hs
    simp only [segments, List.mem_singleton] at hs
    subst hs
    simp only
    omega
  | succ fuel ih =>
    intro rest hlen s hs
    rw [segments] at hs
    split at hs
    · rw [List.mem_singleton] at hs
      subst hs
      assumption
    · rw [List.mem_cons] at hs
      rcases hs with rfl | hs
      · simp only [List.length_take]
        omega
      · refine ih (rest.drop chunk) ?_ s hs
        simp only [List.length_drop]
        omega

theorem segments_flatten (chunk : Nat) : ∀ (fuel : Nat) (rest : Bytes),
      ((segments chunk fuel rest).map Prod.snd).flatten = rest := by
  intro fuel
  induction fuel with
  | zero =>
    intro rest
    simp [segments]
  | succ fuel ih =>
    intro rest
    rw [segments]
    split
    · simp
    · rw [List.map_cons, List.flatten_cons, ih]
      exact List.take_append_drop chunk rest

/-! ### Framing -/

theorem queueTpkt_eq {tpdu : Bytes} (h : tpdu.length ≤ 65531) (a : Association) :
    queueTpkt tpdu a = done { a with out := a.out ++ [packet tpdu] } := by
  have hheader : Tpkt.header tpdu.length =
      .ok (Tpkt.version :: 0 :: beBytes 2 (tpdu.length + 4)) := by
    unfold Tpkt.header Tpkt.headerLen Tpkt.maxPacket
    rw [if_pos]
    omega
  simp only [queueTpkt, hheader]
  rfl

theorem queueTpdu_data {segment : Bool × Bytes} (h : segment.2.length ≤ 8189) (a : Association) :
    queueTpdu (.data segment.1 segment.2) a =
      done { a with out := a.out ++ [packet (dataTpdu segment)] } := by
  have hlen : (dataTpdu segment).length ≤ 65531 := by
    simp only [dataTpdu, List.length_cons]
    omega
  exact queueTpkt_eq hlen a

theorem sendSegments_eq (segs : List (Bool × Bytes)) (h : ∀ s ∈ segs, s.2.length ≤ 8189)
    (a : Association) : sendSegments segs a =
      done { a with out := a.out ++ segs.map (fun s => packet (dataTpdu s)) } := by
  induction segs generalizing a with
  | nil => simp [sendSegments, done]
  | cons s segs ih =>
    have hhead := h s List.mem_cons_self
    have htail : ∀ t ∈ segs, t.2.length ≤ 8189 := fun t ht => h t (List.mem_cons_of_mem s ht)
    rw [sendSegments, queueTpdu_data hhead]
    simp only [andThen, done]
    rw [ih htail]
    simp [done]

theorem sendTsdu_eq (tsdu : Bytes) (a : Association) :
    sendTsdu tsdu a = done { a with out := a.out ++ tsduPackets a.tpduData tsdu } := by
  have hbounds := a.tpduData_bounds
  have hchunk : max a.tpduData 1 = a.tpduData := by omega
  have hle : ∀ s ∈ segments a.tpduData tsdu.length tsdu, s.2.length ≤ 8189 := fun s hs =>
    Nat.le_trans (segments_payload_le (by omega) tsdu.length tsdu (Nat.le_refl _) s hs) hbounds.2
  rw [sendTsdu, hchunk, sendSegments_eq _ hle]
  rfl

/-! ### Sending a PDU -/

/-- The TSDU of one PDV under a session SPDU. -/
def pdvTsdu (wrap : Bytes → Spdu) (pdv : Pdv) : Except Error Bytes := do
  let ppdu ← (Ppdu.userData [pdv]).write
  (wrap ppdu).write

theorem sendPdv_eq (wrap : Bytes → Spdu) (pdv : Pdv) (a : Association) :
    sendPdv wrap pdv a =
      match pdvTsdu wrap pdv with
      | .error e => fail e a
      | .ok tsdu => done { a with out := a.out ++ tsduPackets a.tpduData tsdu } := by
  unfold sendPdv pdvTsdu
  cases hp : (Ppdu.userData [pdv]).write with
  | error e => rfl
  | ok ppdu =>
    simp only [bind, Except.bind]
    cases hs : (wrap ppdu).write with
    | error e => rfl
    | ok tsdu => simp only [sendTsdu_eq]

/-- Whatever is sent, and whether it can be encoded or not: only the queue of outgoing packets
changes, and nothing is queued when the encoding failed. -/
inductive OnlySent (a : Association) : Outcome → Prop
  | sent (packets : List Bytes) : OnlySent a (done { a with out := a.out ++ packets })
  | failed (e : Error) : OnlySent a (fail e a)

theorem sendPdv_onlySent (wrap : Bytes → Spdu) (pdv : Pdv) (a : Association) :
    OnlySent a (sendPdv wrap pdv a) := by
  rw [sendPdv_eq]
  cases pdvTsdu wrap pdv with
  | error e => exact .failed e
  | ok tsdu => exact .sent _

theorem sendUserData_onlySent (context : Nat) (value : Bytes) (a : Association) :
    OnlySent a (sendUserData context value a) :=
  sendPdv_onlySent _ _ a

theorem sendPduUnchecked_onlySent (pdu : Pdu) (a : Association) :
    OnlySent a (sendPduUnchecked pdu a) := by
  unfold sendPduUnchecked
  cases pdu.write with
  | error e => exact .failed e
  | ok bytes => exact sendUserData_onlySent _ _ a

theorem sendAcse_onlySent (wrap : Bytes → Spdu) (apdu : Apdu) (a : Association) :
    OnlySent a (sendAcse wrap apdu a) := by
  unfold sendAcse
  cases apdu.write with
  | error e => exact .failed e
  | ok bytes => exact sendPdv_onlySent _ _ a

theorem sendEncoded_onlySent (pdu : Bytes) (a : Association) : OnlySent a (sendEncoded pdu a) := by
  unfold sendEncoded
  split
  · exact .failed _
  · split
    · exact .failed _
    · exact sendUserData_onlySent _ _ a

theorem send_onlySent (pdu : Pdu) (a : Association) : OnlySent a (send pdu a) := by
  unfold send
  split
  · exact .failed _
  · cases pdu.write with
    | error e => exact .failed e
    | ok bytes => exact sendEncoded_onlySent bytes a

theorem sendAssociateRequest_onlySent (a : Association) : OnlySent a (sendAssociateRequest a) := by
  unfold sendAssociateRequest
  cases associateRequestTsdu a.cfg with
  | error e => exact .failed e
  | ok tsdu =>
    simp only [sendTsdu_eq]
    exact .sent _

theorem queueTpdu_onlySent (tpdu : Tpdu) (a : Association) : OnlySent a (queueTpdu tpdu a) := by
  unfold queueTpdu
  cases tpdu.write with
  | error e => exact .failed e
  | ok body =>
    simp only [queueTpkt]
    cases Tpkt.header body.length with
    | error e => exact .failed e
    | ok header => exact .sent _

/-! ### User data is wrapped without fail -/

theorem fits_userData (context : Nat) {value : Bytes} {n : Nat} (hn : value.length ≤ n)
    (h : n + 52 ≤ u32Max) : Fits (Ppdu.userData [Pdv.single context value]).write (n + 63) := by
  have hvalues : Fits (Presentation.writePdvValues (.singleAsn1Type value)) (n + 11) :=
    fits_constructed (fits_ok hn) (by omega)
  have hpdv : Fits (constructed Presentation.tagSequence (concatM
      [integer Presentation.tagInteger context,
        Presentation.writePdvValues (.singleAsn1Type value)])) (n + 41) :=
    (fits_constructed (fits_concatM_cons (fits_integer _ _)
      (fits_concatM_cons hvalues fits_concatM_nil)) (by omega)).mono (by omega)
  exact (fits_constructed (fits_concatM_cons hpdv fits_concatM_nil) (by omega)).mono (by omega)

theorem writeUserData_ok {userData : Bytes} (h : userData.length ≤ 200) :
    ∃ ud, Session.writeUserData userData = .ok ud ∧ ud.length ≤ 202 := by
  unfold Session.writeUserData
  split
  · exact ⟨[], rfl, by simp⟩
  · have hli : Session.writeLi userData.length = .ok [UInt8.ofNat userData.length] := by
      rw [Session.writeLi, if_pos (by omega)]
    rw [if_neg (by simp only [Session.maxUserData]; omega), hli]
    exact ⟨_, rfl, by simp only [List.length_append, List.length_cons, List.length_nil]; omega⟩

theorem writeDisconnect_ok {userData : Bytes} (h : userData.length ≤ 200) :
    ∃ spdu, (Spdu.disconnect userData).write = .ok spdu := by
  obtain ⟨ud, hud, hlen⟩ := writeUserData_ok h
  have hli : Session.writeLi ud.length = .ok [UInt8.ofNat ud.length] := by
    rw [Session.writeLi, if_pos (by omega)]
  refine ⟨Session.siDisconnect :: [UInt8.ofNat ud.length] ++ ud, ?_⟩
  simp only [Spdu.write, hud, bind, Except.bind, Session.writeSpdu, hli]

theorem sendReleaseResponse_sent (a : Association) :
    ∃ packets, sendAcse .disconnect (.releaseResponse (some 0)) a =
      done { a with out := a.out ++ packets } := by
  have hwrite : (Apdu.releaseResponse (some 0)).write = .ok [0x63, 3, 0x80, 1, 0] := by rfl
  obtain ⟨ppdu, hppdu, hlen⟩ := fits_userData (n := 5) a.acseContext
    (show ([0x63, 3, 0x80, 1, 0] : Bytes).length ≤ 5 by decide) (by decide)
  obtain ⟨spdu, hspdu⟩ := writeDisconnect_ok (show ppdu.length ≤ 200 by omega)
  refine ⟨tsduPackets a.tpduData spdu, ?_⟩
  simp only [sendAcse, hwrite, sendPdv, hppdu, hspdu, sendTsdu_eq]

end Iec61850.Mms.Association
