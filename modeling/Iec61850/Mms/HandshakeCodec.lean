import Iec61850.Mms.Association
import Iec61850.Osi.RoundTrip
import Iec61850.Osi.UpperRoundTrip
import Iec61850.Theory.Results

/-!
# What the peer reads out of a handshake message

The TSDU of an associate request, and of its answer, is read back through all layers: the
session unit, the presentation contexts, the ACSE fields and the Initiate inside them.
-/

namespace Iec61850.Mms

open Theory Ber Osi
open Osi.Presentation (Cp Ppdu Pdv IsI64 ContextDefinition)
open Osi.Session (Spdu)
open Osi.Acse (Apdu Associate)

/-! ### Fields in order -/

section Fields

variable {α : Type} {tag : Tag} {value : Bytes} {es : List (Tag × Bytes)}
  {f : Tlv → Except Error α} {a : α}

theorem required_elements (hfit : Ber.Fitting (tag, value)) (offset : Nat)
    (h : ∀ offset, f (tlvAt offset tag value) = .ok a) :
    required ⟨elements ((tag, value) :: es), offset⟩ tag f =
      .ok (a, ⟨elements es, offset + (element tag value).length⟩) := by
  rw [required, nextTag_elements (e := (tag, value)) offset hfit]
  simp only [bind, Except.bind, h]

theorem optional_elements (hfit : Ber.Fitting (tag, value)) (offset : Nat)
    (h : ∀ offset, f (tlvAt offset tag value) = .ok a) :
    optional ⟨elements ((tag, value) :: es), offset⟩ tag f =
      .ok (some a, ⟨elements es, offset + (element tag value).length⟩) := by
  rw [optional, nextIfTag_elements (e := (tag, value)) offset hfit]
  simp only [bind, Except.bind, h]

end Fields

/-! ### Initiate -/

/-- The numbers and bit strings of an Initiate fit their fields. -/
structure Initiate.Fitting (i : Initiate) : Prop where
  localDetail : ∃ v, i.localDetail = some v ∧ IsI64 v
  calling : IsI64 i.maxServOutstandingCalling
  called : IsI64 i.maxServOutstandingCalled
  nesting : ∃ v, i.dataStructureNestingLevel = some v ∧ IsI64 v
  version : IsI64 i.version

variable {tag : Tag} {bs : Bytes} {i : Initiate}

theorem integer_field {v : Int} (hv : IsI64 v) (htag : tag.number ≤ u32Max)
    (h : integer tag v = .ok bs) : Ber.Fitting (tag, minimalSigned (i64Octets v)) ∧
      bs = element tag (minimalSigned (i64Octets v)) ∧
      ∀ offset, (tlvAt offset tag (minimalSigned (i64Octets v))).integerI64 = .ok v := by
  obtain ⟨hlen, heq⟩ := primitive_ok h
  exact ⟨⟨htag, hlen⟩, heq, fun offset => integerI64_minimalSigned hv.1 hv.2 offset tag⟩

theorem bitString_field {unused : UInt8} {contents : Bytes} (htag : tag.number ≤ u32Max)
    (h : bitString tag unused contents = .ok bs) :
    Ber.Fitting (tag, unused :: contents) ∧ bs = element tag (unused :: contents) ∧
      ∀ offset, (tlvAt offset tag (unused :: contents)).bitString = .ok (unused, contents) := by
  obtain ⟨hunused, hlen, heq⟩ := bitString_ok h
  exact ⟨⟨htag, hlen⟩, heq, fun offset => bitString_tlvAt hunused offset tag⟩

theorem Initiate.parse_write (hfit : i.Fitting) (h : i.write tag = .ok bs) :
    ∃ contents, contents.length ≤ u32Max ∧ bs = element tag contents ∧
      ∀ t : Tlv, t.value = contents → Initiate.parse t = .ok i := by
  obtain ⟨contents, hcontents, hlen, rfl⟩ := constructed_ok h
  refine ⟨contents, hlen, rfl, fun t ht => ?_⟩
  obtain ⟨⟨detail, hdetail, hdetailFit⟩, hcallingFit, hcalledFit, ⟨nesting, hnesting, hnestingFit⟩,
    hversionFit⟩ := hfit
  obtain ⟨localDetail, calling, called, dataStructureNestingLevel, version, parameterCbb,
    servicesSupported⟩ := i
  simp only at hdetail hnesting hcallingFit hcalledFit hversionFit hcontents
  subst hdetail hnesting
  obtain ⟨b1, r1, h1, hr1, rfl⟩ := concatM_cons_ok hcontents
  obtain ⟨b2, r2, h2, hr2, rfl⟩ := concatM_cons_ok hr1
  obtain ⟨b3, r3, h3, hr3, rfl⟩ := concatM_cons_ok hr2
  obtain ⟨b4, r4, h4, hr4, rfl⟩ := concatM_cons_ok hr3
  obtain ⟨b5, r5, h5, hr5, rfl⟩ := concatM_cons_ok hr4
  obtain ⟨inner, hinner, hinnerLen, rfl⟩ := constructed_ok h5
  obtain ⟨d1, s1, hd1, hs1, rfl⟩ := concatM_cons_ok hinner
  obtain ⟨d2, s2, hd2, hs2, rfl⟩ := concatM_cons_ok hs1
  obtain ⟨d3, s3, hd3, hs3, rfl⟩ := concatM_cons_ok hs2
  obtain ⟨hfit1, rfl, hread1⟩ := integer_field hdetailFit (by decide) h1
  obtain ⟨hfit2, rfl, hread2⟩ := integer_field hcallingFit (by decide) h2
  obtain ⟨hfit3, rfl, hread3⟩ := integer_field hcalledFit (by decide) h3
  obtain ⟨hfit4, rfl, hread4⟩ := integer_field hnestingFit (by decide) h4
  obtain ⟨hfitV, rfl, hreadV⟩ := integer_field hversionFit (by decide) hd1
  obtain ⟨hfitP, rfl, hreadP⟩ := bitString_field (by decide) hd2
  obtain ⟨hfitS, rfl, hreadS⟩ := bitString_field (by decide) hd3
  rw [concatM_nil_ok hs3, ← elements_nil] at ht hinnerLen
  rw [concatM_nil_ok hr5, ← elements_nil] at ht
  simp only [elements_pair] at ht hinnerLen
  unfold Initiate.parse
  rw [Tlv.children, ht, optional_elements hfit1 _ hread1]
  simp only [bind, Except.bind]
  rw [required_elements hfit2 _ hread2]
  simp only
  rw [required_elements hfit3 _ hread3]
  simp only
  rw [optional_elements hfit4 _ hread4]
  simp only
  rw [nextTag_pair _ (fitting_pair (by decide) hinnerLen)]
  simp only [Tlv.children, tlvAt_value]
  rw [required_elements hfitV _ hreadV]
  simp only
  rw [required_elements hfitP _ hreadP]
  simp only
  rw [required_elements hfitS _ hreadS]

theorem Pdu.parse_initiateRequest (hfit : i.Fitting) (h : (Pdu.initiateRequest i).write = .ok bs)
    (limits : Limits) : Pdu.parse bs limits = .ok (.initiateRequest i) := by
  obtain ⟨contents, hlen, rfl, hparse⟩ := Initiate.parse_write hfit h
  unfold Pdu.parse
  rw [Cursor.new, elements_alone, nextRequired_pair _ (fitting_pair (by decide) hlen)]
  change Pdu.initiateRequest <$> Initiate.parse _ = _
  rw [hparse _ rfl]
  rfl

theorem Pdu.parse_initiateResponse (hfit : i.Fitting) (h : (Pdu.initiateResponse i).write = .ok bs)
    (limits : Limits) : Pdu.parse bs limits = .ok (.initiateResponse i) := by
  obtain ⟨contents, hlen, rfl, hparse⟩ := Initiate.parse_write hfit h
  unfold Pdu.parse
  rw [Cursor.new, elements_alone, nextRequired_pair _ (fitting_pair (by decide) hlen)]
  change Pdu.initiateResponse <$> Initiate.parse _ = _
  rw [hparse _ rfl]
  rfl

/-! ### The associate request -/

namespace Association

/-- The Initiate a configuration proposes. -/
def proposal (cfg : AssociationConfig) : Initiate :=
  Initiate.request cfg.maxPdu.toNat cfg.maxOutstanding.toNat parameterCbb servicesSupported

theorem isI64_u32 (n : UInt32) : IsI64 (n.toNat : Int) := by
  have := n.toNat_lt
  constructor <;> omega

theorem isI64_u8 (n : UInt8) : IsI64 (n.toNat : Int) := by
  have := n.toNat_lt
  constructor <;> omega

theorem proposal_fitting (cfg : AssociationConfig) : (proposal cfg).Fitting where
  localDetail := ⟨_, rfl, isI64_u32 cfg.maxPdu⟩
  calling := isI64_u8 cfg.maxOutstanding
  called := isI64_u8 cfg.maxOutstanding
  nesting := ⟨5, rfl, by constructor <;> decide⟩
  version := by
    change IsI64 1
    constructor <;> decide

/-- The contexts every associate request proposes. -/
def proposedContexts : List ContextDefinition :=
  [⟨acseContextDefault, Oid.acseAbstractSyntax, Oid.ber⟩,
    ⟨mmsContextDefault, Oid.mmsAbstractSyntax, Oid.ber⟩]

theorem associateRequest_read {cfg : AssociationConfig} {initiate : Bytes} {aarq : Associate}
    (h : associateRequest cfg initiate = .ok aarq) :
    aarq.Fitting ∧ aarq.asRequest = aarq ∧ aarq.mmsPdu = some initiate := by
  have hcontext : ∀ u : Acse.UserInformation,
      some (⟨some Oid.ber, some (mmsContextDefault : Int), initiate⟩ : Acse.UserInformation) = some u →
        u.Fitting := by
    intro u hu v hv
    rw [Option.some.injEq] at hu
    subst hu
    simp only [Option.some.injEq] at hv
    subst hv
    constructor <;> decide
  unfold associateRequest at h
  cases hpassword : cfg.password with
  | none =>
    simp only [hpassword, Except.ok.injEq] at h
    subst h
    exact ⟨⟨by simp [Associate.request], hcontext⟩, rfl, rfl⟩
  | some p =>
    cases hvalue : primitive (Tag.context 0) p with
    | error e => simp [hpassword, hvalue, bind, Except.bind] at h
    | ok value =>
      simp only [hpassword, hvalue, bind, Except.bind, Except.ok.injEq] at h
      subst h
      exact ⟨⟨by simp [Associate.request], hcontext⟩, rfl, rfl⟩

theorem acsePdu_single {cp : Cp} {context : Nat} {apdu : Bytes}
    (h : cp.userData = [Pdv.single context apdu]) (missing : String) :
    acsePdu cp context missing = .ok apdu := by
  rw [acsePdu, h]
  simp [Pdv.single, Presentation.PdvValues.single]

/-- An associate request says, layer by layer, what its sender proposes. -/
theorem associateRequestTsdu_read {cfg : AssociationConfig} {tsdu : Bytes}
    (h : associateRequestTsdu cfg = .ok tsdu) : ∃ unit cp, Spdu.parse tsdu = .ok (.connect unit) ∧
      Ppdu.parse unit.userData true = .ok (.connect cp) ∧ cp.contexts = proposedContexts ∧
      ∀ limits, initiateOf limits acseContextDefault cp = .ok (some (proposal cfg)) := by
  obtain ⟨initiate, hinitiate, h⟩ := bind_ok h
  obtain ⟨aarq, haarq, h⟩ := bind_ok h
  obtain ⟨apdu, hapdu, h⟩ := bind_ok h
  obtain ⟨ppdu, hppdu, h⟩ := bind_ok h
  obtain ⟨haarqFit, hasRequest, hmms⟩ := associateRequest_read haarq
  have hspdu := Session.Spdu.parse_connect (by decide : (2 : Nat) < 65536) h
  refine ⟨_, Cp.connectRequest cfg.localEnd.pSel cfg.remoteEnd.pSel acseContextDefault
    mmsContextDefault apdu, hspdu, ?_, rfl, fun limits => ?_⟩
  · refine Presentation.Ppdu.parse_connect ⟨?_, ?_, ?_, ?_⟩ rfl hppdu
    · simp [Cp.connectRequest, acseContextDefault, mmsContextDefault]
    · simp [Cp.connectRequest]
    · simp [Cp.connectRequest]
    · simp [Cp.connectRequest, Pdv.single, Presentation.Pdv.Fitting, acseContextDefault]
  · unfold initiateOf
    rw [acsePdu_single rfl]
    simp only [bind, Except.bind, Acse.Apdu.parse_associate haarqFit hapdu, hasRequest, hmms,
      Pdu.parse_initiateRequest (proposal_fitting cfg) hinitiate]

/-! ### The answer to it -/

theorem initiateAnswer_fitting (cfg peer : AssociationConfig) :
    (initiateAnswer cfg (proposal peer)).Fitting := by
  have hc := cfg.maxPdu.toNat_lt
  have hp := peer.maxPdu.toNat_lt
  have hco := cfg.maxOutstanding.toNat_lt
  have hpo := peer.maxOutstanding.toNat_lt
  constructor
  · refine ⟨_, rfl, ?_⟩
    simp only [proposal, Initiate.request, Option.getD_some]
    constructor <;> omega
  · simp only [initiateAnswer, proposal, Initiate.request]
    constructor <;> omega
  · simp only [initiateAnswer, proposal, Initiate.request]
    constructor <;> omega
  · exact ⟨5, rfl, by constructor <;> decide⟩
  · simp only [initiateAnswer, Initiate.request]
    constructor <;> decide

/-- An answer says, layer by layer, that the association is accepted and on what terms. -/
theorem associateAnswerTsdu_read {cfg : AssociationConfig} {cp : Cp} {mmsContext acseContext : Nat}
    {peer : AssociationConfig} {tsdu : Bytes} (hcontexts : cp.contexts ≠ [])
    (hmms : mmsContext ≤ 65535) (hacse : acseContext ≤ 65535)
    (h : associateAnswerTsdu cfg cp mmsContext acseContext (proposal peer) = .ok tsdu) :
    ∃ unit cpa aare, Spdu.parse tsdu = .ok (.accept unit) ∧
      Ppdu.parse unit.userData true = .ok (.accept cpa) ∧ cpa.allAccepted = true ∧
      aareOf acseContext cpa = .ok (some aare) ∧ aare.accepted = true ∧
      ∀ limits, initiateResponseOf limits aare =
        .ok (.initiateResponse (initiateAnswer cfg (proposal peer))) := by
  obtain ⟨initiate, hinitiate, h⟩ := bind_ok h
  obtain ⟨apdu, hapdu, h⟩ := bind_ok h
  obtain ⟨ppdu, hppdu, h⟩ := bind_ok h
  have hspdu := Session.Spdu.parse_accept (by decide : (2 : Nat) < 65536) h
  have hfit : (associateAnswer cfg mmsContext initiate).Fitting := by
    refine ⟨fun v hv => ?_, fun u hu v hv => ?_⟩
    · simp only [associateAnswer, Option.some.injEq] at hv
      subst hv
      constructor <;> decide
    · simp only [associateAnswer, Option.some.injEq] at hu
      subst hu
      simp only [Option.some.injEq] at hv
      subst hv
      constructor <;> omega
  refine ⟨_, _, (associateAnswer cfg mmsContext initiate).asResponse, hspdu,
    Presentation.Ppdu.parse_accept ⟨?_, ?_, ?_, ?_⟩ ?_ hppdu, ?_, ?_, rfl, fun limits => ?_⟩
  · simp
  · intro r hr
    simp only [List.mem_map] at hr
    obtain ⟨-, -, rfl⟩ := hr
    constructor <;> decide
  · simp
  · simp [Pdv.single, Presentation.Pdv.Fitting, hacse]
  · rfl
  · simp [Presentation.Cp.allAccepted, hcontexts]
  · unfold aareOf
    rw [acsePdu_single rfl]
    simp only [bind, Except.bind]
    rw [Acse.Apdu.parse_associateResponse hfit hapdu]
  · unfold initiateResponseOf
    exact Pdu.parse_initiateResponse (initiateAnswer_fitting cfg peer) hinitiate limits

end Association

end Iec61850.Mms
