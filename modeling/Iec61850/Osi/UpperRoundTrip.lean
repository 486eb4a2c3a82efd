import Iec61850.Osi.Acse
import Iec61850.Ber.Fields

/-!
# Reading back presentation and ACSE units

What `Ppdu::write` and `Apdu::write` produce is parsed to what was written, field by field in
the order of the writers.
-/

namespace Iec61850.Osi

open Theory Ber

/-! ### Presentation -/

namespace Presentation

/-- An identifier that its field can hold. -/
def Pdv.Fitting (p : Pdv) : Prop := p.contextId ≤ 65535

theorem toU16_ofNat {n : Nat} (h : n ≤ 65535) (offset : Nat) : toU16 n offset = .ok n := by
  rw [toU16, if_pos (by omega)]
  rfl

/-- The tag and contents of the element that holds the values of a PDV-list. -/
def PdvValues.field : PdvValues → Tag × Bytes
  | .singleAsn1Type v => (Tag.contextConstructed 0, v)
  | .octetAligned v => (Tag.context 1, v)
  | .arbitrary unused bytes => (Tag.context 2, unused :: bytes)

variable {bs contents : Bytes} {cp : Cp}

theorem writePdvValues_ok {v : PdvValues} (h : writePdvValues v = .ok bs) :
    Spells bs [v.field] ∧ ∀ offset, parsePdvValues (tlvAt offset v.field.1 v.field.2) = .ok v := by
  cases v with
  | singleAsn1Type v =>
    obtain ⟨hlen, rfl⟩ := primitive_ok h
    exact ⟨spells_element (by decide) hlen, fun offset => rfl⟩
  | octetAligned v =>
    obtain ⟨hlen, rfl⟩ := primitive_ok h
    exact ⟨spells_element (by decide) hlen, fun offset => rfl⟩
  | arbitrary unused bytes =>
    obtain ⟨hunused, hlen, rfl⟩ := bitString_ok h
    refine ⟨spells_element (by decide) hlen, fun offset => ?_⟩
    unfold PdvValues.field parsePdvValues
    simp only [tlvAt_tag, Tag.context, bitString_tlvAt hunused]
    rfl

/-- The writer of one PDV-list. -/
def writePdv (p : Pdv) : Except Error Bytes :=
  constructed tagSequence (concatM [integer tagInteger p.contextId, writePdvValues p.values])

theorem parsePdv_written {p : Pdv} (hfit : p.Fitting)
    (h : concatM [integer tagInteger p.contextId, writePdvValues p.values] = .ok contents)
    (offset : Nat) : parsePdv (tlvAt offset tagSequence contents) = .ok p := by
  obtain ⟨id, rest, hid, hrest, rfl⟩ := concatM_cons_ok h
  obtain ⟨values, last, hvalues, hlast, rfl⟩ := concatM_cons_ok hrest
  rw [concatM_nil_ok hlast, List.append_nil]
  obtain ⟨hidLen, rfl⟩ := primitive_ok hid
  obtain ⟨⟨rfl, hvaluesFit⟩, hparse⟩ := writePdvValues_ok hvalues
  have hint := integerI64_minimalSigned (v := p.contextId) (by omega) (by
    unfold Pdv.Fitting at hfit
    omega)
  have hne : ¬ tagInteger = tagOid := by decide
  unfold parsePdv
  simp only [Tlv.expect, tlvAt_tag, if_pos, bind, Except.bind, Tlv.children, tlvAt_value,
    elements_pair]
  rw [nextRequired_pair _ (fitting_pair (by decide) hidLen)]
  simp only [tlvAt_tag, if_neg hne, if_pos, hint, toU16_ofNat hfit]
  rw [nextRequired_elements _ (hvaluesFit _ (List.mem_singleton_self _))]
  simp only [hparse]

theorem conveys_pdv {p : Pdv} (hfit : p.Fitting) (out : List Pdv) :
    Conveys (writePdv p) (fun out item => do
      let pdv ← parsePdv item
      .ok (out ++ [pdv])) out (out ++ [p]) := by
  refine conveys_constructed (by decide) fun contents offset hcontents => ?_
  rw [parsePdv_written hfit hcontents]
  rfl

theorem writePdvs_ok {pdvs : List Pdv} (hfit : ∀ p ∈ pdvs, p.Fitting)
    (h : writePdvs pdvs = .ok bs) : ∃ contents, Spells bs [(tagFullyEncodedData, contents)] ∧
      ∀ t : Tlv, t.value = contents → parsePdvs t = .ok pdvs := by
  obtain ⟨contents, hcontents, hlen, rfl⟩ := constructed_ok h
  refine ⟨contents, spells_element (by decide) hlen, fun t ht => ?_⟩
  have hitems := conveys_items writePdv (fun p hp => conveys_pdv (hfit p hp)) []
  have := hitems.forItems hcontents t.valueOffset
  rw [parsePdvs, Tlv.children, ht]
  exact this

/-- An `i64`. -/
def IsI64 (v : Int) : Prop := -2 ^ 63 ≤ v ∧ v < 2 ^ 63

/-- The numbers of a CP, CPA or CPR fit their fields. -/
structure Cp.Fitting (cp : Cp) : Prop where
  contexts : ∀ c ∈ cp.contexts, c.id ≤ 65535
  results : ∀ r ∈ cp.results, IsI64 r.result
  providerReason : ∀ v, cp.providerReason = some v → IsI64 v
  userData : ∀ p ∈ cp.userData, p.Fitting

/-- The writer of one context definition. -/
def writeContext (c : ContextDefinition) : Except Error Bytes :=
  constructed tagSequence (concatM [
    integer tagInteger c.id,
    primitive tagOid c.abstractSyntax,
    constructed tagSequence (primitive tagOid c.transferSyntax)])

theorem parseContext_written {c : ContextDefinition} (hfit : c.id ≤ 65535)
    (h : concatM [integer tagInteger c.id, primitive tagOid c.abstractSyntax,
      constructed tagSequence (primitive tagOid c.transferSyntax)] = .ok contents)
    (whole offset : Nat) : parseContext whole (tlvAt offset tagSequence contents) = .ok c := by
  obtain ⟨id, rest, hid, hrest, rfl⟩ := concatM_cons_ok h
  obtain ⟨abs, rest', habs, hrest', rfl⟩ := concatM_cons_ok hrest
  obtain ⟨transfer, last, htransfer, hlast, rfl⟩ := concatM_cons_ok hrest'
  rw [concatM_nil_ok hlast, List.append_nil]
  obtain ⟨hidLen, rfl⟩ := primitive_ok hid
  obtain ⟨habsLen, rfl⟩ := primitive_ok habs
  obtain ⟨inner, hinner, hlistLen, rfl⟩ := constructed_ok htransfer
  have hint := integerI64_minimalSigned (v := c.id) (by omega) (by omega)
  unfold parseContext
  rw [@elements_alone tagSequence inner]
  simp only [Tlv.expect, tlvAt_tag, if_pos, bind, Except.bind, Tlv.children, tlvAt_value,
    elements_pair]
  rw [nextTag_pair _ (fitting_pair (by decide) hidLen)]
  simp only [hint, toU16_ofNat hfit]
  rw [nextRequired_pair _ (fitting_pair (by decide) habsLen)]
  simp only [oidOf, tlvAt_tag, if_pos, tlvAt_value]
  rw [nextTag_pair _ (fitting_pair (by decide) hlistLen)]
  simp only [tlvAt_value]
  obtain ⟨_, hnext⟩ := nextRequired_primitive (tlvAt _ tagSequence inner).valueOffset (by decide)
    hinner
  rw [hnext]
  simp only [tlvAt_tag, if_pos, tlvAt_value]

/-- The writer of one context result. -/
def writeResult (r : ContextResult) : Except Error Bytes :=
  constructed tagSequence (concatM [
    integer (Tag.context 0) r.result,
    optM r.transferSyntax (primitive (Tag.context 1))])

theorem parseResult_written {r : ContextResult} (hfit : IsI64 r.result)
    (h : concatM [integer (Tag.context 0) r.result,
      optM r.transferSyntax (primitive (Tag.context 1))] = .ok contents) (offset : Nat) :
    parseResult (tlvAt offset tagSequence contents) = .ok r := by
  obtain ⟨result, rest, hresult, hrest, rfl⟩ := concatM_cons_ok h
  obtain ⟨transfer, last, htransfer, hlast, rfl⟩ := concatM_cons_ok hrest
  rw [concatM_nil_ok hlast, List.append_nil]
  obtain ⟨hresultLen, rfl⟩ := primitive_ok hresult
  have hint := integerI64_minimalSigned hfit.1 hfit.2
  have hresultFits : Fitting (Tag.context 0, minimalSigned (i64Octets r.result)) :=
    fitting_pair (by decide) hresultLen
  obtain ⟨result, transferSyntax⟩ := r
  unfold parseResult
  cases transferSyntax with
  | none =>
    rw [optM, Except.ok.injEq] at htransfer
    rw [← htransfer, List.append_nil, elements_alone]
    simp only [Tlv.expect, tlvAt_tag, if_pos, bind, Except.bind, Tlv.children, tlvAt_value]
    rw [nextTag_pair _ hresultFits]
    simp only [hint]
    rw [elements_nil, nextIfTag_nil]
    rfl
  | some t =>
    obtain ⟨htransferLen, rfl⟩ := primitive_ok htransfer
    rw [@elements_alone (Tag.context 1) t, elements_pair]
    simp only [Tlv.expect, tlvAt_tag, if_pos, bind, Except.bind, Tlv.children, tlvAt_value]
    rw [nextTag_pair _ hresultFits]
    simp only [hint]
    rw [nextIfTag_pair _ (fitting_pair (by decide) htransferLen)]
    rfl

/-- Whether a field that only a responder sends is there. -/
def Cp.isResponse (cp : Cp) : Bool := cp.respondingPsel.isSome || !cp.results.isEmpty

theorem conveys_normalMode (hfit : cp.Fitting) :
    Conveys (writeNormalMode cp) parseParameter ({}, false) (cp, cp.isResponse) := by
  obtain ⟨version, calling, called, responding, contexts, results, requirements, reason, pdvs⟩ := cp
  obtain ⟨hcontexts, hresults, hreason, hpdvs⟩ := hfit
  simp only at hcontexts hresults hreason hpdvs
  unfold writeNormalMode
  dsimp only
  refine conveys_concatM_cons
    (t := (⟨version, none, none, none, [], [], none, none, []⟩, false)) ?_ ?_
  · refine conveys_bits (by decide) (fun h => by rw [h]) fun v tlv hv htag hbits => ?_
    simp only [hv, parseParameter, htag, Tag.context, hbits, bind, Except.bind]
  refine conveys_concatM_cons
    (t := (⟨version, calling, none, none, [], [], none, none, []⟩, false)) ?_ ?_
  · exact conveys_field (by decide) (fun h => by rw [h]) fun v offset hv => by rw [hv]; rfl
  refine conveys_concatM_cons
    (t := (⟨version, calling, called, none, [], [], none, none, []⟩, false)) ?_ ?_
  · exact conveys_field (by decide) (fun h => by rw [h]) fun v offset hv => by rw [hv]; rfl
  refine conveys_concatM_cons
    (t := (⟨version, calling, called, responding, [], [], none, none, []⟩, responding.isSome)) ?_ ?_
  · exact conveys_field (by decide) (fun h => by rw [h]; rfl) fun v offset hv => by rw [hv]; rfl
  refine conveys_concatM_cons (t := (⟨version, calling, called, responding, contexts, [], none, none,
    []⟩, responding.isSome)) ?_ ?_
  · refine conveys_list writeContext (fun offset out item => do
      let d ← parseContext offset item
      .ok (out ++ [d])) (by decide) (fun h => by rw [h]) (fun c hc offset out => ?_)
      fun _ offset contents hloop => ?_
    · refine conveys_constructed (by decide) fun inner off hinner => ?_
      rw [parseContext_written (hcontexts c hc) hinner]
      rfl
    · exact congrArg (fun r => r >>= fun contexts => .ok
        ((⟨version, calling, called, responding, contexts, [], none, none, []⟩ : Cp),
          responding.isSome)) hloop
  refine conveys_concatM_cons (t := (⟨version, calling, called, responding, contexts, results, none,
    none, []⟩, responding.isSome || !results.isEmpty)) ?_ ?_
  · refine conveys_list writeResult (fun _ out item => do
      let r ← parseResult item
      .ok (out ++ [r])) (by decide) (fun h => by simp [h]) (fun r hr offset out => ?_)
      fun hne offset contents hloop => ?_
    · refine conveys_constructed (by decide) fun inner off hinner => ?_
      rw [parseResult_written (hresults r hr) hinner]
      rfl
    · rw [List.isEmpty_eq_false_iff.mpr hne, Bool.not_false, Bool.or_true]
      exact congrArg (fun r => r >>= fun results => .ok
        ((⟨version, calling, called, responding, contexts, results, none, none, []⟩ : Cp),
          true)) hloop
  refine conveys_concatM_cons (t := (⟨version, calling, called, responding, contexts, results,
    requirements, none, []⟩, responding.isSome || !results.isEmpty)) ?_ ?_
  · refine conveys_bits (by decide) (fun h => by rw [h]) fun v tlv hv htag hbits => ?_
    simp only [hv, parseParameter, htag, Tag.context, hbits, bind, Except.bind]
  refine conveys_concatM_cons (t := (⟨version, calling, called, responding, contexts, results,
    requirements, reason, []⟩, responding.isSome || !results.isEmpty)) ?_ ?_
  · refine conveys_optM (fun h => by rw [h]) (fun v hv => ?_)
    obtain ⟨hlow, hhigh⟩ := hreason v hv
    subst hv
    refine conveys_integer hlow hhigh (by decide) fun tlv htag hint => ?_
    simp only [parseParameter, htag, Tag.context, hint, bind, Except.bind]
  refine conveys_concatM_cons (t := (_, responding.isSome || !results.isEmpty)) ?_
    conveys_concatM_nil
  split
  · rename_i hempty
    simp only [List.isEmpty_iff] at hempty
    subst hempty
    exact conveys_nothing
  · intro bs hbs
    obtain ⟨contents, hspells, hparse⟩ := writePdvs_ok hpdvs hbs
    refine ⟨_, hspells, fun offset => ?_⟩
    have hread := hparse (tlvAt offset tagFullyEncodedData contents) rfl
    simp only [tlvsAt, List.foldlM_cons, List.foldlM_nil, parseParameter, tlvAt_tag,
      tagFullyEncodedData, Tag.applicationConstructed]
    simp only [tagFullyEncodedData, Tag.applicationConstructed] at hread
    rw [if_pos ⟨trivial, trivial⟩, hread]
    rfl

/-- The two fields of a CP or CPA: the mode, then the parameters. -/
theorem conveys_connect (hfit : cp.Fitting) : Conveys (concatM [
        constructed (Tag.contextConstructed 0) (integer (Tag.context 0) modeNormal),
        constructed (Tag.contextConstructed 2) (writeNormalMode cp)])
      parseField (0, {}, false) (modeNormal, cp, cp.isResponse) := by
  refine conveys_concatM_cons (t := (modeNormal, {}, false)) ?_
    (conveys_concatM_cons ?_ conveys_concatM_nil)
  · refine conveys_constructed (by decide) fun contents offset hcontents => ?_
    obtain ⟨hlen, rfl⟩ := primitive_ok hcontents
    rw [elements_alone]
    simp only [parseField, tlvAt_tag, Tag.contextConstructed, Tlv.children, tlvAt_value]
    rw [nextTag_pair _ (fitting_pair (by decide) hlen)]
    simp only [bind, Except.bind, integerI64_minimalSigned (v := modeNormal) (by decide) (by decide)]
  · refine conveys_constructed (by decide) fun contents offset hcontents => ?_
    have hloop := (conveys_normalMode hfit).forItems hcontents
      (tlvAt offset (Tag.contextConstructed 2) contents).valueOffset
    simp only [Tag.contextConstructed] at hloop
    simp only [parseField, tlvAt_tag, Tag.contextConstructed, parseNormalMode, Tlv.children,
      tlvAt_value, hloop]
    rfl

theorem Ppdu.parse_writeConnect (hfit : cp.Fitting) (h : writeConnect cp = .ok bs) :
    Ppdu.parse bs true = .ok (if cp.isResponse then .accept cp else .connect cp) := by
  obtain ⟨contents, hcontents, hnext⟩ := nextRequired_constructed (by decide) h
  obtain ⟨_, hnext⟩ := hnext 0
  have hloop := (conveys_connect hfit).forItems hcontents (tlvAt 0 tagSet contents).valueOffset
  have hne : ¬ tagSet = tagSequence := by decide
  unfold Ppdu.parse
  rw [Cursor.new, hnext]
  simp only [bind, Except.bind, tlvAt_tag, if_neg hne, Tlv.expect, if_pos, Tlv.children, tlvAt_value,
    hloop]
  simp

theorem Ppdu.parse_connect (hfit : cp.Fitting) (hrequest : cp.isResponse = false)
    (h : (Ppdu.connect cp).write = .ok bs) : Ppdu.parse bs true = .ok (.connect cp) := by
  rw [Ppdu.parse_writeConnect hfit h, hrequest]
  rfl

theorem Ppdu.parse_accept (hfit : cp.Fitting) (hresponse : cp.isResponse = true)
    (h : (Ppdu.accept cp).write = .ok bs) : Ppdu.parse bs true = .ok (.accept cp) := by
  rw [Ppdu.parse_writeConnect hfit h, hresponse]
  rfl

end Presentation

/-! ### ACSE -/

namespace Acse

open Presentation

/-- The indirect reference of an EXTERNAL fits an `i64`. -/
def UserInformation.Fitting (u : UserInformation) : Prop :=
  ∀ v, u.indirectReference = some v → IsI64 v

theorem parseExternal_written {u : UserInformation} (hfit : u.Fitting) {contents : Bytes}
    (h : concatM [ optM u.directReference (primitive tagOid),
      optM u.indirectReference (integer tagInteger),
      constructed (Tag.contextConstructed 0) (.ok u.value)] = .ok contents) (offset : Nat) :
    parseExternal (tlvAt offset tagExternal contents) = .ok u := by
  obtain ⟨direct, rest, hdirect, hrest, rfl⟩ := concatM_cons_ok h
  obtain ⟨indirect, rest', hindirect, hrest', rfl⟩ := concatM_cons_ok hrest
  obtain ⟨value, last, hvalue, hlast, rfl⟩ := concatM_cons_ok hrest'
  rw [concatM_nil_ok hlast, List.append_nil]
  obtain ⟨inner, hinner, hvalueLen, rfl⟩ := constructed_ok hvalue
  rw [Except.ok.injEq] at hinner
  subst hinner
  obtain ⟨directReference, indirectReference, value⟩ := u
  simp only at hdirect hindirect hvalueLen ⊢
  have hvalueFits : Fitting (Tag.contextConstructed 0, value) := fitting_pair (by decide) hvalueLen
  have hvalueOid : ¬ Tag.contextConstructed 0 = tagOid := by decide
  have hvalueInt : ¬ Tag.contextConstructed 0 = tagInteger := by decide
  have hintOid : ¬ tagInteger = tagOid := by decide
  unfold parseExternal
  rw [@elements_alone (Tag.contextConstructed 0) value]
  simp only [Tlv.expect, tlvAt_tag, if_pos, bind, Except.bind, Tlv.children, tlvAt_value]
  cases directReference with
  | none =>
    rw [optM, Except.ok.injEq] at hdirect
    rw [← hdirect, List.nil_append]
    cases indirectReference with
    | none =>
      rw [optM, Except.ok.injEq] at hindirect
      rw [← hindirect, List.nil_append, nextRequired_pair _ hvalueFits]
      rfl
    | some v =>
      obtain ⟨hlen, rfl⟩ := primitive_ok hindirect
      have hint := integerI64_minimalSigned (hfit v rfl).1 (hfit v rfl).2
      rw [elements_pair, nextRequired_pair _ (fitting_pair (by decide) hlen)]
      simp only [tlvAt_tag, if_neg hintOid, if_pos, hint]
      rw [nextRequired_pair _ hvalueFits]
      simp [pure, Except.pure, Tag.contextConstructed]
  | some d =>
    obtain ⟨hdirectLen, rfl⟩ := primitive_ok hdirect
    have hdirectFits : Fitting (tagOid, d) := fitting_pair (by decide) hdirectLen
    cases indirectReference with
    | none =>
      rw [optM, Except.ok.injEq] at hindirect
      rw [← hindirect, List.nil_append, elements_pair, nextRequired_pair _ hdirectFits]
      simp only [tlvAt_tag, if_pos, tlvAt_value]
      rw [nextRequired_pair _ hvalueFits]
      simp only [pure, Except.pure, tlvAt_tag, if_neg hvalueInt, tlvAt_value]
      rfl
    | some v =>
      obtain ⟨hlen, rfl⟩ := primitive_ok hindirect
      have hint := integerI64_minimalSigned (hfit v rfl).1 (hfit v rfl).2
      rw [elements_pair, elements_pair, nextRequired_pair _ hdirectFits]
      simp only [tlvAt_tag, if_pos, tlvAt_value]
      rw [nextRequired_pair _ (fitting_pair (by decide) hlen)]
      simp only [pure, Except.pure, tlvAt_tag, if_pos, hint]
      rw [nextRequired_pair _ hvalueFits]
      simp [Tag.contextConstructed]

/-- The numbers of an AARQ or AARE fit their fields. -/
structure Associate.Fitting (a : Associate) : Prop where
  result : ∀ v, a.result = some v → IsI64 v
  userInformation : ∀ u, a.userInformation = some u → u.Fitting

variable {a : Associate} {request : Bool}

theorem conveys_userInformation {u : UserInformation} (hfit : u.Fitting) :
    Conveys (writeExternal u) (parseField request) a { a with userInformation := some u } := by
  refine conveys_constructed (by decide) fun contents offset hcontents => ?_
  obtain ⟨inner, hinner, hnext⟩ := nextRequired_constructed (by decide) hcontents
  obtain ⟨_, hnext⟩ := hnext (tlvAt offset (Tag.contextConstructed 30) contents).valueOffset
  simp only [Tag.contextConstructed] at hnext
  have hne : ¬ (Tag.contextConstructed 30).cls ≠ .context := by decide
  unfold parseField
  rw [tlvAt_tag, if_neg hne]
  simp only [Tag.contextConstructed, Tlv.children, tlvAt_value, hnext, bind, Except.bind,
    parseExternal_written hfit hinner]

/-- The AARQ as its own parser returns it: the fields of a response are not sent. -/
def Associate.asRequest (a : Associate) : Associate :=
  { a with result := none, resultDiagnostic := none, respondingApTitle := none,
           respondingAeQualifier := none }

/-- The AARE as its own parser returns it: the fields of a request are not sent, and a result
goes with a diagnostic. -/
def Associate.asResponse (a : Associate) : Associate :=
  { a with calledApTitle := none, calledAeQualifier := none,
           resultDiagnostic := match a.resultDiagnostic, a.result with
             | some d, _ => some d
             | none, some _ => some diagnosticServiceUserNull
             | none, none => none }

theorem conveys_protocolVersion {version : Option (UInt8 × Bytes)} :
    Conveys (optM version (fun v => bitString (Tag.context 0) v.1 v.2)) (parseField request)
      {} { protocolVersion := version } := by
  refine conveys_bits (by decide) (fun h => by rw [h]) fun v tlv hv htag hbits => ?_
  simp [hv, parseField, htag, Tag.context, hbits, bind, Except.bind]

theorem conveys_contextName {name : Option Bytes} (hnone : a.contextName = none) :
    Conveys (optM name (fun oid => constructed (Tag.contextConstructed 1) (primitive tagOid oid)))
      (parseField request) a { a with contextName := name } := by
  refine conveys_optM (fun h => by rw [h, ← hnone]) (fun oid hoid => ?_)
  subst hoid
  refine conveys_constructed (by decide) fun contents offset hcontents => ?_
  obtain ⟨_, hnext⟩ := nextRequired_primitive
    (tlvAt offset (Tag.contextConstructed 1) contents).valueOffset (by decide) hcontents
  have hne : ¬ (Tag.contextConstructed 1).cls ≠ .context := by decide
  simp only [Tag.contextConstructed] at hnext
  unfold parseField
  rw [tlvAt_tag, if_neg hne]
  simp only [Tag.contextConstructed, Tlv.children, tlvAt_value, hnext]
  rfl

theorem conveys_result {result : Option Int} (hfit : ∀ v, result = some v → IsI64 v)
    (hnone : a.result = none) : Conveys (optM result (fun r =>
        constructed (Tag.contextConstructed 2) (integer tagInteger r)))
      (parseField false) a { a with result := result } := by
  refine conveys_optM (fun h => by rw [h, ← hnone]) (fun r hr => ?_)
  obtain ⟨hlow, hhigh⟩ := hfit r hr
  subst hr
  refine conveys_constructed (by decide) fun contents offset hcontents => ?_
  obtain ⟨_, hnext⟩ := nextRequired_primitive
    (tlvAt offset (Tag.contextConstructed 2) contents).valueOffset (by decide) hcontents
  simp only [Tag.contextConstructed] at hnext
  have hne : ¬ (Tag.contextConstructed 2).cls ≠ .context := by decide
  unfold parseField
  rw [tlvAt_tag, if_neg hne]
  simp only [Tag.contextConstructed, Tlv.children, tlvAt_value, hnext, bind, Except.bind,
    integerI64_minimalSigned hlow hhigh]

theorem conveys_requirements (request : Bool) {requirements : Option (UInt8 × Bytes)}
    (hnone : a.senderRequirements = none) : Conveys (optM requirements
        (fun v => bitString (Tag.context (if request then 10 else 8)) v.1 v.2))
      (parseField request) a { a with senderRequirements := requirements } := by
  refine conveys_bits (by cases request <;> decide) (fun h => by rw [h, ← hnone])
    fun v tlv hv htag hbits => ?_
  cases request <;> simp [hv, parseField, htag, Tag.context, hbits, bind, Except.bind]

theorem conveys_request (hfit : a.Fitting) :
    Conveys (writeAssociate true a) (parseField true) {} a.asRequest := by
  obtain ⟨version, name, result, diagnostic, calledTitle, calledQualifier, respondingTitle,
    respondingQualifier, callingTitle, callingQualifier, requirements, mechanism, authentication,
    information⟩ := a
  obtain ⟨-, hinformation⟩ := hfit
  simp only at hinformation
  unfold writeAssociate
  simp only [Associate.asRequest]
  refine conveys_concatM_cons conveys_protocolVersion ?_
  refine conveys_concatM_cons (conveys_contextName rfl) ?_
  refine conveys_concatM_cons (t := ⟨version, name, none, none, calledTitle, calledQualifier, none,
    none, none, none, none, none, none, none⟩) ?_ ?_
  · simp only [if_pos, writeCalled]
    refine conveys_concatM_cons (t := ⟨version, name, none, none, calledTitle, none, none, none,
      none, none, none, none, none, none⟩) ?_ (conveys_concatM_cons ?_ conveys_concatM_nil)
    · exact conveys_field (by decide) (fun h => by rw [h]) fun v offset hv => by rw [hv]; rfl
    · exact conveys_field (by decide) (fun h => by rw [h]) fun v offset hv => by rw [hv]; rfl
  refine conveys_concatM_cons (t := ⟨version, name, none, none, calledTitle, calledQualifier, none,
    none, callingTitle, none, none, none, none, none⟩) ?_ ?_
  · exact conveys_field (by decide) (fun h => by rw [h]) fun v offset hv => by rw [hv]; rfl
  refine conveys_concatM_cons (t := ⟨version, name, none, none, calledTitle, calledQualifier, none,
    none, callingTitle, callingQualifier, none, none, none, none⟩) ?_ ?_
  · exact conveys_field (by decide) (fun h => by rw [h]) fun v offset hv => by rw [hv]; rfl
  refine conveys_concatM_cons (conveys_requirements true rfl) ?_
  refine conveys_concatM_cons (t := ⟨version, name, none, none, calledTitle, calledQualifier, none,
    none, callingTitle, callingQualifier, requirements, mechanism, none, none⟩) ?_ ?_
  · exact conveys_field (by decide) (fun h => by rw [h]) fun v offset hv => by rw [hv]; rfl
  refine conveys_concatM_cons (t := ⟨version, name, none, none, calledTitle, calledQualifier, none,
    none, callingTitle, callingQualifier, requirements, mechanism, authentication, none⟩) ?_ ?_
  · exact conveys_field (by decide) (fun h => by rw [h]) fun v offset hv => by rw [hv]; rfl
  refine conveys_concatM_cons ?_ conveys_concatM_nil
  refine conveys_optM (fun h => by rw [h]) fun u hu => ?_
  subst hu
  exact conveys_userInformation (hinformation u rfl)

theorem conveys_response (hfit : a.Fitting) :
    Conveys (writeAssociate false a) (parseField false) {} a.asResponse := by
  obtain ⟨version, name, result, diagnostic, calledTitle, calledQualifier, respondingTitle,
    respondingQualifier, callingTitle, callingQualifier, requirements, mechanism, authentication,
    information⟩ := a
  obtain ⟨hresult, hinformation⟩ := hfit
  simp only at hresult hinformation
  unfold writeAssociate
  simp only [Associate.asResponse]
  generalize hsent : (match diagnostic, result with
    | some d, _ => some d
    | none, some _ => some diagnosticServiceUserNull
    | none, none => none) = sent
  refine conveys_concatM_cons conveys_protocolVersion ?_
  refine conveys_concatM_cons (conveys_contextName rfl) ?_
  refine conveys_concatM_cons (t := ⟨version, name, result, sent, none, none, respondingTitle,
    respondingQualifier, none, none, none, none, none, none⟩) ?_ ?_
  · rw [if_neg (by decide)]
    simp only [writeResult]
    refine conveys_concatM_cons (conveys_result hresult rfl) ?_
    refine conveys_concatM_cons (t := ⟨version, name, result, sent, none, none, none, none, none,
      none, none, none, none, none⟩) ?_ ?_
    · cases diagnostic with
      | some d =>
        simp only at hsent
        subst hsent
        exact conveys_primitive (by decide) fun offset => rfl
      | none =>
        cases result with
        | some r =>
          simp only at hsent
          subst hsent
          exact conveys_primitive (by decide) fun offset => rfl
        | none =>
          simp only at hsent
          subst hsent
          exact conveys_nothing
    refine conveys_concatM_cons (t := ⟨version, name, result, sent, none, none, respondingTitle,
      none, none, none, none, none, none, none⟩) ?_ (conveys_concatM_cons ?_ conveys_concatM_nil)
    · exact conveys_field (by decide) (fun h => by rw [h]) fun v offset hv => by rw [hv]; rfl
    · exact conveys_field (by decide) (fun h => by rw [h]) fun v offset hv => by rw [hv]; rfl
  refine conveys_concatM_cons (t := ⟨version, name, result, sent, none, none, respondingTitle,
    respondingQualifier, callingTitle, none, none, none, none, none⟩) ?_ ?_
  · exact conveys_field (by decide) (fun h => by rw [h]) fun v offset hv => by rw [hv]; rfl
  refine conveys_concatM_cons (t := ⟨version, name, result, sent, none, none, respondingTitle,
    respondingQualifier, callingTitle, callingQualifier, none, none, none, none⟩) ?_ ?_
  · exact conveys_field (by decide) (fun h => by rw [h]) fun v offset hv => by rw [hv]; rfl
  refine conveys_concatM_cons (conveys_requirements false rfl) ?_
  refine conveys_concatM_cons (t := ⟨version, name, result, sent, none, none, respondingTitle,
    respondingQualifier, callingTitle, callingQualifier, requirements, mechanism, none, none⟩) ?_ ?_
  · exact conveys_field (by decide) (fun h => by rw [h]) fun v offset hv => by rw [hv]; rfl
  refine conveys_concatM_cons (t := ⟨version, name, result, sent, none, none, respondingTitle,
    respondingQualifier, callingTitle, callingQualifier, requirements, mechanism, authentication,
    none⟩) ?_ ?_
  · exact conveys_field (by decide) (fun h => by rw [h]) fun v offset hv => by rw [hv]; rfl
  refine conveys_concatM_cons ?_ conveys_concatM_nil
  refine conveys_optM (fun h => by rw [h]) fun u hu => ?_
  subst hu
  exact conveys_userInformation (hinformation u rfl)

theorem Apdu.parse_associate (hfit : a.Fitting) {bs : Bytes}
    (h : (Apdu.associate a).write = .ok bs) : Apdu.parse bs = .ok (.associate a.asRequest) := by
  obtain ⟨contents, hcontents, hnext⟩ := nextRequired_constructed (by decide) h
  obtain ⟨_, hnext⟩ := hnext 0
  have hloop := (conveys_request hfit).forItems hcontents (tlvAt 0 tagAarq contents).valueOffset
  unfold Apdu.parse
  rw [Cursor.new, hnext]
  simp only [bind, Except.bind, tlvAt_tag, Tlv.children, tlvAt_value]
  change Apdu.associate <$> forItems _ _ _ = _
  rw [hloop]
  rfl

theorem Apdu.parse_associateResponse (hfit : a.Fitting) {bs : Bytes}
    (h : (Apdu.associateResponse a).write = .ok bs) :
    Apdu.parse bs = .ok (.associateResponse a.asResponse) := by
  obtain ⟨contents, hcontents, hnext⟩ := nextRequired_constructed (by decide) h
  obtain ⟨_, hnext⟩ := hnext 0
  have hloop := (conveys_response hfit).forItems hcontents (tlvAt 0 tagAare contents).valueOffset
  unfold Apdu.parse
  rw [Cursor.new, hnext]
  simp only [bind, Except.bind, tlvAt_tag, Tlv.children, tlvAt_value]
  change Apdu.associateResponse <$> forItems _ _ _ = _
  rw [hloop]
  rfl

end Acse

end Iec61850.Osi
