import Iec61850.Osi.UpperRoundTrip

/-!
# Every presentation and ACSE unit is read back

`Ppdu::write` and `Apdu::write` against their parsers over all kinds of unit. `UpperRoundTrip`
reads back the connect and associate units; here are the reject, the user data, and the release
and abort units. One type carries the fields of both directions, and the parsers fill the
fields of one: a unit comes back exactly if it holds the fields of its own direction.
-/

namespace Iec61850.Osi

open Theory Ber

/-! ### Presentation -/

namespace Presentation

/-- Whether a unit belongs to the handshake, as the caller of `Ppdu::parse` says. -/
def Ppdu.handshake : Ppdu → Bool
  | .userData _ => false
  | _ => true

/-- The numbers of a unit fit their fields. -/
def Ppdu.Fitting : Ppdu → Prop
  | .connect cp => cp.Fitting
  | .accept cp => cp.Fitting
  | .reject cp => cp.Fitting
  | .userData pdvs => ∀ p ∈ pdvs, p.Fitting

/-- A CP has none of the fields that only a responder sends, and a CPA has one of them. -/
def Ppdu.Directed : Ppdu → Prop
  | .connect cp => cp.respondingPsel = none ∧ cp.results = []
  | .accept cp => ¬ (cp.respondingPsel = none ∧ cp.results = [])
  | _ => True

theorem Cp.isResponse_eq_false {cp : Cp} :
    cp.isResponse = false ↔ cp.respondingPsel = none ∧ cp.results = [] := by
  unfold Cp.isResponse
  simp

theorem Ppdu.parse_reject {cp : Cp} (hfit : cp.Fitting) {bs : Bytes}
    (h : (Ppdu.reject cp).write = .ok bs) : Ppdu.parse bs true = .ok (.reject cp) := by
  obtain ⟨contents, hcontents, hnext⟩ := nextRequired_constructed (by decide) h
  obtain ⟨_, hnext⟩ := hnext 0
  have hloop := (conveys_normalMode hfit).forItems hcontents
    (tlvAt 0 tagSequence contents).valueOffset
  unfold Ppdu.parse
  rw [Cursor.new, hnext]
  simp only [bind, Except.bind, tlvAt_tag, if_pos, parseNormalMode, Tlv.children, tlvAt_value,
    hloop]
  rfl

theorem Ppdu.parse_userData {pdvs : List Pdv} (hfit : ∀ p ∈ pdvs, p.Fitting) {bs : Bytes}
    (h : (Ppdu.userData pdvs).write = .ok bs) : Ppdu.parse bs false = .ok (.userData pdvs) := by
  obtain ⟨contents, ⟨rfl, hfits⟩, hparse⟩ := writePdvs_ok hfit h
  have hread := hparse (tlvAt 0 tagFullyEncodedData contents) rfl
  unfold Ppdu.parse
  rw [Cursor.new, nextRequired_elements _ (hfits _ (List.mem_singleton_self _))]
  simp only [bind, Except.bind, if_pos, Tlv.expect, tlvAt_tag, hread]
  rfl

theorem Ppdu.parse_iff_of_write {p : Ppdu} (hfit : p.Fitting) {bs : Bytes} (h : p.write = .ok bs) :
    Ppdu.parse bs p.handshake = .ok p ↔ p.Directed := by
  cases p with
  | connect cp =>
    have hread : Ppdu.parse bs true = _ := Ppdu.parse_writeConnect hfit h
    change Ppdu.parse bs true = _ ↔ cp.respondingPsel = none ∧ cp.results = []
    rw [hread, ← Cp.isResponse_eq_false]
    cases cp.isResponse <;> simp
  | accept cp =>
    have hread : Ppdu.parse bs true = _ := Ppdu.parse_writeConnect hfit h
    change Ppdu.parse bs true = _ ↔ ¬ (cp.respondingPsel = none ∧ cp.results = [])
    rw [hread, ← Cp.isResponse_eq_false]
    cases cp.isResponse <;> simp
  | reject cp => exact ⟨fun _ => trivial, fun _ => Ppdu.parse_reject hfit h⟩
  | userData pdvs => exact ⟨fun _ => trivial, fun _ => Ppdu.parse_userData hfit h⟩

end Presentation

/-! ### ACSE -/

namespace Acse

open Presentation

/-- The number of a release or abort unit fits an `i64`. -/
def FittingReason (v : Option Int) : Prop := ∀ r, v = some r → IsI64 r

/-- The numbers of a unit fit their fields. -/
def Apdu.Fitting : Apdu → Prop
  | .associate a => a.Fitting
  | .associateResponse a => a.Fitting
  | .release v => FittingReason v
  | .releaseResponse v => FittingReason v
  | .abort v => FittingReason v

/-- No field that only a response sends. -/
def Associate.Requests (a : Associate) : Prop :=
  a.result = none ∧ a.resultDiagnostic = none ∧ a.respondingApTitle = none ∧
    a.respondingAeQualifier = none

/-- No field that only a request sends, and a diagnostic with the result. -/
def Associate.Responds (a : Associate) : Prop :=
  a.calledApTitle = none ∧ a.calledAeQualifier = none ∧
    (a.result ≠ none → a.resultDiagnostic ≠ none)

/-- An AARQ or AARE holds the fields of its own direction. -/
def Apdu.Directed : Apdu → Prop
  | .associate a => a.Requests
  | .associateResponse a => a.Responds
  | _ => True

theorem Associate.asRequest_eq_iff {a : Associate} : a.asRequest = a ↔ a.Requests := by
  obtain ⟨version, name, result, diagnostic, calledTitle, calledQualifier, respondingTitle,
    respondingQualifier, callingTitle, callingQualifier, requirements, mechanism, authentication,
    information⟩ := a
  simp only [Associate.asRequest, Associate.Requests, Associate.mk.injEq]
  constructor
  · rintro ⟨-, -, hresult, hdiagnostic, -, -, htitle, hqualifier, -⟩
    exact ⟨hresult.symm, hdiagnostic.symm, htitle.symm, hqualifier.symm⟩
  · rintro ⟨rfl, rfl, rfl, rfl⟩
    simp

theorem Associate.asResponse_eq_iff {a : Associate} : a.asResponse = a ↔ a.Responds := by
  obtain ⟨version, name, result, diagnostic, calledTitle, calledQualifier, respondingTitle,
    respondingQualifier, callingTitle, callingQualifier, requirements, mechanism, authentication,
    information⟩ := a
  simp only [Associate.asResponse, Associate.Responds, Associate.mk.injEq]
  constructor
  · rintro ⟨-, -, -, hdiagnostic, htitle, hqualifier, -⟩
    refine ⟨htitle.symm, hqualifier.symm, fun hresult hnone => ?_⟩
    cases result with
    | none => exact hresult rfl
    | some r =>
      rw [hnone] at hdiagnostic
      cases hdiagnostic
  · rintro ⟨rfl, rfl, hdiagnostic⟩
    cases diagnostic with
    | some d => simp
    | none =>
      cases result with
      | none => simp
      | some r => exact absurd rfl (hdiagnostic (by simp))

variable {v : Option Int} {bs : Bytes}

theorem conveys_reason (hfit : FittingReason v) : Conveys (writeReason v) parseReason none v := by
  apply conveys_optM
  · intro hnone
    exact hnone.symm
  · intro r hr
    obtain ⟨hlow, hhigh⟩ := hfit r hr
    apply conveys_integer hlow hhigh (by decide)
    intro tlv htag hint
    subst hr
    simp [parseReason, htag, Tag.context, hint]

/-- A release or abort unit: one optional integer behind an application tag. -/
theorem forItems_reason (hfit : FittingReason v) {tag : Tag} (htag : tag.number ≤ u32Max)
    (h : constructed tag (writeReason v) = .ok bs) : ∃ (contents : Bytes) (c : Cursor),
      (Cursor.new bs).nextRequired = .ok (tlvAt 0 tag contents, c) ∧
      forItems (tlvAt 0 tag contents).children none parseReason = .ok v := by
  obtain ⟨contents, hcontents, hnext⟩ := nextRequired_constructed htag h
  obtain ⟨c, hnext⟩ := hnext 0
  exact ⟨contents, c, hnext, (conveys_reason hfit).forItems hcontents _⟩

theorem Apdu.parse_release (hfit : FittingReason v) (h : (Apdu.release v).write = .ok bs) :
    Apdu.parse bs = .ok (.release v) := by
  obtain ⟨contents, c, hnext, hloop⟩ := forItems_reason hfit (by decide) h
  unfold Apdu.parse
  rw [hnext]
  change Apdu.release <$> forItems _ _ _ = _
  rw [hloop]
  rfl

theorem Apdu.parse_releaseResponse (hfit : FittingReason v)
    (h : (Apdu.releaseResponse v).write = .ok bs) : Apdu.parse bs = .ok (.releaseResponse v) := by
  obtain ⟨contents, c, hnext, hloop⟩ := forItems_reason hfit (by decide) h
  unfold Apdu.parse
  rw [hnext]
  change Apdu.releaseResponse <$> forItems _ _ _ = _
  rw [hloop]
  rfl

theorem Apdu.parse_abort (hfit : FittingReason v) (h : (Apdu.abort v).write = .ok bs) :
    Apdu.parse bs = .ok (.abort v) := by
  obtain ⟨contents, c, hnext, hloop⟩ := forItems_reason hfit (by decide) h
  unfold Apdu.parse
  rw [hnext]
  change Apdu.abort <$> forItems _ _ _ = _
  rw [hloop]
  rfl

theorem Apdu.parse_iff_of_write {a : Apdu} (hfit : a.Fitting) (h : a.write = .ok bs) :
    Apdu.parse bs = .ok a ↔ a.Directed := by
  cases a with
  | associate a =>
    rw [Apdu.parse_associate hfit h, Except.ok.injEq, Apdu.associate.injEq]
    exact Associate.asRequest_eq_iff
  | associateResponse a =>
    rw [Apdu.parse_associateResponse hfit h, Except.ok.injEq, Apdu.associateResponse.injEq]
    exact Associate.asResponse_eq_iff
  | release v => exact ⟨fun _ => trivial, fun _ => Apdu.parse_release hfit h⟩
  | releaseResponse v => exact ⟨fun _ => trivial, fun _ => Apdu.parse_releaseResponse hfit h⟩
  | abort v => exact ⟨fun _ => trivial, fun _ => Apdu.parse_abort hfit h⟩

end Acse

/-! ### Both layers -/

open Presentation Acse

/-- What a writer of either layer accepts is parsed to what was written, exactly if it holds the
fields of its own direction. -/
theorem upper_reread_iff : (∀ (p : Ppdu) (bs : Bytes), p.Fitting → p.write = .ok bs →
      (Ppdu.parse bs p.handshake = .ok p ↔ p.Directed)) ∧
    (∀ (a : Apdu) (bs : Bytes), a.Fitting → a.write = .ok bs →
      (Apdu.parse bs = .ok a ↔ a.Directed)) :=
  ⟨fun _ _ hfit h => Ppdu.parse_iff_of_write hfit h, fun _ _ hfit h => Apdu.parse_iff_of_write hfit h⟩

/-- User data and an abort with its source come back. -/
theorem upper_reread_userData : (∃ bs, (Ppdu.userData [Pdv.single 3 [1, 2]]).write = .ok bs ∧
      Ppdu.parse bs false = .ok (.userData [Pdv.single 3 [1, 2]])) ∧
    (∃ bs, (Apdu.abort (some 1)).write = .ok bs ∧ Apdu.parse bs = .ok (.abort (some 1))) := by
  refine ⟨⟨_, rfl, ?_⟩, ⟨_, rfl, ?_⟩⟩
  · refine (upper_reread_iff.1 (.userData [Pdv.single 3 [1, 2]]) _ ?_ rfl).2 trivial
    intro p hp
    rw [List.mem_singleton] at hp
    subst hp
    exact (by decide : (3 : Nat) ≤ 65535)
  · refine (upper_reread_iff.2 (.abort (some 1)) _ ?_ rfl).2 trivial
    intro r hr
    obtain rfl := Option.some.inj hr
    exact ⟨by decide, by decide⟩

/-- A CPA with no field of a responder is read as a CP, and an AARE whose result has no
diagnostic comes back with one. -/
theorem upper_reread_other :
    (∃ bs, (Ppdu.accept {}).write = .ok bs ∧ Ppdu.parse bs true = .ok (.connect {})) ∧
    (∃ bs, (Apdu.associateResponse { result := some 0 }).write = .ok bs ∧
      Apdu.parse bs ≠ .ok (.associateResponse { result := some 0 })) := by
  refine ⟨⟨_, rfl, rfl⟩, ⟨_, rfl, ?_⟩⟩
  decide

end Iec61850.Osi
