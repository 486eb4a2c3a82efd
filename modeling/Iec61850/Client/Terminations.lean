import Iec61850.Client.TerminationReadback

/-!
# Terminations of written requests

A request that came in a `Write` has a value within the limits it was decoded with, and in a
constant factor of the octets of the PDU. So its termination is read back by the client that wrote
it, as far as the name of the control object can be sent (`termination_read_back`).
-/

namespace Iec61850.Client

open Theory Ber Mms Server

/-! ### The values of a write -/

theorem required_found {α : Type} {c c' : Cursor} {tag : Tag} {f : Tlv → Except Error α} {a : α}
    (h : required c tag f = .ok (a, c')) :
    ∃ t, f t = .ok a ∧ t.value.length + c'.rest.length ≤ c.rest.length := by
  obtain ⟨⟨t, c''⟩, hnext, hread⟩ := bind_ok h
  change (f t >>= fun a => Except.ok (a, c'')) = _ at hread
  obtain ⟨b, hb, hok⟩ := bind_ok hread
  cases hok
  exact ⟨t, hb, nextTag_length hnext⟩

variable {v : Tlv} {limits : Limits} {pdu text : Bytes} {left : Nat} {m : List Value}

variable {t : Tlv} {access : VariableAccess} {values : List Tlv} {o : Origin}
  {request : ControlRequest} {r : AccessResult} {structures : List (List Value)}
  {results : List AccessResult}

theorem parseWriteValue_eq (h : ConfirmedRequest.parseWriteValue t = .ok v) : v = t := by
  obtain ⟨view, -, h⟩ := bind_ok h
  cases h
  rfl

theorem write_values (h : ConfirmedRequest.parse t limits = .ok (.write access values))
    (hv : v ∈ values) : v.tag.number ≤ u32Max ∧ v.value.length ≤ t.value.length := by
  unfold ConfirmedRequest.parse at h
  split at h
  · cases h
  split at h
  case h_6 =>
    obtain ⟨⟨a, c⟩, ha, h⟩ := bind_ok h
    dsimp only at h
    obtain ⟨access', -, h⟩ := bind_ok h
    obtain ⟨⟨values', c'⟩, hvalues, h⟩ := bind_ok h
    cases h
    obtain ⟨list, hlist, hlength⟩ := required_found hvalues
    have hservice := nextRequired_length ha
    obtain ⟨-, hall⟩ := collectItems_ok hlist
    obtain ⟨-, hreads⟩ := collectItems_reads hlist
    obtain ⟨u, hu, hread⟩ := hreads v hv
    rw [← parseWriteValue_eq hread] at hu
    have hsum : (values'.map fun v : Tlv => v.value.length).sum ≤
        1 * list.children.rest.length := by
      refine items_contents (hall.imp ?_)
      rintro item w ⟨u, hitem, hw⟩
      refine ⟨u, hitem, ?_⟩
      rw [parseWriteValue_eq hw]
      omega
    have hmem := List.le_sum_of_mem (List.mem_map_of_mem (f := fun v : Tlv => v.value.length) hv)
    refine ⟨hu, ?_⟩
    simp only [Tlv.children] at hsum hservice hmem
    omega
  all_goals
    -- no other service is a write
    repeat first
      | (obtain ⟨_, -, h⟩ := map_ok h)
      | (obtain ⟨⟨_, _⟩, -, h⟩ := bind_ok h; dsimp only at h)
      | (obtain ⟨_, -, h⟩ := bind_ok h)
    cases h

theorem pdu_write_values {id : Int}
    (h : Pdu.parse pdu limits = .ok (.confirmedRequest id (.write access values))) (hv : v ∈ values) :
    v.tag.number ≤ u32Max ∧ v.value.length ≤ pdu.length := by
  unfold Pdu.parse at h
  obtain ⟨⟨top, rest⟩, htop, h⟩ := bind_ok h
  dsimp only at h
  split at h
  · cases h
  split at h
  case h_1 =>
    unfold Pdu.parseRequest at h
    obtain ⟨⟨id', c⟩, hid, h⟩ := bind_ok h
    dsimp only at h
    obtain ⟨⟨next, c'⟩, hnext, h⟩ := bind_ok h
    dsimp only at h
    obtain ⟨t, -, hlength⟩ := required_found hid
    have htopLength := nextRequired_length htop
    have hnextLength := nextRequired_length hnext
    simp only [Cursor.new, Tlv.children] at htopLength hlength
    split at h
    · -- a list of modifiers was skipped
      obtain ⟨⟨service, c''⟩, hservice, h⟩ := bind_ok h
      dsimp only at h
      obtain ⟨r, hr, h⟩ := map_ok h
      cases h
      have hserviceLength := nextRequired_length hservice
      obtain ⟨hnumber, hvalue⟩ := write_values hr hv
      exact ⟨hnumber, by omega⟩
    · change _ <$> ConfirmedRequest.parse next limits = _ at h
      obtain ⟨r, hr, h⟩ := map_ok h
      cases h
      obtain ⟨hnumber, hvalue⟩ := write_values hr hv
      exact ⟨hnumber, by omega⟩
  all_goals
    -- no other PDU is a confirmed request
    repeat first
      | (obtain ⟨_, -, h⟩ := map_ok h)
      | (obtain ⟨⟨_, _⟩, -, h⟩ := bind_ok h; dsimp only at h)
      | (obtain ⟨_, -, h⟩ := bind_ok h)
    cases h

/-! ### The request of a write -/

/-- A request decodes from a value of a `Write`, as the server decodes it; an association takes no
PDU that is longer than its bound on a transport unit. -/
structure WrittenIn (pdu : Bytes) (request : ControlRequest) : Prop where
  short : pdu.length ≤ 2 ^ 27
  decodes : ∃ limits id access values, Pdu.parse pdu limits =
    .ok (.confirmedRequest id (.write access values)) ∧ ∃ t ∈ values, ∃ view v,
      DataView.fromTlv t = .ok view ∧ view.toOwned Limits.default = .ok v ∧
        ControlRequest.fromValue v = .ok request

/-- The members of a value within the limits are, and have no more room than the value. -/
theorem within_members {v : Value} {members : List Value} (hv : v.Within limits left)
    (h : membersOf v = some members) {w : Value} (hw : w ∈ members) :
    w.Within limits (left - 1) ∧ w.room ≤ v.room := by
  cases v with
  | array m =>
    cases h
    rw [Value.Within] at hv
    rw [Value.room]
    exact ⟨hv.2.mem hw, Nat.le_trans (Value.room_le_of_mem hw) (Nat.le_add_right _ _)⟩
  | «structure» m =>
    cases h
    rw [Value.Within] at hv
    rw [Value.room]
    exact ⟨hv.2.mem hw, Nat.le_trans (Value.room_le_of_mem hw) (Nat.le_add_right _ _)⟩
  | _ => cases h

theorem OriginCategory.toCode_fromCode (code : Int) :
    (OriginCategory.fromCode code).toCode = code := by
  unfold OriginCategory.fromCode
  split <;> rfl

/-- An origin that was read has a category and an identifier that can be sent. -/
theorem origin_within {v : Value} (hv : v.Within limits left) (h : Origin.fromValue v = some o) :
    (-2 ^ 63 ≤ o.category.toCode ∧ o.category.toCode < 2 ^ 63) ∧
      o.identifier.length ≤ limits.maxPrimitiveLen := by
  obtain ⟨members, hmembers, h⟩ := Option.bind_eq_some_iff.mp h
  obtain ⟨category, hcategory, h⟩ := Option.bind_eq_some_iff.mp h
  obtain ⟨identifier, hidentifier, h⟩ := Option.bind_eq_some_iff.mp h
  cases h
  obtain ⟨a, ha, hcategory⟩ := Option.bind_eq_some_iff.mp hcategory
  obtain ⟨b, hb, hidentifier⟩ := Option.bind_eq_some_iff.mp hidentifier
  obtain ⟨hawithin, -⟩ := within_members hv hmembers (List.mem_of_getElem? ha)
  obtain ⟨hbwithin, -⟩ := within_members hv hmembers (List.mem_of_getElem? hb)
  constructor
  · unfold Origin.categoryOf at hcategory
    split at hcategory
    · cases hcategory
      rw [Value.Within] at hawithin
      rwa [OriginCategory.toCode_fromCode]
    · split at hcategory
      · cases hcategory
        rw [OriginCategory.toCode_fromCode]
        omega
      · cases hcategory
    · cases hcategory
  · unfold Origin.identifierOf at hidentifier
    split at hidentifier
    · cases hidentifier
      rwa [Value.Within] at hbwithin
    · cases hidentifier
      rw [Value.Within] at hbwithin
      exact hbwithin.2
    · cases hidentifier
      rw [Value.Within] at hbwithin
      exact hbwithin.2
    · cases hidentifier

/-- The value of an origin is within the limits and takes little more than its identifier. -/
theorem origin_value (hleft : 0 < left) (hmembers : 2 ≤ limits.maxDatasetMembers)
    (hcategory : -2 ^ 63 ≤ o.category.toCode ∧ o.category.toCode < 2 ^ 63)
    (hidentifier : o.identifier.length ≤ limits.maxPrimitiveLen) :
    o.toValue.Within limits left ∧ o.toValue.room = o.identifier.length + 41 := by
  constructor
  · rw [Origin.toValue, Value.Within]
    simp only [Value.AllWithin, Value.Within]
    exact ⟨hmembers, hleft, hcategory, hleft, hidentifier, trivial⟩
  · rw [Origin.toValue]
    simp only [Value.room, Value.roomAll]
    omega

theorem request_value (h : WrittenIn pdu request) :
    request.toValue.Within Limits.default Limits.default.maxDepth ∧
      request.toValue.room ≤ 10 * pdu.length + 5000 := by
  obtain ⟨-, limits, id, access, values, hpdu, t, ht, view, v, hview, hv, hrequest⟩ := h
  obtain ⟨hnumber, hlength⟩ := pdu_write_values hpdu ht
  obtain ⟨hwithin, hroom⟩ := DataView.within_of_toOwned hnumber hview hv
  obtain ⟨members, hmembers, hoperTm, ⟨w, hw, horigin⟩, htime⟩ :=
    ControlRequest.exists_members hrequest
  obtain ⟨hctlVal, hctlRoom⟩ := within_members hwithin hmembers List.mem_cons_self
  obtain ⟨hwwithin, -⟩ := within_members hwithin hmembers (List.mem_cons_of_mem _ hw)
  obtain ⟨hcategory, hidentifier⟩ := origin_within hwwithin horigin
  have hmax : Limits.default.maxPrimitiveLen = 4096 := rfl
  have hdepth : 0 < Limits.default.maxDepth - 1 := by decide
  have hcount : 2 ≤ Limits.default.maxDatasetMembers := by decide
  obtain ⟨horiginWithin, horiginRoom⟩ := origin_value hdepth hcount hcategory hidentifier
  have htimeWithin := (within_members hwithin hmembers (List.mem_cons_of_mem _ htime)).1
  rw [Value.Within] at htimeWithin
  have hnum := request.ctlNum.toNat_lt
  have hcheck : ([(if request.check.synchro then 0x80 else 0) |||
      (if request.check.interlock then 0x40 else 0)] : Bytes) = [] → (6 : UInt8) = 0 :=
    fun hnil => absurd hnil (List.cons_ne_nil _ _)
  rw [ControlRequest.toValue]
  cases hoper : request.operTm with
  | none =>
    simp only [Option.map_none, Option.toList_none, List.append_nil, List.cons_append,
      List.nil_append, Value.Within, Value.AllWithin, Value.room, Value.roomAll, Check.toValue,
      horiginRoom, List.length_cons, List.length_nil]
    refine ⟨⟨by decide, by decide, hctlVal, by decide, horiginWithin, by decide, by omega,
      by decide, htimeWithin, by decide, trivial, by decide, ⟨⟨by decide, hcheck⟩, by decide⟩,
      trivial⟩, by omega⟩
  | some tm =>
    have htmWithin := (within_members hwithin hmembers
      (List.mem_cons_of_mem _ (hoperTm tm hoper))).1
    rw [Value.Within] at htmWithin
    simp only [Option.map_some, Option.toList_some, List.cons_append,
      List.nil_append, Value.Within, Value.AllWithin, Value.room, Value.roomAll, Check.toValue,
      horiginRoom, List.length_cons, List.length_nil]
    refine ⟨⟨by decide, by decide, hctlVal, by decide, htmWithin, by decide, horiginWithin,
      by decide, by omega, by decide, htimeWithin, by decide, trivial, by decide,
      ⟨⟨by decide, hcheck⟩, by decide⟩, trivial⟩, by omega⟩

/-- The origin of a request that was written can be sent back. -/
theorem request_origin (h : WrittenIn pdu request) :
    (-2 ^ 63 ≤ request.origin.category.toCode ∧ request.origin.category.toCode < 2 ^ 63) ∧
      request.origin.identifier.length ≤ Limits.default.maxPrimitiveLen ∧
      ∀ code, request.origin.category = .other code → 8 < code ∨ code < 0 := by
  obtain ⟨-, limits, id, access, values, hpdu, t, ht, view, v, hview, hv, hrequest⟩ := h
  obtain ⟨hwithin, -⟩ := DataView.within_of_toOwned (pdu_write_values hpdu ht).1 hview hv
  obtain ⟨members, hmembers, -, ⟨w, hw, horigin⟩, -⟩ := ControlRequest.exists_members hrequest
  have hwwithin := (within_members hwithin hmembers (List.mem_cons_of_mem _ hw)).1
  obtain ⟨hcategory, hidentifier⟩ := origin_within hwwithin horigin
  exact ⟨hcategory, hidentifier, fun code hcode => Origin.category_of_fromValue horigin hcode⟩

/-- The error of a refused command is within limits that its text is within. -/
theorem error_value {limits : Limits} (hcovers : limits.Covers Limits.default) {object : Reference}
    {request : ControlRequest} {cause : AddCause}
    (hcategory : -2 ^ 63 ≤ request.origin.category.toCode ∧ request.origin.category.toCode < 2 ^ 63)
    (hidentifier : request.origin.identifier.length ≤ Limits.default.maxPrimitiveLen)
    (hcause : -2 ^ 63 ≤ cause.toCode ∧ cause.toCode < 2 ^ 63)
    (hascii : isAscii (operText object) = true)
    (hlen : (operText object).length ≤ limits.maxPrimitiveLen) :
    (Control.applError object request cause).toValue.Within limits limits.maxDepth ∧
      (Control.applError object request cause).toValue.room ≤ (operText object).length + 5000 := by
  have hdepth : 32 ≤ limits.maxDepth := hcovers.maxDepth
  have hcount : 512 ≤ limits.maxDatasetMembers := hcovers.maxDatasetMembers
  have hmax : Limits.default.maxPrimitiveLen = 4096 := rfl
  have hdefault := hcovers.maxPrimitiveLen
  have hleft : 0 < limits.maxDepth - 1 := by omega
  have htwo : 2 ≤ limits.maxDatasetMembers := by omega
  obtain ⟨horiginWithin, horiginRoom⟩ := origin_value hleft htwo hcategory
    (Nat.le_trans hidentifier hdefault)
  have hnum := request.ctlNum.toNat_lt
  have htext : (Control.applError object request cause).controlObject = operText object := rfl
  have herror : (Control.applError object request cause).error.toCode = 1 := rfl
  have horigin : (Control.applError object request cause).origin = request.origin := rfl
  have hctlNum : (Control.applError object request cause).ctlNum = request.ctlNum := rfl
  have haddCause : (Control.applError object request cause).addCause = cause := rfl
  rw [LastApplError.toValue, htext, herror, horigin, hctlNum, haddCause]
  simp only [Value.Within, Value.AllWithin, Value.room, Value.roomAll, horiginRoom,
    List.length_cons, List.length_nil]
  exact ⟨⟨by omega, by omega, ⟨hascii, hlen⟩, by omega, by decide, by omega, horiginWithin,
    by omega, by omega, by omega, hcause, trivial⟩, by omega⟩

/-! ### What the client reads -/

theorem holds_read (h : Holds m r) (hwithin : (Value.structure m).Within limits limits.maxDepth) :
    resultToValue limits r = .ok (.structure m) := by
  obtain ⟨contents, offset, hcontents, rfl⟩ := h
  rw [Value.Within] at hwithin
  have hm := Value.encodeAll_renders m limits.maxDepth hwithin.2
  have hview : DataView.fromTlv (tlvAt offset (Tag.contextConstructed dataStructure) contents) =
      .ok (.structure (tlvAt offset (Tag.contextConstructed dataStructure) contents).children) := rfl
  rw [resultToValue, hview]
  dsimp only [bind, Except.bind]
  rw [DataView.toOwned, collectDepth_eq, Tlv.children, tlvAt_value,
    hm.collects hcontents _ _ hwithin.1]
  rfl

theorem holds_read_all (h : List.Forall₂ Holds structures results)
    (hwithin : ∀ m ∈ structures, (Value.structure m).Within limits limits.maxDepth) :
    results.mapM (resultToValue limits) = .ok (structures.map Value.structure) := by
  induction h with
  | nil => rfl
  | cons hhead _ ih =>
    rw [List.mapM_cons, holds_read hhead (hwithin _ List.mem_cons_self),
      ih fun m hm => hwithin m (List.mem_cons_of_mem _ hm)]
    rfl

/-- A string longer than the limits allow is not read. -/
theorem string_refused (hascii : isAscii text = true) (hlong : limits.maxPrimitiveLen < text.length)
    (offset left : Nat) :
    ∃ e, readMember limits left (tlvAt offset (Tag.context dataVisibleString) text) = .error e := by
  have hview : DataView.fromTlv (tlvAt offset (Tag.context dataVisibleString) text) =
      .ok (.visibleString text) := by
    change DataView.visibleString <$> Tlv.visibleString _ = _
    rw [Tlv.visibleString, tlvAt_value, if_pos hascii]
    rfl
  rw [readMember, hview]
  cases left with
  | zero => exact ⟨_, rfl⟩
  | succ left =>
    dsimp only [bind, Except.bind, DataView.ownedAt, DataView.leafToOwned]
    rw [checkLen, if_pos hlong]
    exact ⟨_, rfl⟩

theorem holds_refused (h : Holds (.visibleString text :: m) r)
    (hlong : limits.maxPrimitiveLen < text.length) : ∃ e, resultToValue limits r = .error e := by
  obtain ⟨contents, offset, hcontents, rfl⟩ := h
  rw [Value.encodeAll, Value.encode] at hcontents
  obtain ⟨here, hhere, hcontents⟩ := bind_ok hcontents
  obtain ⟨rest, -, hcontents⟩ := bind_ok hcontents
  cases hcontents
  unfold Ber.visibleString at hhere
  split at hhere
  · rename_i hascii
    obtain ⟨hlen, rfl⟩ := primitive_ok hhere
    have htag : (Tag.context dataVisibleString).number ≤ u32Max := by decide
    have hfit : Fitting (Tag.context dataVisibleString, text) := ⟨htag, hlen⟩
    have hnext := nextRequired_element hfit (tlvAt offset (Tag.contextConstructed dataStructure)
      (element (Tag.context dataVisibleString) text ++ rest)).valueOffset rest
    obtain ⟨e, he⟩ := string_refused hascii hlong (tlvAt offset
      (Tag.contextConstructed dataStructure)
      (element (Tag.context dataVisibleString) text ++ rest)).valueOffset limits.maxDepth
    obtain ⟨e', he'⟩ :=
      @collectItems_error _ "max_dataset_members" limits.maxDatasetMembers _ _ _ _ _ hnext he
    refine ⟨e', ?_⟩
    have hview : DataView.fromTlv (tlvAt offset (Tag.contextConstructed dataStructure)
        (element (Tag.context dataVisibleString) text ++ rest)) = .ok (.structure
        (tlvAt offset (Tag.contextConstructed dataStructure)
          (element (Tag.context dataVisibleString) text ++ rest)).children) := rfl
    rw [resultToValue, hview]
    dsimp only [bind, Except.bind]
    rw [DataView.toOwned, collectDepth_eq, Tlv.children, tlvAt_value, he']
    rfl
  · cases hhere

theorem holds_refused_all
    (h : List.Forall₂ Holds ((.visibleString text :: m) :: structures) results)
    (hlong : limits.maxPrimitiveLen < text.length) :
    ∃ e, results.mapM (resultToValue limits) = .error e := by
  cases h with
  | cons hfirst _ =>
    obtain ⟨e, he⟩ := holds_refused hfirst hlong
    rw [List.mapM_cons, he]
    exact ⟨e, rfl⟩

/-! ### Terminations -/

section Terminations

variable {limits : Limits} {pdu : Bytes} {access : VariableAccess} {results : List AccessResult}
  {object : Reference} {request : ControlRequest}

variable {values : List Value} {bs : Bytes} {names : List ObjectName}

theorem fromPdu_complete
    (hparse : Pdu.parse pdu limits = .ok (.unconfirmed (.informationReport access results)))
    (hvalues : results.mapM (resultToValue limits) = .ok values) :
    Unsolicited.fromPdu limits pdu = some (Unsolicited.complete access values pdu) := by
  rw [Unsolicited.fromPdu, hparse]
  dsimp only
  rw [hvalues]

theorem fromPdu_incomplete {e : Error}
    (hparse : Pdu.parse pdu limits = .ok (.unconfirmed (.informationReport access results)))
    (hvalues : results.mapM (resultToValue limits) = .error e) :
    Unsolicited.fromPdu limits pdu = some (Unsolicited.incomplete access pdu) := by
  rw [Unsolicited.fromPdu, hparse]
  dsimp only
  rw [hvalues]

theorem fromPdu_nil (limits : Limits) : Unsolicited.fromPdu limits [] = none := rfl

/-- The `Oper` of an object by itself. -/
theorem complete_positive (hitem : object.item ≠ [])
    (hrequest : ControlRequest.fromValue request.toValue = .ok request) :
    Unsolicited.complete (accessTo [.domainSpecific object.domain (operItem object)])
      [request.toValue] pdu = .commandTermination (.positive (operText object) request) := by
  rw [accessTo, Unsolicited.complete, termination]
  simp only [List.map_cons, List.map_nil, specificationName, objectName_oper hitem]
  rw [terminationOf, if_pos (isOper_operText object), hrequest]
  rfl

/-- `LastApplError` and the `Oper` of an object. -/
theorem complete_negative (hitem : object.item ≠ []) {error read : LastApplError}
    (herror : LastApplError.fromValue error.toValue = .ok read)
    (hrequest : ControlRequest.fromValue request.toValue = .ok request) :
    Unsolicited.complete (accessTo [.vmdSpecific (ascii "LastApplError"),
      .domainSpecific object.domain (operItem object)]) [error.toValue, request.toValue] pdu =
        .commandTermination (.negative read (some request)) := by
  rw [accessTo, Unsolicited.complete, termination]
  simp only [List.map_cons, List.map_nil, specificationName, objectName_oper hitem]
  rw [terminationOf, if_pos ⟨rfl, isOper_operText object⟩, herror, hrequest]
  rfl

theorem textOf_length (object : Reference) : (Control.textOf object).length =
    object.domain.length + 1 + (Control.itemText object.item).length := by
  rw [Control.textOf, List.length_append, List.length_append]
  rfl

theorem fits_item {n : ObjectName} {k : Nat} (h : Fits n.write k) (hk : k + 22 ≤ u32Max) :
    Fits (constructed tagSequence (VariableSpecification.name n).write) (k + 22) := by
  have hname := @fits_constructed (Tag.contextConstructed 0) _ _ h (by omega)
  exact fits_constructed hname (by omega)

/-- The `Oper` of an object whose text is ASCII can be named. -/
theorem fits_operName (hitem : object.item ≠ []) (hascii : isAscii (Control.textOf object) = true)
    (hlen : (Control.textOf object).length ≤ 2 ^ 27) :
    Fits (ObjectName.domainSpecific object.domain (operItem object)).write
      ((Control.textOf object).length + 40) := by
  obtain ⟨hdomain, hoper⟩ := (isAscii_names hitem).mpr hascii
  have hlength := textOf_length object
  have hitemLength : (operItem object).length = (Control.itemText object.item).length + 5 := by
    rw [operItem_eq hitem, List.length_append]
    rfl
  have hmax : u32Max = 4294967295 := rfl
  have hdomainFits := @fits_visibleString tagIdentifier _ _ hdomain (Nat.le_refl _) (by omega)
  have hitemFits := @fits_visibleString tagIdentifier _ _ hoper (Nat.le_refl _) (by omega)
  have hcontents := fits_concatM_cons hdomainFits (fits_concatM_cons hitemFits fits_concatM_nil)
  exact (fits_constructed hcontents (by omega)).mono (by omega)

theorem fits_accessPositive (hitem : object.item ≠ [])
    (hascii : isAscii (Control.textOf object) = true)
    (hlen : (Control.textOf object).length ≤ 2 ^ 27) :
    Fits (accessTo [.domainSpecific object.domain (operItem object)]).write
      ((Control.textOf object).length + 80) := by
  have hmax : u32Max = 4294967295 := rfl
  have hname := fits_item (fits_operName hitem hascii hlen) (by omega)
  exact (fits_constructed (fits_concatM_cons hname fits_concatM_nil) (by omega)).mono (by omega)

theorem fits_accessNegative (hitem : object.item ≠ [])
    (hascii : isAscii (Control.textOf object) = true)
    (hlen : (Control.textOf object).length ≤ 2 ^ 27) :
    Fits (accessTo [.vmdSpecific (ascii "LastApplError"),
      .domainSpecific object.domain (operItem object)]).write
        ((Control.textOf object).length + 130) := by
  have hmax : u32Max = 4294967295 := rfl
  have hname := fits_item (fits_operName hitem hascii hlen) (by omega)
  have herror : Fits (ObjectName.vmdSpecific (ascii "LastApplError")).write 24 :=
    fits_visibleString (n := 13) (by decide) (by decide) (by decide)
  have hfirst := fits_item herror (by decide)
  have hitems := fits_concatM_cons hfirst (fits_concatM_cons hname fits_concatM_nil)
  exact (fits_constructed hitems (by omega)).mono (by omega)

theorem exists_of_concatM {ws : List (Except Error Bytes)} (h : concatM ws = .ok bs)
    {w : Except Error Bytes} (hw : w ∈ ws) : ∃ b, w = .ok b := by
  induction ws generalizing bs with
  | nil => cases hw
  | cons first ws ih =>
    obtain ⟨here, rest, hhere, hrest, -⟩ := concatM_cons_ok h
    rcases List.mem_cons.mp hw with rfl | hw
    · exact ⟨here, hhere⟩
    · exact ih hrest hw

theorem isAscii_of_visibleString {tag : Tag} {s : Bytes} (h : Ber.visibleString tag s = .ok bs) :
    isAscii s = true := by
  unfold Ber.visibleString at h
  split at h
  · assumption
  · cases h

theorem isAscii_of_accessTo (hitem : object.item ≠ [])
    (hmem : .domainSpecific object.domain (operItem object) ∈ names)
    (h : (accessTo names).write = .ok bs) : isAscii (Control.textOf object) = true := by
  obtain ⟨items, hitems, -, -⟩ := constructed_ok h
  have hspec : VariableSpecification.name (.domainSpecific object.domain (operItem object)) ∈
      names.map VariableSpecification.name := List.mem_map_of_mem hmem
  obtain ⟨item, hitem'⟩ := exists_of_concatM hitems (List.mem_map_of_mem hspec)
  obtain ⟨spec, hspec, -, -⟩ := constructed_ok hitem'
  obtain ⟨name, hname, -, -⟩ := constructed_ok hspec
  obtain ⟨parts, hparts, -, -⟩ := constructed_ok hname
  obtain ⟨domain, hdomain⟩ := exists_of_concatM hparts List.mem_cons_self
  obtain ⟨oper, hoper⟩ := exists_of_concatM hparts
    (List.mem_cons_of_mem _ List.mem_cons_self)
  exact (isAscii_names hitem).mp
    ⟨isAscii_of_visibleString hdomain, isAscii_of_visibleString hoper⟩

/-- What the server builds for an object is empty when the object's text is not ASCII. -/
theorem isAscii_of_report (hitem : object.item ≠ [])
    (hmem : .domainSpecific object.domain (operItem object) ∈ names)
    (h : Control.report (names.map VariableSpecification.name) values ≠ []) :
    isAscii (Control.textOf object) = true := by
  obtain ⟨bs, hbs⟩ := accessTo_ok h
  exact isAscii_of_accessTo hitem hmem hbs

theorem positive_eq (object : Reference) (request : ControlRequest) :
    Control.positive object request = Control.report
      ([ObjectName.domainSpecific object.domain (operItem object)].map VariableSpecification.name)
      [request.toValue] := rfl

theorem negative_eq (object : Reference) (request : ControlRequest) (error : LastApplError) :
    Control.negative object request error = Control.report
      ([ObjectName.vmdSpecific (ascii "LastApplError"),
        .domainSpecific object.domain (operItem object)].map VariableSpecification.name)
      [error.toValue, request.toValue] := rfl

/-- A positive termination is read back when the object's text is ASCII. -/
theorem positive_read (hwritten : WrittenIn pdu request) (hitem : object.item ≠ [])
    (hlen : (Control.textOf object).length ≤ 2 ^ 27) (hcovers : limits.Covers Limits.default)
    (hascii : isAscii (Control.textOf object) = true) : Control.positive object request ≠ [] ∧
      Unsolicited.fromPdu limits (Control.positive object request) =
        some (.commandTermination (.positive (operText object) request)) := by
  obtain ⟨hwithin, hroom⟩ := request_value hwritten
  obtain ⟨-, -, hcategory⟩ := request_origin hwritten
  have hmax : u32Max = 4294967295 := rfl
  have hshort := hwritten.short
  have hcount := hcovers.maxDatasetMembers
  have hfits := (request.toValue.fits_encode _ hwithin (by omega)).mono hroom
  obtain ⟨m, hm⟩ : ∃ m, request.toValue = .structure m := ⟨_, rfl⟩
  have hrequest := request.fromValue_toValue hcategory
  rw [positive_eq]
  have hone : [request.toValue] = [m].map Value.structure := by rw [hm]; rfl
  rw [hone]
  have hnames : [ObjectName.domainSpecific object.domain (operItem object)].length ≤
      Limits.default.maxDatasetMembers := by
    rw [List.length_singleton]
    decide
  have hmembers : ∀ k ∈ [m], Fits (Value.structure k).encode (10 * pdu.length + 5000) := by
    intro k hk
    rw [List.mem_singleton.mp hk, ← hm]
    exact hfits
  have htotal : (Control.textOf object).length + 80 + [m].length * (10 * pdu.length + 5000) + 64 ≤
      u32Max := by
    rw [List.length_singleton]
    omega
  obtain ⟨hne, hparsed⟩ :=
    report_parsed hnames (fits_accessPositive hitem hascii hlen) hmembers htotal
  refine ⟨hne, ?_⟩
  obtain ⟨results, hparse, hholds⟩ := hparsed limits (by
    have : Limits.default.maxDatasetMembers = 512 := rfl
    rw [List.length_singleton]
    omega)
  have hvalues := holds_read_all hholds fun k hk => by
    rw [List.mem_singleton.mp hk, ← hm]
    exact Value.Within.covered hcovers _ _ _ hcovers.maxDepth hwithin
  rw [fromPdu_complete hparse hvalues, ← hone, complete_positive hitem hrequest]

theorem LastApplError.toValue_reread (e : LastApplError) :
    { e with error := .fromCode e.error.toCode,
             addCause := .fromCode e.addCause.toCode : LastApplError }.toValue = e.toValue := by
  simp only [LastApplError.toValue, ControlError.toCode_fromCode, AddCause.toCode_fromCode]

/-- A negative termination is not empty when the object's text is ASCII, and a client whose limits
hold the object's name reads it back. -/
theorem negative_read (hwritten : WrittenIn pdu request) (hitem : object.item ≠ [])
    (hlen : (Control.textOf object).length ≤ 2 ^ 27) (hcovers : limits.Covers Limits.default)
    {cause : AddCause} (hcause : -2 ^ 63 ≤ cause.toCode ∧ cause.toCode < 2 ^ 63)
    (hascii : isAscii (Control.textOf object) = true) :
    Control.negative object request (Control.applError object request cause) ≠ [] ∧
      ((∃ read, Unsolicited.fromPdu limits
          (Control.negative object request (Control.applError object request cause)) =
            some (.commandTermination (.negative read (some request))) ∧
          read.toValue = (Control.applError object request cause).toValue) ↔
        (operText object).length ≤ limits.maxPrimitiveLen) := by
  obtain ⟨hwithin, hroom⟩ := request_value hwritten
  obtain ⟨hcode, hidentifier, hcategory⟩ := request_origin hwritten
  have hmax : u32Max = 4294967295 := rfl
  have hshort := hwritten.short
  have hcount := hcovers.maxDatasetMembers
  have hfive : (operText object).length = (Control.textOf object).length + 5 := by
    rw [operText, List.length_append]
    rfl
  have hoper : isAscii (operText object) = true := by rw [isAscii_operText, hascii]
  -- limits that hold the text, whatever the client's are
  let wide : Limits := { Limits.default with maxPrimitiveLen := 2 ^ 27 + 5 }
  have hwide : wide.Covers Limits.default := ⟨Nat.le_refl _, Nat.le_refl _, by decide⟩
  obtain ⟨herrorWide, herrorRoom⟩ := error_value hwide hcode hidentifier hcause hoper
    (show (operText object).length ≤ 2 ^ 27 + 5 by omega)
  have hfits := (request.toValue.fits_encode _ hwithin (by omega)).mono hroom
  have herrorFits := Value.fits_encode _ _ herrorWide (by omega)
  obtain ⟨m, hm⟩ : ∃ m, request.toValue = .structure m := ⟨_, rfl⟩
  obtain ⟨e, he⟩ : ∃ e, (Control.applError object request cause).toValue =
      .structure (.visibleString (operText object) :: e) := ⟨_, rfl⟩
  have hrequest := request.fromValue_toValue hcategory
  rw [negative_eq]
  have htwo : [(Control.applError object request cause).toValue, request.toValue] =
      [.visibleString (operText object) :: e, m].map Value.structure := by
    rw [hm, he]
    rfl
  rw [htwo]
  have hnames : [ObjectName.vmdSpecific (ascii "LastApplError"),
      .domainSpecific object.domain (operItem object)].length ≤
        Limits.default.maxDatasetMembers := by
    rw [List.length_cons, List.length_singleton]
    decide
  have hmembers : ∀ k ∈ [.visibleString (operText object) :: e, m],
      Fits (Value.structure k).encode (2 ^ 27 + 10 * pdu.length + 6000) := by
    intro k hk
    rcases List.mem_cons.mp hk with rfl | hk
    · rw [← he]
      exact herrorFits.mono (by omega)
    · rw [List.mem_singleton.mp hk, ← hm]
      exact hfits.mono (by omega)
  obtain ⟨hne, hparsed⟩ :=
    report_parsed hnames (fits_accessNegative hitem hascii hlen) hmembers (by
      rw [List.length_cons, List.length_singleton]
      omega)
  refine ⟨hne, ?_⟩
  obtain ⟨results, hparse, hholds⟩ := hparsed limits (by
    have hdefault : Limits.default.maxDatasetMembers = 512 := rfl
    rw [List.length_cons, List.length_singleton]
    omega)
  constructor
  · rintro ⟨read, hread, -⟩
    by_contra hlong
    obtain ⟨failure, hfailure⟩ := holds_refused_all hholds (Nat.lt_of_not_le hlong)
    rw [fromPdu_incomplete hparse hfailure] at hread
    cases hread
  · intro hshortText
    obtain ⟨herrorWithin, -⟩ := @error_value _ hcovers object _ _ hcode hidentifier hcause
      hoper hshortText
    have hvalues := holds_read_all hholds fun k hk => by
      rcases List.mem_cons.mp hk with rfl | hk
      · rw [← he]
        exact herrorWithin
      · rw [List.mem_singleton.mp hk, ← hm]
        exact Value.Within.covered hcovers _ _ _ hcovers.maxDepth hwithin
    have herror := (Control.applError object request cause).fromValue_toValue hcategory
    refine ⟨_, ?_, LastApplError.toValue_reread _⟩
    rw [fromPdu_complete hparse hvalues, ← htwo, complete_negative hitem herror hrequest]

end Terminations

/-- A request that came in a `Write` is read back from its own value, and from the value of a
`Cancel` without its checks. The termination of it is built when the name of the control object is
ASCII, and a client with no narrower limits than the server's reads back exactly that termination; a
negative one as long as its limits hold the name, which is in the error a second time. -/
theorem termination_read_back {pdu : Bytes} {request : ControlRequest}
    (h : WrittenIn pdu request) :
    ControlRequest.fromValue request.toValue = .ok request ∧
      ControlRequest.fromValue request.toCancelValue = .ok { request with check := .none } ∧
      ∀ (object : Reference) (limits : Limits), (Control.controlPath object).isSome = true →
        (Control.textOf object).length ≤ 2 ^ 27 → limits.Covers Limits.default →
        (Control.positive object request ≠ [] ↔ isAscii (Control.textOf object) = true) ∧
        (Unsolicited.fromPdu limits (Control.positive object request) =
            some (.commandTermination (.positive (operText object) request)) ↔
          isAscii (Control.textOf object) = true) ∧
        ∀ cause : AddCause, -2 ^ 63 ≤ cause.toCode ∧ cause.toCode < 2 ^ 63 →
          (Control.negative object request (Control.applError object request cause) ≠ [] ↔
            isAscii (Control.textOf object) = true) ∧
          ((∃ read, Unsolicited.fromPdu limits
              (Control.negative object request (Control.applError object request cause)) =
                some (.commandTermination (.negative read (some request))) ∧
              read.toValue = (Control.applError object request cause).toValue) ↔
            isAscii (Control.textOf object) = true ∧
              (operText object).length ≤ limits.maxPrimitiveLen) := by
  obtain ⟨-, -, hcategory⟩ := request_origin h
  refine ⟨request.fromValue_toValue hcategory, request.fromValue_toCancelValue hcategory, ?_⟩
  intro object limits hobject hlen hcovers
  have hitem := item_ne_nil hobject
  have hpositive : Control.positive object request ≠ [] →
      isAscii (Control.textOf object) = true := by
    intro hne
    rw [positive_eq] at hne
    exact isAscii_of_report hitem List.mem_cons_self hne
  refine ⟨⟨hpositive, fun hascii => (positive_read h hitem hlen hcovers hascii).1⟩,
    ⟨fun hread => hpositive ?_, fun hascii => (positive_read h hitem hlen hcovers hascii).2⟩, ?_⟩
  · intro hnil
    rw [hnil, fromPdu_nil] at hread
    cases hread
  intro cause hcause
  have hnegative : Control.negative object request (Control.applError object request cause) ≠ [] →
      isAscii (Control.textOf object) = true := by
    intro hne
    rw [negative_eq] at hne
    exact isAscii_of_report hitem (List.mem_cons_of_mem _ List.mem_cons_self) hne
  refine ⟨⟨hnegative, fun hascii => (negative_read h hitem hlen hcovers hcause hascii).1⟩, ?_⟩
  constructor
  · intro hread
    have hascii : isAscii (Control.textOf object) = true := by
      apply hnegative
      intro hnil
      obtain ⟨read, hread, -⟩ := hread
      rw [hnil, fromPdu_nil] at hread
      cases hread
    exact ⟨hascii, (negative_read h hitem hlen hcovers hcause hascii).2.mp hread⟩
  · rintro ⟨hascii, hshort⟩
    exact (negative_read h hitem hlen hcovers hcause hascii).2.mpr hshort

/-- A `Write` of a command: on, from remote control, at the beginning of the epoch. -/
def commandPdu : Bytes :=
  [0xA0, 0x2E, 0x02, 0x01, 0x01, 0xA5, 0x29,
    0xA0, 0x0C, 0x30, 0x0A, 0xA0, 0x08, 0xA1, 0x06, 0x1A, 0x01, 0x41, 0x1A, 0x01, 0x42,
    0xA0, 0x19, 0xA2, 0x17, 0x83, 0x01, 0x01, 0xA2, 0x05, 0x85, 0x01, 0x03, 0x89, 0x00,
    0x91, 0x08, 0x00, 0x00, 0x00, 0x00, 0x00, 0x00, 0x00, 0x00, 0x83, 0x01, 0x00]

/-- The command of `commandPdu`. -/
def command : ControlRequest :=
  .new (.boolean true) 0 ⟨0, 0, TimeQuality.fromOctet 0⟩

theorem command_written : WrittenIn commandPdu command :=
  ⟨by decide, Limits.default, _, _, _, rfl, _, List.mem_cons_self, _, _, rfl, rfl, rfl⟩

/-- A command to a position is ended by a report that the client reads back. -/
theorem termination_read_back_position : Unsolicited.fromPdu Limits.default (Control.positive
        ⟨ascii "LD", [ascii "LN", ascii "CO", ascii "Pos"]⟩ command) =
      some (.commandTermination (.positive (ascii "LD/LN$CO$Pos$Oper") command)) :=
  ((termination_read_back command_written).2.2 ⟨ascii "LD", [ascii "LN", ascii "CO", ascii "Pos"]⟩
    Limits.default rfl (by decide) ⟨Nat.le_refl _, Nat.le_refl _, Nat.le_refl _⟩).2.1.mpr rfl

/-- A control object whose name is a letter outside ASCII. -/
def umlaut : Reference := ⟨ascii "LD", [ascii "LN", ascii "CO", [0xC3, 0xBC]]⟩

/-- A control object with a name of 4096 letters. -/
def lengthy : Reference := ⟨ascii "LD", [ascii "LN", ascii "CO", List.replicate 4096 0x61]⟩

theorem textOf_lengthy : Control.textOf lengthy = ascii "LD/LN$CO$" ++ List.replicate 4096 0x61 := by
  rw [lengthy, Control.textOf, Control.itemText, List.intercalate]
  simp only [List.intersperse_cons_cons, List.intersperse_singleton, List.flatten_cons,
    List.flatten_nil, List.append_nil]
  rfl

theorem isAscii_lengthy : isAscii (Control.textOf lengthy) = true := by
  have hletters : isAscii (List.replicate 4096 0x61) = true := by
    apply List.all_eq_true.mpr
    intro b hb
    rw [List.eq_of_mem_replicate hb]
    rfl
  rw [textOf_lengthy, isAscii_append, hletters]
  rfl

theorem length_lengthy : (Control.textOf lengthy).length = 4105 := by
  rw [textOf_lengthy, List.length_append, List.length_replicate]
  rfl

/-- The command of a client has an empty termination for an object whose name is not ASCII, and a
negative one that the client does not recognise for an object whose name is long. -/
theorem terminations_lost :
    (WrittenIn commandPdu command ∧ (Control.controlPath umlaut).isSome = true ∧
      (Control.controlPath lengthy).isSome = true) ∧ Control.positive umlaut command = [] ∧
    ¬ ∃ read, Unsolicited.fromPdu Limits.default
        (Control.negative lengthy command (Control.applError lengthy command .objectNotSelected)) =
      some (.commandTermination (.negative read (some command))) ∧
      read.toValue = (Control.applError lengthy command .objectNotSelected).toValue := by
  refine ⟨⟨command_written, rfl, rfl⟩, ?_, ?_⟩
  · by_contra hne
    rw [positive_eq] at hne
    exact absurd (isAscii_of_report (@item_ne_nil umlaut rfl) List.mem_cons_self hne) (by decide)
  · intro hread
    have hlen : (Control.textOf lengthy).length ≤ 2 ^ 27 := by
      rw [length_lengthy]
      decide
    have hshort := (negative_read command_written (@item_ne_nil lengthy rfl) hlen
      ⟨Nat.le_refl _, Nat.le_refl _, Nat.le_refl _⟩ (by decide) isAscii_lengthy).2.mp hread
    rw [operText, List.length_append, length_lengthy] at hshort
    exact absurd hshort (by decide)

end Iec61850.Client
