import Iec61850.Mms.ResponsesReread
import Iec61850.Mms.Pdu

/-!
# MMS PDUs, read again

A PDU that was parsed and written is parsed again as the same PDU, up to the places of the
elements it keeps whole and to the originating applications that its journal entries lack, and
is written to the same octets.
-/

namespace Iec61850.Mms

open Theory Ber

/-! ### Initiate -/

theorem Initiate.rereads {i : Initiate} {tag : Tag} (h : Reads Initiate.parse i)
    (htag : tag.number ≤ u32Max) : Rereads (i.write tag) tag Initiate.parse (· = i) := by
  obtain ⟨t, -, hread⟩ := h
  unfold Initiate.parse at hread
  obtain ⟨⟨localDetail, c⟩, hlocal, hrest⟩ := bind_ok hread
  dsimp only at hrest
  obtain ⟨⟨calling, c'⟩, hcalling, hrest⟩ := bind_ok hrest
  dsimp only at hrest
  obtain ⟨⟨called, c''⟩, hcalled, hrest⟩ := bind_ok hrest
  dsimp only at hrest
  obtain ⟨⟨nesting, d⟩, hnesting, hrest⟩ := bind_ok hrest
  dsimp only at hrest
  obtain ⟨⟨detail, d'⟩, -, hrest⟩ := bind_ok hrest
  dsimp only at hrest
  obtain ⟨⟨version, d''⟩, hversion, hrest⟩ := bind_ok hrest
  dsimp only at hrest
  obtain ⟨⟨parameterCbb, e⟩, -, hrest⟩ := bind_ok hrest
  dsimp only at hrest
  obtain ⟨⟨services, e'⟩, -, hok⟩ := bind_ok hrest
  cases hok
  have hcallingWrite := rereads_integer (required_reads hcalling)
    (by decide : (Tag.context 1).number ≤ _)
  refine rereads_constructed htag fun value offset hvalue => ?_
  refine gets_optional (c := (tlvAt offset tag value).children) hvalue
    (fun n hn => rereads_integer (optional_reads hlocal n hn) (by decide))
    (lacks_cons hcallingWrite (by decide)) ?_
  intro localDetail' c₁ hc₁ hlocal'
  refine gets_required hc₁ hcallingWrite ?_
  rintro calling' c₂ hc₂ rfl
  refine gets_required hc₂ (rereads_integer (required_reads hcalled) (by decide)) ?_
  rintro called' c₃ hc₃ rfl
  refine gets_optional hc₃ (fun n hn => rereads_integer (optional_reads hnesting n hn) (by decide))
    (lacks_cons (rereads_contents (by decide)) (by decide)) ?_
  intro nesting' c₄ hc₄ hnesting'
  refine gets_nextTag hc₄ (rereads_contents (by decide)) fun detail' c₅ _ hgets => ?_
  have hdetail := of_gets_ok hgets
  refine gets_required hdetail (rereads_integer (required_reads hversion) (by decide)) ?_
  rintro version' d₁ hd₁ rfl
  refine gets_required hd₁ (rereads_bitString (by decide)) ?_
  rintro cbb d₂ hd₂ rfl
  refine gets_required hd₂ (rereads_bitString (by decide)) ?_
  rintro services' d₃ _ rfl
  rw [eq_of_rel hlocal', eq_of_rel hnesting']
  exact gets_ok rfl

/-! ### The unconfirmed service -/

namespace Unconfirmed

/-- The service without the places of what is kept whole. -/
def unplaced : Unconfirmed → Unconfirmed
  | .informationReport access results =>
    .informationReport access.unplaced (results.map AccessResult.unplaced)
  | .other t => .other t.unplaced

/-- The tag of a service. -/
def tag : Unconfirmed → Tag
  | .informationReport _ _ => svc 0
  | .other t => t.tag

/-- The write of a service, inside the PDU. -/
def encode : Unconfirmed → Except Error Bytes
  | .informationReport access results =>
    constructed (svc 0) (concatM [access.write, writeAccessResults results (svc 0)])
  | .other t => primitive t.tag t.value

theorem rereads {limits : Limits} {s : Unconfirmed}
    (h : Reads (fun t => Unconfirmed.parse t limits) s) :
    Rereads s.encode s.tag (fun t => Unconfirmed.parse t limits)
      (fun s' => s'.unplaced = s.unplaced) := by
  obtain ⟨t, hnumber, hread⟩ := h
  change Unconfirmed.parse t limits = .ok s at hread
  unfold Unconfirmed.parse at hread
  split at hread
  · obtain ⟨⟨a, c⟩, ha, hrest⟩ := bind_ok hread
    dsimp only at hrest
    obtain ⟨access, haccess, hrest⟩ := bind_ok hrest
    obtain ⟨⟨list, c'⟩, hlist, hrest⟩ := bind_ok hrest
    dsimp only at hrest
    obtain ⟨results, hresults, rfl⟩ := map_ok hrest
    refine rereads_constructed (by decide) fun value offset hvalue => ?_
    refine gets_nextRequired (c := (tlvAt offset _ value).children) hvalue
      (VariableAccess.rereads ⟨a, nextRequired_number_le ha, haccess⟩) ?_
    intro a' c₁ hc₁ _ hgets
    refine gets_bind hgets fun access' haccess' => ?_
    refine gets_nextTag hc₁
      (accessResults_rereads ⟨list, (nextTag_ok hlist).2, hresults⟩ (by decide)) ?_
    intro list' c₂ _ hgets
    exact gets_map hgets fun results' hresults' => congrArg₂ informationReport haccess' hresults'
  · rename_i hne
    cases hread
    refine rereads_primitive hnumber fun offset => ?_
    unfold Unconfirmed.parse
    rw [tlvAt_tag, if_neg hne]
    exact gets_ok rfl

end Unconfirmed

/-! ### The PDU -/

namespace Pdu

/-- The PDU without the places of the elements it keeps whole. -/
def unplaced : Pdu → Pdu
  | .confirmedRequest invokeId service => .confirmedRequest invokeId service.unplaced
  | .confirmedResponse invokeId service => .confirmedResponse invokeId service.unplaced
  | .confirmedError invokeId modifierPosition error =>
    .confirmedError invokeId modifierPosition error.unplaced
  | .unconfirmed service => .unconfirmed service.unplaced
  | .cancelError invokeId error => .cancelError invokeId error.unplaced
  | .initiateError t => .initiateError t.unplaced
  | .concludeError t => .concludeError t.unplaced
  | .other t => .other t.unplaced
  | p => p

/-- The PDU as its receiver reads it: every entry of a journal names an originating
application. -/
def named : Pdu → Pdu
  | .confirmedResponse invokeId service => .confirmedResponse invokeId service.named
  | p => p

/-- What parsing a PDU says about its fields. -/
def WasRead (limits : Limits) : Pdu → Prop
  | .confirmedRequest invokeId service =>
    Reads invokeIdOf invokeId ∧ Reads (fun t => ConfirmedRequest.parse t limits) service
  | .confirmedResponse invokeId service =>
    Reads invokeIdOf invokeId ∧ Reads (fun t => ConfirmedResponse.parse t limits) service
  | .confirmedError invokeId modifierPosition error => Reads invokeIdOf invokeId ∧
      (∀ m, modifierPosition = some m → Reads Tlv.unsignedLenientU32 m) ∧
        error.tag.number ≤ u32Max ∧ (modifierPosition = none → error.tag ≠ Tag.context 1)
  | .unconfirmed service => Reads (fun t => Unconfirmed.parse t limits) service
  | .reject r => Reads Reject.parse r
  | .cancelRequest invokeId => Reads invokeIdOf invokeId
  | .cancelResponse invokeId => Reads invokeIdOf invokeId
  | .cancelError invokeId error => Reads invokeIdOf invokeId ∧ error.tag.number ≤ u32Max
  | .initiateRequest i => Reads Initiate.parse i
  | .initiateResponse i => Reads Initiate.parse i
  | .initiateError t => t.tag.cls = .context ∧ t.tag.number = 10
  | .concludeError t => t.tag.cls = .context ∧ t.tag.number = 13
  | .other t => t.tag.cls = .context ∧ t.tag.number ≤ u32Max ∧ 13 < t.tag.number
  | _ => True

theorem wasRead {limits : Limits} {buf : Bytes} {p : Pdu} (h : Pdu.parse buf limits = .ok p) :
    p.WasRead limits := by
  unfold Pdu.parse at h
  obtain ⟨⟨top, rest⟩, htop, hread⟩ := bind_ok h
  have hnumber := nextRequired_number_le htop
  dsimp only at hread
  split at hread
  · cases hread
  rename_i hcls
  have hcls := not_not.mp hcls
  split at hread
  · unfold Pdu.parseRequest at hread
    obtain ⟨⟨id, c⟩, hid, hrest⟩ := bind_ok hread
    dsimp only at hrest
    obtain ⟨⟨next, c'⟩, hnext, hrest⟩ := bind_ok hrest
    dsimp only at hrest
    split at hrest
    · -- a list of modifiers was skipped
      obtain ⟨⟨service, c''⟩, hservice, hrest⟩ := bind_ok hrest
      obtain ⟨r, hr, rfl⟩ := map_ok hrest
      exact ⟨required_reads hid, service, nextRequired_number_le hservice, hr⟩
    · obtain ⟨r, hr, rfl⟩ := map_ok hrest
      exact ⟨required_reads hid, next, nextRequired_number_le hnext, hr⟩
  · obtain ⟨⟨id, c⟩, hid, hrest⟩ := bind_ok hread
    dsimp only at hrest
    obtain ⟨⟨service, c'⟩, hservice, hrest⟩ := bind_ok hrest
    dsimp only at hrest
    obtain ⟨r, hr, rfl⟩ := map_ok hrest
    exact ⟨required_reads hid, service, nextRequired_number_le hservice, hr⟩
  · obtain ⟨⟨id, c⟩, hid, hrest⟩ := bind_ok hread
    dsimp only at hrest
    obtain ⟨⟨modifier, c'⟩, hmodifier, hrest⟩ := bind_ok hrest
    dsimp only at hrest
    obtain ⟨⟨error, c''⟩, herror, hok⟩ := bind_ok hrest
    cases hok
    refine ⟨required_reads hid, optional_reads hmodifier, nextRequired_number_le herror, ?_⟩
    rintro rfl
    obtain ⟨rfl, hlacks⟩ := optional_none hmodifier
    exact hlacks error _ herror
  · obtain ⟨service, hservice, hrest⟩ := bind_ok hread
    obtain ⟨s, hs, rfl⟩ := map_ok hrest
    exact ⟨service, firstChild_number_le hservice, hs⟩
  · obtain ⟨r, hr, rfl⟩ := map_ok hread
    exact ⟨top, hnumber, hr⟩
  · obtain ⟨id, hid, rfl⟩ := map_ok hread
    exact ⟨top, hnumber, hid⟩
  · obtain ⟨id, hid, rfl⟩ := map_ok hread
    exact ⟨top, hnumber, hid⟩
  · obtain ⟨⟨id, c⟩, hid, hrest⟩ := bind_ok hread
    dsimp only at hrest
    obtain ⟨⟨error, c'⟩, herror, hok⟩ := bind_ok hrest
    cases hok
    exact ⟨required_reads hid, nextRequired_number_le herror⟩
  · obtain ⟨i, hi, rfl⟩ := map_ok hread
    exact ⟨top, hnumber, hi⟩
  · obtain ⟨i, hi, rfl⟩ := map_ok hread
    exact ⟨top, hnumber, hi⟩
  · cases hread
    exact ⟨hcls, ‹_›⟩
  · cases hread
    trivial
  · cases hread
    trivial
  · cases hread
    exact ⟨hcls, ‹_›⟩
  · cases hread
    refine ⟨hcls, hnumber, ?_⟩
    simp only [imp_false] at *
    omega

/-! ### Parsing what was written -/

section Parse

variable {limits : Limits} {α : Type} {w : Except Error Bytes} {tag : Tag}
  {f : Tlv → Except Error α} {Q : α → Prop} {P : Pdu → Prop} {bs : Bytes}

theorem confirmedRequest_rereads {id : Int} {service : ConfirmedRequest}
    (hid : Reads invokeIdOf id) (hservice : Reads (fun t => ConfirmedRequest.parse t limits) service) :
    Rereads (confirmedRequest id service).write (svc 0) (fun top => parseRequest top limits)
      (fun p => p.unplaced = (confirmedRequest id service).unplaced) := by
  refine rereads_constructed (by decide) fun value offset hvalue => ?_
  refine gets_required (c := (tlvAt offset _ value).children) hvalue
    (rereads_invokeId hid (by decide)) ?_
  rintro id c₁ hc₁ rfl
  refine gets_nextRequired hc₁ (ConfirmedRequest.rereads hservice) fun next c₂ _ htag hgets => ?_
  have hne : next.tag ≠ tagSequence := by
    intro heq
    have hcls := ConfirmedRequest.tag_cls (ConfirmedRequest.wasRead hservice)
    rw [← htag, heq] at hcls
    cases hcls
  dsimp only
  rw [if_neg hne]
  exact gets_map hgets fun r hr => congrArg (confirmedRequest id) hr

theorem confirmedResponse_rereads {id : Int} {service : ConfirmedResponse}
    (hid : Reads invokeIdOf id)
    (hservice : Reads (fun t => ConfirmedResponse.parse t limits) service) :
    Rereads (confirmedResponse id service).write (svc 1) (fun top => do
      let (invokeId, c) ← required top.children tagInteger invokeIdOf
      let (service, _) ← c.nextRequired
      confirmedResponse invokeId <$> ConfirmedResponse.parse service limits)
      (fun p => p.unplaced = (confirmedResponse id service).named.unplaced) := by
  refine rereads_constructed (by decide) fun value offset hvalue => ?_
  refine gets_required (c := (tlvAt offset _ value).children) hvalue
    (rereads_invokeId hid (by decide)) ?_
  rintro id c₁ hc₁ rfl
  refine gets_nextRequired hc₁ (ConfirmedResponse.rereads hservice) fun next c₂ _ _ hgets => ?_
  exact gets_map hgets fun r hr => congrArg (confirmedResponse id) hr

/-- An error whose modifier is missing does not have the tag of one. -/
theorem confirmedError_rereads {id : Int} {modifier : Option Nat} {error : Tlv}
    (hid : Reads invokeIdOf id)
    (hmodifier : ∀ m, modifier = some m → Reads Tlv.unsignedLenientU32 m)
    (hnumber : error.tag.number ≤ u32Max) (htag : modifier = none → error.tag ≠ Tag.context 1) :
    Rereads (confirmedError id modifier error).write (svc 2) (fun top => do
      let (invokeId, c) ← required top.children (Tag.context 0) invokeIdOf
      let (modifier, c) ← optional c (Tag.context 1) Tlv.unsignedLenientU32
      let (error, _) ← c.nextRequired
      .ok (confirmedError invokeId modifier error))
      (fun p => p.unplaced = (confirmedError id modifier error).unplaced) := by
  refine rereads_constructed (by decide) fun value offset hvalue => ?_
  refine gets_required (c := (tlvAt offset _ value).children) hvalue
    (rereads_invokeId hid (by decide)) ?_
  rintro id c₁ hc₁ rfl
  cases modifier with
  | none =>
    have hlast := concatM_nothing hc₁
    refine gets_absent hlast (lacks_cons (rereads_whole hnumber) (htag rfl)) ?_
    refine gets_nextRequired hlast (rereads_whole hnumber) fun error' c₂ _ _ hgets => ?_
    have hsame := of_gets_ok hgets
    exact gets_ok (congrArg (confirmedError id none) hsame)
  | some m =>
    refine gets_present hc₁ (rereads_unsigned (hmodifier m rfl) (by decide)) ?_
    rintro m c₂ hc₂ rfl
    refine gets_nextRequired hc₂ (rereads_whole hnumber) fun error' c₃ _ _ hgets => ?_
    have hsame := of_gets_ok hgets
    exact gets_ok (congrArg (confirmedError id (some m)) hsame)

theorem cancelError_rereads {id : Int} {error : Tlv} (hid : Reads invokeIdOf id)
    (hnumber : error.tag.number ≤ u32Max) :
    Rereads (cancelError id error).write (svc 7) (fun top => do
      let (invokeId, c) ← required top.children (Tag.context 0) invokeIdOf
      let (error, _) ← c.nextRequired
      .ok (cancelError invokeId error))
      (fun p => p.unplaced = (cancelError id error).unplaced) := by
  refine rereads_constructed (by decide) fun value offset hvalue => ?_
  refine gets_required (c := (tlvAt offset _ value).children) hvalue
    (rereads_unsignedId hid (by decide)) ?_
  rintro id c₁ hc₁ rfl
  refine gets_nextRequired hc₁ (rereads_whole hnumber) fun error' c₂ _ _ hgets => ?_
  have hsame := of_gets_ok hgets
  exact gets_ok (congrArg (cancelError id) hsame)

/-- A PDU is parsed from its one element. -/
theorem gets_element {k : Tlv × Cursor → Except Error Pdu} {f : Tlv → Except Error Pdu}
    (hw : w = .ok bs) (h : Rereads w tag f P) (hf : ∀ t c, t.tag = tag → k (t, c) = f t) :
    Gets ((Cursor.new bs).nextRequired >>= k) P := by
  refine gets_nextRequired (c := Cursor.new bs) (concatM_single.mpr hw) h ?_
  intro t c _ htag hgets
  rw [hf t c htag]
  exact hgets

theorem rereads {p : Pdu} (h : p.WasRead limits) (hw : p.write = .ok bs) :
    Gets (Pdu.parse bs limits) (fun p' => p'.unplaced = p.named.unplaced) := by
  cases p with
  | confirmedRequest id service =>
    refine gets_element hw (confirmedRequest_rereads h.1 h.2) fun top _ htag => ?_
    dsimp only
    rw [htag]
    rfl
  | confirmedResponse id service =>
    refine gets_element hw (confirmedResponse_rereads h.1 h.2) fun top _ htag => ?_
    dsimp only
    rw [htag]
    rfl
  | confirmedError id modifier error =>
    refine gets_element hw (confirmedError_rereads h.1 h.2.1 h.2.2.1 h.2.2.2) fun top _ htag => ?_
    dsimp only
    rw [htag]
    rfl
  | unconfirmed service =>
    have hw' : constructed (svc 3) service.encode = .ok bs := by cases service <;> exact hw
    have hservice : Rereads (constructed (svc 3) service.encode) _ _ _ :=
      rereads_child (Unconfirmed.rereads h) (by decide)
    refine gets_element hw' (hservice.lift unconfirmed fun s hs => congrArg unconfirmed hs)
      fun top _ htag => ?_
    dsimp only
    rw [htag, map_bind]
    rfl
  | reject r =>
    refine gets_element hw ((reject_rereads h).lift reject (by rintro _ rfl; rfl))
      fun top _ htag => ?_
    dsimp only
    rw [htag]
    rfl
  | cancelRequest id =>
    have hid := rereads_unsignedId h (by decide : (Tag.context 5).number ≤ _)
    refine gets_element hw (hid.lift cancelRequest (by rintro _ rfl; rfl)) fun top _ htag => ?_
    dsimp only
    rw [htag]
    rfl
  | cancelResponse id =>
    have hid := rereads_unsignedId h (by decide : (Tag.context 6).number ≤ _)
    refine gets_element hw (hid.lift cancelResponse (by rintro _ rfl; rfl)) fun top _ htag => ?_
    dsimp only
    rw [htag]
    rfl
  | cancelError id error =>
    refine gets_element hw (cancelError_rereads h.1 h.2) fun top _ htag => ?_
    dsimp only
    rw [htag]
    rfl
  | initiateRequest i =>
    have hi := Initiate.rereads h (by decide : (svc 8).number ≤ _)
    refine gets_element hw (hi.lift initiateRequest (by rintro _ rfl; rfl)) fun top _ htag => ?_
    dsimp only
    rw [htag]
    rfl
  | initiateResponse i =>
    have hi := Initiate.rereads h (by decide : (svc 9).number ≤ _)
    refine gets_element hw (hi.lift initiateResponse (by rintro _ rfl; rfl)) fun top _ htag => ?_
    dsimp only
    rw [htag]
    rfl
  | concludeRequest =>
    have hempty : Rereads (primitive (Tag.context 11) []) _ _ _ := rereads_octets (by decide)
    refine gets_element hw (hempty.lift (fun _ => concludeRequest) fun _ _ => rfl)
      fun top _ htag => ?_
    dsimp only
    rw [htag]
    rfl
  | concludeResponse =>
    have hempty : Rereads (primitive (Tag.context 12) []) _ _ _ := rereads_octets (by decide)
    refine gets_element hw (hempty.lift (fun _ => concludeResponse) fun _ _ => rfl)
      fun top _ htag => ?_
    dsimp only
    rw [htag]
    rfl
  | initiateError t =>
    obtain ⟨hcls, hten⟩ := h
    have hwhole := rereads_whole (by rw [hten]; decide : t.tag.number ≤ u32Max)
    refine gets_element hw (hwhole.lift initiateError fun t' ht => congrArg initiateError ht)
      fun top _ htag => ?_
    dsimp only
    rw [htag, if_neg (not_not.mpr hcls), hten]
    rfl
  | concludeError t =>
    obtain ⟨hcls, hthirteen⟩ := h
    have hwhole := rereads_whole (by rw [hthirteen]; decide : t.tag.number ≤ u32Max)
    refine gets_element hw (hwhole.lift concludeError fun t' ht => congrArg concludeError ht)
      fun top _ htag => ?_
    dsimp only
    rw [htag, if_neg (not_not.mpr hcls), hthirteen]
    rfl
  | other t =>
    obtain ⟨hcls, hnumber, hbeyond⟩ := h
    refine gets_element hw ((rereads_whole hnumber).lift other fun t' ht => congrArg other ht)
      fun top _ htag => ?_
    dsimp only
    rw [htag, if_neg (not_not.mpr hcls)]
    split
    case h_15 => rfl
    all_goals exact absurd hbeyond (by rw [‹t.tag.number = _›]; decide)

end Parse

end Pdu

/-! ### Writing what was read -/

section Writes

variable {α : Type} {g : α → α} {w : α → Except Error Bytes}

theorem concatM_map_congr (h : ∀ a, w (g a) = w a) (items : List α) :
    concatM ((items.map g).map w) = concatM (items.map w) := by
  rw [List.map_map]
  exact congrArg concatM (List.map_congr_left fun a _ => h a)

theorem optM_map_congr (h : ∀ a, w (g a) = w a) (field : Option α) :
    optM (field.map g) w = optM field w := by
  cases field with
  | none => rfl
  | some a => exact h a

theorem ObjectScope.write_unplaced (s : ObjectScope) : s.unplaced.write = s.write := by
  cases s <;> rfl

theorem VariableSpecification.write_unplaced (v : VariableSpecification) :
    v.unplaced.write = v.write := by
  cases v <;> rfl

theorem writeVariableList_unplaced (items : List VariableSpecification) (tag : Tag) :
    writeVariableList (items.map VariableSpecification.unplaced) tag =
      writeVariableList items tag :=
  congrArg (constructed tag) <| concatM_map_congr (g := VariableSpecification.unplaced)
    (w := fun v => constructed tagSequence v.write)
    (fun v => congrArg (constructed tagSequence) v.write_unplaced) items

theorem VariableAccess.write_unplaced (a : VariableAccess) : a.unplaced.write = a.write := by
  cases a with
  | listOfVariable items => exact writeVariableList_unplaced items _
  | variableListName n => rfl

theorem writeAccessResults_unplaced (results : List AccessResult) (tag : Tag) :
    writeAccessResults (results.map AccessResult.unplaced) tag = writeAccessResults results tag :=
  congrArg (constructed tag) <| concatM_map_congr
    (g := AccessResult.unplaced) (w := AccessResult.write) (fun r => by cases r <;> rfl) results

theorem ConfirmedRequest.encode_unplaced (r : ConfirmedRequest) : r.unplaced.encode = r.encode := by
  cases r with
  | getNameList objectClass scope continueAfter =>
    simp only [unplaced, encode, ObjectScope.write_unplaced]
  | read spec access => simp only [unplaced, encode, VariableAccess.write_unplaced]
  | write access values =>
    have hvalues := concatM_map_congr (g := Tlv.unplaced)
      (w := fun v => primitive v.tag v.value) (fun _ => rfl) values
    simp only [unplaced, encode, VariableAccess.write_unplaced, hvalues]
  | defineNamedVariableList name members =>
    simp only [unplaced, encode, writeVariableList_unplaced]
  | _ => rfl

theorem JournalEntry.write_unplaced (j : JournalEntry) : j.unplaced.write = j.write := by
  have hvars := concatM_map_congr (w := writeVariable)
    (g := fun v => { v with value := v.value.unplaced }) (fun _ => rfl) j.vars
  obtain ⟨entryId, occurred, vars, annotation, origin⟩ := j
  cases origin <;> simp only [unplaced, write, hvars] <;> rfl

theorem JournalEntry.write_named (j : JournalEntry) : j.named.write = j.write := by
  obtain ⟨entryId, occurred, vars, annotation, origin⟩ := j
  cases origin <;> rfl

theorem ConfirmedResponse.encode_unplaced (r : ConfirmedResponse) :
    r.unplaced.encode = r.encode := by
  cases r with
  | read access results =>
    have haccess := optM_map_congr (g := VariableAccess.unplaced)
      (w := fun a => constructed (svc 0) a.write)
      (fun a => congrArg (constructed (svc 0)) a.write_unplaced) access
    simp only [unplaced, encode, haccess, writeAccessResults_unplaced]
  | getNamedVariableListAttributes deletable members =>
    simp only [unplaced, encode, writeVariableList_unplaced]
  | readJournal entries more =>
    simp only [unplaced, encode, concatM_map_congr JournalEntry.write_unplaced]
  | _ => rfl

theorem ConfirmedResponse.encode_named (r : ConfirmedResponse) : r.named.encode = r.encode := by
  cases r with
  | readJournal entries more =>
    simp only [named, encode, concatM_map_congr JournalEntry.write_named]
  | _ => rfl

end Writes

namespace Pdu

theorem write_unplaced (p : Pdu) : p.unplaced.write = p.write := by
  cases p with
  | confirmedRequest id service =>
    simp only [unplaced, write, ConfirmedRequest.encode_unplaced]
  | confirmedResponse id service =>
    simp only [unplaced, write, ConfirmedResponse.encode_unplaced]
  | unconfirmed service =>
    cases service with
    | informationReport access results =>
      simp only [unplaced, Unconfirmed.unplaced, write, VariableAccess.write_unplaced,
        writeAccessResults_unplaced]
    | other t => rfl
  | _ => rfl

theorem write_named (p : Pdu) : p.named.write = p.write := by
  cases p with
  | confirmedResponse id service => simp only [named, write, ConfirmedResponse.encode_named]
  | _ => rfl

/-- A PDU that was parsed and written is parsed again as what it was, and written to the same
octets again. -/
theorem parse_write_parse {limits : Limits} {b b₂ : Bytes} {p : Pdu}
    (hparse : Pdu.parse b limits = .ok p) (hwrite : p.write = .ok b₂) :
    ∃ p₂, Pdu.parse b₂ limits = .ok p₂ ∧ p₂.unplaced = p.named.unplaced ∧ p₂.write = .ok b₂ := by
  obtain ⟨p₂, hparse₂, hsame⟩ := rereads (wasRead hparse) hwrite
  refine ⟨p₂, hparse₂, hsame, ?_⟩
  calc p₂.write = p₂.unplaced.write := p₂.write_unplaced.symm
    _ = p.named.unplaced.write := by rw [hsame]
    _ = p.write := by rw [write_unplaced, write_named]
    _ = .ok b₂ := hwrite

/-- An information report behind which an octet was left over. -/
theorem parse_write_parse_report :
    ∃ p₂, Pdu.parse [163, 12, 160, 10, 161, 3, 128, 1, 82, 160, 3, 133, 1, 3] Limits.default =
        .ok p₂ ∧
      p₂.unplaced = (Pdu.unconfirmed (.informationReport (.variableListName (.vmdSpecific [82]))
        [.success ⟨Tag.context 5, [3], 0, 0⟩])).named.unplaced ∧
      p₂.write = .ok [163, 12, 160, 10, 161, 3, 128, 1, 82, 160, 3, 133, 1, 3] :=
  parse_write_parse (b := [163, 12, 160, 10, 161, 3, 128, 1, 82, 160, 3, 133, 1, 3, 0])
    (p := .unconfirmed (.informationReport (.variableListName (.vmdSpecific [82]))
      [.success ⟨Tag.context 5, [3], 11, 13⟩])) rfl rfl

/-- A journal entry that names no originating application comes back with one. -/
theorem parse_write_parse_adds_origin :
    ∃ p p₂ b₂, Pdu.parse [161, 26, 2, 1, 1, 191, 65, 20, 160, 18, 48, 16, 128, 1, 7, 162, 11, 128,
        6, 0, 0, 0, 1, 0, 2, 131, 1, 65] Limits.default = .ok p ∧
      p.write = .ok b₂ ∧ Pdu.parse b₂ Limits.default = .ok p₂ ∧ p₂.unplaced ≠ p.unplaced := by
  refine ⟨_, _, _, rfl, rfl, rfl, fun h => ?_⟩
  injection h with _ h
  injection h with h
  injection h with h
  exact absurd (congrArg JournalEntry.origin h) (by decide)

end Pdu

end Iec61850.Mms
