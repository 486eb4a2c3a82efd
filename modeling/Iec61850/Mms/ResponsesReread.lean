import Iec61850.Mms.ServicesReread

/-!
# The confirmed responses, read again

A response is read again as the response it was, except for the entries of a journal: those
come back with the originating application that was written for them.
-/

namespace Iec61850.Mms

open Theory Ber

namespace ConfirmedResponse

/-- The response without the places of what is kept whole. -/
def unplaced : ConfirmedResponse → ConfirmedResponse
  | .read access results =>
    .read (access.map VariableAccess.unplaced) (results.map AccessResult.unplaced)
  | .getNamedVariableListAttributes deletable members =>
    .getNamedVariableListAttributes deletable (members.map VariableSpecification.unplaced)
  | .readJournal entries moreFollows =>
    .readJournal (entries.map JournalEntry.unplaced) moreFollows
  | .other t => .other t.unplaced
  | r => r

/-- The response as its receiver reads it. -/
def named : ConfirmedResponse → ConfirmedResponse
  | .readJournal entries moreFollows => .readJournal (entries.map JournalEntry.named) moreFollows
  | r => r

/-- The tag of a response. -/
def tag : ConfirmedResponse → Tag
  | .status _ _ _ => svc serviceStatus
  | .getCapabilityList _ _ => svc serviceGetCapabilityList
  | .getNameList _ _ => svc serviceGetNameList
  | .identify _ _ _ => svc serviceIdentify
  | .read _ _ => svc serviceRead
  | .write _ => svc serviceWrite
  | .getNamedVariableListAttributes _ _ => svc serviceGetNvlAttributes
  | .getVariableAccessAttributes _ _ => svc serviceGetVariableAccessAttributes
  | .defineNamedVariableList => Tag.context serviceDefineNvl
  | .deleteNamedVariableList _ _ => svc serviceDeleteNvl
  | .readJournal _ _ => svc serviceReadJournal
  | .fileOpen _ _ => svc serviceFileOpen
  | .fileRead _ _ => svc serviceFileRead
  | .fileClose => Tag.context serviceFileClose
  | .fileDelete => Tag.context serviceFileDelete
  | .fileDirectory _ _ => svc serviceFileDirectory
  | .other t => t.tag

/-- What reading a response says about its fields. -/
def WasRead (limits : Limits) : ConfirmedResponse → Prop
  | .status logical physical _ => Reads Tlv.integerI64 logical ∧ Reads Tlv.integerI64 physical
  | .getCapabilityList capabilities _ => capabilities.length ≤ limits.maxListItems
  | .getNameList identifiers _ => identifiers.length ≤ limits.maxListItems
  | .read access results => (∀ a, access = some a → Reads VariableAccess.parse a) ∧
      Reads (fun t => parseAccessResults t limits) results
  | .write results => ∀ r ∈ results, Reads parseWriteResult r
  | .getNamedVariableListAttributes _ members => Reads (fun t => parseVariableList t limits) members
  | .getVariableAccessAttributes _ typeSpec => Reads (fun t => TypeSpec.parse t limits) typeSpec
  | .deleteNamedVariableList matched deleted =>
    Reads Tlv.unsignedLenientU32 matched ∧ Reads Tlv.unsignedLenientU32 deleted
  | .readJournal entries _ => entries.length ≤ limits.maxListItems ∧
      ∀ j ∈ entries, Reads (fun t => JournalEntry.parse t limits) j
  | .fileOpen frsmId attributes =>
    Reads Tlv.integerI32 frsmId ∧ Reads FileAttributes.parse attributes
  | .fileRead data _ => data.length ≤ limits.maxPrimitiveLen
  | .fileDirectory entries _ => entries.length ≤ limits.maxListItems ∧
      ∀ d ∈ entries, Reads (fun t => DirectoryEntry.parse t limits) d
  | .other t => t.tag.number ≤ u32Max ∧ t.tag.cls = .context ∧ t.tag.number ∉ serviceNumbers
  | _ => True

theorem wasRead {limits : Limits} {r : ConfirmedResponse}
    (h : Reads (fun t => ConfirmedResponse.parse t limits) r) : r.WasRead limits := by
  obtain ⟨t, hnumber, hread⟩ := h
  change ConfirmedResponse.parse t limits = .ok r at hread
  unfold ConfirmedResponse.parse at hread
  split at hread
  · cases hread
  rename_i hcls
  split at hread
  · obtain ⟨⟨logical, c⟩, hlogical, hrest⟩ := bind_ok hread
    dsimp only at hrest
    obtain ⟨⟨physical, c'⟩, hphysical, hrest⟩ := bind_ok hrest
    dsimp only at hrest
    obtain ⟨⟨detail, c''⟩, -, hok⟩ := bind_ok hrest
    cases hok
    exact ⟨required_reads hlogical, required_reads hphysical⟩
  · obtain ⟨⟨list, c⟩, -, hrest⟩ := bind_ok hread
    dsimp only at hrest
    obtain ⟨capabilities, hlist, hrest⟩ := bind_ok hrest
    obtain ⟨more, -, rfl⟩ := map_ok hrest
    exact (collectItems_reads hlist).1
  · obtain ⟨⟨list, c⟩, -, hrest⟩ := bind_ok hread
    dsimp only at hrest
    obtain ⟨identifiers, hlist, hrest⟩ := bind_ok hrest
    obtain ⟨more, -, rfl⟩ := map_ok hrest
    exact (collectItems_reads hlist).1
  · obtain ⟨⟨vendor, c⟩, -, hrest⟩ := bind_ok hread
    dsimp only at hrest
    obtain ⟨⟨model, c'⟩, -, hrest⟩ := bind_ok hrest
    dsimp only at hrest
    obtain ⟨⟨revision, c''⟩, -, hok⟩ := bind_ok hrest
    cases hok
    trivial
  · obtain ⟨⟨access, c⟩, haccess, hrest⟩ := bind_ok hread
    dsimp only at hrest
    obtain ⟨⟨list, c'⟩, hlist, hrest⟩ := bind_ok hrest
    dsimp only at hrest
    obtain ⟨results, hresults, rfl⟩ := map_ok hrest
    exact ⟨fun a ha => child_reads (optional_reads haccess a ha),
      ⟨list, (nextTag_ok hlist).2, hresults⟩⟩
  · obtain ⟨results, hresults, rfl⟩ := map_ok hread
    exact forItems_reads hresults
  · obtain ⟨⟨deletable, c⟩, -, hrest⟩ := bind_ok hread
    dsimp only at hrest
    obtain ⟨⟨list, c'⟩, hlist, hrest⟩ := bind_ok hrest
    dsimp only at hrest
    obtain ⟨members, hmembers, rfl⟩ := map_ok hrest
    exact ⟨list, (nextTag_ok hlist).2, hmembers⟩
  · obtain ⟨⟨deletable, c⟩, -, hrest⟩ := bind_ok hread
    dsimp only at hrest
    obtain ⟨⟨address, c'⟩, -, hrest⟩ := bind_ok hrest
    dsimp only at hrest
    obtain ⟨⟨type, c''⟩, htype, hrest⟩ := bind_ok hrest
    dsimp only at hrest
    obtain ⟨typeSpec, hspec, rfl⟩ := map_ok hrest
    obtain ⟨_, -, hchild⟩ := required_reads htype
    exact ⟨type, firstChild_number_le hchild, hspec⟩
  · cases hread
    trivial
  · obtain ⟨⟨matched, c⟩, hmatched, hrest⟩ := bind_ok hread
    dsimp only at hrest
    obtain ⟨⟨deleted, c'⟩, hdeleted, hok⟩ := bind_ok hrest
    cases hok
    exact ⟨required_reads hmatched, required_reads hdeleted⟩
  · obtain ⟨⟨list, c⟩, -, hrest⟩ := bind_ok hread
    dsimp only at hrest
    obtain ⟨entries, hentries, hrest⟩ := bind_ok hrest
    obtain ⟨more, -, rfl⟩ := map_ok hrest
    exact collectItems_reads hentries
  · obtain ⟨⟨frsmId, c⟩, hid, hrest⟩ := bind_ok hread
    dsimp only at hrest
    obtain ⟨⟨attributes, c'⟩, hattributes, hok⟩ := bind_ok hrest
    cases hok
    exact ⟨required_reads hid, required_reads hattributes⟩
  · obtain ⟨⟨data, c⟩, -, hrest⟩ := bind_ok hread
    dsimp only at hrest
    split at hrest
    · cases hrest
    · rename_i hlen
      obtain ⟨more, -, rfl⟩ := map_ok hrest
      exact Nat.le_of_not_lt hlen
  · cases hread
    trivial
  · cases hread
    trivial
  · obtain ⟨⟨list, c⟩, -, hrest⟩ := bind_ok hread
    dsimp only at hrest
    obtain ⟨entries, hentries, hrest⟩ := bind_ok hrest
    obtain ⟨more, -, rfl⟩ := map_ok hrest
    exact collectItems_reads hentries
  · cases hread
    refine ⟨hnumber, not_not.mp hcls, fun hmem => ?_⟩
    simp only [serviceNumbers, List.mem_cons, List.not_mem_nil, or_false] at hmem
    rcases hmem with h | h | h | h | h | h | h | h | h | h | h | h | h | h | h | h <;> contradiction

/-! ### Listings -/

theorem gets_moreFollows {more dflt : Bool} {c : Cursor}
    (hc : concatM [writeMoreFollows more dflt] = .ok c.rest) :
    Gets (moreFollowsField c dflt) (· = more) :=
  gets_unless dflt hc (fun _ => rereads_boolean (by decide)) id lacks_nil fun _ _ _ hmore =>
    gets_ok hmore

theorem identifier_rereads {s : Bytes} :
    Rereads (visibleString tagIdentifier s) tagIdentifier parseIdentifier (· = s) := by
  intro bs hbs
  have hstring : Rereads (visibleString tagIdentifier s) _ _ _ := rereads_visibleString (by decide)
  obtain ⟨value, rfl, hfit, hread⟩ := hstring bs hbs
  exact ⟨value, rfl, hfit, fun offset => gets_expect rfl (hread offset)⟩

theorem writeResult_rereads {r : WriteResult} (h : Reads parseWriteResult r) :
    ∃ tag, Rereads (encodeWriteResult r) tag parseWriteResult (· = r) := by
  obtain ⟨t, hnumber, hread⟩ := h
  unfold parseWriteResult at hread
  split at hread
  · obtain ⟨code, hcode, rfl⟩ := map_ok hread
    have hw : Rereads (integer (Tag.context 0) code) _ _ _ :=
      rereads_integer ⟨t, hnumber, hcode⟩ (by decide)
    exact ⟨_, hw.map (fun _ _ => rfl) (by rintro _ rfl; rfl)⟩
  · cases hread
    have hsuccess : (Tag.context 1).number ≤ u32Max := by decide
    exact ⟨_, rereads_primitive hsuccess fun offset => gets_ok rfl⟩

/-- The reader finds the inner list, even an empty one, and takes it for the entries. -/
theorem directoryEntries_written {list : Tlv} {entries : List DirectoryEntry} {limits : Limits}
    (h : constructed tagSequence (concatM (entries.map DirectoryEntry.write)) =
      .ok list.children.rest)
    (hentries : ∀ d ∈ entries, Reads (fun t => DirectoryEntry.parse t limits) d) :
    concatM (entries.map DirectoryEntry.write) = .ok (directoryEntries list).rest := by
  have hinner : Rereads (constructed tagSequence (concatM (entries.map DirectoryEntry.write)))
      tagSequence _ _ := rereads_contents (by decide)
  obtain ⟨first, c, hfirst, -, -, htag, hcontents⟩ := cursor_cons (concatM_single.mpr h) hinner
  have hwritten := of_gets_ok hcontents
  unfold directoryEntries
  rw [next_of_nextRequired hfirst]
  dsimp only
  rw [if_neg (not_not.mpr htag)]
  cases entries with
  | nil =>
    have hend : first.children.next = none := if_pos (isEmpty_of_concatM_nil hwritten)
    rw [hend]
    exact hwritten
  | cons d entries =>
    have hentry := directoryEntry_rereads (hentries d List.mem_cons_self)
    obtain ⟨inner, c', hnext, -, -, htag', -⟩ := cursor_cons hwritten hentry
    rw [next_of_nextRequired hnext]
    dsimp only
    rw [if_pos htag']
    exact hwritten

/-! ### One response -/

section Services

variable {limits : Limits}

theorem status_rereads {logical physical : Int} {localDetail : Option (UInt8 × Bytes)}
    (hlogical : Reads Tlv.integerI64 logical) (hphysical : Reads Tlv.integerI64 physical) :
    Rereads (status logical physical localDetail).encode (svc serviceStatus)
      (fun t => ConfirmedResponse.parse t limits) (· = status logical physical localDetail) := by
  refine rereads_constructed (by decide) fun value offset hvalue => ?_
  refine gets_required (c := (tlvAt offset _ value).children) hvalue
    (rereads_integer hlogical (by decide)) ?_
  rintro logical c₁ hc₁ rfl
  refine gets_required hc₁ (rereads_integer hphysical (by decide)) ?_
  rintro physical c₂ hc₂ rfl
  refine gets_optional hc₂ (fun d _ => rereads_bitString (by decide)) lacks_nil ?_
  intro detail _ _ hdetail
  rw [eq_of_rel hdetail]
  exact gets_ok rfl

theorem getCapabilityList_rereads {capabilities : List Bytes} {more : Bool}
    (hmax : capabilities.length ≤ limits.maxListItems) :
    Rereads (getCapabilityList capabilities more).encode (svc serviceGetCapabilityList)
      (fun t => ConfirmedResponse.parse t limits) (· = getCapabilityList capabilities more) := by
  refine rereads_constructed (by decide) fun value offset hvalue => ?_
  refine gets_nextTag (c := (tlvAt offset _ value).children) hvalue
    (rereads_list "max_list_items" (by decide) (fun s _ => ⟨_, identifier_rereads⟩) hmax) ?_
  intro list c hc hlist
  refine gets_bind hlist fun capabilities' hall => ?_
  rw [eq_of_forall₂ hall]
  exact gets_map (gets_moreFollows hc) (by rintro _ rfl; rfl)

theorem getNameList_rereads {identifiers : List Bytes} {more : Bool}
    (hmax : identifiers.length ≤ limits.maxListItems) :
    Rereads (getNameList identifiers more).encode (svc serviceGetNameList)
      (fun t => ConfirmedResponse.parse t limits) (· = getNameList identifiers more) := by
  refine rereads_constructed (by decide) fun value offset hvalue => ?_
  refine gets_nextTag (c := (tlvAt offset _ value).children) hvalue
    (rereads_list "max_list_items" (by decide) (fun s _ => ⟨_, identifier_rereads⟩) hmax) ?_
  intro list c hc hlist
  refine gets_bind hlist fun identifiers' hall => ?_
  rw [eq_of_forall₂ hall]
  exact gets_map (gets_moreFollows hc) (by rintro _ rfl; rfl)

theorem identify_rereads {vendor model revision : Bytes} :
    Rereads (identify vendor model revision).encode (svc serviceIdentify)
      (fun t => ConfirmedResponse.parse t limits) (· = identify vendor model revision) := by
  refine rereads_constructed (by decide) fun value offset hvalue => ?_
  refine gets_required (c := (tlvAt offset _ value).children) hvalue
    (rereads_visibleString (by decide)) ?_
  rintro vendor c₁ hc₁ rfl
  refine gets_required hc₁ (rereads_visibleString (by decide)) ?_
  rintro model c₂ hc₂ rfl
  refine gets_required hc₂ (rereads_visibleString (by decide)) ?_
  rintro revision c₃ _ rfl
  exact gets_ok rfl

theorem read_rereads {access : Option VariableAccess} {results : List AccessResult}
    (haccess : ∀ a, access = some a → Reads VariableAccess.parse a)
    (hresults : Reads (fun t => parseAccessResults t limits) results) :
    Rereads (ConfirmedResponse.read access results).encode (svc serviceRead)
      (fun t => ConfirmedResponse.parse t limits)
      (fun r => r.unplaced = (ConfirmedResponse.read access results).unplaced) := by
  have hlist : Rereads (writeAccessResults results (svc 1)) _ _ _ :=
    accessResults_rereads hresults (by decide)
  refine rereads_constructed (by decide) fun value offset hvalue => ?_
  refine gets_optional (c := (tlvAt offset _ value).children) hvalue
    (fun a ha => rereads_child (VariableAccess.rereads (haccess a ha)) (by decide))
    (lacks_cons hlist (by decide)) ?_
  intro access' c hc haccess'
  refine gets_nextTag hc hlist fun list _ _ hgets => gets_map hgets fun results' hresults' => ?_
  exact congrArg₂ ConfirmedResponse.read (map_eq_of_rel haccess') hresults'

theorem getNamedVariableListAttributes_rereads {deletable : Bool}
    {members : List VariableSpecification} (h : Reads (fun t => parseVariableList t limits) members) :
    Rereads (getNamedVariableListAttributes deletable members).encode (svc serviceGetNvlAttributes)
      (fun t => ConfirmedResponse.parse t limits)
      (fun r => r.unplaced = (getNamedVariableListAttributes deletable members).unplaced) := by
  refine rereads_constructed (by decide) fun value offset hvalue => ?_
  refine gets_present (c := (tlvAt offset _ value).children) hvalue (rereads_boolean (by decide)) ?_
  rintro _ c hc rfl
  refine gets_nextTag hc (variableList_rereads h (by decide)) fun list _ _ hgets => ?_
  exact gets_map hgets fun members' hmembers => congrArg (getNamedVariableListAttributes _) hmembers

theorem getVariableAccessAttributes_rereads {deletable : Bool} {typeSpec : TypeSpec}
    (h : Reads (fun t => TypeSpec.parse t limits) typeSpec) :
    Rereads (getVariableAccessAttributes deletable typeSpec).encode
      (svc serviceGetVariableAccessAttributes) (fun t => ConfirmedResponse.parse t limits)
      (· = getVariableAccessAttributes deletable typeSpec) := by
  have htype : Rereads (constructed (svc 2) typeSpec.write) _ _ _ :=
    rereads_firstChild (TypeSpec.parseDepth_rereads h) (by decide)
  refine rereads_constructed (by decide) fun value offset hvalue => ?_
  refine gets_present (c := (tlvAt offset _ value).children) hvalue (rereads_boolean (by decide)) ?_
  rintro _ c hc rfl
  refine gets_skip hc (lacks_cons htype (by decide)) ?_
  refine gets_required hc htype fun type _ _ htype' => ?_
  exact gets_map htype'.2 (by rintro _ rfl; rfl)

theorem deleteNamedVariableList_rereads {matched deleted : Nat}
    (hmatched : Reads Tlv.unsignedLenientU32 matched)
    (hdeleted : Reads Tlv.unsignedLenientU32 deleted) :
    Rereads (deleteNamedVariableList matched deleted).encode (svc serviceDeleteNvl)
      (fun t => ConfirmedResponse.parse t limits) (· = deleteNamedVariableList matched deleted) := by
  refine rereads_constructed (by decide) fun value offset hvalue => ?_
  refine gets_required (c := (tlvAt offset _ value).children) hvalue
    (rereads_unsigned hmatched (by decide)) ?_
  rintro _ c hc rfl
  refine gets_required hc (rereads_unsigned hdeleted (by decide)) ?_
  rintro _ c _ rfl
  exact gets_ok rfl

theorem readJournal_rereads {entries : List JournalEntry} {more : Bool}
    (hmax : entries.length ≤ limits.maxListItems)
    (hentries : ∀ j ∈ entries, Reads (fun t => JournalEntry.parse t limits) j) :
    Rereads (ConfirmedResponse.readJournal entries more).encode (svc serviceReadJournal)
      (fun t => ConfirmedResponse.parse t limits)
      (fun r => r.unplaced = (ConfirmedResponse.readJournal entries more).named.unplaced) := by
  refine rereads_constructed (by decide) fun value offset hvalue => ?_
  refine gets_nextTag (c := (tlvAt offset _ value).children) hvalue
    (rereads_list "max_list_items" (by decide) (fun j hj =>
      ⟨_, JournalEntry.rereads (JournalEntry.wasRead (hentries j hj))⟩) hmax) ?_
  intro list c hc hlist
  refine gets_bind hlist fun entries' hall => gets_map (gets_moreFollows hc) ?_
  rintro _ rfl
  simp only [unplaced, named, map_eq_of_forall₂ hall, List.map_map, Function.comp_def]

theorem fileOpen_rereads {frsmId : Int} {attributes : FileAttributes}
    (hid : Reads Tlv.integerI32 frsmId) (hattributes : Reads FileAttributes.parse attributes) :
    Rereads (fileOpen frsmId attributes).encode (svc serviceFileOpen)
      (fun t => ConfirmedResponse.parse t limits) (· = fileOpen frsmId attributes) := by
  refine rereads_constructed (by decide) fun value offset hvalue => ?_
  refine gets_required (c := (tlvAt offset _ value).children) hvalue
    (rereads_integerI32 hid (by decide)) ?_
  rintro _ c hc rfl
  refine gets_required hc (fileAttributes_rereads hattributes (by decide)) ?_
  rintro _ c _ rfl
  exact gets_ok rfl

theorem fileRead_rereads {data : Bytes} {more : Bool} (h : data.length ≤ limits.maxPrimitiveLen) :
    Rereads (fileRead data more).encode (svc serviceFileRead)
      (fun t => ConfirmedResponse.parse t limits) (· = fileRead data more) := by
  refine rereads_constructed (by decide) fun value offset hvalue => ?_
  refine gets_nextTag (c := (tlvAt offset _ value).children) hvalue (rereads_octets (by decide)) ?_
  intro t c hc hgets
  have hdata := of_gets_ok hgets
  dsimp only
  rw [hdata, if_neg (Nat.not_lt.mpr h)]
  exact gets_map (gets_moreFollows hc) (by rintro _ rfl; rfl)

theorem fileDirectory_rereads {entries : List DirectoryEntry} {more : Bool}
    (hmax : entries.length ≤ limits.maxListItems)
    (hentries : ∀ d ∈ entries, Reads (fun t => DirectoryEntry.parse t limits) d) :
    Rereads (fileDirectory entries more).encode (svc serviceFileDirectory)
      (fun t => ConfirmedResponse.parse t limits) (· = fileDirectory entries more) := by
  refine rereads_constructed (by decide) fun value offset hvalue => ?_
  refine gets_nextTag (c := (tlvAt offset _ value).children) hvalue (rereads_contents (by decide)) ?_
  intro list c hc hcontents
  have hinner := of_gets_ok hcontents
  have hwritten := directoryEntries_written hinner hentries
  refine gets_bind (gets_collectItems hwritten
    (fun d hd => ⟨_, directoryEntry_rereads (hentries d hd)⟩) hmax) ?_
  intro entries' hall
  rw [eq_of_forall₂ hall]
  exact gets_map (gets_moreFollows hc) (by rintro _ rfl; rfl)

theorem other_rereads {t : Tlv} (hnumber : t.tag.number ≤ u32Max) (hcls : t.tag.cls = .context)
    (hother : t.tag.number ∉ serviceNumbers) :
    Rereads (ConfirmedResponse.other t).encode t.tag (fun t => ConfirmedResponse.parse t limits)
      (fun r => r.unplaced = (ConfirmedResponse.other t).unplaced) := by
  refine rereads_primitive hnumber fun offset => ?_
  unfold ConfirmedResponse.parse
  rw [tlvAt_tag, if_neg (not_not.mpr hcls)]
  split
  case h_17 => exact gets_ok rfl
  all_goals exact absurd (by rw [‹t.tag.number = _›]; decide) hother

end Services

theorem rereads {limits : Limits} {r : ConfirmedResponse}
    (h : Reads (fun t => ConfirmedResponse.parse t limits) r) :
    Rereads r.encode r.tag (fun t => ConfirmedResponse.parse t limits)
      (fun r' => r'.unplaced = r.named.unplaced) := by
  have hread := wasRead h
  cases r with
  | status logical physical localDetail =>
    exact (status_rereads hread.1 hread.2).mono (by rintro _ rfl; rfl)
  | getCapabilityList capabilities more =>
    exact (getCapabilityList_rereads hread).mono (by rintro _ rfl; rfl)
  | getNameList identifiers more => exact (getNameList_rereads hread).mono (by rintro _ rfl; rfl)
  | identify vendor model revision => exact identify_rereads.mono (by rintro _ rfl; rfl)
  | read access results => exact read_rereads hread.1 hread.2
  | write results =>
    refine rereads_constructed (by decide) fun value offset hvalue => ?_
    refine gets_map (gets_forItems (c := (tlvAt offset _ value).children) hvalue
      fun r hr => writeResult_rereads (hread r hr)) fun results' hall => ?_
    rw [eq_of_forall₂ hall]
    rfl
  | getNamedVariableListAttributes deletable members =>
    exact getNamedVariableListAttributes_rereads hread
  | getVariableAccessAttributes deletable typeSpec =>
    exact (getVariableAccessAttributes_rereads hread).mono (by rintro _ rfl; rfl)
  | defineNamedVariableList => exact rereads_primitive (by decide) fun offset => gets_ok rfl
  | deleteNamedVariableList matched deleted =>
    exact (deleteNamedVariableList_rereads hread.1 hread.2).mono (by rintro _ rfl; rfl)
  | readJournal entries more => exact readJournal_rereads hread.1 hread.2
  | fileOpen frsmId attributes =>
    exact (fileOpen_rereads hread.1 hread.2).mono (by rintro _ rfl; rfl)
  | fileRead data more => exact (fileRead_rereads hread).mono (by rintro _ rfl; rfl)
  | fileClose => exact rereads_primitive (by decide) fun offset => gets_ok rfl
  | fileDelete => exact rereads_primitive (by decide) fun offset => gets_ok rfl
  | fileDirectory entries more =>
    exact (fileDirectory_rereads hread.1 hread.2).mono (by rintro _ rfl; rfl)
  | other t => exact other_rereads hread.1 hread.2.1 hread.2.2

end ConfirmedResponse

end Iec61850.Mms
