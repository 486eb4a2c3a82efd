import Iec61850.Mms.TypesReread
import Iec61850.Mms.Services

/-!
# The confirmed services, read again

Each request and each response is read again from what was written of it, as the request or the
response it was.
-/

namespace Iec61850.Mms

open Theory Ber

/-! ### Reading a journal -/

namespace ReadJournal

theorem start_rereads {s : RangeStart} (h : Reads parseStart s) :
    Rereads (constructed (svc 1) (writeStart s)) (svc 1) parseStart (· = s) := by
  obtain ⟨t, -, hread⟩ := h
  unfold parseStart at hread
  obtain ⟨inner, hinner, hrest⟩ := bind_ok hread
  have hnumber := firstChild_number_le hinner
  split at hrest
  · obtain ⟨time, htime, rfl⟩ := map_ok hrest
    have hw : Rereads (constructed (svc 1) (primitive (Tag.context 0) time.toOctets)) _ _ _ :=
      rereads_firstChild (rereads_time ⟨inner, hnumber, htime⟩ (by decide)) (by decide)
    refine hw.bind (fun _ _ => rfl) fun child hchild => ?_
    rw [hchild.1]
    exact gets_map hchild.2 (by rintro _ rfl; rfl)
  · cases hrest
    have hw : Rereads (constructed (svc 1) (primitive (Tag.context 1) inner.value)) _ _ _ :=
      rereads_firstChild (rereads_octets (by decide)) (by decide)
    refine hw.bind (fun _ _ => rfl) fun child hchild => ?_
    have hvalue := of_gets_ok hchild.2
    rw [hchild.1]
    exact gets_ok (congrArg RangeStart.entry hvalue)
  · cases hrest

theorem stop_rereads {s : RangeStop} (h : Reads parseStop s) :
    Rereads (constructed (svc 2) (writeStop s)) (svc 2) parseStop (· = s) := by
  obtain ⟨t, -, hread⟩ := h
  unfold parseStop at hread
  obtain ⟨inner, hinner, hrest⟩ := bind_ok hread
  have hnumber := firstChild_number_le hinner
  split at hrest
  · obtain ⟨time, htime, rfl⟩ := map_ok hrest
    have hw : Rereads (constructed (svc 2) (primitive (Tag.context 0) time.toOctets)) _ _ _ :=
      rereads_firstChild (rereads_time ⟨inner, hnumber, htime⟩ (by decide)) (by decide)
    refine hw.bind (fun _ _ => rfl) fun child hchild => ?_
    rw [hchild.1]
    exact gets_map hchild.2 (by rintro _ rfl; rfl)
  · obtain ⟨n, hn, rfl⟩ := map_ok hrest
    have hw : Rereads (constructed (svc 2) (integer (Tag.context 1) n)) _ _ _ :=
      rereads_firstChild (rereads_integerI32 ⟨inner, hnumber, hn⟩ (by decide)) (by decide)
    refine hw.bind (fun _ _ => rfl) fun child hchild => ?_
    rw [hchild.1]
    exact gets_map hchild.2 (by rintro _ rfl; rfl)
  · cases hrest

theorem after_rereads {a : AfterEntry} (h : Reads parseAfter a) :
    Rereads (constructed (svc 5) (concatM [
      primitive (Tag.context 0) a.time.toOctets, primitive (Tag.context 1) a.entryId])) (svc 5)
      parseAfter (· = a) := by
  obtain ⟨t, -, hread⟩ := h
  unfold parseAfter at hread
  obtain ⟨⟨time, m⟩, htime, hrest⟩ := bind_ok hread
  dsimp only at hrest
  obtain ⟨⟨id, m'⟩, -, hok⟩ := bind_ok hrest
  cases hok
  refine rereads_constructed (by decide) fun value offset hvalue => ?_
  refine gets_required (c := (tlvAt offset _ value).children) hvalue
    (rereads_time (required_reads htime) (by decide)) ?_
  rintro _ c hc rfl
  refine gets_nextTag hc (rereads_octets (by decide)) fun id' c' _ hgets => ?_
  have hvalue' := of_gets_ok hgets
  exact gets_ok (congrArg (AfterEntry.mk _) hvalue')

theorem names_rereads {tag : Tag} {vars : List Bytes} (htag : tag.number ≤ u32Max) :
    Rereads (constructed tag (concatM (vars.map (visibleString tagIdentifier)))) tag
      (fun list => forItems list.children [] (fun out v => do
        let s ← v.visibleString
        .ok (out ++ [s]))) (· = vars) := by
  refine rereads_constructed htag fun value offset hvalue => ?_
  obtain ⟨vars', hread, hall⟩ := gets_forItems (c := (tlvAt offset tag value).children) hvalue
    (Q := fun s s' => s' = s) fun s _ => ⟨_, rereads_visibleString (by decide)⟩
  exact ⟨vars', hread, eq_of_forall₂ hall⟩

theorem rereads {r : ReadJournal} (h : Reads ReadJournal.parse r) :
    Rereads r.write (svc serviceReadJournal) ReadJournal.parse (· = r) := by
  obtain ⟨t, -, hread⟩ := h
  unfold ReadJournal.parse at hread
  obtain ⟨⟨name, c₁⟩, -, hrest⟩ := bind_ok hread
  dsimp only at hrest
  obtain ⟨⟨start, c₂⟩, hstart, hrest⟩ := bind_ok hrest
  dsimp only at hrest
  obtain ⟨⟨stop, c₃⟩, hstop, hrest⟩ := bind_ok hrest
  dsimp only at hrest
  obtain ⟨⟨vars, c₄⟩, -, hrest⟩ := bind_ok hrest
  dsimp only at hrest
  obtain ⟨⟨after, c₅⟩, hafter, hok⟩ := bind_ok hrest
  cases hok
  generalize vars.getD [] = vars
  have hstartWrite := fun s hs => start_rereads (optional_reads hstart s hs)
  have hstopWrite := fun s hs => stop_rereads (optional_reads hstop s hs)
  have hafterWrite := fun a ha => after_rereads (optional_reads hafter a ha)
  have hvarsWrite : Rereads (constructed (svc 4)
    (concatM (vars.map (visibleString tagIdentifier)))) _ _ _ := names_rereads (by decide)
  refine rereads_constructed (by decide) fun value offset hvalue => ?_
  refine gets_optional (c := (tlvAt offset _ value).children) hvalue
    (fun n _ => rereads_child n.rereads (by decide)) ?_ ?_
  · exact lacks_optM hstartWrite (by decide) <| lacks_optM hstopWrite (by decide) <|
      lacks_unless hvarsWrite (by decide) <| lacks_optM hafterWrite (by decide) lacks_nil
  intro name' c hc hname
  refine gets_optional hc hstartWrite ?_ ?_
  · exact lacks_optM hstopWrite (by decide) <| lacks_unless hvarsWrite (by decide) <|
      lacks_optM hafterWrite (by decide) lacks_nil
  intro start' c hc hstart'
  refine gets_optional hc hstopWrite ?_ ?_
  · exact lacks_unless hvarsWrite (by decide) <| lacks_optM hafterWrite (by decide) lacks_nil
  intro stop' c hc hstop'
  refine gets_unless [] hc (fun _ => hvarsWrite) (fun hempty => ?_) ?_ ?_
  · simpa using hempty
  · exact lacks_optM hafterWrite (by decide) lacks_nil
  intro vars' c hc hvars'
  refine gets_optional hc hafterWrite lacks_nil ?_
  intro after' c _ hafter'
  refine gets_ok ?_
  rw [eq_of_rel hname, eq_of_rel hstart', eq_of_rel hstop', hvars', eq_of_rel hafter']

end ReadJournal

/-- The numbers of the modelled services. -/
def serviceNumbers : List Nat := [0, 1, 2, 4, 5, 6, 11, 12, 13, 65, 71, 72, 73, 74, 76, 77]

/-! ### Requests -/

namespace ConfirmedRequest

/-- The request without the places of what is kept whole. -/
def unplaced : ConfirmedRequest → ConfirmedRequest
  | .getNameList objectClass scope continueAfter =>
    .getNameList objectClass scope.unplaced continueAfter
  | .read spec access => .read spec access.unplaced
  | .write access values => .write access.unplaced (values.map Tlv.unplaced)
  | .defineNamedVariableList name members =>
    .defineNamedVariableList name (members.map VariableSpecification.unplaced)
  | .other t => .other t.unplaced
  | r => r

/-- The tag of a request. -/
def tag : ConfirmedRequest → Tag
  | .status _ => Tag.context serviceStatus
  | .getCapabilityList _ => svc serviceGetCapabilityList
  | .getNameList _ _ _ => svc serviceGetNameList
  | .identify => Tag.context serviceIdentify
  | .read _ _ => svc serviceRead
  | .write _ _ => svc serviceWrite
  | .getNamedVariableListAttributes _ => svc serviceGetNvlAttributes
  | .getVariableAccessAttributes _ => svc serviceGetVariableAccessAttributes
  | .defineNamedVariableList _ _ => svc serviceDefineNvl
  | .deleteNamedVariableList _ _ _ => svc serviceDeleteNvl
  | .readJournal _ => svc serviceReadJournal
  | .fileOpen _ _ => svc serviceFileOpen
  | .fileRead _ => Tag.context serviceFileRead
  | .fileClose _ => Tag.context serviceFileClose
  | .fileDelete _ => svc serviceFileDelete
  | .fileDirectory _ _ => svc serviceFileDirectory
  | .other t => t.tag

/-- What reading a request says about its fields. -/
def WasRead (limits : Limits) : ConfirmedRequest → Prop
  | .getNameList objectClass scope _ => Reads Tlv.integerI64 objectClass ∧ Reads ObjectScope.parse scope
  | .read _ access => Reads VariableAccess.parse access
  | .write access values => Reads VariableAccess.parse access ∧
      values.length ≤ limits.maxDatasetMembers ∧ ∀ v ∈ values, Reads parseWriteValue v
  | .defineNamedVariableList _ members => Reads (fun t => parseVariableList t limits) members
  | .deleteNamedVariableList scope names _ =>
    (scope ≠ deleteScopeSpecific → Reads Tlv.integerI64 scope) ∧ names.length ≤ limits.maxListItems
  | .readJournal r => Reads ReadJournal.parse r
  | .fileOpen name position =>
    Reads (fun t => FileName.parse t limits) name ∧ Reads Tlv.unsignedLenientU32 position
  | .fileRead id => Reads Tlv.integerI32 id
  | .fileClose id => Reads Tlv.integerI32 id
  | .fileDelete name => Reads (fun t => FileName.parse t limits) name
  | .fileDirectory specification continueAfter =>
    (∀ n, specification = some n → Reads (fun t => FileName.parse t limits) n) ∧
      ∀ n, continueAfter = some n → Reads (fun t => FileName.parse t limits) n
  | .other t => t.tag.number ≤ u32Max ∧ t.tag.cls = .context ∧ t.tag.number ∉ serviceNumbers
  | _ => True

theorem wasRead {limits : Limits} {r : ConfirmedRequest}
    (h : Reads (fun t => ConfirmedRequest.parse t limits) r) : r.WasRead limits := by
  obtain ⟨t, hnumber, hread⟩ := h
  change ConfirmedRequest.parse t limits = .ok r at hread
  unfold ConfirmedRequest.parse at hread
  split at hread
  · cases hread
  rename_i hcls
  split at hread
  · obtain ⟨⟨cls, c⟩, hcls, hrest⟩ := bind_ok hread
    dsimp only at hrest
    obtain ⟨objectClass, hclass, hrest⟩ := bind_ok hrest
    obtain ⟨⟨scope, c'⟩, hscope, hrest⟩ := bind_ok hrest
    dsimp only at hrest
    obtain ⟨⟨after, c''⟩, -, hok⟩ := bind_ok hrest
    cases hok
    obtain ⟨_, -, hchild⟩ := required_reads hcls
    exact ⟨⟨cls, firstChild_number_le hchild, hclass⟩, child_reads (required_reads hscope)⟩
  · obtain ⟨b, -, rfl⟩ := map_ok hread
    trivial
  · cases hread
    trivial
  · obtain ⟨⟨after, c⟩, -, hok⟩ := bind_ok hread
    cases hok
    trivial
  · obtain ⟨⟨spec, c⟩, -, hrest⟩ := bind_ok hread
    dsimp only at hrest
    obtain ⟨⟨access, c'⟩, haccess, hok⟩ := bind_ok hrest
    cases hok
    exact child_reads (required_reads haccess)
  · obtain ⟨⟨a, c⟩, ha, hrest⟩ := bind_ok hread
    dsimp only at hrest
    obtain ⟨access, haccess, hrest⟩ := bind_ok hrest
    obtain ⟨⟨values, c'⟩, hvalues, hok⟩ := bind_ok hrest
    cases hok
    obtain ⟨list, -, hlist⟩ := required_reads hvalues
    exact ⟨⟨a, nextRequired_number_le ha, haccess⟩, collectItems_reads hlist⟩
  · obtain ⟨child, -, hrest⟩ := bind_ok hread
    obtain ⟨name, -, rfl⟩ := map_ok hrest
    trivial
  · obtain ⟨⟨name, c⟩, -, hrest⟩ := bind_ok hread
    dsimp only at hrest
    obtain ⟨n, -, rfl⟩ := map_ok hrest
    trivial
  · obtain ⟨⟨n, c⟩, -, hrest⟩ := bind_ok hread
    dsimp only at hrest
    obtain ⟨name, -, hrest⟩ := bind_ok hrest
    obtain ⟨⟨list, c'⟩, hlist, hrest⟩ := bind_ok hrest
    dsimp only at hrest
    obtain ⟨members, hmembers, rfl⟩ := map_ok hrest
    exact ⟨list, (nextTag_ok hlist).2, hmembers⟩
  · obtain ⟨⟨scope, c⟩, hscope, hrest⟩ := bind_ok hread
    dsimp only at hrest
    obtain ⟨⟨names, c'⟩, hnames, hrest⟩ := bind_ok hrest
    dsimp only at hrest
    obtain ⟨⟨domain, c''⟩, -, hok⟩ := bind_ok hrest
    cases hok
    refine ⟨fun hne => ?_, ?_⟩
    · cases scope with
      | none => exact absurd rfl hne
      | some scope => exact optional_reads hscope scope rfl
    · cases names with
      | none => exact Nat.zero_le _
      | some names =>
        obtain ⟨list, -, hlist⟩ := optional_reads hnames names rfl
        exact (collectItems_reads hlist).1
  · obtain ⟨r, hr, rfl⟩ := map_ok hread
    exact ⟨t, hnumber, hr⟩
  · obtain ⟨⟨name, c⟩, hname, hrest⟩ := bind_ok hread
    dsimp only at hrest
    obtain ⟨⟨position, c'⟩, hposition, hok⟩ := bind_ok hrest
    cases hok
    exact ⟨required_reads hname, required_reads hposition⟩
  · obtain ⟨id, hid, rfl⟩ := map_ok hread
    exact ⟨t, hnumber, hid⟩
  · obtain ⟨id, hid, rfl⟩ := map_ok hread
    exact ⟨t, hnumber, hid⟩
  · obtain ⟨name, hname, rfl⟩ := map_ok hread
    exact ⟨t, hnumber, hname⟩
  · obtain ⟨⟨specification, c⟩, hspecification, hrest⟩ := bind_ok hread
    dsimp only at hrest
    obtain ⟨⟨after, c'⟩, hafter, hok⟩ := bind_ok hrest
    cases hok
    exact ⟨optional_reads hspecification, optional_reads hafter⟩
  · cases hread
    refine ⟨hnumber, not_not.mp hcls, fun hmem => ?_⟩
    simp only [serviceNumbers, List.mem_cons, List.not_mem_nil, or_false] at hmem
    rcases hmem with h | h | h | h | h | h | h | h | h | h | h | h | h | h | h | h <;> contradiction

theorem tag_cls {limits : Limits} {r : ConfirmedRequest} (h : r.WasRead limits) :
    r.tag.cls = .context := by
  cases r with
  | other t => exact h.2.1
  | _ => rfl

/-! ### One request -/

section Services

variable {limits : Limits}

theorem getNameList_rereads {objectClass : Int} {scope : ObjectScope} {continueAfter : Option Bytes}
    (hclass : Reads Tlv.integerI64 objectClass) (hscope : Reads ObjectScope.parse scope) :
    Rereads (getNameList objectClass scope continueAfter).encode (svc serviceGetNameList)
      (fun t => ConfirmedRequest.parse t limits)
      (fun r => r.unplaced = (getNameList objectClass scope continueAfter).unplaced) := by
  have hclassWrite : Rereads (constructed (svc 0) (integer (Tag.context 0) objectClass)) _ _ _ :=
    rereads_firstChild (rereads_integer hclass (by decide)) (by decide)
  refine rereads_constructed (by decide) fun value offset hvalue => ?_
  refine gets_required (c := (tlvAt offset _ value).children) hvalue hclassWrite ?_
  intro cls c hc hcls
  refine gets_bind hcls.2 ?_
  rintro _ rfl
  refine gets_required hc (rereads_child (ObjectScope.rereads hscope) (by decide)) ?_
  intro scope' c hc hscope'
  refine gets_optional hc (fun s _ => rereads_visibleString (by decide)) lacks_nil ?_
  intro after c _ hafter
  refine gets_ok ?_
  rw [eq_of_rel hafter]
  exact congrArg (getNameList _ · _) hscope'

theorem read_rereads {spec : Bool} {access : VariableAccess}
    (h : Reads VariableAccess.parse access) :
    Rereads (ConfirmedRequest.read spec access).encode (svc serviceRead)
      (fun t => ConfirmedRequest.parse t limits)
      (fun r => r.unplaced = (ConfirmedRequest.read spec access).unplaced) := by
  have haccess : Rereads (constructed (svc 1) access.write) _ _ _ :=
    rereads_child (VariableAccess.rereads h) (by decide)
  refine rereads_constructed (by decide) fun value offset hvalue => ?_
  refine gets_default (a := spec) false (c := (tlvAt offset _ value).children) hvalue
    (fun hspec => ?_) (fun hspec => ?_) (lacks_cons haccess (by decide)) ?_
  · rw [hspec]
    exact rereads_boolean (by decide)
  · simpa using hspec
  intro spec' c hc hspec
  refine gets_required hc haccess fun access' _ _ haccess' => gets_ok ?_
  rw [hspec]
  exact congrArg (ConfirmedRequest.read spec) haccess'

theorem write_rereads {access : VariableAccess} {values : List Tlv}
    (h : Reads VariableAccess.parse access) (hmax : values.length ≤ limits.maxDatasetMembers)
    (hvalues : ∀ v ∈ values, Reads parseWriteValue v) :
    Rereads (ConfirmedRequest.write access values).encode (svc serviceWrite)
      (fun t => ConfirmedRequest.parse t limits)
      (fun r => r.unplaced = (ConfirmedRequest.write access values).unplaced) := by
  have hvalue : ∀ v ∈ values, ∃ tag, Rereads (primitive v.tag v.value) tag parseWriteValue
      (fun v' => v'.unplaced = v.unplaced) := by
    intro v hv
    obtain ⟨t, hnumber, hread⟩ := hvalues v hv
    obtain ⟨view, hview, hok⟩ := bind_ok hread
    cases hok
    have hwhole := value_rereads hnumber hview
    refine ⟨v.tag, hwhole.bind (k := parseWriteValue) (fun _ _ => rfl) ?_⟩
    rintro v' ⟨hsame, view', hview'⟩
    exact gets_bind (P := (· = view')) ⟨view', hview', rfl⟩ fun _ _ => gets_ok hsame
  refine rereads_constructed (by decide) fun value offset hwritten => ?_
  refine gets_nextRequired (c := (tlvAt offset _ value).children) hwritten
    (VariableAccess.rereads h) ?_
  intro a c hc _ haccess
  refine gets_bind haccess fun access' haccess' => ?_
  refine gets_required hc (rereads_list _ (by decide) hvalue hmax) ?_
  intro values' _ _ hall
  exact gets_ok (congrArg₂ ConfirmedRequest.write haccess' (map_eq_of_forall₂ hall))

theorem defineNamedVariableList_rereads {name : ObjectName} {members : List VariableSpecification}
    (h : Reads (fun t => parseVariableList t limits) members) :
    Rereads (defineNamedVariableList name members).encode (svc serviceDefineNvl)
      (fun t => ConfirmedRequest.parse t limits)
      (fun r => r.unplaced = (defineNamedVariableList name members).unplaced) := by
  refine rereads_constructed (by decide) fun value offset hvalue => ?_
  refine gets_nextRequired (c := (tlvAt offset _ value).children) hvalue name.rereads ?_
  intro n c hc _ hname
  refine gets_bind hname ?_
  rintro _ rfl
  refine gets_nextTag hc (variableList_rereads h (by decide)) fun list _ _ hlist => ?_
  exact gets_map hlist fun members' hmembers => congrArg (defineNamedVariableList _) hmembers

theorem deleteNamedVariableList_rereads {scope : Int} {names : List ObjectName}
    {domain : Option Bytes} (hscope : scope ≠ deleteScopeSpecific → Reads Tlv.integerI64 scope)
    (hmax : names.length ≤ limits.maxListItems) :
    Rereads (deleteNamedVariableList scope names domain).encode (svc serviceDeleteNvl)
      (fun t => ConfirmedRequest.parse t limits)
      (fun r => r.unplaced = (deleteNamedVariableList scope names domain).unplaced) := by
  have hnames : Rereads (constructed (svc 1) (concatM (names.map ObjectName.write))) (svc 1)
      (fun list => collectItems "max_list_items" limits.maxListItems list.children
        ObjectName.parse) (· = names) := by
    have hlist := rereads_list "max_list_items" (by decide : (svc 1).number ≤ _)
      (fun n _ => ⟨_, ObjectName.rereads n⟩) hmax
    exact hlist.mono fun _ hall => eq_of_forall₂ hall
  have hdomain : ∀ s, domain = some s → Rereads (visibleString (Tag.context 2) s) (Tag.context 2)
      Tlv.visibleString (· = s) := fun s _ => rereads_visibleString (by decide)
  refine rereads_constructed (by decide) fun value offset hvalue => ?_
  refine gets_default (a := scope) deleteScopeSpecific (c := (tlvAt offset _ value).children) hvalue
    (fun hne => rereads_integer (hscope hne) (by decide)) not_not.mp ?_ ?_
  · exact lacks_unless hnames (by decide) <| lacks_optM hdomain (by decide) lacks_nil
  intro scope' c hc hscope'
  refine gets_unless [] hc (fun _ => hnames) (fun hempty => by simpa using hempty) ?_ ?_
  · exact lacks_optM hdomain (by decide) lacks_nil
  intro names' c hc hnames'
  refine gets_optional hc hdomain lacks_nil fun domain' _ _ hdomain' => gets_ok ?_
  rw [hscope', hnames', eq_of_rel hdomain']

theorem fileOpen_rereads {name : FileName} {position : Nat}
    (hname : Reads (fun t => FileName.parse t limits) name)
    (hposition : Reads Tlv.unsignedLenientU32 position) :
    Rereads (fileOpen name position).encode (svc serviceFileOpen)
      (fun t => ConfirmedRequest.parse t limits)
      (fun r => r.unplaced = (fileOpen name position).unplaced) := by
  refine rereads_constructed (by decide) fun value offset hvalue => ?_
  refine gets_required (c := (tlvAt offset _ value).children) hvalue
    (fileName_rereads hname (by decide)) ?_
  rintro _ c hc rfl
  refine gets_required hc (rereads_unsigned hposition (by decide)) ?_
  rintro _ c _ rfl
  exact gets_ok rfl

theorem fileDirectory_rereads {specification continueAfter : Option FileName}
    (hspecification : ∀ n, specification = some n → Reads (fun t => FileName.parse t limits) n)
    (hafter : ∀ n, continueAfter = some n → Reads (fun t => FileName.parse t limits) n) :
    Rereads (fileDirectory specification continueAfter).encode (svc serviceFileDirectory)
      (fun t => ConfirmedRequest.parse t limits)
      (fun r => r.unplaced = (fileDirectory specification continueAfter).unplaced) := by
  have hname := fun n hn => fileName_rereads (hspecification n hn) (by decide : (svc 0).number ≤ _)
  have hnext := fun n hn => fileName_rereads (hafter n hn) (by decide : (svc 1).number ≤ _)
  refine rereads_constructed (by decide) fun value offset hvalue => ?_
  refine gets_optional (c := (tlvAt offset _ value).children) hvalue hname
    (lacks_optM hnext (by decide) lacks_nil) ?_
  intro specification' c hc hspecification'
  refine gets_optional hc hnext lacks_nil fun after' _ _ hafter' => gets_ok ?_
  rw [eq_of_rel hspecification', eq_of_rel hafter']

/-- A service of another number is kept whole. -/
theorem other_rereads {t : Tlv} (hnumber : t.tag.number ≤ u32Max) (hcls : t.tag.cls = .context)
    (hother : t.tag.number ∉ serviceNumbers) :
    Rereads (ConfirmedRequest.other t).encode t.tag (fun t => ConfirmedRequest.parse t limits)
      (fun r => r.unplaced = (ConfirmedRequest.other t).unplaced) := by
  refine rereads_primitive hnumber fun offset => ?_
  unfold ConfirmedRequest.parse
  rw [tlvAt_tag, if_neg (not_not.mpr hcls)]
  split
  case h_17 => exact gets_ok rfl
  all_goals exact absurd (by rw [‹t.tag.number = _›]; decide) hother

end Services

theorem rereads {limits : Limits} {r : ConfirmedRequest}
    (h : Reads (fun t => ConfirmedRequest.parse t limits) r) :
    Rereads r.encode r.tag (fun t => ConfirmedRequest.parse t limits)
      (fun r' => r'.unplaced = r.unplaced) := by
  have hread := wasRead h
  cases r with
  | status extendedDerivation =>
    have hw : Rereads (Ber.boolean (Tag.context serviceStatus) extendedDerivation) _ _ _ :=
      rereads_boolean (by decide)
    exact hw.map (fun _ _ => rfl) (by rintro _ rfl; rfl)
  | getCapabilityList continueAfter =>
    refine rereads_constructed (by decide) fun value offset hvalue => ?_
    refine gets_optional (c := (tlvAt offset _ value).children) (concatM_single.mpr hvalue)
      (fun s _ => rereads_visibleString (by decide)) lacks_nil ?_
    intro after _ _ hafter
    rw [eq_of_rel hafter]
    exact gets_ok rfl
  | getNameList objectClass scope continueAfter => exact getNameList_rereads hread.1 hread.2
  | identify => exact rereads_primitive (by decide) fun offset => gets_ok rfl
  | read spec access => exact read_rereads hread
  | write access values => exact write_rereads hread.1 hread.2.1 hread.2.2
  | getNamedVariableListAttributes name =>
    have hw : Rereads (constructed (svc serviceGetNvlAttributes) name.write) _ _ _ :=
      rereads_firstChild name.rereads (by decide)
    exact hw.bind (fun _ _ => rfl) fun child hchild =>
      gets_map hchild.2 (by rintro _ rfl; rfl)
  | getVariableAccessAttributes name =>
    refine rereads_constructed (by decide) fun value offset hvalue => ?_
    refine gets_required (c := (tlvAt offset _ value).children) (concatM_single.mpr hvalue)
      (rereads_firstChild name.rereads (by decide)) ?_
    intro child _ _ hchild
    exact gets_map hchild.2 (by rintro _ rfl; rfl)
  | defineNamedVariableList name members => exact defineNamedVariableList_rereads hread
  | deleteNamedVariableList scope names domain =>
    exact deleteNamedVariableList_rereads hread.1 hread.2
  | readJournal r =>
    exact (ReadJournal.rereads hread).map (fun _ _ => rfl) (by rintro _ rfl; rfl)
  | fileOpen name position => exact fileOpen_rereads hread.1 hread.2
  | fileRead id =>
    have hw : Rereads (integer (Tag.context serviceFileRead) id) _ _ _ :=
      rereads_integerI32 hread (by decide)
    exact hw.map (fun _ _ => rfl) (by rintro _ rfl; rfl)
  | fileClose id =>
    have hw : Rereads (integer (Tag.context serviceFileClose) id) _ _ _ :=
      rereads_integerI32 hread (by decide)
    exact hw.map (fun _ _ => rfl) (by rintro _ rfl; rfl)
  | fileDelete name =>
    have hw : Rereads (constructed (svc serviceFileDelete) (.ok name)) _ _ _ :=
      fileName_rereads hread (by decide)
    exact hw.map (fun _ _ => rfl) (by rintro _ rfl; rfl)
  | fileDirectory specification continueAfter => exact fileDirectory_rereads hread.1 hread.2
  | other t => exact other_rereads hread.1 hread.2.1 hread.2.2

end ConfirmedRequest

end Iec61850.Mms
