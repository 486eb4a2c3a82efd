import Iec61850.Common.DataEncoder
import Iec61850.Mms.Services
import Iec61850.Server.Reference

/-!
# What the services of a client address

The services of `client/mod.rs` and `client/sg.rs` that take references, each as the requests it
builds from them, and what those requests address. A reference with an index in it is a variable
and a selection inside the variable, and only some of the services carry both.
-/

namespace Iec61850.Client

open Theory Ber Mms Server

/-! ### The requests -/

/-- `VariableSpecification::of`. -/
def specificationOf (name : ObjectName) (access : List Selector) : VariableSpecification :=
  if access.isEmpty then .name name else .element name access

structure Addressed where
  domain : Bytes
  item : Bytes
  access : List Selector
  deriving DecidableEq, Repr

namespace Addressed

def of (reference : Bytes) (fc : Fc) : Except Error Addressed := do
  let parsed ← ObjectReference.parse reference
  let (domain, item) := parsed.toMms fc
  .ok ⟨domain, item, parsed.selection⟩

def all (references : List (Bytes × Fc)) : Except Error (List Addressed) :=
  references.mapM fun (reference, fc) => of reference fc

def spec (a : Addressed) : VariableSpecification :=
  specificationOf (.domainSpecific a.domain a.item) a.access

end Addressed

/-- The first element of what has been encoded. -/
def elementOf (encoded : Bytes) : Except Error Tlv := do
  let (element, _) ← (Cursor.new encoded).nextRequired
  .ok element

/-- The element a value is written as. -/
def encodedElement (value : Value) : Except Error Tlv := do
  let encoded ← Value.encodeAll [value]
  elementOf encoded

/-- The request of `Client::read`. -/
def readRequest (reference : Bytes) (fc : Fc) : Except Error ConfirmedRequest := do
  let addressed ← Addressed.of reference fc
  .ok (.read false (.listOfVariable [addressed.spec]))

/-- The request of `Client::read_many` and of `Client::read_many_results`. -/
def readManyRequest (references : List (Bytes × Fc)) : Except Error ConfirmedRequest := do
  let items ← Addressed.all references
  .ok (.read false (.listOfVariable (items.map Addressed.spec)))

/-- The request of `Client::write`. -/
def writeRequest (reference : Bytes) (fc : Fc) (value : Value) : Except Error ConfirmedRequest := do
  let addressed ← Addressed.of reference fc
  let element ← encodedElement value
  .ok (.write (.listOfVariable [addressed.spec]) [element])

/-- The request of `Client::write_edit_setting`. -/
def writeEditSettingRequest (setting : Bytes) (value : Value) : Except Error ConfirmedRequest :=
  writeRequest setting .se value

/-- The request of `Client::variable_type`. -/
def variableTypeRequest (reference : Bytes) (fc : Fc) : Except Error ConfirmedRequest := do
  let parsed ← ObjectReference.parse reference
  let (domain, item) := parsed.toMms fc
  .ok (.getVariableAccessAttributes (.domainSpecific domain item))

def splitDataSet (name : Bytes) : Except Error (Bytes × Bytes) :=
  match splitOnce slash name with
  | none => .error (.invalidReference "a data set is `LD/LN$dsName`")
  | some (ld, rest) =>
    if ld = [] ∨ rest = [] then .error (.invalidReference "a data set is `LD/LN$dsName`")
    else .ok (ld, rest.map fun b => if b = dot then sep else b)

/-- A member of the request of `Client::create_data_set`. -/
def dataSetMember (member : Bytes × Fc) : Except Error VariableSpecification := do
  let parsed ← ObjectReference.parse member.1
  let (domain, item) := parsed.toMms member.2
  .ok (.name (.domainSpecific domain item))

/-- The request of `Client::create_data_set`. -/
def createDataSetRequest (name : Bytes) (members : List (Bytes × Fc)) :
    Except Error ConfirmedRequest := do
  let (ld, item) ← splitDataSet name
  let listed ← members.mapM dataSetMember
  .ok (.defineNamedVariableList (.domainSpecific ld item) listed)

/-- One value of `Client::write_many`. -/
def writeItem (w : Bytes × Value) : Except Error (Addressed × Bytes) := do
  let parsed ← ObjectReference.parse w.1
  match parsed.fc with
  | none => .error (.invalidReference "a write needs a functional constraint")
  | some fc => do
      let addressed ← Addressed.of w.1 fc
      let encoded ← Value.encodeAll [w.2]
      .ok (addressed, encoded)

/-- The request of `Client::write_many`. -/
def writeManyRequest (writes : List (Bytes × Value)) : Except Error ConfirmedRequest := do
  let items ← writes.mapM writeItem
  let elements ← items.mapM fun item => elementOf item.2
  .ok (.write (.listOfVariable (items.map fun item => item.1.spec)) elements)

/-- A round of the loop of `Client::edit_setting_group`. -/
def editedSetting (setting : Bytes × Value) : Except Error (Bytes × Value) := do
  let parsed ← ObjectReference.parse setting.1
  let (domain, item) := parsed.toMms .se
  .ok (domain ++ slash :: item, setting.2)

/-- The writes of `Client::edit_setting_group`. -/
def editedSettings (settings : List (Bytes × Value)) : Except Error (List (Bytes × Value)) :=
  settings.mapM editedSetting

/-- The request `Client::edit_setting_group` writes the settings with; without settings there is
none. -/
def editSettingsRequest (settings : List (Bytes × Value)) :
    Except Error (Option ConfirmedRequest) := do
  let writes ← editedSettings settings
  if writes.isEmpty then .ok none
  else do
    let request ← writeManyRequest writes
    .ok (some request)

/-! ### The services -/

/-- A service that takes references. -/
inductive Service where
  | read (reference : Bytes) (fc : Fc)
  | readMany (references : List (Bytes × Fc))
  | write (reference : Bytes) (fc : Fc) (value : Value)
  | variableType (reference : Bytes) (fc : Fc)
  | createDataSet (name : Bytes) (members : List (Bytes × Fc))
  | editSettingGroup (settings : List (Bytes × Value))
  | writeEditSetting (setting : Bytes) (value : Value)

namespace Service

/-- The request the references of a service travel in. -/
def request : Service → Except Error (Option ConfirmedRequest)
  | read reference fc => some <$> readRequest reference fc
  | readMany references => some <$> readManyRequest references
  | write reference fc value => some <$> writeRequest reference fc value
  | variableType reference fc => some <$> variableTypeRequest reference fc
  | createDataSet name members => some <$> createDataSetRequest name members
  | editSettingGroup settings => editSettingsRequest settings
  | writeEditSetting setting value => some <$> writeEditSettingRequest setting value

/-- The references a service was given, each with the constraint it is to be read under. -/
def references : Service → List (Bytes × Fc)
  | read reference fc | write reference fc _ | variableType reference fc => [(reference, fc)]
  | readMany references => references
  | createDataSet _ members => members
  | editSettingGroup settings => settings.map fun setting => (setting.1, .se)
  | writeEditSetting setting _ => [(setting, .se)]

end Service

/-- What a reference names. -/
def namedElement (reference : Bytes × Fc) : Option Element :=
  match ObjectReference.parse reference.1 with
  | .error _ => none
  | .ok r => some (r.element reference.2)

/-- What a request addresses. -/
def addressedElements : Option ConfirmedRequest → List (Option Element)
  | some (.read _ (.listOfVariable items)) => items.map specifiedElement
  | some (.write (.listOfVariable items) _) => items.map specifiedElement
  | some (.getVariableAccessAttributes name) => [specifiedElement (.name name)]
  | some (.defineNamedVariableList _ members) => members.map specifiedElement
  | _ => []

/-- The request of a service, if it makes one, addresses what the references name. -/
def Service.Exact (s : Service) : Prop :=
  ∀ request, s.request = .ok request →
    addressedElements request = s.references.map namedElement

/-- No component of a reference carries an index. -/
def Unindexed (reference : Bytes) : Prop :=
  ∀ r, ObjectReference.parse reference = .ok r → ∀ s ∈ r.parts, s.index = none

/-- The service carries a selection beside a name, refuses the references for what they are, or was
given none with an index. -/
def Service.Addressable : Service → Prop
  | read .. | readMany _ | write .. | writeEditSetting .. => True
  | variableType reference _ => Unindexed reference
  | createDataSet name members =>
    (∃ split, splitDataSet name = .ok split) →
      (∀ m ∈ members, ∃ r, ObjectReference.parse m.1 = .ok r) → ∀ m ∈ members, Unindexed m.1
  | editSettingGroup settings =>
    (∀ s ∈ settings, ∃ r, ObjectReference.parse s.1 = .ok r) →
      (∀ s ∈ settings, ∃ element, encodedElement s.2 = .ok element) →
        ∀ s ∈ settings, Unindexed s.1

/-! ### One reference -/

theorem specifiedElement_of (domain item : Bytes) (access : List Selector) :
    specifiedElement (specificationOf (.domainSpecific domain item) access) =
      (variableElement domain item).map fun e => { e with selectors := e.selectors ++ access } := by
  unfold specificationOf
  split
  case isTrue hnil =>
    rw [List.isEmpty_iff.mp hnil, specifiedElement]
    simp
  case isFalse => rfl

variable {reference : Bytes} {fc : Fc} {request : ConfirmedRequest} {write : Bytes × Value}

theorem Addressed.of_exact {a : Addressed} (h : Addressed.of reference fc = .ok a) :
    specifiedElement a.spec = namedElement (reference, fc) := by
  obtain ⟨r, hr, ha⟩ := bind_ok h
  cases ha
  change specifiedElement (specificationOf (.domainSpecific (r.toMms fc).1 (r.toMms fc).2)
    r.selection) = _
  rw [specifiedElement_of, (ObjectReference.parse_named hr).variableElement, namedElement, hr]
  dsimp only [Option.map]
  rw [ObjectReference.names_selection]
  rfl

/-- The name alone does when there is nothing to select. -/
theorem name_exact_iff {reference : Bytes} {fc : Fc} {r : ObjectReference}
    (hr : ObjectReference.parse reference = .ok r) :
    specifiedElement (.name (.domainSpecific (r.toMms fc).1 (r.toMms fc).2)) =
      namedElement (reference, fc) ↔ Unindexed reference := by
  have hunindexed : Unindexed reference ↔ r.selection = [] := by
    rw [ObjectReference.selection_eq_nil]
    constructor
    · intro h
      exact h r hr
    · intro h r' hr'
      rw [hr] at hr'
      cases hr'
      exact h
  rw [hunindexed, specifiedElement, (ObjectReference.parse_named hr).variableElement, namedElement,
    hr]
  dsimp only [ObjectReference.element]
  rw [Option.some.injEq, Element.mk.injEq, ← ObjectReference.names_selection]
  simp

/-! ### The services that carry the selection -/

theorem readRequest_exact (h : readRequest reference fc = .ok request) :
    addressedElements (some request) = [namedElement (reference, fc)] := by
  obtain ⟨a, ha, hrequest⟩ := bind_ok h
  cases hrequest
  simp [addressedElements, Addressed.of_exact ha]

theorem writeRequest_exact {value : Value} (h : writeRequest reference fc value = .ok request) :
    addressedElements (some request) = [namedElement (reference, fc)] := by
  obtain ⟨a, ha, hvalue⟩ := bind_ok h
  obtain ⟨element, -, hrequest⟩ := bind_ok hvalue
  cases hrequest
  simp [addressedElements, Addressed.of_exact ha]

theorem readManyRequest_exact {references : List (Bytes × Fc)}
    (h : readManyRequest references = .ok request) :
    addressedElements (some request) = references.map namedElement := by
  obtain ⟨items, hitems, hrequest⟩ := bind_ok h
  cases hrequest
  rw [addressedElements, List.map_map]
  refine (map_eq_iff_of_forall₂ (mapM_ok_iff.mp hitems) ?_).mpr fun _ _ => trivial
  intro reference a ha
  exact iff_of_true (Addressed.of_exact ha) trivial

/-! ### The services that do not -/

theorem variableTypeRequest_exact_iff : (∀ request, variableTypeRequest reference fc = .ok request →
      addressedElements (some request) = [namedElement (reference, fc)]) ↔ Unindexed reference := by
  cases hr : ObjectReference.parse reference with
  | error e =>
    constructor
    · intro _ r hr'
      rw [hr] at hr'
      cases hr'
    · intro _ request h
      rw [variableTypeRequest, hr] at h
      cases h
  | ok r =>
    have hrequest : variableTypeRequest reference fc =
        .ok (.getVariableAccessAttributes (.domainSpecific (r.toMms fc).1 (r.toMms fc).2)) := by
      rw [variableTypeRequest, hr]
      rfl
    rw [hrequest, ← @name_exact_iff _ fc r hr]
    simp [addressedElements]

theorem dataSetMember_ok {member : Bytes × Fc} {spec : VariableSpecification}
    (h : dataSetMember member = .ok spec) :
    specifiedElement spec = namedElement member ↔ Unindexed member.1 := by
  obtain ⟨r, hr, hspec⟩ := bind_ok h
  cases hspec
  exact name_exact_iff hr

variable {name : Bytes} {members : List (Bytes × Fc)} {setting : Bytes × Value}
  {writes : List (Bytes × Value)}

theorem createDataSetRequest_ok (h : createDataSetRequest name members = .ok request) :
    addressedElements (some request) = members.map namedElement ↔ ∀ m ∈ members, Unindexed m.1 := by
  obtain ⟨split, -, hmembers⟩ := bind_ok h
  obtain ⟨listed, hlisted, hrequest⟩ := bind_ok hmembers
  cases hrequest
  rw [addressedElements]
  exact map_eq_iff_of_forall₂ (mapM_ok_iff.mp hlisted) fun _ _ hm => dataSetMember_ok hm

/-- The request is made exactly when the name and the members are read. -/
theorem createDataSetRequest_isOk : (∃ request, createDataSetRequest name members = .ok request) ↔
      (∃ split, splitDataSet name = .ok split) ∧
        ∀ m ∈ members, ∃ r, ObjectReference.parse m.1 = .ok r := by
  constructor
  · rintro ⟨request, h⟩
    obtain ⟨split, hsplit, hmembers⟩ := bind_ok h
    obtain ⟨listed, hlisted, -⟩ := bind_ok hmembers
    refine ⟨⟨split, hsplit⟩, ?_⟩
    intro m hm
    obtain ⟨spec, -, hspec⟩ := exists_of_mapM hlisted hm
    obtain ⟨r, hr, -⟩ := bind_ok hspec
    exact ⟨r, hr⟩
  · rintro ⟨⟨split, hsplit⟩, hparse⟩
    have heach : ∀ m ∈ members, ∃ spec, dataSetMember m = .ok spec := by
      intro m hm
      obtain ⟨r, hr⟩ := hparse m hm
      exact ⟨_, by rw [dataSetMember, hr]; rfl⟩
    obtain ⟨listed, hlisted⟩ := exists_mapM heach
    exact ⟨_, by rw [createDataSetRequest, hsplit]; dsimp only [bind, Except.bind]; rw [hlisted]⟩

/-! ### The settings of a group -/

/-- The text of a variable is read back as the variable, with nothing to select. -/
theorem Addressed.of_text {r : ObjectReference} (hr : ObjectReference.parse reference = .ok r)
    (fc : Fc) :
    ∃ text, ObjectReference.parse ((r.toMms fc).1 ++ slash :: (r.toMms fc).2) = .ok text ∧
      text.fc = some (r.fc.getD fc) ∧
      ∀ fc', Addressed.of ((r.toMms fc).1 ++ slash :: (r.toMms fc).2) fc' =
        .ok ⟨(r.toMms fc).1, (r.toMms fc).2, []⟩ := by
  have hnamed := ObjectReference.parse_named hr
  have htext := ObjectReference.parse_mms hnamed.ld hnamed.ln (r.fc.getD fc) hnamed.names
  refine ⟨_, htext, rfl, ?_⟩
  intro fc'
  have hselection := (ObjectReference.selection_eq_nil _).mpr
    (@ObjectReference.unindexed_joined r.ld r.ln (some (r.fc.getD fc)) _ hnamed.names)
  have hmms : (⟨r.ld, r.ln, some (r.fc.getD fc), ObjectReference.joined r.names⟩ :
      ObjectReference).toMms fc' = r.toMms fc := by
    rw [ObjectReference.toMms, ObjectReference.toMmsUnder,
      ObjectReference.names_joined hnamed.names]
    rfl
  rw [Addressed.of, ObjectReference.toMms, ObjectReference.toMmsUnder, htext]
  dsimp only [bind, Except.bind]
  rw [hmms, hselection]
  rfl

/-- What is written for a setting, and how. -/
theorem editedSetting_ok (h : editedSetting setting = .ok write) :
    ∃ r, ObjectReference.parse setting.1 = .ok r ∧ write.2 = setting.2 ∧
      ∀ item, writeItem write = .ok item →
        item.1.spec = .name (.domainSpecific (r.toMms .se).1 (r.toMms .se).2) := by
  obtain ⟨r, hr, hwrite⟩ := bind_ok h
  cases hwrite
  refine ⟨r, hr, rfl, ?_⟩
  intro item hitem
  obtain ⟨text, htext, hfc, hof⟩ := Addressed.of_text hr .se
  obtain ⟨text', htext', hitem⟩ := bind_ok hitem
  cases htext.symm.trans htext'
  rw [hfc] at hitem
  obtain ⟨a, ha, hitem⟩ := bind_ok hitem
  obtain ⟨encoded, -, hitem⟩ := bind_ok hitem
  cases hitem
  cases (hof _).symm.trans ha
  rfl

/-- A setting whose value can be encoded is written. -/
theorem exists_writeItem (h : editedSetting setting = .ok write) {element : Tlv}
    (helement : encodedElement setting.2 = .ok element) :
    ∃ item, writeItem write = .ok item ∧ elementOf item.2 = .ok element := by
  obtain ⟨r, hr, hwrite⟩ := bind_ok h
  obtain ⟨text, htext, hfc, hof⟩ := Addressed.of_text hr .se
  obtain ⟨encoded, hencoded, hone⟩ := bind_ok helement
  cases hwrite
  refine ⟨(⟨(r.toMms .se).1, (r.toMms .se).2, []⟩, encoded), ?_, hone⟩
  have hitem : writeItem ((r.toMms .se).1 ++ slash :: (r.toMms .se).2, setting.2) =
      .ok (⟨(r.toMms .se).1, (r.toMms .se).2, []⟩, encoded) := by
    rw [writeItem]
    dsimp only
    rw [htext]
    dsimp only [bind, Except.bind]
    rw [hfc]
    dsimp only
    rw [hof, hencoded]
  exact hitem

theorem writeManyRequest_ok (h : writeManyRequest writes = .ok request) :
    ∃ items, writes.mapM writeItem = .ok items ∧
      addressedElements (some request) = items.map fun item => specifiedElement item.1.spec := by
  obtain ⟨items, hitems, helements⟩ := bind_ok h
  obtain ⟨elements, -, hrequest⟩ := bind_ok helements
  cases hrequest
  exact ⟨items, hitems, by rw [addressedElements, List.map_map]; rfl⟩

theorem editSettingsRequest_ok {settings : List (Bytes × Value)}
    {request : Option ConfirmedRequest} (h : editSettingsRequest settings = .ok request) :
    addressedElements request = settings.map (fun setting => namedElement (setting.1, .se)) ↔
      ∀ setting ∈ settings, Unindexed setting.1 := by
  obtain ⟨writes, hwrites, hrequest⟩ := bind_ok h
  have hsettings := mapM_ok_iff.mp hwrites
  split at hrequest
  case isTrue hempty =>
    cases hrequest
    rw [List.isEmpty_iff.mp hempty, List.forall₂_nil_right_iff] at hsettings
    rw [hsettings]
    simp [addressedElements]
  case isFalse =>
    obtain ⟨written, hwritten, hrequest⟩ := bind_ok hrequest
    cases hrequest
    obtain ⟨items, hitems, heq⟩ := writeManyRequest_ok hwritten
    rw [heq]
    have hboth := forall₂_comp hsettings (mapM_ok_iff.mp hitems)
    refine map_eq_iff_of_forall₂ hboth ?_
    intro setting item hitem
    obtain ⟨write, hwrite, hitem⟩ := bind_ok hitem
    obtain ⟨r, hr, -, hspec⟩ := editedSetting_ok hwrite
    rw [hspec item hitem]
    exact name_exact_iff hr

theorem encodedElement_of_writeItem {item : Addressed × Bytes} (h : writeItem write = .ok item) :
    encodedElement write.2 = elementOf item.2 := by
  obtain ⟨text, -, hitem⟩ := bind_ok h
  split at hitem
  case h_1 => cases hitem
  case h_2 =>
    obtain ⟨a, -, hitem⟩ := bind_ok hitem
    obtain ⟨encoded, hencoded, hitem⟩ := bind_ok hitem
    cases hitem
    rw [encodedElement, hencoded]
    rfl

theorem exists_encodedElement (h : writeManyRequest writes = .ok request) (hwrite : write ∈ writes) :
    ∃ element, encodedElement write.2 = .ok element := by
  obtain ⟨items, hitems, helements⟩ := bind_ok h
  obtain ⟨elements, helements, -⟩ := bind_ok helements
  have hboth := mapM_ok_iff.mpr (forall₂_comp (mapM_ok_iff.mp hitems) (mapM_ok_iff.mp helements))
  obtain ⟨element, -, helement⟩ := exists_of_mapM hboth hwrite
  obtain ⟨item, hitem, helement⟩ := bind_ok helement
  exact ⟨element, (encodedElement_of_writeItem hitem).trans helement⟩

/-- The request is made exactly when the references are read and the values encoded. -/
theorem editSettingsRequest_isOk {settings : List (Bytes × Value)} :
    (∃ request, editSettingsRequest settings = .ok request) ↔
      (∀ s ∈ settings, ∃ r, ObjectReference.parse s.1 = .ok r) ∧
        ∀ s ∈ settings, ∃ element, encodedElement s.2 = .ok element := by
  constructor
  · rintro ⟨request, h⟩
    obtain ⟨writes, hwrites, hrequest⟩ := bind_ok h
    refine ⟨?_, ?_⟩
    · intro s hs
      obtain ⟨write, -, hwrite⟩ := exists_of_mapM hwrites hs
      obtain ⟨r, hr, -⟩ := bind_ok hwrite
      exact ⟨r, hr⟩
    · intro s hs
      obtain ⟨write, hmem, hwrite⟩ := exists_of_mapM hwrites hs
      obtain ⟨-, -, hvalue, -⟩ := editedSetting_ok hwrite
      split at hrequest
      case isTrue hempty =>
        rw [List.isEmpty_iff.mp hempty] at hmem
        cases hmem
      case isFalse =>
        obtain ⟨written, hwritten, -⟩ := bind_ok hrequest
        rw [← hvalue]
        exact exists_encodedElement hwritten hmem
  · rintro ⟨hparse, hencode⟩
    have hedit : ∀ s ∈ settings, ∃ write, editedSetting s = .ok write := by
      intro s hs
      obtain ⟨r, hr⟩ := hparse s hs
      exact ⟨_, by rw [editedSetting, hr]; rfl⟩
    obtain ⟨writes, hwrites⟩ := exists_mapM hedit
    have hitem : ∀ write ∈ writes, ∃ item, writeItem write = .ok item ∧
        ∃ element, elementOf item.2 = .ok element := by
      intro write hwrite
      obtain ⟨s, hs, hsetting⟩ := mem_of_mapM hwrites hwrite
      obtain ⟨element, helement⟩ := hencode s hs
      obtain ⟨item, hitem, hone⟩ := exists_writeItem hsetting helement
      exact ⟨item, hitem, element, hone⟩
    obtain ⟨items, hitems⟩ := exists_mapM fun write hwrite => (hitem write hwrite).imp fun _ h => h.1
    have helement : ∀ item ∈ items, ∃ element, elementOf item.2 = .ok element := by
      intro item hmem
      obtain ⟨write, hwrite, hone⟩ := mem_of_mapM hitems hmem
      obtain ⟨item', hitem', helement⟩ := hitem write hwrite
      cases hone.symm.trans hitem'
      exact helement
    obtain ⟨elements, helements⟩ := exists_mapM helement
    rw [editSettingsRequest, editedSettings, hwrites]
    dsimp only [bind, Except.bind]
    split
    case isTrue => exact ⟨none, rfl⟩
    case isFalse =>
      rw [writeManyRequest, hitems]
      dsimp only [bind, Except.bind]
      rw [helements]
      exact ⟨_, rfl⟩

/-! ### Every service -/

theorem exact_some {s : Service} {request : Except Error ConfirmedRequest}
    (h : s.request = some <$> request) : s.Exact ↔ ∀ made, request = .ok made →
      addressedElements (some made) = s.references.map namedElement := by
  rw [Service.Exact, h]
  cases request with
  | error e => simp [Functor.map, Except.map]
  | ok made => simp [Functor.map, Except.map]

/-- The request of a service addresses what its references name if and only if the service carries
selections, or refuses the references, or was given none with an index. -/
theorem exact_iff (s : Service) : s.Exact ↔ s.Addressable := by
  cases s with
  | read reference fc =>
    rw [exact_some rfl]
    exact iff_of_true (fun _ h => readRequest_exact h) trivial
  | readMany references =>
    rw [exact_some rfl]
    exact iff_of_true (fun _ h => readManyRequest_exact h) trivial
  | write reference fc value =>
    rw [exact_some rfl]
    exact iff_of_true (fun _ h => writeRequest_exact h) trivial
  | variableType reference fc =>
    rw [exact_some rfl]
    exact variableTypeRequest_exact_iff
  | createDataSet name members =>
    rw [exact_some rfl]
    constructor
    · intro h hsplit hparse
      obtain ⟨made, hmade⟩ := createDataSetRequest_isOk.mpr ⟨hsplit, hparse⟩
      exact (createDataSetRequest_ok hmade).mp (h made hmade)
    · intro h made hmade
      obtain ⟨hsplit, hparse⟩ := createDataSetRequest_isOk.mp ⟨made, hmade⟩
      exact (createDataSetRequest_ok hmade).mpr (h hsplit hparse)
  | editSettingGroup settings =>
    have hreferences : (Service.editSettingGroup settings).references.map namedElement =
        settings.map fun setting => namedElement (setting.1, .se) := by
      rw [Service.references, List.map_map]
      rfl
    rw [Service.Exact, hreferences]
    constructor
    · intro h hparse hencode
      obtain ⟨made, hmade⟩ := editSettingsRequest_isOk.mpr ⟨hparse, hencode⟩
      exact (editSettingsRequest_ok hmade).mp (h made hmade)
    · intro h made hmade
      obtain ⟨hparse, hencode⟩ := editSettingsRequest_isOk.mp ⟨made, hmade⟩
      exact (editSettingsRequest_ok hmade).mpr (h hparse hencode)
  | writeEditSetting setting value =>
    rw [exact_some rfl]
    exact iff_of_true (fun _ h => writeRequest_exact h) trivial

/-- The type of one element of an array is asked for, and the array is what the request names. -/
theorem widened : ¬ ∀ s : Service, s.Exact := by
  intro hall
  have h := hall (.variableType (ascii "LD/MHAI1.HA.phsAHar(2).cVal") .mx) _ rfl
  revert h
  decide +kernel

end Iec61850.Client
