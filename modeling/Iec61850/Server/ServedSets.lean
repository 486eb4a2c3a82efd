import Iec61850.Server.DataSets
import Iec61850.Server.ItemNames
import Iec61850.Server.MemberNames

/-!
# Data sets and the variables they name

The data sets of a server beside its variables: how `server/ied.rs` makes them from the file, and
how `server/acsi.rs` lists, reads and creates them. A member is kept as a text, which the server
resolves as it resolves the name and the selection that come in a request.
-/

namespace Iec61850.Server

open Theory Mms

def dataAccessUnsupported : Int := 9

/-! ### The served model -/

mutual

def collectLeaves (domain : Bytes) : Bytes → Variable → List Bytes
  | item, ⟨_, .leaf _, _⟩ => [referenceOf domain item]
  | item, ⟨_, .struct, children⟩ => collectComponents domain item children
  | item, ⟨_, .array n, element :: _⟩ =>
    (List.range n).flatMap fun i => collectLeaves domain (item ++ indexText i) element
  | _, ⟨_, .array _, []⟩ => []

def collectComponents (domain : Bytes) : Bytes → List Variable → List Bytes
  | _, [] => []
  | item, c :: cs =>
    collectLeaves domain (item ++ sep :: c.name) c ++ collectComponents domain item cs

end

/-- `Ied::leaves_of`. -/
def ValueStore.leavesOf (s : ValueStore) (reference : Bytes) : List Bytes :=
  match splitOnce slash reference with
  | none => []
  | some (domain, item) =>
    match (s.domain domain).bind fun d => d.resolve item with
    | none => []
    | some node => collectLeaves domain item node

/-- A device with a setting group control block (`Groups`). -/
structure SettingDevice where
  domain : Bytes
  block : Bytes

/-- `Acsi`, as far as the data sets and the reads go, with the limits of the association. -/
structure ServedIed where
  store : ValueStore
  dataSets : DataSets
  devices : List SettingDevice
  maxCreated : Nat
  limits : Limits

namespace DataSets

variable (d : DataSets)

/-- A data set put into the map, in the place of one of the same name. -/
def insert (ds : ServedDataSet) : DataSets where
  sets := (d.remove ds.reference).sets ++ [ds]
  unique := by
    rw [List.map_append, List.nodup_append]
    refine ⟨(d.remove ds.reference).unique, List.nodup_singleton _, ?_⟩
    intro r hr r' hr' heq
    rw [List.map_singleton, List.mem_singleton] at hr'
    obtain ⟨x, hx, rfl⟩ := List.mem_map.mp hr
    have hne := (List.mem_filter.mp hx).2
    rw [decide_eq_true_eq] at hne
    exact hne (heq.trans hr')

theorem mem_insert {ds x : ServedDataSet} (h : x ∈ (d.insert ds).sets) : x ∈ d.sets ∨ x = ds := by
  rcases List.mem_append.mp h with h | h
  · exact Or.inl (List.mem_filter.mp h).1
  · exact Or.inr (List.mem_singleton.mp h)

end DataSets

/-- The data sets of the file, as `Ied::seed_data_sets` makes them. -/
def engineeredSets (m : IedModel) (leavesOf : Bytes → List Bytes) : List ServedDataSet :=
  m.logicalDevices.flatMap fun ld => ld.nodes.flatMap fun ln => ln.dataSets.map fun ds =>
    ⟨referenceOf ld.name (ln.name ++ sep :: ds.name),
      ds.members.map fun fcda =>
        ⟨m.fcdaReference ld.name fcda, leavesOf (m.fcdaReference ld.name fcda)⟩, false⟩

/-- `Ied::seed_data_sets`. -/
def seedDataSets (m : IedModel) (leavesOf : Bytes → List Bytes) : DataSets :=
  (engineeredSets m leavesOf).foldl DataSets.insert ⟨[], List.nodup_nil⟩

theorem mem_seedDataSets {m : IedModel} {leavesOf : Bytes → List Bytes} {ds : ServedDataSet}
    (h : ds ∈ (seedDataSets m leavesOf).sets) : ds ∈ engineeredSets m leavesOf := by
  have hfold : ∀ (l : List ServedDataSet) (d : DataSets), ds ∈ (l.foldl DataSets.insert d).sets →
      ds ∈ d.sets ∨ ds ∈ l := by
    intro l
    induction l with
    | nil => exact fun d h => Or.inl h
    | cons x l ih =>
      intro d h
      rcases ih (d.insert x) h with hd | hl
      · rcases d.mem_insert hd with hd | rfl
        · exact Or.inl hd
        · exact Or.inr List.mem_cons_self
      · exact Or.inr (List.mem_cons_of_mem _ hl)
  rcases hfold _ _ h with hnil | hmem
  · cases hnil
  · exact hmem

/-! ### Reading -/

/-- `str::rsplit_once`, at an octet. -/
def rsplitOnce (at' : UInt8) (bs : Bytes) : Option (Bytes × Bytes) :=
  (splitOnce at' bs.reverse).map fun (after, before) => (before.reverse, after.reverse)

/-- The object that a read of the reference selects, when it is a select (`select_reference`). -/
def selectedObject (reference : Bytes) : Option Bytes :=
  match rsplitOnce sep reference with
  | some (object, last) => if last = ascii "SBO" then some object else none
  | none => none

/-- What an item of a variable access addresses (`access_names`). -/
def accessName : VariableSpecification → Except Int Bytes
  | .name (.domainSpecific domain item) => .ok (fullReference domain item)
  | .element (.domainSpecific domain item) access =>
    match itemWith item access with
    | some path => .ok (fullReference domain path)
    | none => .error dataAccessUnsupported
  | _ => .error dataAccessNonExistent

namespace ServedIed

variable (s : ServedIed)

/-- What the data set services read of the model. -/
def tree : ServedTree :=
  ⟨fun domain => (s.store.domain domain).isSome, fun reference => (s.store.nodeAt reference).isSome,
    s.store.leavesOf, s.maxCreated⟩

/-- `Acsi::access_names`. -/
def accessNames : VariableAccess → Except DataSetAnswer (List (Except Int Bytes))
  | .listOfVariable list => .ok (list.map accessName)
  | .variableListName (.domainSpecific domain item) =>
    match s.dataSets.find (fullReference domain item) with
    | some ds => .ok (ds.references.map .ok)
    | none => .error .notFound
  | .variableListName _ => .error .notFound

/-- The constraint of the variable at a reference: the one it is looked up under. -/
def constraintAt (reference : Bytes) : Option Fc :=
  match s.store.nodeAt reference, splitOnce slash reference with
  | some _, some (_, item) => (splitItem item).2.1
  | _, _ => none

/-- `SettingGroups::on_edit_read`. -/
def onEditRead (reference : Bytes) : Except Int Unit :=
  match splitOnce slash reference with
  | none => .error dataAccessDenied
  | some (domain, _) =>
    match s.devices.find? fun g => g.domain = domain with
    | none => .error dataAccessDenied
    | some g =>
      let group := (s.store.values.lookup (g.block ++ ascii "$EditSG")).bind unsignedOf
      if group.getD 0 = 0 then .error dataAccessDenied else .ok ()

/-- `Acsi::read_reference`. -/
def readReference (reference : Bytes) : Except Int Value :=
  match splitOnce slash reference with
  | none => .error dataAccessNonExistent
  | some (domain, item) => do
      if s.constraintAt reference = some .se then s.onEditRead reference
      match s.store.read domain item with
      | some value => .ok value
      | none => .error dataAccessNonExistent

/-- `Acsi::data_set_attributes`: whether the data set can be deleted, and its members. -/
def dataSetAttributes : ObjectName → Except DataSetAnswer (Bool × List Bytes)
  | .domainSpecific domain item =>
    match s.dataSets.find (fullReference domain item) with
    | some ds => .ok (ds.deletable, ds.references)
    | none => .error .notFound
  | _ => .error .notFound

/-- `Acsi::create_data_set`. -/
def createDataSet (name : ObjectName) (members : List VariableSpecification) :
    ServedIed × DataSetAnswer :=
  let (d, answer) := s.dataSets.createService s.tree name members
  ({ s with dataSets := d }, answer)

/-! ### Reading in a session

A read of `SBO` is a select. `select` is what `Controls::select` answers to the association, and the
server with the selection made and recorded. -/

section Reads

variable (select : ServedIed → Bytes → Value × ServedIed)

/-- One round of the loop of `Acsi::read`. -/
def readItem : Except Int Bytes → Except Int Value × ServedIed
  | .error code => (.error code, s)
  | .ok reference =>
    match selectedObject reference with
    | some object =>
      let (value, s) := select s object
      (.ok value, s)
    | none => (s.readReference reference, s)

/-- The loop of `Acsi::read`. -/
def readItems : ServedIed → List (Except Int Bytes) → List (Except Int Value) × ServedIed
  | s, [] => ([], s)
  | s, name :: names =>
    let (result, s) := s.readItem select name
    let (results, s) := readItems s names
    (result :: results, s)

/-- `Acsi::read`. -/
def read (access : VariableAccess) : Except DataSetAnswer (List (Except Int Value)) × ServedIed :=
  match s.accessNames access with
  | .error answer => (.error answer, s)
  | .ok names =>
    let (results, s) := readItems select s names
    (.ok results, s)

end Reads

end ServedIed

/-- The variables of a list of members in an answer (`Answer::encode`). -/
def listedVariables (members : List Bytes) : List VariableSpecification :=
  members.map fun m =>
    let (domain, item) := (splitOnce slash m).getD ([], m)
    .name (.domainSpecific domain item)

theorem fullReference_eq (domain item : Bytes) :
    fullReference domain item = referenceOf domain item := by
  rw [fullReference, referenceOf, List.append_assoc]
  rfl

/-! ### Creating and deleting -/

namespace DataSets

variable {d : DataSets} {ds : ServedDataSet}

theorem find_of_mem (h : ds ∈ d.sets) : d.find ds.reference = some ds := by
  cases hfind : d.find ds.reference with
  | none => exact absurd (List.mem_map_of_mem h) (d.find_eq_none.mp hfind)
  | some ds' =>
    obtain ⟨hmem, hreference⟩ := mem_of_find hfind
    rw [List.inj_on_of_nodup_map d.unique hmem h hreference]

theorem mem_of_mem_delete {reference : Bytes} (h : ds ∈ (d.delete reference).1.sets) :
    ds ∈ d.sets := by
  rw [delete] at h
  split at h
  · exact h
  · split at h
    · exact (List.mem_filter.mp h).1
    · exact h

theorem mem_of_mem_deleteAll {names : List ObjectName} (h : ds ∈ (d.deleteAll names).1.sets) :
    ds ∈ d.sets := by
  induction names generalizing d with
  | nil => exact h
  | cons name names ih =>
    cases name with
    | domainSpecific domain item => exact mem_of_mem_delete (ih h)
    | vmdSpecific name => exact ih h
    | aaSpecific name => exact ih h

theorem mem_of_mem_deleteService {scope : Int} {names : List ObjectName}
    (h : ds ∈ (d.deleteService scope names).1.sets) : ds ∈ d.sets := by
  rw [deleteService] at h
  split at h
  · exact h
  · exact mem_of_mem_deleteAll h

variable {d : DataSets}

/-- A data set is created when the device is there, there is room, every member names a node, there
is a member, and the name is free; else the map stays and the answer is an error. -/
theorem createService_cases (d : DataSets) (tree : ServedTree) (domain item : Bytes)
    (specs : List VariableSpecification) :
    (∃ refs d', tree.domain domain = true ∧ d.created < tree.maxCreated ∧
        memberReferences tree specs = some refs ∧ refs ≠ [] ∧
        d.create tree.leavesOf (fullReference domain item) refs = .ok d' ∧
        d.createService tree (.domainSpecific domain item) specs = (d', .created)) ∨
      ¬ (tree.domain domain = true ∧ d.created < tree.maxCreated ∧
          (∃ refs, memberReferences tree specs = some refs ∧ refs ≠ []) ∧
          d.find (fullReference domain item) = none) ∧ ∃ cls code,
          d.createService tree (.domainSpecific domain item) specs = (d, .error cls code) := by
  rw [createService]
  by_cases hdomain : tree.domain domain = true
  · by_cases hroom : tree.maxCreated ≤ d.created
    · right
      rw [if_neg (not_not.mpr hdomain), if_pos hroom]
      exact ⟨fun h => absurd h.2.1 (Nat.not_lt.mpr hroom), _, _, rfl⟩
    · rw [if_neg (not_not.mpr hdomain), if_neg hroom]
      cases hrefs : memberReferences tree specs with
      | none =>
        right
        refine ⟨?_, _, _, rfl⟩
        rintro ⟨-, -, ⟨refs, h, -⟩, -⟩
        cases h
      | some refs =>
        cases refs with
        | nil =>
          right
          refine ⟨?_, _, _, rfl⟩
          rintro ⟨-, -, ⟨refs, h, hne⟩, -⟩
          cases h
          exact hne rfl
        | cons first rest =>
          dsimp only
          cases hcreate :
              d.create tree.leavesOf (fullReference domain item) (first :: rest) with
          | ok d' =>
            left
            exact ⟨first :: rest, d', hdomain, Nat.not_le.mp hroom, rfl, List.cons_ne_nil _ _,
              hcreate, rfl⟩
          | error e =>
            right
            refine ⟨?_, _, _, rfl⟩
            rintro ⟨-, -, -, hfree⟩
            rw [create, dif_neg (d.find_eq_none.mp hfree)] at hcreate
            cases hcreate
  · right
    rw [if_pos hdomain]
    exact ⟨fun h => absurd h.1 hdomain, _, _, rfl⟩

variable {leavesOf : Bytes → List Bytes} {reference : Bytes} {members : List Bytes} {d' : DataSets}
  {names : List (Bytes × Bytes)}

theorem create_eq_ok (h : d.create leavesOf reference members = .ok d') : d.find reference = none ∧
      d'.sets = d.sets ++ [⟨reference, members.map fun m => ⟨m, leavesOf m⟩, true⟩] := by
  rw [create] at h
  split at h
  · cases h
  · rename_i hfree
    cases h
    exact ⟨d.find_eq_none.mpr hfree, rfl⟩

theorem find_created (h : d.create leavesOf reference members = .ok d') :
    ∃ ds, d'.find reference = some ds ∧ ds.references = members := by
  obtain ⟨hfree, hsets⟩ := create_eq_ok h
  refine ⟨⟨reference, members.map fun m => ⟨m, leavesOf m⟩, true⟩, ?_, ?_⟩
  · rw [find] at hfree ⊢
    rw [hsets, List.find?_append, hfree, Option.none_or]
    exact List.find?_cons_of_pos (by simp)
  · rw [ServedDataSet.references, List.map_map]
    exact List.map_id _

/-- The members of a request, when each is a name that the model has. -/
theorem memberReferences_names (tree : ServedTree) :
    (∃ refs, memberReferences tree (names.map fun n => .name (.domainSpecific n.1 n.2)) =
        some refs) ↔ ∀ n ∈ names, tree.node (fullReference n.1 n.2) = true := by
  induction names with
  | nil => exact iff_of_true ⟨[], rfl⟩ nofun
  | cons n names ih =>
    rw [List.map_cons, memberReferences, List.forall_mem_cons, ← ih]
    split
    · rename_i hnode
      simp [hnode]
    · rename_i hnode
      simp [hnode]

theorem eq_of_memberReferences {tree : ServedTree} {refs : List Bytes}
    (h : memberReferences tree (names.map fun n => .name (.domainSpecific n.1 n.2)) = some refs) :
    refs = names.map fun n => fullReference n.1 n.2 := by
  induction names generalizing refs with
  | nil =>
    cases h
    rfl
  | cons n names ih =>
    rw [List.map_cons, memberReferences] at h
    split at h
    · obtain ⟨rest, hrest, rfl⟩ := Option.map_eq_some_iff.mp h
      rw [List.map_cons, ih hrest]
    · cases h

end DataSets

/-! ### How a member is spelt -/

/-- A part of a reference as the server spells it: a name, or a name and an index with no zeros in
front. -/
structure SpeltPart (part : Bytes) : Prop where
  legal : IsPart IsNumber part
  spelt : (stepOf part).spelt 0 = part

variable {part ldName : Bytes} {m : IedModel} {fcda : Fcda}

theorem SpeltPart.of_isName (h : IsName part) : SpeltPart part := by
  have hopen : openParen ∉ part := not_mem_of_isName h (by decide)
  refine ⟨Or.inl h, ?_⟩
  rw [stepOf_of_not_mem hopen]
  exact List.append_nil part

theorem SpeltPart.indexed (h : IsName part) {ix : Nat} (hix : ix < 2 ^ 32) :
    SpeltPart (part ++ indexText ix) := by
  have hopen : openParen ∉ part := not_mem_of_isName h (by decide)
  refine ⟨Or.inr ⟨part, numeral ix, h, ObjectReference.isNumber_numeral hix, ?_⟩, ?_⟩
  · simp [indexText]
  · rw [stepOf_indexText hopen hix]
    simp [Step.spelt, indexText]

theorem SpeltPart.isName (h : SpeltPart part) (hopen : openParen ∉ part) : IsName part := by
  rcases h.legal with hname | ⟨name, ds, -, -, rfl⟩
  · exact hname
  · exact absurd (by simp) hopen

/-- A reference with a constraint, spelt as the server spells what it puts together itself. -/
def MmsSpelt (text : Bytes) : Prop :=
  ∃ r fc, ObjectReference.parse text = .ok r ∧ r.fc = some fc ∧
    text = referenceOf r.ld (r.joinedItem fc)

/-- A device, a node, a constraint and spelt parts make a spelt reference. -/
theorem mmsSpelt_of_parts {ld ln : Bytes} (hld : IsName ld) (hln : IsName ln) (fc : Fc)
    {parts : List Bytes} (h : ∀ part ∈ parts, SpeltPart part) :
    MmsSpelt (referenceOf ld (ln ++ sep :: fc.asStr) ++ joined parts) := by
  let x : Spelling := ⟨ld, ln, some fc, parts.map fun part => (sep, part)⟩
  have hlegal : x.Legal IsNumber := by
    refine ⟨hld, hln, ?_, ?_⟩
    · intro piece hpiece
      obtain ⟨part, -, rfl⟩ := List.mem_map.mp hpiece
      rfl
    · intro piece hpiece
      obtain ⟨part, hpart, rfl⟩ := List.mem_map.mp hpiece
      exact (h part hpart).legal
  have hheaded : x.Headed := by
    intro piece hpiece
    obtain ⟨part, -, rfl⟩ := List.mem_map.mp (List.mem_of_mem_head? hpiece)
    rfl
  have htext : x.text = referenceOf ld (ln ++ sep :: fc.asStr) ++ joined parts := by
    simp [x, Spelling.text, nodeText, behind, referenceOf, joined, List.flatMap_map]
  have hparts : x.reference.parts = parts.map stepOf :=
    ObjectReference.parts_of_pieces (fun part hpart => (h part hpart).legal) ld ln (some fc)
  have hspelt : (parts.map stepOf).map (Step.spelt 0) = parts := by
    rw [List.map_map]
    exact (List.map_congr_left fun part hpart => (h part hpart).spelt).trans (List.map_id _)
  refine ⟨x.reference, fc, ?_, rfl, ?_⟩
  · rw [← htext]
    exact Spelling.parse_text hlegal hheaded
  · rw [ObjectReference.joinedItem, hparts, hspelt]
    simp [x, Spelling.reference, referenceOf, joined]

/-- The names that a file gives to a member are names, with no index among them or an index as the
server spells it. -/
structure Fcda.Spelt (m : IedModel) (ldName : Bytes) (fcda : Fcda) : Prop where
  device : IsName (m.fcdaLdName ldName fcda)
  node : IsName fcda.lnName
  parts : ∀ part ∈ fcda.parts, SpeltPart part

theorem spelt_placeText {ix : Nat} (hix : ix < 2 ^ 32) (nodes : List FcdaNode) {parts : List Bytes}
    (h : ∀ part ∈ parts, IsName part) : ∀ part ∈ placeText ix nodes parts, SpeltPart part := by
  induction parts generalizing nodes with
  | nil => cases nodes <;> exact List.forall_mem_nil _
  | cons part parts ih =>
    rw [List.forall_mem_cons] at h
    have hrest : ∀ part ∈ parts, SpeltPart part := fun part hpart => .of_isName (h.2 part hpart)
    cases nodes with
    | nil =>
      rw [placeText]
      · exact List.forall_mem_cons.mpr ⟨.of_isName h.1, hrest⟩
      · intro _ _ _ _ hnil
        cases hnil
    | cons x nodes =>
      rw [placeText]
      split
      · exact List.forall_mem_cons.mpr ⟨.indexed h.1 hix, hrest⟩
      · exact List.forall_mem_cons.mpr ⟨.of_isName h.1, ih nodes h.2⟩

theorem exists_reference_of_engineered {leavesOf : Bytes → List Bytes} {ds : ServedDataSet}
    (h : ds ∈ engineeredSets m leavesOf) : ∃ ld item, fullReference ld item = ds.reference := by
  obtain ⟨ld, -, hmem⟩ := List.mem_flatMap.mp h
  obtain ⟨ln, -, hmem⟩ := List.mem_flatMap.mp hmem
  obtain ⟨set, -, rfl⟩ := List.mem_map.mp hmem
  exact ⟨_, _, fullReference_eq _ _⟩

theorem fcdaDevice_name {ld : DeviceModel} (h : m.fcdaDevice ldName fcda = some ld) :
    ld.name = m.fcdaLdName ldName fcda := by
  rw [IedModel.fcdaLdName]
  rw [IedModel.fcdaDevice] at h
  cases hinst : m.logicalDeviceByInst fcda.ldInst with
  | some ld' =>
    rw [hinst, Option.some_or, Option.some.injEq] at h
    rw [h]
    rfl
  | none =>
    rw [hinst, Option.none_or] at h
    simpa [IedModel.logicalDevice] using List.find?_some h

/-- What `fcda_walk` walks, when it gets to its end. -/
theorem exists_stepsOf {walk : List FcdaStep} (h : m.fcdaWalk ldName fcda = .ok walk) :
    ∃ nodes : List FcdaNode, nodes.length = (fcda.parts.filter (· ≠ [])).length ∧ walk =
        stepsOf (fcda.start (m.fcdaLdName ldName fcda)) (fcda.parts.filter (· ≠ [])) nodes := by
  rw [IedModel.fcdaWalk] at h
  split at h
  · cases h
  · rename_i ld hld
    split at h
    · cases h
    · rename_i ln hln
      have hname : ln.name = fcda.lnName := by simpa using List.find?_some hln
      have hwalk := congrArg Except.toOption h
      rw [walkFrom_toOption, fcdaDevice_name hld, hname] at hwalk
      obtain ⟨nodes, hchain, hsteps⟩ := Option.map_eq_some_iff.mp hwalk
      refine ⟨nodes, ?_, hsteps.symm⟩
      rw [length_of_chain hchain, List.length_map]

/-- A member of the file is referred to as the server spells a reference, the `ix` in its place. -/
theorem fcdaReference_spelt (h : fcda.Spelt m ldName) : MmsSpelt (m.fcdaReference ldName fcda) := by
  have hspelt : ∀ parts, (∀ part ∈ parts, SpeltPart part) →
      MmsSpelt (fcda.start (m.fcdaLdName ldName fcda) ++ joined parts) :=
    fun parts hparts => mmsSpelt_of_parts h.device h.node fcda.fc hparts
  have hbase : MmsSpelt (fcda.mmsReference (m.fcdaLdName ldName fcda)) := by
    rw [mmsReference_eq]
    exact hspelt _ h.parts
  rw [IedModel.fcdaReference]
  split
  · rename_i ix hix
    split
    · exact hbase
    · rename_i hopen
      have hnames : ∀ part ∈ fcda.parts, IsName part := by
        intro part hpart
        apply (h.parts part hpart).isName
        intro hmem
        apply hopen
        rw [mmsReference_eq]
        apply List.mem_append_right
        exact List.mem_flatMap.mpr ⟨part, hpart, List.mem_cons_of_mem _ hmem⟩
      cases hplace : m.placeIndex ldName fcda (fcda.mmsReference (m.fcdaLdName ldName fcda))
          ix.toNat with
      | none => exact hbase
      | some text =>
        simp only [IedModel.placeIndex, Option.bind_eq_bind, Option.bind_eq_some_iff] at hplace
        obtain ⟨walk, hwalk, step, hstep, rest, hrest, htext⟩ := hplace
        cases hok : m.fcdaWalk ldName fcda with
        | error reason =>
          rw [hok] at hwalk
          cases hwalk
        | ok steps =>
          rw [hok] at hwalk
          cases hwalk
          obtain ⟨nodes, hlength, rfl⟩ := exists_stepsOf hok
          have hsep : ∀ part ∈ fcda.parts, sep ∉ part :=
            fun part hpart => not_mem_of_isName (hnames part hpart) (by decide)
          have hparen : ∀ part ∈ fcda.parts, openParen ∉ part :=
            fun part hpart => not_mem_of_isName (hnames part hpart) (by decide)
          have hjoined := place_joined ix.toNat_lt hlength hsep hparen hstep
          rw [← mmsReference_eq, hrest] at hjoined
          obtain ⟨parts', hparts, -, -, hplaced⟩ := hjoined
          have hempty : [] ∉ fcda.parts := fun hnil => (hnames [] hnil).1 rfl
          cases htext
          rw [Option.getD_some, hparts, hplaced hempty]
          exact hspelt _ (spelt_placeText ix.toNat_lt nodes hnames)
  · exact hbase

end Iec61850.Server
