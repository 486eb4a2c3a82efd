import Iec61850.Client.Addressed
import Iec61850.Client.Drain
import Iec61850.Server.ServedSets

/-!
# The data set services of a client

`data_set_members`, `read`, `read_data_set` and `create_data_set` of `client/mod.rs`, answered by a
server. A data set is read as its members are read one after the other, and is listed as it is kept.
A data set is created with the variables of the members that were asked for, and without the
selections inside the variables.
-/

namespace Iec61850.Client

open Theory Ber Mms Server

/-! ### The services -/

/-- A client, with the identifier of its request. -/
structure Caller where
  limits : Limits
  invokeId : Int

/-- `reject::INVALID_PDU`. -/
def rejectInvalidPdu : Int := 1

/-- What comes of a request that the server cannot decode. -/
def Caller.refused (c : Caller) : CallFailure :=
  rejected ⟨some c.invokeId, .pduError rejectInvalidPdu⟩

/-- What a client makes of an answer that is not the response to its request. -/
def answerFailure : DataSetAnswer → CallFailure
  | .error cls code => .service cls code
  | .created | .deleted _ _ => .own (.invalidValue "not the response to the request")

/-- What a decoder takes of a list: no more than `max_dataset_members` items. -/
def bounded {α : Type} (limits : Limits) (items : List α) : Except Error (List α) :=
  if limits.maxDatasetMembers < items.length then
    .error (.limitExceeded "max_dataset_members" (limits.maxDatasetMembers + 1))
  else .ok items

/-- What `VariableAccess::parse` takes: a bounded list, and no selection deeper than
`Path::parse` goes. -/
def decodes : VariableAccess → Bool
  | .listOfVariable items =>
    decide (items.length ≤ Limits.default.maxDatasetMembers) && items.all fun item =>
      match item with
      | .element _ access => decide (access.length ≤ Alternate.maxDepth)
      | .name _ | .other _ => true
  | .variableListName _ => true

/-- One result of a `Read` in an answer (`Answer::encode`). -/
def encodedResult : Except Int Value → Except Error AccessResult
  | .ok value => .success <$> encodedElement value
  | .error code => .ok (.failure code)

/-- One result as the client decodes it (`AccessResult::parse`). -/
def takenResult : AccessResult → Except Error AccessResult
  | .failure code => .ok (.failure code)
  | .success t => do
      let _ ← DataView.fromTlv t
      .ok (.success t)

/-- One result of `Client::read_access_results`. -/
def accessValue (limits : Limits) : AccessResult → Except Error Value
  | .failure code => .error (.dataAccess code)
  | .success t => do
      let view ← DataView.fromTlv t
      view.toOwned limits

/-- `Display` for `Selector`. -/
def selectorFormat : Selector → Bytes
  | .component name => dot :: name
  | .index i => indexText i
  | .indexRange low count =>
    openParen :: numeral low ++ ascii ".." ++ numeral (min (low + count) u32Max - 1) ++
      [closeParen]
  | .allElements => ascii "(*)"

def nameText : ObjectName → Bytes
  | .domainSpecific domain item => fullReference domain item
  | .vmdSpecific name | .aaSpecific name => name

/-- The text of a member in `Client::data_set_members`. -/
def memberText : VariableSpecification → Option Bytes
  | .name n => some (nameText n)
  | .element n access => some (nameText n ++ access.flatMap selectorFormat)
  | .other _ => none

def dataSetMembers (c : Caller) (s : ServedIed) (ld name : Bytes) :
    Except CallFailure (List Bytes) :=
  match s.dataSetAttributes (.domainSpecific ld name) with
  | .error answer => .error (answerFailure answer)
  | .ok (_, members) =>
    match bounded c.limits (listedVariables members) with
    | .error e => .error (.own e)
    | .ok listed => .ok (listed.filterMap memberText)

def createDataSet (c : Caller) (s : ServedIed) (name : Bytes) (members : List (Bytes × Fc)) :
    Except CallFailure Unit × ServedIed :=
  match splitDataSet name, members.mapM dataSetMember with
  | .error e, _ | .ok _, .error e => (.error (.own e), s)
  | .ok (ld, item), .ok listed =>
    match bounded s.limits listed with
    | .error _ => (.error c.refused, s)
    | .ok listed =>
      match s.createDataSet (.domainSpecific ld item) listed with
      | (s, .created) => (.ok (), s)
      | (s, answer) => (.error (answerFailure answer), s)

section Reads

variable (c : Caller) (select : ServedIed → Bytes → Value × ServedIed)

/-- The results of a `Read` in the answer of the server, and what the client decodes. A server that
cannot encode a value does not answer. -/
def deliver (results : List (Except Int Value)) : Except CallFailure (List (Except Error Value)) :=
  match results.mapM encodedResult with
  | .error _ => .error (.io "request timed out")
  | .ok results =>
    match (bounded c.limits results).bind fun results => results.mapM takenResult with
    | .error e => .error (.own e)
    | .ok results => .ok (results.map (accessValue c.limits))

def readAccessResults (s : ServedIed) (access : VariableAccess) :
    Except CallFailure (List (Except Error Value)) × ServedIed :=
  if ¬ decodes access then (.error c.refused, s)
  else
    match s.read select access with
    | (.error answer, s) => (.error (answerFailure answer), s)
    | (.ok results, s) => (deliver c results, s)

def readAccess (s : ServedIed) (access : VariableAccess) :
    Except CallFailure (List Value) × ServedIed :=
  let (results, s) := readAccessResults c select s access
  (results.bind fun results => (results.mapM id).mapError .own, s)

def read (s : ServedIed) (reference : Bytes) (fc : Fc) : Except CallFailure Value × ServedIed :=
  match Addressed.of reference fc with
  | .error e => (.error (.own e), s)
  | .ok addressed =>
    match readAccess c select s (.listOfVariable [addressed.spec]) with
    | (.error f, s) => (.error f, s)
    | (.ok [value], s) => (.ok value, s)
    | (.ok _, s) =>
      (.error (.own (.invalidValue "server returned the wrong number of values")), s)

def readDataSet (s : ServedIed) (ld name : Bytes) : Except CallFailure (List Value) × ServedIed :=
  readAccess c select s (.variableListName (.domainSpecific ld name))

end Reads

/-! ### One result and all of them -/

/-- What a client gets of one result. -/
def Delivers (limits : Limits) (result : Except Int Value) (value : Value) : Prop :=
  ∃ encoded, encodedResult result = .ok encoded ∧ accessValue limits encoded = .ok value

theorem eq_of_takenResult {r r' : AccessResult} (h : takenResult r = .ok r') : r' = r := by
  cases r with
  | failure code =>
    cases h
    rfl
  | success t =>
    obtain ⟨view, -, h⟩ := bind_ok h
    cases h
    rfl

theorem takenResult_of_accessValue {limits : Limits} {r : AccessResult} {value : Value}
    (h : accessValue limits r = .ok value) : takenResult r = .ok r := by
  cases r with
  | failure code => rfl
  | success t =>
    obtain ⟨view, hview, -⟩ := bind_ok h
    rw [takenResult, hview]
    rfl

theorem mapM_takenResult {rs rs' : List AccessResult} (h : rs.mapM takenResult = .ok rs') :
    rs' = rs := by
  have hall := mapM_ok_iff.mp h
  clear h
  induction hall with
  | nil => rfl
  | cons hone _ ih => rw [eq_of_takenResult hone, ih]

theorem bounded_eq_ok {α : Type} {limits : Limits} {items items' : List α} :
    bounded limits items = .ok items' ↔
      items.length ≤ limits.maxDatasetMembers ∧ items' = items := by
  rw [bounded]
  split
  · rename_i hlong
    exact iff_of_false nofun fun h => absurd h.1 (Nat.not_le.mpr hlong)
  · rename_i hshort
    constructor
    · intro h
      cases h
      exact ⟨Nat.not_lt.mp hshort, rfl⟩
    · rintro ⟨-, rfl⟩
      rfl

/-- The values of an answer are the values of its results, when there are not too many and all of
them are values. -/
theorem deliver_ok_iff {c : Caller} {results : List (Except Int Value)} {values : List Value} :
    ((deliver c results).bind fun results => (results.mapM id).mapError .own) = .ok values ↔
      results.length ≤ c.limits.maxDatasetMembers ∧
        List.Forall₂ (Delivers c.limits) results values := by
  have hown : ∀ taken : List (Except Error Value),
      (taken.mapM id).mapError CallFailure.own = .ok values ↔ taken.mapM id = .ok values := by
    intro taken
    cases taken.mapM id <;> simp [Except.mapError]
  rw [← show _ ↔ List.Forall₂ (Delivers c.limits) results values from forall₂_comp_iff, deliver]
  cases hencoded : results.mapM encodedResult with
  | error e =>
    refine iff_of_false nofun ?_
    rintro ⟨-, encoded, hall, -⟩
    rw [mapM_ok_iff.mpr hall] at hencoded
    cases hencoded
  | ok encoded =>
    have hlength : encoded.length = results.length := (mapM_ok_iff.mp hencoded).length_eq.symm
    dsimp only
    constructor
    · intro h
      split at h
      · cases h
      · rename_i taken htaken
        obtain ⟨bound, hbound, hall⟩ := bind_ok htaken
        obtain ⟨hshort, hbound⟩ := bounded_eq_ok.mp hbound
        rw [hbound] at hall
        obtain rfl := mapM_takenResult hall
        refine ⟨hlength ▸ hshort, taken, mapM_ok_iff.mp hencoded, ?_⟩
        exact List.forall₂_map_left_iff.mp (mapM_ok_iff.mp ((hown _).mp h))
    · rintro ⟨hshort, encoded', hall, hdecoded⟩
      cases hencoded.symm.trans (mapM_ok_iff.mpr hall)
      have htaken : encoded.mapM takenResult = .ok encoded := by
        rw [mapM_ok_iff, List.forall₂_same]
        intro r hr
        obtain ⟨i, hi, rfl⟩ := List.mem_iff_getElem.mp hr
        have hget := hdecoded.get hi (hdecoded.length_eq ▸ hi)
        exact takenResult_of_accessValue hget
      have hbound := bounded_eq_ok.mpr ⟨hlength.symm ▸ hshort, rfl⟩
      rw [hbound]
      dsimp only [Except.bind]
      rw [htaken]
      exact (hown _).mpr (mapM_ok_iff.mpr (List.forall₂_map_left_iff.mpr hdecoded))

/-- A member that a client can ask for alone: spelt as the server spells it, and with a selection
that a request carries. -/
structure Askable (text : Bytes) : Prop where
  spelt : MmsSpelt text
  depth : ∀ r, ObjectReference.parse text = .ok r → r.selection.length ≤ Alternate.maxDepth

section Reads

variable {c : Caller} {select : ServedIed → Bytes → Value × ServedIed} {s : ServedIed}

/-- A member is asked for alone by the text it is kept as. -/
theorem accessName_of_askable {text : Bytes} (h : Askable text) (fc : Fc) :
    ∃ addressed, Addressed.of text fc = .ok addressed ∧ accessName addressed.spec = .ok text ∧
      decodes (.listOfVariable [addressed.spec]) = true := by
  obtain ⟨⟨r, own, hparse, hfc, htext⟩, hdepth⟩ := h
  have hjoined : r.joinedItem fc = r.joinedItem own := by
    rw [ObjectReference.joinedItem, ObjectReference.joinedItem, hfc]
    rfl
  have hwith := r.itemWith_toMms fc
  refine ⟨⟨r.ld, (r.toMms fc).2, r.selection⟩, ?_, ?_⟩
  · rw [Addressed.of, hparse]
    rfl
  · rw [Addressed.spec, specificationOf]
    split
    · rename_i hnil
      rw [List.isEmpty_iff] at hnil
      dsimp only at hnil
      rw [hnil, itemWith, Option.some.injEq] at hwith
      dsimp only [accessName]
      rw [hwith, hjoined, fullReference_eq, ← htext]
      exact ⟨rfl, rfl⟩
    · dsimp only [accessName]
      rw [hwith, hjoined]
      dsimp only
      rw [fullReference_eq, ← htext]
      refine ⟨rfl, ?_⟩
      simpa [decodes, Limits.default] using hdepth r hparse

/-- Reading a member alone delivers what the server reads of the text it is kept as. -/
theorem read_ok_iff {text : Bytes} (h : Askable text) (fc : Fc) {value : Value} {s' : ServedIed} :
    read c select s text fc = (.ok value, s') ↔ (1 ≤ c.limits.maxDatasetMembers ∧
        Delivers c.limits (s.readItem select (.ok text)).1 value) ∧
          s' = (s.readItem select (.ok text)).2 := by
  obtain ⟨addressed, hof, hname, hdecodes⟩ := accessName_of_askable h fc
  have hread : s.read select (.listOfVariable [addressed.spec]) =
      (.ok [(s.readItem select (.ok text)).1], (s.readItem select (.ok text)).2) := by
    rw [ServedIed.read, ServedIed.accessNames, List.map_cons, List.map_nil, hname]
    rfl
  have hone := @deliver_ok_iff c [(s.readItem select (.ok text)).1]
  rw [read, hof]
  dsimp only
  rw [readAccess, readAccessResults, if_neg (not_not.mpr hdecodes), hread]
  dsimp only
  constructor
  · intro hread
    split at hread
    · cases hread
    · rename_i v t heq
      cases hread
      rw [Prod.mk.injEq] at heq
      obtain ⟨hdelivered, rfl⟩ := heq
      rw [hone, List.forall₂_cons] at hdelivered
      exact ⟨⟨hdelivered.1, hdelivered.2.1⟩, rfl⟩
    · cases hread
  · rintro ⟨⟨hshort, hdelivers⟩, rfl⟩
    rw [hone.mpr ⟨hshort, .cons hdelivers .nil⟩]

/-- Values read one after the other, each with `read`, the server going on from read to read. -/
inductive ReadInTurn (c : Caller) (select : ServedIed → Bytes → Value × ServedIed) :
    ServedIed → List Bytes → List Value → ServedIed → Prop
  | nil (s : ServedIed) : ReadInTurn c select s [] [] s
  | cons {s s' s'' : ServedIed} {member : Bytes} {members : List Bytes} {value : Value}
      {values : List Value} (first : ∀ fc, read c select s member fc = (.ok value, s'))
      (rest : ReadInTurn c select s' members values s'') :
      ReadInTurn c select s (member :: members) (value :: values) s''

/-- The loop of the server over members, and the members read in turn. -/
theorem readItems_iff {members : List Bytes} (h : ∀ m ∈ members, Askable m)
    (hshort : members.length ≤ c.limits.maxDatasetMembers) {values : List Value} {s' : ServedIed} :
    ReadInTurn c select s members values s' ↔
      List.Forall₂ (Delivers c.limits) (s.readItems select (members.map .ok)).1 values ∧
        s' = (s.readItems select (members.map .ok)).2 := by
  induction members generalizing s values with
  | nil =>
    constructor
    · rintro ⟨⟩
      exact ⟨.nil, rfl⟩
    · rintro ⟨hvalues, rfl⟩
      cases hvalues
      exact .nil _
  | cons member members ih =>
    rw [List.forall_mem_cons] at h
    rw [List.length_cons] at hshort
    have hone : 1 ≤ c.limits.maxDatasetMembers := by omega
    have hrest : members.length ≤ c.limits.maxDatasetMembers := by omega
    rw [List.map_cons, ServedIed.readItems]
    dsimp only
    constructor
    · rintro ⟨⟩
      rename_i s₁ value values hfirst hlater
      obtain ⟨⟨-, hdelivers⟩, rfl⟩ := (read_ok_iff h.1 .st).mp (hfirst .st)
      obtain ⟨hall, rfl⟩ := (ih h.2 hrest).mp hlater
      exact ⟨.cons hdelivers hall, rfl⟩
    · rintro ⟨hvalues, rfl⟩
      cases hvalues with
      | cons hdelivers hall =>
        refine .cons (fun fc => (read_ok_iff h.1 fc).mpr ⟨⟨hone, hdelivers⟩, rfl⟩) ?_
        exact (ih h.2 hrest).mpr ⟨hall, rfl⟩

theorem length_readItems (s : ServedIed) (names : List (Except Int Bytes)) :
    (s.readItems select names).1.length = names.length := by
  induction names generalizing s with
  | nil => rfl
  | cons name names ih => rw [ServedIed.readItems, List.length_cons, List.length_cons, ih]

/-- A data set that the client can take is read as its members are read in turn. -/
theorem readDataSet_iff {ld name : Bytes} {ds : ServedDataSet}
    (hds : s.dataSets.find (fullReference ld name) = some ds) (h : ∀ m ∈ ds.references, Askable m)
    (hshort : ds.references.length ≤ c.limits.maxDatasetMembers) {values : List Value}
    {s' : ServedIed} : readDataSet c select s ld name = (.ok values, s') ↔
      ReadInTurn c select s ds.references values s' := by
  have hlength : (s.readItems select (ds.references.map .ok)).1.length ≤
      c.limits.maxDatasetMembers := by
    rwa [length_readItems, List.length_map]
  have hdecodes : decodes (.variableListName (.domainSpecific ld name)) = true := rfl
  rw [readItems_iff h hshort, readDataSet, readAccess, readAccessResults,
    if_neg (not_not.mpr hdecodes), ServedIed.read, ServedIed.accessNames, hds]
  dsimp only
  rw [Prod.mk.injEq, deliver_ok_iff]
  constructor
  · rintro ⟨⟨-, hvalues⟩, rfl⟩
    exact ⟨hvalues, rfl⟩
  · rintro ⟨hvalues, rfl⟩
    exact ⟨⟨hlength, hvalues⟩, rfl⟩

theorem readItem_of_plain {text : Bytes} (h : selectedObject text = none) :
    s.readItem select (.ok text) = (s.readReference text, s) := by
  rw [ServedIed.readItem, h]

/-- Where no member is a select, reading in turn is reading each in the same state. -/
theorem readInTurn_iff {members : List Bytes} (h : ∀ m ∈ members, Askable m)
    (hplain : ∀ m ∈ members, selectedObject m = none) {values : List Value} {s' : ServedIed} :
    ReadInTurn c select s members values s' ↔ s' = s ∧
      List.Forall₂ (fun m v => ∀ fc, read c select s m fc = (.ok v, s)) members values := by
  induction members generalizing values with
  | nil =>
    constructor
    · rintro ⟨⟩
      exact ⟨rfl, .nil⟩
    · rintro ⟨rfl, hvalues⟩
      cases hvalues
      exact .nil _
  | cons member members ih =>
    rw [List.forall_mem_cons] at h hplain
    constructor
    · rintro ⟨⟩
      rename_i s₁ value values hfirst hrest
      obtain ⟨-, rfl⟩ := (read_ok_iff h.1 .st).mp (hfirst .st)
      rw [readItem_of_plain hplain.1] at hfirst hrest
      obtain ⟨rfl, hall⟩ := (ih h.2 hplain.2).mp hrest
      exact ⟨rfl, .cons hfirst hall⟩
    · rintro ⟨rfl, hvalues⟩
      cases hvalues with
      | cons hfirst hall => exact .cons hfirst ((ih h.2 hplain.2).mpr ⟨rfl, hall⟩)

end Reads

/-! ### What is listed -/

theorem MmsSpelt.splitOnce {text : Bytes} (h : MmsSpelt text) :
    ∃ domain item, splitOnce slash text = some (domain, item) ∧
      fullReference domain item = text := by
  obtain ⟨r, fc, hparse, -, htext⟩ := h
  have hnamed := ObjectReference.parse_named hparse
  have hslash : slash ∉ r.ld := not_mem_of_isName hnamed.ld (by decide)
  refine ⟨r.ld, r.joinedItem fc, ?_, ?_⟩
  · rw [htext]
    exact ObjectReference.splitOnce_append hslash _
  · rw [fullReference_eq, htext]

theorem filterMap_listedVariables {members : List Bytes} (h : ∀ m ∈ members, MmsSpelt m) :
    (listedVariables members).filterMap memberText = members := by
  induction members with
  | nil => rfl
  | cons member members ih =>
    rw [List.forall_mem_cons] at h
    obtain ⟨domain, item, hsplit, htext⟩ := MmsSpelt.splitOnce h.1
    have hrest := ih h.2
    rw [listedVariables] at hrest ⊢
    rw [List.map_cons, hsplit, List.filterMap_cons_some (b := member), hrest]
    dsimp only [Option.getD_some, memberText, nameText]
    rw [htext]

/-! ### What is created -/

/-- A member that was asked for, as the server spells it. -/
def askedText (member : Bytes × Fc) : Option Bytes :=
  match ObjectReference.parse member.1 with
  | .error _ => none
  | .ok r => some (referenceOf r.ld (r.joinedItem member.2))

theorem toMms_eq_joinedItem (r : ObjectReference) (fc : Fc) :
    (r.toMms fc).2 = r.joinedItem fc ↔ ∀ s ∈ r.parts, s.index = none := by
  have hsingle : ∀ x ∈ r.selection, Selector.Single x :=
    fun x hx => ObjectReference.single_of_mem_selection hx
  have hwith := r.itemWith_toMms fc
  rw [itemWith_of_single _ hsingle, Option.some.injEq] at hwith
  rw [← r.selection_eq_nil, ← hwith, List.self_eq_append_right, List.flatMap_eq_nil_iff]
  constructor
  · intro hall
    apply List.eq_nil_iff_forall_not_mem.mpr
    intro x hx
    have htext := hall x hx
    have hone := hsingle x hx
    cases x with
    | component name => cases htext
    | index i => cases htext
    | indexRange low count => exact hone
    | allElements => exact hone
  · intro hnil x hx
    rw [hnil] at hx
    cases hx

/-- The names of the variables that a request for a data set lists. -/
def variableOf (member : Bytes × Fc) : Except Error (Bytes × Bytes) := do
  let parsed ← ObjectReference.parse member.1
  .ok (parsed.toMms member.2)

theorem dataSetMember_eq_ok {member : Bytes × Fc} {spec : VariableSpecification} :
    dataSetMember member = .ok spec ↔
      ∃ n, variableOf member = .ok n ∧ .name (.domainSpecific n.1 n.2) = spec := by
  rw [dataSetMember, variableOf]
  cases ObjectReference.parse member.1 with
  | error e => exact iff_of_false (fun h => by cases h) (by rintro ⟨n, h, -⟩; cases h)
  | ok r =>
    constructor
    · intro h
      cases h
      exact ⟨_, rfl, rfl⟩
    · rintro ⟨n, h, rfl⟩
      cases h
      rfl

theorem mapM_dataSetMember {members : List (Bytes × Fc)} {listed : List VariableSpecification} :
    members.mapM dataSetMember = .ok listed ↔ ∃ names, members.mapM variableOf = .ok names ∧
      listed = names.map fun n => .name (.domainSpecific n.1 n.2) := by
  simp only [mapM_ok_iff, dataSetMember_eq_ok]
  rw [← forall₂_comp_iff]
  refine exists_congr fun names => and_congr_right fun _ => ?_
  rw [← List.forall₂_map_left_iff, List.forall₂_eq_eq_eq, eq_comm]

/-- What the server and the request must have for a data set to be created: the device and the name,
still free, room for one more, and members, not too many, each with a variable that the server
has. -/
structure Accepted (s : ServedIed) (name : Bytes) (members : List (Bytes × Fc)) : Prop where
  named : ∃ split, splitDataSet name = .ok split ∧ (s.store.domain split.1).isSome = true ∧
    s.dataSets.find (fullReference split.1 split.2) = none
  room : s.dataSets.created < s.maxCreated
  nonempty : members ≠ []
  short : members.length ≤ s.limits.maxDatasetMembers
  nodes : ∀ m ∈ members, ∃ n, variableOf m = .ok n ∧
    (s.store.nodeAt (fullReference n.1 n.2)).isSome = true

/-- A data set is created with the variables of its members, or the server stays as it is. -/
theorem createDataSet_cases (c : Caller) (s : ServedIed) (name : Bytes)
    (members : List (Bytes × Fc)) :
    (∃ split names d', Accepted s name members ∧ splitDataSet name = .ok split ∧
        members.mapM variableOf = .ok names ∧
        s.dataSets.create s.store.leavesOf (fullReference split.1 split.2)
          (names.map fun n => fullReference n.1 n.2) = .ok d' ∧
        createDataSet c s name members = (.ok (), { s with dataSets := d' })) ∨
      ¬ Accepted s name members ∧ ∃ f, createDataSet c s name members = (.error f, s) := by
  rw [createDataSet]
  cases hsplit : splitDataSet name with
  | error e =>
    refine Or.inr ⟨?_, _, rfl⟩
    rintro ⟨⟨split, h, -⟩, -, -, -, -⟩
    rw [hsplit] at h
    cases h
  | ok split =>
    cases hlisted : members.mapM dataSetMember with
    | error e =>
      refine Or.inr ⟨?_, _, rfl⟩
      intro haccepted
      obtain ⟨names, hnames⟩ := exists_mapM fun m hm =>
        (haccepted.nodes m hm).imp fun n h => h.1
      have hok := mapM_dataSetMember.mpr ⟨names, hnames, rfl⟩
      rw [hlisted] at hok
      cases hok
    | ok listed =>
      obtain ⟨names, hnames, rfl⟩ := mapM_dataSetMember.mp hlisted
      have hforall := mapM_ok_iff.mp hnames
      have hlength := hforall.length_eq
      obtain ⟨ld, item⟩ := split
      have hnode := forall_ok_iff hforall
        fun n => (s.store.nodeAt (fullReference n.1 n.2)).isSome = true
      dsimp only
      by_cases hshort : members.length ≤ s.limits.maxDatasetMembers
      · have hbound := bounded_eq_ok.mpr ⟨show (names.map fun n =>
          VariableSpecification.name (.domainSpecific n.1 n.2)).length ≤ _ by
            rwa [List.length_map, ← hlength], rfl⟩
        rw [hbound]
        dsimp only
        rw [ServedIed.createDataSet]
        rcases DataSets.createService_cases s.dataSets s.tree ld item
          (names.map fun n => .name (.domainSpecific n.1 n.2)) with
          ⟨refs, d', hdomain, hroom, hrefs, hne, hcreate, hservice⟩ |
            ⟨hnot, cls, code, hservice⟩
        · left
          cases DataSets.eq_of_memberReferences hrefs
          refine ⟨(ld, item), names, d', ⟨⟨(ld, item), hsplit, hdomain, ?_⟩, hroom, ?_, hshort,
            ?_⟩, rfl, hnames, hcreate, ?_⟩
          · exact (DataSets.create_eq_ok hcreate).1
          · rintro rfl
            cases hnames
            exact hne rfl
          · exact hnode.mpr ((DataSets.memberReferences_names s.tree).mp ⟨_, hrefs⟩)
          · rw [hservice]
        · right
          refine ⟨?_, .service cls code, ?_⟩
          · rintro ⟨⟨split, hsplit', hdomain, hfree⟩, hroom, hne, -, hnodes⟩
            cases hsplit.symm.trans hsplit'
            apply hnot
            obtain ⟨refs, hrefs⟩ := (DataSets.memberReferences_names s.tree).mpr
              (hnode.mp hnodes)
            refine ⟨hdomain, hroom, ⟨refs, hrefs, ?_⟩, hfree⟩
            rintro rfl
            have hnil := DataSets.eq_of_memberReferences hrefs
            rw [eq_comm, List.map_eq_nil_iff] at hnil
            rw [hnil, List.forall₂_nil_right_iff] at hforall
            exact hne hforall
          · rw [hservice]
            rfl
      · have hlong : bounded s.limits (names.map fun n =>
            VariableSpecification.name (.domainSpecific n.1 n.2)) =
              .error (.limitExceeded "max_dataset_members" (s.limits.maxDatasetMembers + 1)) :=
          if_pos (by rw [List.length_map, ← hlength]; exact Nat.not_le.mp hshort)
        rw [hlong]
        exact Or.inr ⟨fun h => hshort h.short, _, rfl⟩

/-- A request for a data set that is answered positively leaves a data set whose members are the
references that were asked for, and another one leaves the data sets as they are. -/
def Creates (c : Caller) (s : ServedIed) (name : Bytes) (members : List (Bytes × Fc)) : Prop :=
  match createDataSet c s name members with
  | (.ok _, s') => ∃ split ds, splitDataSet name = .ok split ∧
      s'.dataSets.find (fullReference split.1 split.2) = some ds ∧
      ds.references.map some = members.map askedText
  | (.error _, s') => s'.dataSets = s.dataSets

theorem variableOf_asked {member : Bytes × Fc} {n : Bytes × Bytes} (h : variableOf member = .ok n) :
    some (fullReference n.1 n.2) = askedText member ↔ Unindexed member.1 := by
  obtain ⟨r, hr, hn⟩ := bind_ok h
  cases hn
  rw [askedText, hr, Option.some.injEq, fullReference_eq, referenceOf, referenceOf]
  constructor
  · intro heq r' hr'
    cases hr.symm.trans hr'
    have hitem := List.append_cancel_left heq
    exact (toMms_eq_joinedItem r member.2).mp (List.cons.inj hitem).2
  · intro hnone
    exact congrArg (fun item => r.ld ++ slash :: item)
      ((toMms_eq_joinedItem r member.2).mpr (hnone r hr))

theorem creates_iff (c : Caller) (s : ServedIed) (name : Bytes) (members : List (Bytes × Fc)) :
    Creates c s name members ↔ (∀ m ∈ members, Unindexed m.1) ∨ ¬ Accepted s name members := by
  rw [Creates]
  rcases createDataSet_cases c s name members with
    ⟨split, names, d', haccepted, hsplit, hnames, hcreate, hclient⟩ | ⟨hnot, f, hclient⟩
  · rw [hclient]
    obtain ⟨ds, hfind, hrefs⟩ := DataSets.find_created hcreate
    have hasked := map_eq_iff_of_forall₂ (mapM_ok_iff.mp hnames)
      fun (m : Bytes × Fc) n hm => variableOf_asked hm
    constructor
    · rintro ⟨split', ds', hsplit', hfind', hmembers⟩
      cases hsplit.symm.trans hsplit'
      cases hfind.symm.trans hfind'
      rw [hrefs, List.map_map] at hmembers
      exact Or.inl (hasked.mp hmembers)
    · rintro (hunindexed | hnot)
      · refine ⟨split, ds, hsplit, hfind, ?_⟩
        rw [hrefs, List.map_map]
        exact hasked.mpr hunindexed
      · exact absurd haccepted hnot
  · rw [hclient]
    exact iff_of_true rfl (Or.inr hnot)

/-! ### The data sets of a running server -/

/-- The states of a server of the model `m`: its data sets are those of the file, clients create
data sets with `create_data_set` and delete them, and everything else leaves the data sets alone. -/
inductive Serves (m : IedModel) : ServedIed → Prop
  | seeded {s : ServedIed} (h : s.dataSets = seedDataSets m s.store.leavesOf) : Serves m s
  | created {s : ServedIed} (h : Serves m s) (c : Caller) (name : Bytes)
      (members : List (Bytes × Fc)) : Serves m (createDataSet c s name members).2
  | deleted {s : ServedIed} (h : Serves m s) (scope : Int) (names : List ObjectName) :
      Serves m { s with dataSets := (s.dataSets.deleteService scope names).1 }
  | other {s s' : ServedIed} (h : Serves m s) (hsame : s'.dataSets = s.dataSets) : Serves m s'

/-- Every member of every data set of the file has names, and selects no deeper inside of a variable
than a request can. -/
def NamedMembers (m : IedModel) : Prop :=
  ∀ ld ∈ m.logicalDevices, ∀ ln ∈ ld.nodes, ∀ ds ∈ ln.dataSets, ∀ fcda ∈ ds.members,
    fcda.Spelt m ld.name ∧ ∀ r, ObjectReference.parse (m.fcdaReference ld.name fcda) = .ok r →
      r.selection.length ≤ Alternate.maxDepth

theorem variableOf_askable {member : Bytes × Fc} {n : Bytes × Bytes}
    (h : variableOf member = .ok n) : Askable (fullReference n.1 n.2) := by
  obtain ⟨r, hr, hn⟩ := bind_ok h
  cases hn
  have hnamed := ObjectReference.parse_named hr
  have hnames : ∀ part ∈ r.names, SpeltPart part :=
    fun part hpart => .of_isName (hnamed.names part hpart)
  have hspelt := mmsSpelt_of_parts hnamed.ld hnamed.ln (r.fc.getD member.2) hnames
  have htext : fullReference (r.toMms member.2).1 (r.toMms member.2).2 =
      referenceOf r.ld (r.ln ++ sep :: (r.fc.getD member.2).asStr) ++ joined r.names := by
    rw [fullReference_eq]
    simp [ObjectReference.toMms, ObjectReference.toMmsUnder, referenceOf, joined]
  refine ⟨?_, ?_⟩
  · rw [htext]
    exact hspelt
  · intro r' hr'
    obtain ⟨-, -, -, hof⟩ := Addressed.of_text hr member.2
    have hsame := hof .st
    rw [fullReference_eq, referenceOf] at hr'
    rw [Addressed.of, hr'] at hsame
    simp only [bind, Except.bind, Except.ok.injEq, Addressed.mk.injEq] at hsame
    rw [hsame.2.2]
    exact Nat.zero_le _

/-- Every data set is under a name in a device, and every member can be asked for alone. -/
theorem Serves.askable {m : IedModel} (hm : NamedMembers m) {s : ServedIed} (h : Serves m s) :
    ∀ ds ∈ s.dataSets.sets, (∃ ld item, fullReference ld item = ds.reference) ∧
      ∀ text ∈ ds.references, Askable text := by
  induction h with
  | seeded h =>
    intro ds hds
    rw [h] at hds
    have hengineered := mem_seedDataSets hds
    refine ⟨exists_reference_of_engineered hengineered, ?_⟩
    intro text htext
    obtain ⟨ld, hld, hmem⟩ := List.mem_flatMap.mp hengineered
    obtain ⟨ln, hln, hmem⟩ := List.mem_flatMap.mp hmem
    obtain ⟨set, hset, rfl⟩ := List.mem_map.mp hmem
    rw [ServedDataSet.references, List.map_map] at htext
    obtain ⟨fcda, hfcda, rfl⟩ := List.mem_map.mp htext
    obtain ⟨hspelt, hdepth⟩ := hm ld hld ln hln set hset fcda hfcda
    exact ⟨fcdaReference_spelt hspelt, hdepth⟩
  | @created s _ c name members ih =>
    rcases createDataSet_cases c s name members with
      ⟨split, names, d', -, -, hnames, hcreate, hclient⟩ | ⟨-, f, hclient⟩
    · rw [hclient]
      intro ds hds
      dsimp only at hds
      rw [(DataSets.create_eq_ok hcreate).2] at hds
      rcases List.mem_append.mp hds with hds | hds
      · exact ih ds hds
      · rw [List.mem_singleton] at hds
        subst hds
        refine ⟨⟨split.1, split.2, rfl⟩, ?_⟩
        intro text htext
        rw [ServedDataSet.references, List.map_map, List.map_map] at htext
        obtain ⟨n, hn, rfl⟩ := List.mem_map.mp htext
        have hall := (forall_ok_iff (mapM_ok_iff.mp hnames)
          fun n => Askable (fullReference n.1 n.2)).mp
        refine hall (fun x hx => ?_) n hn
        obtain ⟨n', -, hok⟩ := exists_of_mapM hnames hx
        exact ⟨n', hok, variableOf_askable hok⟩
    · rw [hclient]
      exact ih
  | deleted _ scope names ih =>
    exact fun ds hds => ih ds (DataSets.mem_of_mem_deleteService hds)
  | other _ hsame ih =>
    rw [hsame]
    exact ih

/-! ### What the services are for -/

section Faithful

variable (c : Caller) (select : ServedIed → Bytes → Value × ServedIed) (s : ServedIed)

/-- What the services make of one data set: its members are listed in order; it is read as its
members are read in turn; and where no member is a select, each value of it is the value that
reading the member alone gives, in the same state. -/
structure AnswersFor (ds : ServedDataSet) (ld name : Bytes) : Prop where
  listed : dataSetMembers c s ld name = .ok ds.references
  inTurn : ∀ values s', readDataSet c select s ld name = (.ok values, s') ↔
    ReadInTurn c select s ds.references values s'
  alone : (∀ m ∈ ds.references, selectedObject m = none) → ∀ values s',
    readDataSet c select s ld name = (.ok values, s') ↔ s' = s ∧
      List.Forall₂ (fun m v => ∀ fc, read c select s m fc = (.ok v, s)) ds.references values

/-- Every data set of the server is answered for as it is, and the request for one more as well. -/
structure Faithful (name : Bytes) (members : List (Bytes × Fc)) : Prop where
  answered : ∀ ds ∈ s.dataSets.sets, ∀ ld item, fullReference ld item = ds.reference →
    AnswersFor c select s ds ld item
  creates : Creates c s name members

end Faithful

/-- A data set is listed when it is not longer than the client takes. -/
theorem dataSetMembers_iff (c : Caller) {s : ServedIed} {ds : ServedDataSet} {ld name : Bytes}
    (hfind : s.dataSets.find (fullReference ld name) = some ds)
    (h : ∀ m ∈ ds.references, Askable m) : dataSetMembers c s ld name = .ok ds.references ↔
      ds.references.length ≤ c.limits.maxDatasetMembers := by
  have hlength : (listedVariables ds.references).length = ds.references.length := List.length_map _
  rw [dataSetMembers, ServedIed.dataSetAttributes, hfind]
  dsimp only
  constructor
  · intro hlisted
    split at hlisted
    · cases hlisted
    · rename_i listed hbound
      rw [← hlength]
      exact (bounded_eq_ok.mp hbound).1
  · intro hshort
    rw [bounded_eq_ok.mpr ⟨hlength.symm ▸ hshort, rfl⟩]
    dsimp only
    rw [filterMap_listedVariables fun m hm => (h m hm).spelt]

theorem answersFor_iff (c : Caller) (select : ServedIed → Bytes → Value × ServedIed)
    {s : ServedIed} {ds : ServedDataSet} (hds : ds ∈ s.dataSets.sets)
    (h : ∀ m ∈ ds.references, Askable m) {ld name : Bytes}
    (hname : fullReference ld name = ds.reference) :
    AnswersFor c select s ds ld name ↔ ds.references.length ≤ c.limits.maxDatasetMembers := by
  have hfind : s.dataSets.find (fullReference ld name) = some ds := by
    rw [hname]
    exact DataSets.find_of_mem hds
  constructor
  · exact fun hanswered => (dataSetMembers_iff c hfind h).mp hanswered.listed
  · intro hshort
    refine ⟨(dataSetMembers_iff c hfind h).mpr hshort,
      fun values s' => readDataSet_iff hfind h hshort, ?_⟩
    intro hplain values s'
    rw [readDataSet_iff hfind h hshort, readInTurn_iff h hplain]

/-- A node with an array of measured harmonics, and a data set with one of them. -/
def meteringModel : IedModel :=
  ⟨[⟨ascii "0", ascii "D",
    [{ measuring with dataSets := [⟨ascii "E", [member "HA" (some "a.f") .mx (some 2)]⟩] }]⟩], [],
    fun _ => none, fun _ => none⟩

def meteringServer : ServedIed :=
  let store := ValueStore.build true meteringModel ⟨fun _ => none, fun _ => none⟩
  ⟨store, seedDataSets meteringModel store.leavesOf, [], 8, Limits.default⟩

theorem namedMembers_metering : NamedMembers meteringModel := by
  intro ld hld ln hln ds hds fcda hfcda
  cases List.mem_singleton.mp hld
  cases List.mem_singleton.mp hln
  cases List.mem_singleton.mp hds
  cases List.mem_singleton.mp hfcda
  have hparse : ObjectReference.parse (meteringModel.fcdaReference (ascii "D")
      (member "HA" (some "a.f") .mx (some 2))) =
        .ok ⟨ascii "D", ascii "M", some .mx, ascii "HA$a(2)$f"⟩ := by decide +kernel
  refine ⟨⟨⟨by decide +kernel, by decide +kernel⟩, ⟨by decide +kernel, by decide +kernel⟩, ?_⟩, ?_⟩
  · intro part hpart
    have hparts : (member "HA" (some "a.f") .mx (some 2)).parts =
        [ascii "HA", ascii "a", ascii "f"] := by decide +kernel
    have hnames : ∀ part ∈ [ascii "HA", ascii "a", ascii "f"], IsName part := by
      simp only [List.forall_mem_cons]
      exact ⟨⟨by decide, by decide⟩, ⟨by decide, by decide⟩, ⟨by decide, by decide⟩, nofun⟩
    rw [hparts] at hpart
    exact .of_isName (hnames part hpart)
  · intro r hr
    cases hparse.symm.trans hr
    decide +kernel

end Iec61850.Client
