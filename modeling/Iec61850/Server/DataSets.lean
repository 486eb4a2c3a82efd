import Iec61850.Server.Ied

/-!
# The data sets of a server

The data sets of `server/ied.rs`, engineered or created by a client, and the two services of
`server/acsi.rs` that change them: a client creates a data set, and any client deletes one that a
client has created.
-/

namespace Iec61850.Server

open Theory Mms

structure ServedDataSet where
  reference : Bytes
  members : List DataSetMember
  deletable : Bool
  deriving DecidableEq, Repr

def ServedDataSet.references (ds : ServedDataSet) : List Bytes := ds.members.map (·.reference)

/-- The data sets of an `Ied`: a map by reference. -/
structure DataSets where
  sets : List ServedDataSet
  unique : (sets.map (·.reference)).Nodup

/-- What the two services read of the model, which does not change, and of the configuration: the
logical devices, the references the tree has a node at, the leaves below a reference, and
`max_created_data_sets`. -/
structure ServedTree where
  domain : Bytes → Bool
  node : Bytes → Bool
  leavesOf : Bytes → List Bytes
  maxCreated : Nat

/-! ### Answers -/

def errorClassAccess : Nat := 7
def errorClassService : Nat := 5
def errorClassDefinition : Nat := 4

/-- `delete_scope::SPECIFIC`. -/
def deleteScopeSpecific : Int := 0

/-- The `Answer`s of the two services. -/
inductive DataSetAnswer where
  | created
  | deleted (matched deleted : Nat)
  | error (cls : Nat) (code : Int)
  deriving DecidableEq, Repr

def DataSetAnswer.notFound : DataSetAnswer := .error errorClassAccess dataAccessNonExistent

def DataSetAnswer.denied : DataSetAnswer := .error errorClassAccess dataAccessDenied

/-- `{domain}/{item}`. -/
def fullReference (domain item : Bytes) : Bytes := domain ++ ascii "/" ++ item

namespace DataSets

variable (d : DataSets)

/-! ### The map -/

/-- `Ied::data_set`. -/
def find (reference : Bytes) : Option ServedDataSet := d.sets.find? (·.reference = reference)

/-- `Ied::created_data_sets`. -/
def created : Nat := d.sets.countP (·.deletable)

theorem mem_of_find {d : DataSets} {reference : Bytes} {ds : ServedDataSet}
    (h : d.find reference = some ds) : ds ∈ d.sets ∧ ds.reference = reference :=
  ⟨List.mem_of_find?_eq_some h, by simpa using List.find?_some h⟩

theorem find_eq_none {reference : Bytes} :
    d.find reference = none ↔ reference ∉ d.sets.map (·.reference) := by
  simp [find]

/-- `Ied::create_data_set`. -/
def create (leavesOf : Bytes → List Bytes) (reference : Bytes) (members : List Bytes) :
    Except Error DataSets :=
  if h : reference ∈ d.sets.map (·.reference) then
    .error (.invalidValue "a data set of that name already exists")
  else
    let ds : ServedDataSet := ⟨reference, members.map fun m => ⟨m, leavesOf m⟩, true⟩
    .ok ⟨d.sets ++ [ds], by
      rw [List.map_append, List.nodup_append]
      refine ⟨d.unique, List.nodup_singleton _, ?_⟩
      intro r hr r' hr' heq
      rw [List.map_singleton, List.mem_singleton] at hr'
      rw [heq, hr'] at hr
      exact h hr⟩

/-- Take a data set out of the map. -/
def remove (reference : Bytes) : DataSets where
  sets := d.sets.filter (·.reference ≠ reference)
  unique := d.unique.sublist (List.filter_sublist.map _)

/-- `Ied::delete_data_set`: whether it existed, and whether it was deleted. -/
def delete (reference : Bytes) : DataSets × Bool × Bool :=
  match d.find reference with
  | none => (d, false, false)
  | some ds => if ds.deletable then (d.remove reference, true, true) else (d, true, false)

/-! ### The services -/

/-- The references of the members of a new data set, when the model has them all. -/
def memberReferences (tree : ServedTree) : List VariableSpecification → Option (List Bytes)
  | [] => some []
  | .name (.domainSpecific domain item) :: rest =>
    if tree.node (fullReference domain item) then
      (memberReferences tree rest).map (fullReference domain item :: ·)
    else none
  | _ :: _ => none

/-- `Acsi::create_data_set`. -/
def createService (tree : ServedTree) (name : ObjectName) (specs : List VariableSpecification) :
    DataSets × DataSetAnswer :=
  match name with
  | .domainSpecific domain item =>
    if ¬ tree.domain domain then (d, .notFound)
    else if tree.maxCreated ≤ d.created then (d, .denied)
    else
      match memberReferences tree specs with
      | none => (d, .notFound)
      | some [] => (d, .error errorClassDefinition 0)
      | some members =>
        match d.create tree.leavesOf (fullReference domain item) members with
        | .ok d => (d, .created)
        | .error _ => (d, .denied)
  | _ => (d, .denied)

/-- The loop of `delete_data_sets`. -/
def deleteAll : DataSets → List ObjectName → DataSets × Nat × Nat
  | d, [] => (d, 0, 0)
  | d, .domainSpecific domain item :: rest =>
    let (d, found, removed) := d.delete (fullReference domain item)
    let (d, matched, deleted) := deleteAll d rest
    (d, matched + found.toNat, deleted + removed.toNat)
  | d, _ :: rest => deleteAll d rest

/-- `Acsi::delete_data_sets`. -/
def deleteService (scope : Int) (names : List ObjectName) : DataSets × DataSetAnswer :=
  if scope ≠ deleteScopeSpecific then (d, .error errorClassService 0)
  else
    let (d, matched, deleted) := d.deleteAll names
    (d, .deleted matched deleted)

/-! ### What the services leave of a data set -/

variable {d}

variable {reference r : Bytes} {ds : ServedDataSet}

/-- A data set that is there stays what it is when another is created. -/
theorem find_create {d' : DataSets} {leavesOf : Bytes → List Bytes} {members : List Bytes}
    (h : d.create leavesOf reference members = .ok d') (hds : d.find r = some ds) :
    d'.find r = some ds := by
  unfold create at h
  split at h
  · cases h
  · cases h
    unfold find at hds ⊢
    rw [List.find?_append, hds, Option.some_or]

theorem find_createService {tree : ServedTree} {name : ObjectName}
    {specs : List VariableSpecification} (hds : d.find r = some ds) :
    (d.createService tree name specs).1.find r = some ds := by
  unfold createService
  split
  · split
    · exact hds
    · split
      · exact hds
      · split
        · exact hds
        · exact hds
        · split
          · rename_i hcreate
            exact find_create hcreate hds
          · exact hds
  · exact hds

theorem find_remove_ne (h : r ≠ reference) : (d.remove reference).find r = d.find r := by
  unfold remove find
  rw [List.find?_filter]
  congr 1
  funext ds
  by_cases hr : ds.reference = r
  · simp [hr, h]
  · simp [hr]

theorem find_delete_ne (h : r ≠ reference) : (d.delete reference).1.find r = d.find r := by
  unfold delete
  split
  · rfl
  · split
    · exact find_remove_ne h
    · rfl

theorem find_delete_engineered (hds : d.find r = some ds) (h : ds.deletable = false) :
    (d.delete reference).1.find r = some ds := by
  by_cases hr : r = reference
  · subst hr
    unfold delete
    rw [hds]
    dsimp only
    rw [h, if_neg Bool.false_ne_true]
    exact hds
  · rw [find_delete_ne hr, hds]

/-- The data set `r` is not among those that are to go. -/
def Spares (names : List ObjectName) (r : Bytes) : Prop :=
  ∀ domain item, .domainSpecific domain item ∈ names → fullReference domain item ≠ r

theorem find_deleteAll {names : List ObjectName} (hds : d.find r = some ds)
    (h : ds.deletable = false ∨ Spares names r) : (d.deleteAll names).1.find r = some ds := by
  induction names generalizing d with
  | nil => exact hds
  | cons name rest ih =>
    have hrest : ds.deletable = false ∨ Spares rest r :=
      h.imp id fun hspares domain item hmem => hspares domain item (List.mem_cons_of_mem _ hmem)
    cases name with
    | domainSpecific domain item =>
      rw [deleteAll]
      dsimp only
      apply ih _ hrest
      rcases h with hengineered | hspares
      · exact find_delete_engineered hds hengineered
      · rw [find_delete_ne (hspares domain item List.mem_cons_self).symm, hds]
    | vmdSpecific name => exact ih hds hrest
    | aaSpecific name => exact ih hds hrest

theorem find_deleteService {scope : Int} {names : List ObjectName} (hds : d.find r = some ds)
    (h : scope = deleteScopeSpecific → ds.deletable = false ∨ Spares names r) :
    (d.deleteService scope names).1.find r = some ds := by
  unfold deleteService
  split
  · exact hds
  · rename_i hscope
    exact find_deleteAll hds (h (not_not.mp hscope))

end DataSets

end Iec61850.Server
