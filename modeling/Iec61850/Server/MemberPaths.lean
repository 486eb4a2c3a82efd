import Iec61850.Server.Constraints
import Iec61850.Server.Members

/-!
# Paths through the declarations

The server looks a reference up in its tree, which is divided by functional constraint and has rules
of its own for arrays. A path is followed here in the declarations of the file, with what the tree
needs beyond them at each component, and `resolve_node` says of every path whether the tree
resolves it.
-/

namespace Iec61850.Server

open Theory Mms

/-! ### Paths through the declarations -/

namespace FcdaNode

def name : FcdaNode → Bytes
  | .object o => o.name
  | .attribute a => a.name

/-- An index goes with an array that has that element. -/
def takes (x : FcdaNode) : Option Nat → Bool
  | none => true
  | some i =>
    match x.count with
    | some n => decide (i < n)
    | none => false

/-- What is below the declaration can be named after it: it is no array, or an element of it has
been selected. -/
def opened (x : FcdaNode) (index : Option Nat) : Bool := index.isSome || x.count.isNone

/-- A declaration is published under a functional constraint: of an object something is, and an
attribute of an object belongs there. What is below an attribute goes with it. -/
def publishedAt (fc : Fc) : Option FcdaNode → FcdaNode → Bool
  | _, .object o => (objectUnder o fc).isSome
  | some (.attribute _), .attribute _ => true
  | _, .attribute a => belongsUnder a.fc fc

/-- A `PhyComAddr` whose components the file leaves to the standard. -/
def bare : FcdaNode → Bool
  | .object _ => false
  | .attribute a => a.children.isEmpty && decide (a.btype = .phyComAddr)

end FcdaNode

section Paths

variable (ln : LogicalNode) (fc : Fc)

/-- The path names declarations, and each index goes with its declaration. -/
def declares : Option FcdaNode → List Step → Bool
  | _, [] => true
  | here, s :: path =>
    match nextNode ln here s.name with
    | some x => x.takes s.index && declares (some x) path
    | none => false

/-- Every declaration on the path is published under the constraint, and every array that the path
goes on below of has its index. -/
def publishes : Option FcdaNode → List Step → Bool
  | _, [] => true
  | here, s :: path =>
    match nextNode ln here s.name with
    | some x =>
      x.publishedAt fc here && (path.isEmpty || x.opened s.index) && publishes (some x) path
    | none => false

/-- The path ends with a component that the standard, and not the file, gives a `PhyComAddr`. -/
def addresses : Option FcdaNode → List Step → Bool
  | _, [] => false
  | here, s :: path =>
    match nextNode ln here s.name with
    | some x =>
      x.takes s.index && x.publishedAt fc here && x.opened s.index && addresses (some x) path
    | none =>
      here.any FcdaNode.bare && ((phyComAddr []).child s.name).isSome && s.index.isNone &&
        path.isEmpty

/-- The declarations that a path names. -/
def chain : Option FcdaNode → List Step → Option (List FcdaNode)
  | _, [] => some []
  | here, s :: path =>
    (nextNode ln here s.name).bind fun x => (chain (some x) path).map (x :: ·)

end Paths

/-- The path names a control block or something in one. -/
def namesBlock (reservation : Bool) (ln : NodeModel) (fc : Fc) : List Step → Bool
  | [] => false
  | s :: path =>
    match findKey Variable.name s.name (blocksUnder reservation ln fc) with
    | some b => s.index.isNone && (b.resolve path).isSome
    | none => false

/-! ### Names that lead to one declaration -/

/-- Every component of the attribute, at any depth, has a name. -/
inductive DataAttribute.Named : DataAttribute → Prop where
  | intro (a : DataAttribute) (names : ∀ c ∈ a.children, c.name ≠ [])
      (below : ∀ c ∈ a.children, Named c) : Named a

/-- The names in an object, at any depth, are names and are declared once. -/
inductive DataObject.Distinct : DataObject → Prop where
  | intro (o : DataObject)
      (once : (o.subObjects.map (·.name) ++ o.attributes.map (·.name)).Nodup)
      (names : [] ∉ o.subObjects.map (·.name) ++ o.attributes.map (·.name))
      (attributes : ∀ a ∈ o.attributes, a.Named) (below : ∀ s ∈ o.subObjects, Distinct s) :
      Distinct o

def FcdaNode.Legal : FcdaNode → Prop
  | .object o => o.Distinct
  | .attribute a => a.Named

/-- The same for the objects of a logical node. -/
structure LogicalNode.Distinct (ln : LogicalNode) : Prop where
  once : (ln.dataObjects.map (·.name)).Nodup
  names : [] ∉ ln.dataObjects.map (·.name)
  objects : ∀ o ∈ ln.dataObjects, o.Distinct

theorem nextNode_eq (ln : LogicalNode) (here : Option FcdaNode) (name : Bytes) :
    nextNode ln here name =
      match here with
      | none => (findKey DataObject.name name ln.dataObjects).map .object
      | some (.object o) =>
        ((findKey DataObject.name name o.subObjects).map .object).or
          ((findKey DataAttribute.name name o.attributes).map .attribute)
      | some (.attribute a) => (findKey DataAttribute.name name a.children).map .attribute := by
  rcases here with _ | (o | a) <;> rfl

/-- A declaration leads to one of its kind. -/
theorem nextNode_legal {ln : LogicalNode} (hln : ln.Distinct) {here : Option FcdaNode} {x : FcdaNode}
    {name : Bytes} (hhere : ∀ y, here = some y → y.Legal) (h : nextNode ln here name = some x) :
    x.Legal ∧ name ≠ [] := by
  rw [nextNode_eq] at h
  rcases here with _ | (o | a)
  · obtain ⟨o, ho, rfl⟩ := Option.map_eq_some_iff.mp h
    obtain ⟨hmem, rfl⟩ := mem_of_findKey ho
    refine ⟨hln.objects o hmem, ?_⟩
    intro hname
    exact hln.names (hname ▸ List.mem_map_of_mem hmem)
  · obtain ⟨o, once, names, attributes, below⟩ := hhere _ rfl
    rcases Option.or_eq_some_iff.mp h with h | ⟨-, h⟩
    · obtain ⟨s, hs, rfl⟩ := Option.map_eq_some_iff.mp h
      obtain ⟨hmem, rfl⟩ := mem_of_findKey hs
      refine ⟨below s hmem, ?_⟩
      intro hname
      exact names (hname ▸ List.mem_append_left _ (List.mem_map_of_mem hmem))
    · obtain ⟨a, ha, rfl⟩ := Option.map_eq_some_iff.mp h
      obtain ⟨hmem, rfl⟩ := mem_of_findKey ha
      refine ⟨attributes a hmem, ?_⟩
      intro hname
      exact names (hname ▸ List.mem_append_right _ (List.mem_map_of_mem hmem))
  · obtain ⟨a, names, below⟩ := hhere _ rfl
    obtain ⟨c, hc, rfl⟩ := Option.map_eq_some_iff.mp h
    obtain ⟨hmem, rfl⟩ := mem_of_findKey hc
    exact ⟨below c hmem, names c hmem⟩

/-! ### Declarations as variables -/

namespace FcdaNode

/-- What is published under a constraint of one element of a declaration. -/
def body (fc : Fc) : FcdaNode → Variable
  | .object o => ⟨o.name, .struct,
      attributeVariables (o.attributes.filter fun a => belongsUnder a.fc fc) ++
        objectsUnder o.subObjects fc⟩
  | .attribute a =>
    if a.children.isEmpty then
      if a.btype = .phyComAddr then phyComAddr a.name else ⟨a.name, .leaf a.btype, []⟩
    else ⟨a.name, .struct, attributeVariables a.children⟩

/-- And of the declaration. -/
def toVariable (fc : Fc) (x : FcdaNode) : Variable := counted x.name (x.body fc) x.count

theorem name_body (fc : Fc) (x : FcdaNode) : (x.body fc).name = x.name := by
  rcases x with o | a
  · rfl
  · rw [body]
    split
    · split <;> rfl
    · rfl

theorem arrayLen_body (fc : Fc) (x : FcdaNode) : (x.body fc).arrayLen = none := by
  rcases x with o | a
  · rfl
  · rw [body]
    split
    · split <;> rfl
    · rfl

theorem name_toVariable (fc : Fc) (x : FcdaNode) : (x.toVariable fc).name = x.name := by
  rw [toVariable]
  cases x.count with
  | none => exact name_body fc x
  | some n => rfl

end FcdaNode

theorem attributeVariable_eq (fc : Fc) (a : DataAttribute) :
    attributeVariable a = (FcdaNode.attribute a).toVariable fc := by
  obtain ⟨name, fc, btype, children, groupValues, count⟩ := a
  rfl

theorem objectUnder_eq (o : DataObject) (fc : Fc) : objectUnder o fc =
      if ((FcdaNode.object o).body fc).children = [] then none
      else some ((FcdaNode.object o).toVariable fc) := by
  obtain ⟨name, attributes, subObjects, count⟩ := o
  rw [objectUnder]
  simp only [List.isEmpty_iff]
  rfl

theorem objectUnder_of_isSome {o : DataObject} {fc : Fc} (h : (objectUnder o fc).isSome = true) :
    objectUnder o fc = some ((FcdaNode.object o).toVariable fc) := by
  rw [objectUnder_eq] at h ⊢
  split
  · rename_i hempty
    rw [if_pos hempty] at h
    cases h
  · rfl

theorem findKey_attributeVariables (fc : Fc) (name : Bytes) (as : List DataAttribute) :
    findKey Variable.name name (attributeVariables as) =
      (findKey DataAttribute.name name as).map fun a => (FcdaNode.attribute a).toVariable fc := by
  induction as with
  | nil => rfl
  | cons a as ih =>
    rw [attributeVariables, findKey_cons, findKey_cons, attributeVariable_eq fc,
      FcdaNode.name_toVariable, ih]
    change (if a.name = name then _ else _) = _
    split <;> rfl

/-- Of the objects of a name the first is the one, so that the name is under the constraint when it
is. -/
theorem findKey_objectsUnder (fc : Fc) (name : Bytes) {os : List DataObject}
    (hnodup : (os.map (·.name)).Nodup) : findKey Variable.name name (objectsUnder os fc) =
      (findKey DataObject.name name os).bind fun o => objectUnder o fc := by
  induction os with
  | nil => rfl
  | cons o os ih =>
    rw [List.map_cons, List.nodup_cons] at hnodup
    rw [objectsUnder, findKey_append, ih hnodup.2, findKey_cons]
    have hfirst : findKey Variable.name name (objectUnder o fc).toList =
        if o.name = name then objectUnder o fc else none := by
      rw [objectUnder_eq]
      split
      · rw [ite_self]
        rfl
      · rw [Option.toList_some, findKey_cons, FcdaNode.name_toVariable]
        rfl
    rw [hfirst]
    by_cases hname : o.name = name
    · rw [if_pos hname, if_pos hname, Option.bind_some]
      have hnone : findKey DataObject.name name os = none := by
        rw [findKey_eq_none]
        intro o' ho' hname'
        exact hnodup.1 (hname.trans hname'.symm ▸ List.mem_map_of_mem ho')
      rw [hnone]
      exact Option.or_none
    · rw [if_neg hname, if_neg hname]
      exact Option.none_or

/-! ### One component -/

theorem child_of_arrayLen {v : Variable} (h : v.arrayLen = none) (name : Bytes) :
    v.child name = findKey Variable.name name v.children := by
  rw [Variable.child, h]
  rfl

/-- What a component of a declaration is in the tree. -/
theorem child_body (ln : LogicalNode) (fc : Fc) {x : FcdaNode} (hx : x.Legal) (name : Bytes) :
    (x.body fc).child name =
      match nextNode ln (some x) name with
      | some y => if y.publishedAt fc (some x) then some (y.toVariable fc) else none
      | none => if x.bare then (phyComAddr []).child name else none := by
  rw [child_of_arrayLen (x.arrayLen_body fc), nextNode_eq]
  rcases x with o | a
  · obtain ⟨o, once, -, -, -⟩ := hx
    rw [List.nodup_append] at once
    obtain ⟨hsubs, hattributes, hapart⟩ := once
    change findKey Variable.name name (_ ++ _) = _
    rw [findKey_append, findKey_attributeVariables fc, findKey_objectsUnder fc name hsubs,
      findKey_filter hattributes]
    dsimp only
    cases hsub : findKey DataObject.name name o.subObjects with
    | some s =>
      obtain ⟨hmem, rfl⟩ := mem_of_findKey hsub
      have hnone : findKey DataAttribute.name s.name o.attributes = none := by
        rw [findKey_eq_none]
        intro a ha hname
        exact hapart s.name (List.mem_map_of_mem hmem) a.name (List.mem_map_of_mem ha) hname.symm
      rw [hnone]
      change objectUnder s fc = if (objectUnder s fc).isSome = true then _ else _
      split
      · rename_i hsome
        exact objectUnder_of_isSome hsome
      · rename_i hnone
        simpa using hnone
    | none =>
      cases hattribute : findKey DataAttribute.name name o.attributes with
      | none => rfl
      | some a =>
        change ((Option.filter _ (some a)).map _).or none =
          if belongsUnder a.fc fc = true then _ else _
        rw [Option.or_none, Option.filter]
        split <;> rfl
  · obtain ⟨own, declared, btype, children, groupValues, count⟩ := a
    cases children with
    | nil =>
      by_cases hphy : btype = .phyComAddr
      · simp only [FcdaNode.body, FcdaNode.bare, hphy]
        rfl
      · simp only [FcdaNode.body, FcdaNode.bare, hphy]
        rfl
    | cons c children =>
      change findKey Variable.name name (attributeVariables (c :: children)) = _
      rw [findKey_attributeVariables fc]
      dsimp only
      cases findKey DataAttribute.name name (c :: children) <;> rfl

/-- What an index of a component selects, and what is below it. -/
theorem resolve_toVariable (fc : Fc) (y : FcdaNode) (index : Option Nat) (path : List Step) :
    (match index with
      | none => (y.toVariable fc).resolve path
      | some i => ((y.toVariable fc).elementAt i).bind fun e => e.resolve path).isSome =
      (y.takes index &&
        if y.opened index then ((y.body fc).resolve path).isSome else path.isEmpty) := by
  rw [FcdaNode.toVariable]
  cases hcount : y.count with
  | none =>
    cases index with
    | none =>
      simp only [FcdaNode.takes, FcdaNode.opened, hcount]
      rfl
    | some i =>
      simp only [FcdaNode.takes, hcount, counted, Variable.elementAt, y.arrayLen_body fc]
      rfl
  | some n =>
    cases index with
    | none =>
      simp only [FcdaNode.takes, FcdaNode.opened, hcount]
      cases path with
      | nil => rfl
      | cons s path => rfl
    | some i =>
      simp only [FcdaNode.takes, FcdaNode.opened, hcount, counted, Variable.elementAt,
        Variable.arrayLen]
      by_cases hi : i < n
      · rw [if_pos hi]
        simp [hi, Variable.element, Variable.arrayLen]
      · rw [if_neg hi]
        simp [hi]

/-! ### Whole paths -/

theorem resolve_cons_eq (v : Variable) (s : Step) (path : List Step) :
    v.resolve (s :: path) = (v.child s.name).bind fun c =>
      match s.index with
      | none => c.resolve path
      | some i => (c.elementAt i).bind fun e => e.resolve path := by
  rw [Variable.resolve]
  cases v.child s.name with
  | none => rfl
  | some c =>
    cases s.index with
    | none => rfl
    | some i => cases h : c.elementAt i <;> simp [h]

theorem leaf_of_phyComAddr {name : Bytes} {c : Variable}
    (h : (phyComAddr []).child name = some c) : ∃ btype, c = ⟨c.name, .leaf btype, []⟩ := by
  obtain ⟨-, hmem, -⟩ := Variable.mem_children_of_child h
  simp only [phyComAddr, List.mem_cons, List.not_mem_nil, or_false] at hmem
  rcases hmem with rfl | rfl | rfl | rfl
  · exact ⟨_, rfl⟩
  · exact ⟨_, rfl⟩
  · exact ⟨_, rfl⟩
  · exact ⟨_, rfl⟩

/-- What the rest of a path needs after a declaration, in the terms of the whole path. -/
theorem rest_eq (takes opened declared published addressed : Bool) (path : List Step)
    (hdeclared : path = [] → declared = true) (hpublished : path = [] → published = true)
    (haddressed : path = [] → addressed = false) :
    (takes && if opened then declared && published || addressed else path.isEmpty) =
      (takes && declared && (true && (path.isEmpty || opened) && published) ||
        takes && true && opened && addressed) := by
  cases path with
  | nil =>
    rw [hdeclared rfl, hpublished rfl, haddressed rfl]
    cases takes <;> cases opened <;> rfl
  | cons s path =>
    cases takes <;> cases opened <;> simp

/-- A component that the file declares and the tree has. -/
theorem resolve_next {ln : LogicalNode} (fc : Fc) {here : Option FcdaNode} {y : FcdaNode} {s : Step} {path : List Step}
    (hnext : nextNode ln here s.name = some y) (hpublished : y.publishedAt fc here = true)
    (hrest : ((y.body fc).resolve path).isSome =
      (declares ln (some y) path && publishes ln fc (some y) path || addresses ln fc (some y) path)) :
    (match s.index with
      | none => (y.toVariable fc).resolve path
      | some i => ((y.toVariable fc).elementAt i).bind fun e => e.resolve path).isSome =
      (declares ln here (s :: path) && publishes ln fc here (s :: path) ||
        addresses ln fc here (s :: path)) := by
  rw [resolve_toVariable, hrest, declares, publishes, addresses, hnext]
  dsimp only
  rw [hpublished]
  apply rest_eq
  · rintro rfl
    rfl
  · rintro rfl
    rfl
  · rintro rfl
    rfl

section Resolved

variable {ln : LogicalNode} (hln : ln.Distinct) (fc : Fc)

include hln

/-- Below a declaration, by induction on the path. -/
theorem resolve_body {x : FcdaNode} (hx : x.Legal) (path : List Step) :
    ((x.body fc).resolve path).isSome =
      (declares ln (some x) path && publishes ln fc (some x) path ||
        addresses ln fc (some x) path) := by
  induction path generalizing x with
  | nil => rfl
  | cons s path ih =>
    rw [resolve_cons_eq, child_body ln fc hx]
    cases hnext : nextNode ln (some x) s.name with
    | some y =>
      dsimp only
      have hy := nextNode_legal hln (fun z hz => Option.some.inj hz ▸ hx) hnext
      by_cases hpublished : y.publishedAt fc (some x) = true
      · rw [if_pos hpublished, Option.bind_some]
        exact resolve_next fc hnext hpublished (ih hy.1)
      · rw [if_neg hpublished, Option.bind_none, publishes, addresses, hnext]
        simp [hpublished]
    | none =>
      dsimp only
      rw [declares, addresses, hnext]
      dsimp only
      rw [Bool.false_and, Bool.false_or, Option.any_some]
      by_cases hbare : x.bare = true
      · rw [if_pos hbare, hbare]
        cases hchild : (phyComAddr []).child s.name with
        | none => rfl
        | some c =>
          obtain ⟨btype, hc⟩ := leaf_of_phyComAddr hchild
          rw [Option.bind_some, hc]
          cases s.index with
          | some i => rfl
          | none =>
            cases path with
            | nil => rfl
            | cons s path => rfl
      · rw [if_neg hbare, Option.bind_none]
        simp [hbare]

end Resolved

theorem controlBlocks_kind (reservation : Bool) (ln : NodeModel) :
    ∀ b ∈ controlBlocks reservation ln, b.2.kind = .struct := by
  intro b hb
  rw [controlBlocks] at hb
  simp only [List.mem_append] at hb
  rcases hb with (((hb | hb) | hb) | hb) | hb
  · obtain ⟨rcb, -, hb⟩ := List.mem_flatMap.mp hb
    obtain ⟨name, -, rfl⟩ := List.mem_map.mp hb
    rfl
  · obtain ⟨lcb, -, rfl⟩ := List.mem_map.mp hb
    rfl
  · obtain ⟨gcb, -, rfl⟩ := List.mem_map.mp hb
    rfl
  · obtain ⟨scb, -, rfl⟩ := List.mem_map.mp hb
    rfl
  · obtain ⟨sg, -, rfl⟩ := List.mem_map.mp hb
    rfl

/-- No data object goes by the name of a control block under the constraint. -/
def Apart (reservation : Bool) (ln : NodeModel) (fc : Fc) : Prop :=
  ∀ o ∈ ln.dataObjects, ∀ b ∈ blocksUnder reservation ln fc, b.name ≠ o.name

/-- What the tree resolves under a functional constraint of a logical node. -/
theorem resolve_node {reservation : Bool} {ln : NodeModel} {fc : Fc}
    (hln : ln.toLogicalNode.Distinct) (hapart : Apart reservation ln fc) (s : Step)
    (path : List Step) :
    ((nodeVariable reservation ln).resolve (⟨fc.asStr, none⟩ :: s :: path)).isSome =
      (declares ln.toLogicalNode none (s :: path) && publishes ln.toLogicalNode fc none (s :: path) ||
        addresses ln.toLogicalNode fc none (s :: path) || namesBlock reservation ln fc (s :: path)) := by
  rw [nodeVariable_resolve, resolve_cons_eq, child_of_arrayLen rfl]
  dsimp only
  rw [nodeBody, findKey_append, findKey_objectsUnder fc s.name hln.once, namesBlock]
  have hnode := nextNode_eq ln.toLogicalNode none s.name
  dsimp only at hnode
  cases hobject : findKey DataObject.name s.name ln.dataObjects with
  | some o =>
    rw [hobject] at hnode
    obtain ⟨hmem, hname⟩ := mem_of_findKey hobject
    have hblock : findKey Variable.name s.name (blocksUnder reservation ln fc) = none := by
      rw [findKey_eq_none]
      intro b hb hbname
      exact hapart o hmem b hb (hbname.trans hname.symm)
    rw [hblock, Option.or_none, Option.bind_some, Bool.or_false]
    by_cases hpublished : (objectUnder o fc).isSome = true
    · rw [objectUnder_of_isSome hpublished, Option.bind_some]
      exact resolve_next fc hnode hpublished
        (resolve_body hln fc (x := .object o) (hln.objects o hmem) path)
    · rw [Option.not_isSome_iff_eq_none] at hpublished
      rw [hpublished, Option.bind_none, publishes, addresses, hnode]
      simp [FcdaNode.publishedAt, hpublished]
  | none =>
    rw [hobject] at hnode
    rw [Option.bind_none, Option.none_or, declares, addresses, hnode, Option.map_none]
    dsimp only
    rw [Bool.false_and, Bool.false_or, Option.any_none, Bool.false_and, Bool.false_and,
      Bool.false_and, Bool.false_or]
    cases hblock : findKey Variable.name s.name (blocksUnder reservation ln fc) with
    | none => rfl
    | some b =>
      have hkind : b.arrayLen = none := by
        obtain ⟨e, he, rfl⟩ := List.mem_map.mp (mem_of_findKey hblock).1
        rw [Variable.arrayLen, controlBlocks_kind reservation ln e (List.mem_of_mem_filter he)]
      rw [Option.bind_some]
      cases s.index with
      | none => rfl
      | some i =>
        have hnone : b.elementAt i = none := by rw [Variable.elementAt, hkind]
        dsimp only
        rw [hnone]
        rfl

end Iec61850.Server
