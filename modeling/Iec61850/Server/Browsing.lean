import Iec61850.Server.MemberPaths
import Iec61850.Server.Spellings

/-!
# The names of a domain

`Domain::variable_names` of `server/tree.rs` against `Domain::resolve`. The list is written by
one traversal of the tree, which joins names, and a name is looked up by another, which takes
them apart. Both are brought to the paths of the tree: a path leads from name to name and ends
at an array at the latest.
-/

namespace Iec61850.Server

open Theory

/-! ### The list -/

mutual

/-- `push_names`: a name, and below it the names of the components; nothing below an array. -/
def pushNames : Variable → Bytes → List Bytes
  | ⟨_, .array _, _⟩, here => [here]
  | ⟨_, .struct, children⟩, here => here :: pushChildren children here
  | ⟨_, .leaf _, children⟩, here => here :: pushChildren children here

/-- The components of a name. -/
def pushChildren : List Variable → Bytes → List Bytes
  | [], _ => []
  | c :: cs, here => pushNames c (here ++ sep :: c.name) ++ pushChildren cs here

end

def Domain.variableNames (d : Domain) : List Bytes :=
  (d.nodes.flatMap fun n => pushNames n n.name).mergeSort fun a b => decide (a ≤ b)

/-! ### Paths -/

mutual

/-- The paths from a variable down to the arrays. -/
def Variable.paths : Variable → List (List Bytes)
  | ⟨_, .array _, _⟩ => [[]]
  | ⟨_, .struct, children⟩ => [] :: pathsThrough children
  | ⟨_, .leaf _, children⟩ => [] :: pathsThrough children

/-- The paths that begin with one of these. -/
def pathsThrough : List Variable → List (List Bytes)
  | [] => []
  | c :: cs => c.paths.map (c.name :: ·) ++ pathsThrough cs

end

/-- A name that can stand between separators without an index. -/
def PlainName (name : Bytes) : Prop := sep ∉ name ∧ openParen ∉ name

/-- The names at each level of a tree are plain and different from each other. -/
inductive Variable.Browsable : Variable → Prop where
  | intro (v : Variable) (once : (v.children.map (·.name)).Nodup)
      (names : ∀ c ∈ v.children, PlainName c.name) (below : ∀ c ∈ v.children, Browsable c) :
      Browsable v

/-- The text of a path behind a name. -/
def nameAlong (here : Bytes) (path : List Bytes) : Bytes :=
  here ++ path.flatMap fun name => sep :: name

theorem nameAlong_cons (here name : Bytes) (path : List Bytes) :
    nameAlong here (name :: path) = nameAlong (here ++ sep :: name) path := by
  simp [nameAlong]

mutual

/-- The list of names is the list of paths. -/
theorem pushNames_eq : ∀ (v : Variable) (here : Bytes),
    pushNames v here = v.paths.map (nameAlong here)
  | ⟨_, .array _, _⟩, here => by simp [pushNames, Variable.paths, nameAlong]
  | ⟨_, .struct, children⟩, here => by
      rw [pushNames, Variable.paths, pushChildren_eq children here]
      simp [nameAlong]
  | ⟨_, .leaf _, children⟩, here => by
      rw [pushNames, Variable.paths, pushChildren_eq children here]
      simp [nameAlong]

theorem pushChildren_eq : ∀ (cs : List Variable) (here : Bytes),
    pushChildren cs here = (pathsThrough cs).map (nameAlong here)
  | [], here => rfl
  | c :: cs, here => by
      rw [pushChildren, pathsThrough, pushNames_eq c, pushChildren_eq cs, List.map_append,
        List.map_map]
      congr 1
      apply List.map_congr_left
      intro path _
      exact (nameAlong_cons here c.name path).symm

end

theorem paths_eq (v : Variable) :
    v.paths = [] :: match v.arrayLen with
      | some _ => []
      | none => pathsThrough v.children := by
  obtain ⟨name, kind, children⟩ := v
  cases kind <;> rfl

variable {cs : List Variable} {path : List Bytes} {v : Variable}

theorem mem_pathsThrough :
    path ∈ pathsThrough cs ↔ ∃ c ∈ cs, ∃ rest ∈ c.paths, path = c.name :: rest := by
  induction cs with
  | nil => simp [pathsThrough]
  | cons c cs ih =>
    rw [pathsThrough, List.mem_append, ih, List.mem_map, List.exists_mem_cons_iff]
    simp only [eq_comm]

theorem mem_paths_iff (h : v.Browsable) :
    path ∈ v.paths ↔ (v.resolve (path.map fun name => ⟨name, none⟩)).isSome = true := by
  induction path generalizing v with
  | nil => simp [paths_eq, Variable.resolve]
  | cons name path ih =>
    obtain ⟨_, once, -, below⟩ := h
    rw [paths_eq, List.map_cons, Variable.resolve]
    dsimp only
    cases harray : v.arrayLen with
    | some n => simp [Variable.child, harray]
    | none =>
      rw [child_of_arrayLen harray]
      simp only [List.mem_cons, reduceCtorEq, false_or, mem_pathsThrough]
      constructor
      · rintro ⟨c, hc, rest, hrest, heq⟩
        obtain ⟨rfl, rfl⟩ := List.cons.inj heq
        rw [findKey_of_mem once hc rfl]
        exact (ih (below c hc)).mp hrest
      · intro hsome
        cases hfind : findKey Variable.name name v.children with
        | none =>
          rw [hfind] at hsome
          cases hsome
        | some c =>
          obtain ⟨hc, rfl⟩ := mem_of_findKey hfind
          rw [hfind] at hsome
          exact ⟨c, hc, path, (ih (below c hc)).mpr hsome, rfl⟩

theorem plain_of_mem_paths (h : v.Browsable) (hpath : path ∈ v.paths) :
    ∀ name ∈ path, PlainName name := by
  induction path generalizing v with
  | nil => simp
  | cons name path ih =>
    obtain ⟨_, -, names, below⟩ := h
    rw [paths_eq] at hpath
    split at hpath
    · simp at hpath
    · simp only [List.mem_cons, reduceCtorEq, false_or, mem_pathsThrough] at hpath
      obtain ⟨c, hc, rest, hrest, heq⟩ := hpath
      obtain ⟨rfl, rfl⟩ := List.cons.inj heq
      rw [List.forall_mem_cons]
      exact ⟨names c hc, ih (below c hc) hrest⟩

theorem nodup_pathsThrough (once : (cs.map (·.name)).Nodup) (h : ∀ c ∈ cs, c.paths.Nodup) :
    (pathsThrough cs).Nodup := by
  induction cs with
  | nil => exact List.nodup_nil
  | cons c cs ih =>
    rw [List.map_cons, List.nodup_cons] at once
    rw [List.forall_mem_cons] at h
    rw [pathsThrough, List.nodup_append]
    refine ⟨h.1.map (List.cons_injective), ih once.2 h.2, ?_⟩
    rintro a ha b hb rfl
    obtain ⟨rest, -, rfl⟩ := List.mem_map.mp ha
    obtain ⟨c', hc', rest', -, heq⟩ := mem_pathsThrough.mp hb
    apply once.1
    rw [(List.cons.inj heq).1]
    exact List.mem_map_of_mem hc'

theorem nodup_paths (h : v.Browsable) : v.paths.Nodup := by
  induction h with
  | intro v once names below ih =>
    rw [paths_eq, List.nodup_cons]
    split
    · exact ⟨List.not_mem_nil, List.nodup_nil⟩
    · refine ⟨?_, nodup_pathsThrough once ih⟩
      intro hnil
      obtain ⟨c, -, rest, -, heq⟩ := mem_pathsThrough.mp hnil
      cases heq

/-! ### Domains -/

/-- The logical nodes of a domain, and the names below them. -/
structure Domain.Browsable (d : Domain) : Prop where
  once : (d.nodes.map (·.name)).Nodup
  names : ∀ n ∈ d.nodes, PlainName n.name
  below : ∀ n ∈ d.nodes, n.Browsable

/-- No part of an item name carries an index. -/
def WithoutIndex (item : Bytes) : Prop := ∀ part ∈ item.splitOn sep, (stepOf part).index = none

theorem stepOf_of_index {part : Bytes} (h : (stepOf part).index = none) :
    stepOf part = ⟨part, none⟩ := by
  have hname := stepOf_name h
  generalize stepOf part = s at h hname ⊢
  obtain ⟨name, index⟩ := s
  dsimp only at h hname
  rw [h, hname]

section Domain

variable {d : Domain}

/-- The text of a whole path, from the logical node on. -/
def pathText : List Bytes → Bytes
  | [] => []
  | ln :: path => nameAlong ln path

theorem Domain.variableNames_perm (d : Domain) :
    d.variableNames.Perm ((pathsThrough d.nodes).map pathText) := by
  refine (List.mergeSort_perm _ _).trans (List.Perm.of_eq ?_)
  induction d.nodes with
  | nil => rfl
  | cons n nodes ih =>
    rw [List.flatMap_cons, ih, pushNames_eq, pathsThrough, List.map_append, List.map_map]
    rfl

variable {item : Bytes} {path : List Bytes}

theorem Domain.mem_variableNames :
    item ∈ d.variableNames ↔ ∃ n ∈ d.nodes, ∃ path ∈ n.paths, item = nameAlong n.name path := by
  rw [d.variableNames_perm.mem_iff, List.mem_map]
  constructor
  · rintro ⟨path, hpath, rfl⟩
    obtain ⟨n, hn, rest, hrest, rfl⟩ := mem_pathsThrough.mp hpath
    exact ⟨n, hn, rest, hrest, rfl⟩
  · rintro ⟨n, hn, path, hpath, rfl⟩
    exact ⟨n.name :: path, mem_pathsThrough.mpr ⟨n, hn, path, hpath, rfl⟩, rfl⟩

theorem Domain.Browsable.splitOn_nameAlong (h : d.Browsable) {n : Variable} (hn : n ∈ d.nodes)
    (hpath : path ∈ n.paths) : (nameAlong n.name path).splitOn sep = n.name :: path :=
  ObjectReference.splitOn_joined (h.names n hn).1
    fun name hname => (plain_of_mem_paths (h.below n hn) hpath name hname).1

theorem Domain.Browsable.resolve_named_iff (h : d.Browsable) (hitem : WithoutIndex item) :
    (d.resolve item).isSome = true ↔ item ∈ d.variableNames := by
  rw [Domain.mem_variableNames]
  cases hsplit : item.splitOn sep with
  | nil => exact absurd hsplit (List.splitOnP_ne_nil _ _)
  | cons ln parts =>
    have hjoined : item = nameAlong ln parts := joined_of_splitOn hsplit
    have hsteps : parts.map stepOf = parts.map fun name => ⟨name, none⟩ := by
      apply List.map_congr_left
      intro part hpart
      apply stepOf_of_index
      apply hitem
      rw [hsplit]
      exact List.mem_cons_of_mem _ hpart
    rw [Domain.resolve, hsplit]
    dsimp only
    rw [hsteps]
    constructor
    · intro hsome
      cases hnode : d.node ln with
      | none =>
        rw [hnode] at hsome
        cases hsome
      | some n =>
        rw [hnode] at hsome
        obtain ⟨hn, rfl⟩ : n ∈ d.nodes ∧ n.name = ln := mem_of_findKey hnode
        exact ⟨n, hn, parts, (mem_paths_iff (h.below n hn)).mpr hsome, hjoined⟩
    · rintro ⟨n, hn, path, hpath, heq⟩
      rw [heq, h.splitOn_nameAlong hn hpath] at hsplit
      obtain ⟨rfl, rfl⟩ := List.cons.inj hsplit
      have hnode : d.node n.name = some n := findKey_of_mem h.once hn rfl
      rw [hnode]
      exact (mem_paths_iff (h.below n hn)).mp hpath

theorem Domain.Browsable.nodup (h : d.Browsable) : d.variableNames.Nodup := by
  rw [d.variableNames_perm.nodup_iff]
  have hpaths : (pathsThrough d.nodes).Nodup :=
    nodup_pathsThrough h.once fun n hn => nodup_paths (h.below n hn)
  have hread : ∀ path ∈ pathsThrough d.nodes, (pathText path).splitOn sep = path := by
    intro path hpath
    obtain ⟨n, hn, rest, hrest, rfl⟩ := mem_pathsThrough.mp hpath
    exact h.splitOn_nameAlong hn hrest
  apply List.Nodup.map_on _ hpaths
  intro a ha b hb heq
  rw [← hread a ha, heq, hread b hb]

theorem Domain.Browsable.sorted (h : d.Browsable) : d.variableNames.Pairwise (· < ·) := by
  have hle : d.variableNames.Pairwise fun a b => decide (a ≤ b) = true := by
    apply List.pairwise_mergeSort
    · intro a b c hab hbc
      rw [decide_eq_true_eq] at hab hbc ⊢
      exact List.le_trans hab hbc
    · intro a b
      simp only [Bool.or_eq_true, decide_eq_true_eq]
      exact List.le_total a b
  refine (hle.and h.nodup).imp ?_
  rintro a b ⟨hab, hne⟩
  rw [decide_eq_true_eq] at hab
  exact (List.le_iff_lt_or_eq.mp hab).resolve_right hne

/-- What a path goes on from is no array. -/
theorem resolve_above {v : Variable} (h : v.Browsable) {rest : List Bytes} (hrest : rest ≠ [])
    (hpath : path ++ rest ∈ v.paths) :
    ∃ w, v.resolve (path.map fun name => ⟨name, none⟩) = some w ∧ w.arrayLen = none := by
  induction path generalizing v with
  | nil =>
    refine ⟨v, rfl, ?_⟩
    rw [List.nil_append, paths_eq, List.mem_cons] at hpath
    cases harray : v.arrayLen with
    | none => rfl
    | some n => simp [harray, hrest] at hpath
  | cons name path ih =>
    obtain ⟨_, once, -, below⟩ := h
    rw [List.cons_append, paths_eq] at hpath
    split at hpath
    · simp at hpath
    · rename_i harray
      simp only [List.mem_cons, reduceCtorEq, false_or, mem_pathsThrough] at hpath
      obtain ⟨c, hc, path', hpath', heq⟩ := hpath
      obtain ⟨rfl, rfl⟩ := List.cons.inj heq
      obtain ⟨w, hw, hnone⟩ := ih (below c hc) hpath'
      refine ⟨w, ?_, hnone⟩
      rw [List.map_cons, Variable.resolve, child_of_arrayLen harray, findKey_of_mem once hc rfl]
      exact hw

theorem Domain.Browsable.arrayLen_above (h : d.Browsable) {above rest : Bytes}
    (hname : above ++ sep :: rest ∈ d.variableNames) :
    ∃ v, d.resolve above = some v ∧ v.arrayLen = none := by
  obtain ⟨n, hn, path, hpath, heq⟩ := Domain.mem_variableNames.mp hname
  have hsplit : above.splitOn sep ++ rest.splitOn sep = n.name :: path := by
    rw [← List.splitOn_append_cons_self, heq]
    exact h.splitOn_nameAlong hn hpath
  cases habove : above.splitOn sep with
  | nil => exact absurd habove (List.splitOnP_ne_nil _ _)
  | cons ln parts =>
    rw [habove] at hsplit
    obtain ⟨rfl, rfl⟩ := List.cons.inj hsplit
    obtain ⟨w, hw, hnone⟩ :=
      resolve_above (h.below n hn) (List.splitOnP_ne_nil _ _) hpath
    refine ⟨w, ?_, hnone⟩
    have hsteps : parts.map stepOf = parts.map fun name => ⟨name, none⟩ := by
      apply List.map_congr_left
      intro part hpart
      apply stepOf_of_not_mem
      exact (plain_of_mem_paths (h.below n hn) hpath part (List.mem_append_left _ hpart)).2
    have hnode : d.node n.name = some n := findKey_of_mem h.once hn rfl
    rw [Domain.resolve, habove]
    dsimp only
    rw [hnode, hsteps]
    exact hw

theorem Domain.Browsable.openParen_not_mem (h : d.Browsable) (hitem : item ∈ d.variableNames) :
    openParen ∉ item := by
  obtain ⟨n, hn, path, hpath, rfl⟩ := Domain.mem_variableNames.mp hitem
  rw [nameAlong, List.mem_append, List.mem_flatMap, not_or]
  refine ⟨(h.names n hn).2, ?_⟩
  rintro ⟨name, hname, hmem⟩
  rcases List.mem_cons.mp hmem with hsep | hmem
  · cases hsep
  · exact (plain_of_mem_paths (h.below n hn) hpath name hname).2 hmem

end Domain

/-! ### The domains of a model -/

instance : DecidablePred PlainName := fun name =>
  inferInstanceAs (Decidable (sep ∉ name ∧ openParen ∉ name))

/-- The components of an attribute, at any depth, have plain names that are different from each
other. -/
inductive DataAttribute.WellNamed : DataAttribute → Prop where
  | intro (a : DataAttribute) (once : (a.children.map (·.name)).Nodup)
      (names : ∀ c ∈ a.children, PlainName c.name) (below : ∀ c ∈ a.children, WellNamed c) :
      WellNamed a

/-- The same for the attributes and sub data objects of a data object. -/
inductive DataObject.WellNamed : DataObject → Prop where
  | intro (o : DataObject)
      (once : (o.attributes.map (·.name) ++ o.subObjects.map (·.name)).Nodup)
      (attributeNames : ∀ a ∈ o.attributes, PlainName a.name)
      (objectNames : ∀ s ∈ o.subObjects, PlainName s.name)
      (attributes : ∀ a ∈ o.attributes, a.WellNamed) (below : ∀ s ∈ o.subObjects, WellNamed s) :
      WellNamed o

/-- The same for the data objects of a logical node, and for the control blocks that are under a
constraint with them. -/
structure NodeModel.WellNamed (reservation : Bool) (ln : NodeModel) : Prop where
  objectsOnce : (ln.dataObjects.map (·.name)).Nodup
  blocksOnce : ∀ fc, ((blocksUnder reservation ln fc).map (·.name)).Nodup
  apart : ∀ fc, ∀ v ∈ objectsUnder ln.dataObjects fc, ∀ b ∈ blocksUnder reservation ln fc,
    v.name ≠ b.name
  objectNames : ∀ o ∈ ln.dataObjects, PlainName o.name
  blockNames : ∀ b ∈ controlBlocks reservation ln, PlainName b.2.name
  objects : ∀ o ∈ ln.dataObjects, o.WellNamed

/-- The same for the logical nodes of a device. -/
structure DeviceModel.WellNamed (reservation : Bool) (ld : DeviceModel) : Prop where
  once : (ld.nodes.map (·.name)).Nodup
  names : ∀ ln ∈ ld.nodes, PlainName ln.name
  nodes : ∀ ln ∈ ld.nodes, NodeModel.WellNamed reservation ln

theorem leaves_browsable {components : List (Bytes × BType)} :
    ∀ v ∈ leaves components, v.Browsable := by
  intro v hv
  obtain ⟨c, -, rfl⟩ := List.mem_map.mp hv
  exact .intro _ List.nodup_nil nofun nofun

/-- A structure whose components have plain names that are different from each other. -/
theorem struct_browsable (name : Bytes) {children : List Variable}
    (once : (children.map (·.name)).Nodup) (names : ∀ n ∈ children.map (·.name), PlainName n)
    (below : ∀ c ∈ children, c.Browsable) : Variable.Browsable ⟨name, .struct, children⟩ :=
  .intro _ once (fun c hc => names c.name (List.mem_map_of_mem hc)) below

theorem phyComAddr_browsable (name : Bytes) : (phyComAddr name).Browsable := by
  apply struct_browsable
  · decide
  · decide
  · exact @leaves_browsable [(ascii "Addr", .octet6), (ascii "PRIORITY", .int8U),
      (ascii "VID", .int16U), (ascii "APPID", .int16U)]

theorem counted_browsable {name : Bytes} {element : Variable} (hplain : PlainName element.name)
    (h : element.Browsable) (count : Option Nat) : (counted name element count).Browsable := by
  cases count with
  | none => exact h
  | some n =>
    apply Variable.Browsable.intro
    · exact List.nodup_singleton _
    · simpa [counted] using hplain
    · simpa [counted] using h

theorem names_attributeVariables (as : List DataAttribute) :
    (attributeVariables as).map (·.name) = as.map (·.name) := by
  induction as with
  | nil => rfl
  | cons a as ih =>
    rw [attributeVariables, List.map_cons, ih, attributeVariable_eq .st, FcdaNode.name_toVariable]
    rfl

theorem names_objectsUnder (os : List DataObject) (fc : Fc) :
    ((objectsUnder os fc).map (·.name)).Sublist (os.map (·.name)) := by
  induction os with
  | nil => exact List.Sublist.refl _
  | cons o os ih =>
    rw [objectsUnder, objectUnder_eq, List.map_append, List.map_cons]
    split
    · exact ih.cons _
    · rw [Option.toList_some, List.map_singleton, FcdaNode.name_toVariable]
      exact ih.cons_cons _

theorem DataAttribute.WellNamed.browsable {a : DataAttribute} (hplain : PlainName a.name)
    (h : a.WellNamed) : (attributeVariable a).Browsable := by
  induction h with
  | intro a once names below ih =>
    rw [attributeVariable_eq .st]
    apply counted_browsable
    · rw [FcdaNode.name_body]
      exact hplain
    · rw [FcdaNode.body]
      split
      · split
        · exact phyComAddr_browsable a.name
        · exact .intro _ List.nodup_nil (by simp) (by simp)
      · apply struct_browsable
        · rw [names_attributeVariables]
          exact once
        · rw [names_attributeVariables]
          exact List.forall_mem_map.mpr names
        · intro v hv
          obtain ⟨c, hc, rfl⟩ := mem_attributeVariables.mp hv
          exact ih c hc (names c hc)

theorem DataObject.WellNamed.browsable {o : DataObject} (hplain : PlainName o.name)
    (h : o.WellNamed) {fc : Fc} {v : Variable} (hv : objectUnder o fc = some v) : v.Browsable := by
  induction h generalizing v with
  | intro o once attributeNames objectNames attributes below ih =>
    have hsub : ((((FcdaNode.object o).body fc).children).map (·.name)).Sublist
        (o.attributes.map (·.name) ++ o.subObjects.map (·.name)) := by
      rw [FcdaNode.body, List.map_append, names_attributeVariables]
      apply List.Sublist.append
      · exact List.filter_sublist.map _
      · exact names_objectsUnder o.subObjects fc
    rw [objectUnder_eq] at hv
    split at hv
    · cases hv
    · cases hv
      apply counted_browsable
      · exact hplain
      · apply struct_browsable
        · exact hsub.nodup once
        · intro name hname
          rcases List.mem_append.mp (hsub.subset hname) with hname | hname
          · exact List.forall_mem_map.mpr attributeNames name hname
          · exact List.forall_mem_map.mpr objectNames name hname
        · intro c hc
          rcases List.mem_append.mp hc with hc | hc
          · obtain ⟨a, ha, rfl⟩ := mem_attributeVariables.mp hc
            have ha := (List.mem_filter.mp ha).1
            exact (attributes a ha).browsable (attributeNames a ha)
          · obtain ⟨s, hs, hc⟩ := mem_objectsUnder.mp hc
            exact ih s hs (objectNames s hs) hc

theorem controlBlocks_browsable (reservation : Bool) (ln : NodeModel) :
    ∀ b ∈ controlBlocks reservation ln, b.2.Browsable := by
  have happend : ∀ {vs ws : List Variable} {v : Variable}, (∀ c ∈ vs, c.Browsable) →
      (∀ c ∈ ws, c.Browsable) → v.Browsable → ∀ c ∈ vs ++ v :: ws, c.Browsable := by
    intro vs ws v hvs hws hv
    rw [List.forall_mem_append, List.forall_mem_cons]
    exact ⟨hvs, hv, hws⟩
  intro b hb
  rw [controlBlocks] at hb
  simp only [List.mem_append] at hb
  rcases hb with (((hb | hb) | hb) | hb) | hb
  · obtain ⟨rcb, -, hb⟩ := List.mem_flatMap.mp hb
    obtain ⟨name, -, rfl⟩ := List.mem_map.mp hb
    apply struct_browsable
    · cases rcb.buffered <;> cases reservation <;> decide
    · cases rcb.buffered <;> cases reservation <;> decide
    · exact leaves_browsable
  · obtain ⟨lcb, -, rfl⟩ := List.mem_map.mp hb
    apply struct_browsable
    · decide
    · decide
    · exact leaves_browsable
  · obtain ⟨gcb, -, rfl⟩ := List.mem_map.mp hb
    apply struct_browsable
    · decide
    · decide
    · exact happend leaves_browsable leaves_browsable (phyComAddr_browsable _)
  · obtain ⟨scb, -, rfl⟩ := List.mem_map.mp hb
    apply struct_browsable
    · cases scb.multicast <;> decide
    · cases scb.multicast <;> decide
    · apply happend leaves_browsable _ (phyComAddr_browsable _)
      cases scb.multicast with
      | false => exact nofun
      | true => exact leaves_browsable
  · obtain ⟨sg, -, rfl⟩ := List.mem_map.mp hb
    apply struct_browsable
    · decide
    · decide
    · exact leaves_browsable

/-- What is below a logical node are its constraints. -/
theorem mem_nodeVariable (reservation : Bool) (ln : NodeModel) :
    ((nodeVariable reservation ln).children.map (·.name)).Nodup ∧
      ∀ c ∈ (nodeVariable reservation ln).children,
        ∃ fc : Fc, c = ⟨fc.asStr, .struct, nodeBody reservation ln fc⟩ := by
  have hnodup : ((nodeVariable reservation ln).children.map (·.name)).Nodup := by
    obtain ⟨htidy, -⟩ := objectEntries ln.toLogicalNode .st
    obtain ⟨htidy, -⟩ := foldl_addUnder (controlBlocks reservation ln) .st htidy
    rw [nodeVariable]
    dsimp only
    generalize (controlBlocks reservation ln).foldl (fun byFc b => addUnder b.1 b.2 byFc) _ = byFc
      at htidy
    have hsorted := List.mergeSort_perm byFc fun a b => decide (a.1.asStr ≤ b.1.asStr)
    have hnames : ∀ l : List (Fc × List Variable), (l.map fun e =>
        (⟨e.1.asStr, .struct, e.2⟩ : Variable)).map (·.name) = (l.map Prod.fst).map Fc.asStr := by
      intro l
      rw [List.map_map, List.map_map]
      rfl
    rw [hnames]
    apply List.Nodup.map
    · intro fc fc' h
      exact Fc.asStr_inj.mp h
    · exact ((hsorted.map _).nodup_iff).mpr htidy.keys
  refine ⟨hnodup, ?_⟩
  intro c hc
  obtain ⟨fc, hfc⟩ : ∃ fc : Fc, c.name = fc.asStr := by
    rw [nodeVariable] at hc
    obtain ⟨e, -, rfl⟩ := List.mem_map.mp hc
    exact ⟨e.1, rfl⟩
  have hchild : (nodeVariable reservation ln).child fc.asStr = some c := by
    rw [child_of_arrayLen rfl]
    exact findKey_of_mem hnodup hc hfc
  rw [nodeVariable_child] at hchild
  split at hchild
  · cases hchild
  · cases hchild
    exact ⟨fc, rfl⟩

theorem NodeModel.WellNamed.body_browsable {reservation : Bool} {ln : NodeModel}
    (h : NodeModel.WellNamed reservation ln) (fc : Fc) :
    Variable.Browsable ⟨fc.asStr, .struct, nodeBody reservation ln fc⟩ := by
  have hblock : ∀ b ∈ blocksUnder reservation ln fc, PlainName b.name ∧ b.Browsable := by
    intro b hb
    obtain ⟨e, he, rfl⟩ := List.mem_map.mp hb
    have he := (List.mem_filter.mp he).1
    exact ⟨h.blockNames e he, controlBlocks_browsable reservation ln e he⟩
  have hsub := names_objectsUnder ln.dataObjects fc
  apply struct_browsable
  · rw [nodeBody, List.map_append, List.nodup_append]
    refine ⟨hsub.nodup h.objectsOnce, h.blocksOnce fc, ?_⟩
    intro name hname name' hname'
    obtain ⟨v, hv, rfl⟩ := List.mem_map.mp hname
    obtain ⟨b, hb, rfl⟩ := List.mem_map.mp hname'
    exact h.apart fc v hv b hb
  · rw [nodeBody, List.map_append, List.forall_mem_append]
    constructor
    · intro name hname
      exact List.forall_mem_map.mpr h.objectNames name (hsub.subset hname)
    · exact List.forall_mem_map.mpr fun b hb => (hblock b hb).1
  · rw [nodeBody, List.forall_mem_append]
    constructor
    · intro c hc
      obtain ⟨o, ho, hc⟩ := mem_objectsUnder.mp hc
      exact (h.objects o ho).browsable (h.objectNames o ho) hc
    · exact fun b hb => (hblock b hb).2

theorem DeviceModel.WellNamed.browsable {reservation : Bool} {ld : DeviceModel}
    (h : DeviceModel.WellNamed reservation ld) : (domainTree reservation ld).Browsable where
  once := by
    rw [domainTree, List.map_map]
    exact h.once
  names := List.forall_mem_map.mpr h.names
  below := by
    rw [domainTree, List.forall_mem_map]
    intro ln hln
    obtain ⟨hnodup, hchildren⟩ := mem_nodeVariable reservation ln
    apply Variable.Browsable.intro _ hnodup
    · intro c hc
      obtain ⟨fc, rfl⟩ := hchildren c hc
      dsimp only
      cases fc <;> decide
    · intro c hc
      obtain ⟨fc, rfl⟩ := hchildren c hc
      exact (h.nodes ln hln).body_browsable fc

/-- Of a device whose names are well formed, the tree resolves the names without an index that it
lists and no others; the list is strictly sorted, has no name with an index in it and none below
an array. -/
theorem domainTree_names (reservation : Bool) (ld : DeviceModel)
    (h : DeviceModel.WellNamed reservation ld) :
    (∀ item, WithoutIndex item → (((domainTree reservation ld).resolve item).isSome = true ↔
      item ∈ (domainTree reservation ld).variableNames)) ∧
    (domainTree reservation ld).variableNames.Pairwise (· < ·) ∧
    (∀ item ∈ (domainTree reservation ld).variableNames, openParen ∉ item) ∧
    ∀ above rest, above ++ sep :: rest ∈ (domainTree reservation ld).variableNames →
      ∃ v, (domainTree reservation ld).resolve above = some v ∧ v.arrayLen = none :=
  ⟨fun _ hitem => h.browsable.resolve_named_iff hitem, h.browsable.sorted,
    fun _ hitem => h.browsable.openParen_not_mem hitem,
    fun _ _ hname => h.browsable.arrayLen_above hname⟩

/-- A device with the harmonics of a current. -/
def harmonicsDevice : DeviceModel :=
  ⟨ascii "LD0", ascii "MeterLD0", [.plain ⟨ascii "MHAI1", [⟨ascii "HA",
    [⟨ascii "numHar", .cf, .int16U, [], [], none⟩],
    [⟨ascii "phsAHar", [⟨ascii "mag", .mx, .float32, [], [], none⟩], [], some 3⟩], none⟩]⟩]⟩

theorem harmonicsDevice_wellNamed : DeviceModel.WellNamed true harmonicsDevice where
  once := by decide
  names := by decide
  nodes := by
    intro ln hln
    obtain rfl := List.mem_singleton.mp hln
    have hleaf : ∀ name fc btype, DataAttribute.WellNamed ⟨name, fc, btype, [], [], none⟩ := by
      intro name fc btype
      exact .intro _ List.nodup_nil nofun nofun
    refine ⟨by decide, ?_, ?_, by decide, nofun, ?_⟩
    · exact fun fc => List.nodup_nil
    · exact fun fc v _ => nofun
    · intro o ho
      obtain rfl := List.mem_singleton.mp ho
      apply DataObject.WellNamed.intro
      · decide
      · decide
      · decide
      · exact List.forall_mem_singleton.mpr (hleaf _ _ _)
      · refine List.forall_mem_singleton.mpr ?_
        apply DataObject.WellNamed.intro
        · decide
        · decide
        · exact nofun
        · exact List.forall_mem_singleton.mpr (hleaf _ _ _)
        · exact nofun

/-- The harmonics are listed as they are resolved. -/
theorem domainTree_names_harmonics : WithoutIndex (ascii "MHAI1$MX$HA$phsAHar") ∧
      (((domainTree true harmonicsDevice).resolve (ascii "MHAI1$MX$HA$phsAHar")).isSome = true ↔
        ascii "MHAI1$MX$HA$phsAHar" ∈ (domainTree true harmonicsDevice).variableNames) := by
  have hitem : WithoutIndex (ascii "MHAI1$MX$HA$phsAHar") := by
    have hparts : (ascii "MHAI1$MX$HA$phsAHar").splitOn sep =
        [ascii "MHAI1", ascii "MX", ascii "HA", ascii "phsAHar"] := by
      decide
    rw [WithoutIndex, hparts]
    decide
  exact ⟨hitem, (domainTree_names true harmonicsDevice harmonicsDevice_wellNamed).1 _ hitem⟩

end Iec61850.Server
