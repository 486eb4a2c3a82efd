import Iec61850.Server.Engineering

/-!
# The variables of a logical device

The MMS domain that `server/tree.rs` builds from a logical device: under each logical node the
functional constraints, under a constraint the data objects and control blocks, and below them the
attributes. A variable is found by an item name, whose parts may carry an index.
-/

namespace Iec61850.Server

open Theory Mms

/-! ### Control blocks -/

/-- The name of an attribute of a report control block. -/
def Attribute.text : Attribute → Bytes
  | .rptID => ascii "RptID"
  | .rptEna => ascii "RptEna"
  | .resv => ascii "Resv"
  | .datSet => ascii "DatSet"
  | .confRev => ascii "ConfRev"
  | .optFlds => ascii "OptFlds"
  | .bufTm => ascii "BufTm"
  | .sqNum => ascii "SqNum"
  | .trgOps => ascii "TrgOps"
  | .intgPd => ascii "IntgPd"
  | .gi => ascii "GI"
  | .purgeBuf => ascii "PurgeBuf"
  | .entryID => ascii "EntryID"
  | .timeOfEntry => ascii "TimeOfEntry"
  | .resvTms => ascii "ResvTms"
  | .owner => ascii "Owner"
  | .other name => name

/-- The name of an attribute of a log control block. -/
def LogAttribute.text : LogAttribute → Bytes
  | .logEna => ascii "LogEna"
  | .logRef => ascii "LogRef"
  | .datSet => ascii "DatSet"
  | .oldEntrTm => ascii "OldEntrTm"
  | .newEntrTm => ascii "NewEntrTm"
  | .oldEnt => ascii "OldEnt"
  | .newEnt => ascii "NewEnt"
  | .trgOps => ascii "TrgOps"
  | .intgPd => ascii "IntgPd"
  | .other name => name

/-- The name of an attribute of a setting group control block. -/
def SgAttribute.text : SgAttribute → Bytes
  | .numOfSG => ascii "NumOfSG"
  | .actSG => ascii "ActSG"
  | .editSG => ascii "EditSG"
  | .cnfEdit => ascii "CnfEdit"
  | .lActTm => ascii "LActTm"
  | .resvTms => ascii "ResvTms"

def leaves (components : List (Bytes × BType)) : List Variable :=
  components.map fun c => ⟨c.1, .leaf c.2, []⟩

/-- The components of a report control block; `reservation` says whether the edition has `ResvTms`
and `Owner`. -/
def reportComponents (buffered reservation : Bool) : List Variable :=
  leaves ((rcbComponents buffered reservation).map fun c => (c.1.text, c.2))

def logComponents : List Variable := leaves (lcbComponents.map fun c => (c.1.text, c.2))

def gocbComponents : List Variable :=
  leaves [(ascii "GoEna", .boolean), (ascii "GoID", .visString129), (ascii "DatSet", .visString129),
      (ascii "ConfRev", .int32U), (ascii "NdsCom", .boolean)] ++
    phyComAddr (ascii "DstAddress") ::
      leaves [(ascii "MinTime", .int32U), (ascii "MaxTime", .int32U), (ascii "FixedOffs", .boolean)]

/-- The name of a stream in its control block. -/
def svIdName (multicast : Bool) : Bytes := if multicast then ascii "MsvID" else ascii "UsvID"

def svcbComponents (multicast : Bool) : List Variable :=
  let noASDU : List Variable := if multicast then leaves [(ascii "noASDU", .int32U)] else []
  leaves [(ascii "SvEna", .boolean), (svIdName multicast, .visString129),
      (ascii "DatSet", .visString129), (ascii "ConfRev", .int32U), (ascii "SmpRate", .int32U),
      (ascii "OptFlds", .svOptFlds), (ascii "SmpMod", .enum)] ++
    phyComAddr (ascii "DstAddress") :: noASDU

def sgcbComponents : List Variable :=
  leaves (SgAttribute.components.map fun a => (a.text, a.btype))

/-- `ReportControl::fc`. -/
def reportFc (buffered : Bool) : Fc := if buffered then .br else .rp

def svcbFc (multicast : Bool) : Fc := if multicast then .ms else .us

/-- The control blocks of a logical node (`control_blocks`), each under its constraint. -/
def controlBlocks (reservation : Bool) (ln : NodeModel) : List (Fc × Variable) :=
  (ln.reportControls.flatMap fun rcb => rcb.instanceNames.map fun name =>
      (reportFc rcb.buffered, ⟨name, .struct, reportComponents rcb.buffered reservation⟩)) ++
    (ln.logControls.map fun lcb => (.lg, ⟨lcb.name, .struct, logComponents⟩)) ++
    (ln.gseControls.map fun gcb => (.go, ⟨gcb.name, .struct, gocbComponents⟩)) ++
    (ln.smvControls.map fun scb =>
      (svcbFc scb.multicast, ⟨scb.name, .struct, svcbComponents scb.multicast⟩)) ++
    ln.settingControl.toList.map fun _ => (.sp, ⟨ascii "SGCB", .struct, sgcbComponents⟩)

/-! ### Domains -/

structure Domain where
  name : Bytes
  nodes : List Variable
  deriving Repr

/-- A block is put under its constraint, which is added when there is none yet. -/
def addUnder (fc : Fc) (v : Variable) : List (Fc × List Variable) → List (Fc × List Variable)
  | [] => [(fc, [v])]
  | (f, children) :: byFc =>
    if f = fc then (f, children ++ [v]) :: byFc else (f, children) :: addUnder fc v byFc

/-- A logical node of `domain_of`. -/
def nodeVariable (reservation : Bool) (ln : NodeModel) : Variable :=
  let byFc := (functionalConstraints ln.toLogicalNode).filterMap fun fc =>
    let children := objectsUnder ln.dataObjects fc
    if children.isEmpty then none else some (fc, children)
  let byFc := (controlBlocks reservation ln).foldl (fun byFc b => addUnder b.1 b.2 byFc) byFc
  let byFc := byFc.mergeSort fun a b => decide (a.1.asStr ≤ b.1.asStr)
  ⟨ln.name, .struct, byFc.map fun e => ⟨e.1.asStr, .struct, e.2⟩⟩

/-- `domain_of`. -/
def domainTree (reservation : Bool) (ld : DeviceModel) : Domain :=
  ⟨ld.name, ld.nodes.map (nodeVariable reservation)⟩

/-- A part of an item name. -/
def stepOf (part : Bytes) : Step := ⟨(splitIndex part).1, (splitIndex part).2⟩

theorem stepOf_of_not_mem {part : Bytes} (h : openParen ∉ part) : stepOf part = ⟨part, none⟩ := by
  rw [stepOf, splitIndex, ObjectReference.splitOnce_eq_none h]

def Domain.node (d : Domain) (name : Bytes) : Option Variable :=
  d.nodes.find? fun n => n.name = name

def Domain.resolve (d : Domain) (item : Bytes) : Option Variable :=
  match item.splitOn sep with
  | [] => none
  | ln :: parts => (d.node ln).bind fun node => node.resolve (parts.map stepOf)

/-! ### What a tree is made of -/

/-- An array has an element, and nothing is under a leaf. -/
inductive Variable.Formed : Variable → Prop where
  | leaf (name : Bytes) {btype : BType} (h : btype ≠ .phyComAddr) :
      Formed ⟨name, .leaf btype, []⟩
  | struct (name : Bytes) {children : List Variable} (h : ∀ c ∈ children, Formed c) :
      Formed ⟨name, .struct, children⟩
  | array (name : Bytes) (n : Nat) {element : Variable} (h : Formed element) :
      Formed ⟨name, .array n, [element]⟩

theorem phyComAddr_formed (name : Bytes) : (phyComAddr name).Formed := by
  apply Variable.Formed.struct
  simp only [List.forall_mem_cons]
  exact ⟨.leaf _ nofun, .leaf _ nofun, .leaf _ nofun, .leaf _ nofun, nofun⟩

theorem counted_formed {name : Bytes} {element : Variable} (h : element.Formed)
    (count : Option Nat) : (counted name element count).Formed := by
  cases count with
  | none => exact h
  | some n => exact .array name n h

mutual

theorem attributeVariable_formed : ∀ a : DataAttribute, (attributeVariable a).Formed
  | ⟨name, fc, btype, children, groupValues, count⟩ => by
      rw [attributeVariable]
      apply counted_formed
      split
      · split
        · exact phyComAddr_formed name
        · rename_i hbtype
          exact .leaf name hbtype
      · exact .struct name (attributeVariables_formed children)

theorem attributeVariables_formed : ∀ as : List DataAttribute,
    ∀ v ∈ attributeVariables as, v.Formed
  | [] => by
      intro v hv
      cases hv
  | a :: as => by
      rw [attributeVariables, List.forall_mem_cons]
      exact ⟨attributeVariable_formed a, attributeVariables_formed as⟩

end

mutual

theorem objectUnder_formed : ∀ (o : DataObject) (fc : Fc) (v : Variable),
    objectUnder o fc = some v → v.Formed
  | ⟨name, attributes, subObjects, count⟩, fc, v => by
      intro hv
      unfold objectUnder at hv
      dsimp only at hv
      split at hv
      · cases hv
      · rw [Option.some.injEq] at hv
        subst hv
        apply counted_formed
        apply Variable.Formed.struct
        intro c hc
        rcases List.mem_append.mp hc with hc | hc
        · exact attributeVariables_formed _ c hc
        · exact objectsUnder_formed subObjects fc c hc

theorem objectsUnder_formed : ∀ (os : List DataObject) (fc : Fc), ∀ v ∈ objectsUnder os fc, v.Formed
  | [], fc => by
      intro v hv
      cases hv
  | o :: os, fc => by
      intro v hv
      rw [objectsUnder, List.mem_append, Option.mem_toList] at hv
      rcases hv with hv | hv
      · exact objectUnder_formed o fc v hv
      · exact objectsUnder_formed os fc v hv

end

theorem leaves_formed {components : List (Bytes × BType)}
    (h : ∀ c ∈ components, c.2 ≠ .phyComAddr) : ∀ v ∈ leaves components, v.Formed := by
  intro v hv
  obtain ⟨c, hc, rfl⟩ := List.mem_map.mp hv
  exact .leaf c.1 (h c hc)

theorem reportComponents_formed (buffered reservation : Bool) :
    ∀ v ∈ reportComponents buffered reservation, v.Formed := by
  apply leaves_formed
  cases buffered <;> cases reservation <;> decide

theorem gocbComponents_formed : ∀ v ∈ gocbComponents, v.Formed := by
  intro v hv
  rcases List.mem_append.mp hv with hv | hv
  · exact leaves_formed (by decide) v hv
  · rcases List.mem_cons.mp hv with rfl | hv
    · exact phyComAddr_formed _
    · exact leaves_formed (by decide) v hv

theorem svcbComponents_formed (multicast : Bool) : ∀ v ∈ svcbComponents multicast, v.Formed := by
  intro v hv
  rcases List.mem_append.mp hv with hv | hv
  · refine leaves_formed ?_ v hv
    cases multicast <;> decide
  · rcases List.mem_cons.mp hv with rfl | hv
    · exact phyComAddr_formed _
    · cases multicast with
      | false => cases hv
      | true => exact leaves_formed (by decide) v hv

theorem controlBlocks_formed (reservation : Bool) (ln : NodeModel) :
    ∀ b ∈ controlBlocks reservation ln, b.2.Formed := by
  intro b hb
  rw [controlBlocks] at hb
  simp only [List.mem_append] at hb
  rcases hb with (((hb | hb) | hb) | hb) | hb
  · obtain ⟨rcb, -, hb⟩ := List.mem_flatMap.mp hb
    obtain ⟨name, -, rfl⟩ := List.mem_map.mp hb
    exact .struct name (reportComponents_formed _ _)
  · obtain ⟨lcb, -, rfl⟩ := List.mem_map.mp hb
    exact .struct lcb.name (leaves_formed (by decide))
  · obtain ⟨gcb, -, rfl⟩ := List.mem_map.mp hb
    exact .struct gcb.name gocbComponents_formed
  · obtain ⟨scb, -, rfl⟩ := List.mem_map.mp hb
    exact .struct scb.name (svcbComponents_formed _)
  · obtain ⟨sg, -, rfl⟩ := List.mem_map.mp hb
    exact .struct _ (leaves_formed (by decide))

theorem addUnder_formed {fc : Fc} {v : Variable} (hv : v.Formed)
    {byFc : List (Fc × List Variable)} (h : ∀ e ∈ byFc, ∀ c ∈ e.2, c.Formed) :
    ∀ e ∈ addUnder fc v byFc, ∀ c ∈ e.2, c.Formed := by
  induction byFc with
  | nil =>
    rw [addUnder, List.forall_mem_singleton, List.forall_mem_singleton]
    exact hv
  | cons e byFc ih =>
    rw [List.forall_mem_cons] at h
    rw [addUnder]
    split
    · rw [List.forall_mem_cons]
      refine ⟨?_, h.2⟩
      intro c hc
      rcases List.mem_append.mp hc with hc | hc
      · exact h.1 c hc
      · rw [List.mem_singleton.mp hc]
        exact hv
    · rw [List.forall_mem_cons]
      exact ⟨h.1, ih h.2⟩

theorem nodeVariable_formed (reservation : Bool) (ln : NodeModel) :
    (nodeVariable reservation ln).Formed := by
  have hobjects : ∀ e ∈ (functionalConstraints ln.toLogicalNode).filterMap (fun fc =>
      let children := objectsUnder ln.dataObjects fc
      if children.isEmpty then none else some (fc, children)), ∀ c ∈ e.2, c.Formed := by
    intro e he
    obtain ⟨fc, -, he⟩ := List.mem_filterMap.mp he
    dsimp only at he
    split at he
    · cases he
    · cases he
      exact objectsUnder_formed _ _
  have hblocks : ∀ (blocks : List (Fc × Variable)) (byFc : List (Fc × List Variable)),
      (∀ b ∈ blocks, b.2.Formed) → (∀ e ∈ byFc, ∀ c ∈ e.2, c.Formed) →
      ∀ e ∈ blocks.foldl (fun byFc b => addUnder b.1 b.2 byFc) byFc, ∀ c ∈ e.2, c.Formed := by
    intro blocks
    induction blocks with
    | nil => exact fun byFc _ h => h
    | cons b blocks ih =>
      intro byFc hb h
      rw [List.forall_mem_cons] at hb
      exact ih _ hb.2 (addUnder_formed hb.1 h)
  apply Variable.Formed.struct
  intro c hc
  obtain ⟨e, he, rfl⟩ := List.mem_map.mp hc
  rw [List.mem_mergeSort] at he
  exact .struct _ (hblocks _ _ (controlBlocks_formed reservation ln) hobjects e he)

theorem domainTree_formed (reservation : Bool) (ld : DeviceModel) :
    ∀ n ∈ (domainTree reservation ld).nodes, n.Formed := by
  intro n hn
  obtain ⟨node, -, rfl⟩ := List.mem_map.mp hn
  exact nodeVariable_formed reservation node

/-! ### Selections -/

namespace Variable

/-- What a selection leads to: a component by its name, and the element of an array. -/
def descend : Variable → List Selector → Option Variable
  | v, [] => some v
  | v, .component name :: path => (v.child name).bind fun c => c.descend path
  | v, .index i :: path => (v.elementAt i).bind fun e => e.descend path
  | _, _ :: _ => none

theorem descend_append (v : Variable) (path more : List Selector) :
    v.descend (path ++ more) = (v.descend path).bind fun w => w.descend more := by
  induction path generalizing v with
  | nil => rfl
  | cons s path ih =>
    cases s with
    | component name =>
      rw [List.cons_append, descend, descend, Option.bind_assoc]
      exact congrArg _ (funext ih)
    | index i =>
      rw [List.cons_append, descend, descend, Option.bind_assoc]
      exact congrArg _ (funext ih)
    | indexRange low count => rfl
    | allElements => rfl

theorem resolve_eq_descend (v : Variable) (path : List Step) :
    v.resolve path = v.descend (path.flatMap Step.selectors) := by
  induction path generalizing v with
  | nil => rfl
  | cons s path ih =>
    obtain ⟨name, index⟩ := s
    rw [resolve, List.flatMap_cons, Step.selectors, List.cons_append, descend]
    cases v.child name with
    | none => rfl
    | some c =>
      cases index with
      | none => exact ih c
      | some i =>
        dsimp only
        change _ = (c.elementAt i).bind fun e => e.descend (path.flatMap Step.selectors)
        cases c.elementAt i with
        | none => rfl
        | some e => exact ih e

theorem mem_children_of_child {v c : Variable} {name : Bytes} (h : v.child name = some c) :
    v.arrayLen = none ∧ c ∈ v.children ∧ c.name = name := by
  rw [child] at h
  cases harray : v.arrayLen with
  | some n =>
    rw [harray] at h
    cases h
  | none =>
    rw [harray] at h
    exact ⟨rfl, List.mem_of_find?_eq_some h, by simpa using List.find?_some h⟩

theorem Formed.elementAt {v e : Variable} {i : Nat} (h : v.Formed) (he : v.elementAt i = some e) :
    ∃ n, i < n ∧ v = ⟨v.name, .array n, [e]⟩ := by
  cases h with
  | leaf name h => cases he
  | struct name h => cases he
  | array name n h =>
    rw [Variable.elementAt, arrayLen] at he
    dsimp only at he
    split at he
    · rename_i hi
      cases he
      exact ⟨n, hi, rfl⟩
    · cases he

theorem Formed.child {v c : Variable} {name : Bytes} (h : v.Formed) (hc : v.child name = some c) :
    v = ⟨v.name, .struct, v.children⟩ ∧ c ∈ v.children ∧ c.name = name := by
  obtain ⟨harray, hmem, hname⟩ := mem_children_of_child hc
  cases h with
  | leaf name h => cases hmem
  | struct name h => exact ⟨rfl, hmem, hname⟩
  | array name n h => cases harray

theorem Formed.descend {v w : Variable} {path : List Selector} (h : v.Formed)
    (hw : v.descend path = some w) : w.Formed := by
  induction path generalizing v with
  | nil =>
    cases hw
    exact h
  | cons s path ih =>
    cases s with
    | component name =>
      rw [Variable.descend, Option.bind_eq_some_iff] at hw
      obtain ⟨c, hc, hw⟩ := hw
      obtain ⟨hv, hmem, -⟩ := h.child hc
      refine ih ?_ hw
      rw [hv] at h
      cases h with
      | struct name h => exact h c hmem
    | index i =>
      rw [Variable.descend, Option.bind_eq_some_iff] at hw
      obtain ⟨e, he, hw⟩ := hw
      obtain ⟨n, -, hv⟩ := h.elementAt he
      refine ih ?_ hw
      rw [hv] at h
      cases h with
      | array name n h => exact h
    | indexRange low count => cases hw
    | allElements => cases hw

end Variable

end Iec61850.Server
