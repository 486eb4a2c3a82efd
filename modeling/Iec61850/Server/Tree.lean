import Iec61850.Server.Ied

/-!
# The settings of a logical device

The declared model of a logical device (`model/mod.rs`) and the variable tree that
`server/tree.rs` publishes it as, under the two functional constraints a setting has: `SG`, what is
in force, and `SE`, the editing copy of it.
-/

namespace Iec61850.Server

open Theory

/-! ### The declared model -/

/-- Functional constraints (`Fc`). -/
inductive Fc where
  | st
  | mx
  | sp
  | sv
  | cf
  | dc
  | sg
  | se
  | sr
  | or
  | bl
  | ex
  | co
  | us
  | ms
  | rp
  | br
  | lg
  | go
  | gs
  | xx
  deriving DecidableEq, Repr

/-- `DataAttribute`, a `DA` or a `BDA`. -/
structure DataAttribute where
  name : Bytes
  fc : Fc
  btype : BType
  children : List DataAttribute
  groupValues : List (Nat × Bytes)
  count : Option Nat
  deriving Repr

/-- `DataObject`, a `DO` or an `SDO`. -/
structure DataObject where
  name : Bytes
  attributes : List DataAttribute
  subObjects : List DataObject
  count : Option Nat
  deriving Repr

structure LogicalNode where
  name : Bytes
  dataObjects : List DataObject
  deriving Repr

structure LogicalDevice where
  logicalNodes : List LogicalNode
  deriving Repr

/-! ### References -/

/-- A component of a reference, with the array index that may follow it. -/
structure Step where
  name : Bytes
  index : Option Nat
  deriving DecidableEq, Repr

/-- The reference of a setting without its functional constraint: `PTOC1$SG$StrVal$setMag$f` and
`PTOC1$SE$StrVal$setMag$f` are the two views of one. -/
structure SettingRef where
  ln : Bytes
  path : List Step
  deriving DecidableEq, Repr

/-! ### The variable tree -/

inductive VarKind where
  | struct
  | array (count : Nat)
  | leaf (btype : BType)
  deriving DecidableEq, Repr

/-- `Variable`. The functional constraint a variable is under is the one it is looked up under. -/
structure Variable where
  name : Bytes
  kind : VarKind
  children : List Variable
  deriving Repr

namespace Variable

def arrayLen (v : Variable) : Option Nat :=
  match v.kind with
  | .array n => some n
  | .struct | .leaf _ => none

def element (v : Variable) : Option Variable :=
  match v.arrayLen with
  | some _ => v.children.head?
  | none => none

def child (v : Variable) (name : Bytes) : Option Variable :=
  match v.arrayLen with
  | some _ => none
  | none => v.children.find? (fun c => c.name = name)

/-- `Variable::at`. -/
def elementAt (v : Variable) (index : Nat) : Option Variable :=
  match v.arrayLen with
  | some n => if index < n then v.element else none
  | none => none

def resolve : Variable → List Step → Option Variable
  | v, [] => some v
  | v, s :: path =>
    match v.child s.name, s.index with
    | none, _ => none
    | some c, none => c.resolve path
    | some c, some i =>
      match c.elementAt i with
      | none => none
      | some e => e.resolve path

end Variable

def phyComAddr (name : Bytes) : Variable where
  name := name
  kind := .struct
  children :=
    [⟨ascii "Addr", .leaf .octet6, []⟩, ⟨ascii "PRIORITY", .leaf .int8U, []⟩,
      ⟨ascii "VID", .leaf .int16U, []⟩, ⟨ascii "APPID", .leaf .int16U, []⟩]

/-- `count` makes an array of the same shape. -/
def counted (name : Bytes) (element : Variable) : Option Nat → Variable
  | some n => ⟨name, .array n, [element]⟩
  | none => element

mutual

def attributeVariable : DataAttribute → Variable
  | ⟨name, _, btype, children, _, count⟩ =>
    let element : Variable :=
      if children.isEmpty then
        if btype = .phyComAddr then phyComAddr name else ⟨name, .leaf btype, []⟩
      else ⟨name, .struct, attributeVariables children⟩
    counted name element count

def attributeVariables : List DataAttribute → List Variable
  | [] => []
  | a :: as => attributeVariable a :: attributeVariables as

end

def belongsUnder (declared fc : Fc) : Bool :=
  ((declared = .sg || declared = .se) && (fc = .sg || fc = .se)) || declared = fc

mutual

def objectUnder : DataObject → Fc → Option Variable
  | ⟨name, attributes, subObjects, count⟩, fc =>
    let children :=
      attributeVariables (attributes.filter fun a => belongsUnder a.fc fc) ++
        objectsUnder subObjects fc
    if children.isEmpty then none
    else some (counted name ⟨name, .struct, children⟩ count)

def objectsUnder : List DataObject → Fc → List Variable
  | [], _ => []
  | o :: os, fc => (objectUnder o fc).toList ++ objectsUnder os fc

end

mutual

def collectFcs : DataObject → List Fc → List Fc
  | ⟨_, attributes, subObjects, _⟩, out =>
    collectAllFcs subObjects
      (attributes.foldl (fun out a => if out.contains a.fc then out else out ++ [a.fc]) out)

def collectAllFcs : List DataObject → List Fc → List Fc
  | [], out => out
  | o :: os, out => collectAllFcs os (collectFcs o out)

end

/-- `functional_constraints`, in no particular order: `SG` and `SE` arrive together. -/
def functionalConstraints (ln : LogicalNode) : List Fc :=
  let out := collectAllFcs ln.dataObjects []
  if out.contains .sg || out.contains .se then
    [Fc.sg, Fc.se].foldl (fun out fc => if out.contains fc then out else out ++ [fc]) out
  else out

/-- What `domain_of` publishes of a logical node under a functional constraint that no control block
is under; the variable of the constraint itself goes by no name here. -/
def nodeUnder (ln : LogicalNode) (fc : Fc) : Option Variable :=
  if (functionalConstraints ln).contains fc then
    let children := objectsUnder ln.dataObjects fc
    if children.isEmpty then none else some ⟨[], .struct, children⟩
  else none

/-- `Ied::node_at`, for a reference under a functional constraint. -/
def nodeAt (ld : LogicalDevice) (fc : Fc) (r : SettingRef) : Option Variable :=
  match ld.logicalNodes.find? (fun ln => ln.name = r.ln) with
  | none => none
  | some ln =>
    match nodeUnder ln fc with
    | none => none
    | some v => v.resolve r.path

/-! ### The two views of a setting -/

theorem belongsUnder_se (declared : Fc) : belongsUnder declared .se = belongsUnder declared .sg := by
  cases declared <;> rfl

mutual

theorem objectUnder_se : ∀ o : DataObject, objectUnder o .se = objectUnder o .sg
  | ⟨name, attributes, subObjects, count⟩ => by
      rw [objectUnder, objectUnder, objectsUnder_se subObjects]
      simp only [belongsUnder_se]

theorem objectsUnder_se : ∀ os : List DataObject, objectsUnder os .se = objectsUnder os .sg
  | [] => rfl
  | o :: os => by rw [objectsUnder, objectsUnder, objectUnder_se o, objectsUnder_se os]

end

theorem mem_foldl_insert (fcs out : List Fc) (fc : Fc) :
    fc ∈ fcs.foldl (fun out fc => if out.contains fc then out else out ++ [fc]) out ↔
      fc ∈ out ∨ fc ∈ fcs := by
  induction fcs generalizing out with
  | nil => simp
  | cons x fcs ih =>
    rw [List.foldl_cons, ih, List.mem_cons]
    by_cases hx : out.contains x = true
    · rw [if_pos hx]
      rw [List.contains_iff_mem] at hx
      constructor
      · rintro (h | h)
        · exact Or.inl h
        · exact Or.inr (Or.inr h)
      · rintro (h | rfl | h)
        · exact Or.inl h
        · exact Or.inl hx
        · exact Or.inr h
    · rw [if_neg hx, List.mem_append, List.mem_singleton, or_assoc]

theorem functionalConstraints_se (ln : LogicalNode) :
    Fc.se ∈ functionalConstraints ln ↔ Fc.sg ∈ functionalConstraints ln := by
  unfold functionalConstraints
  dsimp only
  split
  · rw [mem_foldl_insert, mem_foldl_insert]
    simp
  · rename_i hneither
    simp only [Bool.or_eq_true, List.contains_iff_mem, not_or] at hneither
    exact iff_of_false hneither.2 hneither.1

theorem nodeUnder_se (ln : LogicalNode) : nodeUnder ln .se = nodeUnder ln .sg := by
  unfold nodeUnder
  rw [objectsUnder_se]
  simp only [List.contains_iff_mem, functionalConstraints_se]

theorem nodeAt_se (ld : LogicalDevice) (r : SettingRef) : nodeAt ld .se r = nodeAt ld .sg r := by
  unfold nodeAt
  split
  · rfl
  · rw [nodeUnder_se]

/-! ### What the engine counts as a setting -/

/-- A setting as the engine sees it: its reference and its value in each group the file engineers
one for (`Setting`). -/
abbrev Setting := SettingRef × List (Nat × Bytes)

mutual

/-- The `attribute` of `walk`, the paths in place of the references. -/
def walkAttribute : DataAttribute → List Step → List (List Step × List (Nat × Bytes))
  | ⟨name, fc, _, children, groupValues, _⟩, before =>
    let path := before ++ [⟨name, none⟩]
    (if fc = .sg ∨ fc = .se then [(path, groupValues)] else []) ++ walkAttributes children path

def walkAttributes : List DataAttribute → List Step → List (List Step × List (Nat × Bytes))
  | [], _ => []
  | a :: as, before => walkAttribute a before ++ walkAttributes as before

end

mutual

def walk : DataObject → List Step → List (List Step × List (Nat × Bytes))
  | ⟨_, attributes, subObjects, _⟩, doPath =>
    walkAttributes (attributes.filter fun a => a.fc = .sg) doPath ++ walkAll subObjects doPath

def walkAll : List DataObject → List Step → List (List Step × List (Nat × Bytes))
  | [], _ => []
  | o :: os, before => walk o (before ++ [⟨o.name, none⟩]) ++ walkAll os before

end

/-- `settings_of`, without the values the model holds. -/
def settingsOf (ld : LogicalDevice) : List Setting :=
  ld.logicalNodes.flatMap fun ln =>
    (walkAll ln.dataObjects []).map fun s => (⟨ln.name, s.1⟩, s.2)

/-! ### Declared settings -/

/-- The path names the attribute itself or an attribute below it, and what it names is declared
under `SG` or `SE`. -/
inductive AttributeSetting : DataAttribute → List Step → Prop where
  | self {a : DataAttribute} (hfc : a.fc = .sg ∨ a.fc = .se) :
      AttributeSetting a [⟨a.name, none⟩]
  | child {a c : DataAttribute} {path : List Step} (hc : c ∈ a.children)
      (h : AttributeSetting c path) : AttributeSetting a (⟨a.name, none⟩ :: path)

/-- The path names a setting of the data object or of a sub data object, and the attribute of the
object that it leads through is declared under `SG` itself. -/
inductive ObjectSetting : DataObject → List Step → Prop where
  | own {o : DataObject} {a : DataAttribute} {path : List Step} (ha : a ∈ o.attributes)
      (hfc : a.fc = .sg) (h : AttributeSetting a path) : ObjectSetting o (⟨o.name, none⟩ :: path)
  | sub {o s : DataObject} {path : List Step} (hs : s ∈ o.subObjects) (h : ObjectSetting s path) :
      ObjectSetting o (⟨o.name, none⟩ :: path)

/-- The setting is declared under `SG`, by name alone: no element of an array, and no part of a
structure the file does not spell out. -/
def DeclaredSg (ld : LogicalDevice) (r : SettingRef) : Prop :=
  ∃ ln ∈ ld.logicalNodes, ln.name = r.ln ∧ ∃ o ∈ ln.dataObjects, ObjectSetting o r.path

theorem attributeSetting_iff {a : DataAttribute} {path : List Step} :
    AttributeSetting a path ↔ ((a.fc = .sg ∨ a.fc = .se) ∧ path = [⟨a.name, none⟩]) ∨
      ∃ c ∈ a.children, ∃ rest, path = ⟨a.name, none⟩ :: rest ∧ AttributeSetting c rest := by
  constructor
  · intro h
    cases h with
    | self hfc => exact Or.inl ⟨hfc, rfl⟩
    | child hc h => exact Or.inr ⟨_, hc, _, rfl, h⟩
  · rintro (⟨hfc, rfl⟩ | ⟨c, hc, rest, rfl, h⟩)
    · exact .self hfc
    · exact .child hc h

theorem objectSetting_iff {o : DataObject} {path : List Step} : ObjectSetting o path ↔
      (∃ a ∈ o.attributes, a.fc = .sg ∧ ∃ rest, path = ⟨o.name, none⟩ :: rest ∧
        AttributeSetting a rest) ∨
      ∃ s ∈ o.subObjects, ∃ rest, path = ⟨o.name, none⟩ :: rest ∧ ObjectSetting s rest := by
  constructor
  · intro h
    cases h with
    | own ha hfc h => exact Or.inl ⟨_, ha, hfc, _, rfl, h⟩
    | sub hs h => exact Or.inr ⟨_, hs, _, rfl, h⟩
  · rintro (⟨a, ha, hfc, rest, rfl, h⟩ | ⟨s, hs, rest, rfl, h⟩)
    · exact .own ha hfc h
    · exact .sub hs h

/-! ### The engine counts the settings declared under `SG` -/

mutual

theorem mem_walkAttribute : ∀ (a : DataAttribute) (before p : List Step),
    (∃ texts, (p, texts) ∈ walkAttribute a before) ↔
      ∃ rest, p = before ++ rest ∧ AttributeSetting a rest
  | ⟨name, fc, btype, children, groupValues, count⟩, before, p => by
      have hchildren := mem_walkAttributes children (before ++ [⟨name, none⟩]) p
      simp only [walkAttribute, List.mem_append, exists_or, hchildren]
      constructor
      · rintro (⟨texts, h⟩ | ⟨c, hc, rest, rfl, h⟩)
        · split at h
          · rename_i hfc
            rw [List.mem_singleton, Prod.mk.injEq] at h
            exact ⟨_, h.1, .self hfc⟩
          · cases h
        · exact ⟨⟨name, none⟩ :: rest, by simp, .child hc h⟩
      · rintro ⟨rest, rfl, h⟩
        rcases attributeSetting_iff.mp h with ⟨hfc, rfl⟩ | ⟨c, hc, rest, rfl, hbelow⟩
        · refine Or.inl ⟨groupValues, ?_⟩
          rw [if_pos hfc]
          exact List.mem_singleton_self _
        · exact Or.inr ⟨c, hc, rest, by simp, hbelow⟩

theorem mem_walkAttributes : ∀ (as : List DataAttribute) (before p : List Step),
    (∃ texts, (p, texts) ∈ walkAttributes as before) ↔
      ∃ a ∈ as, ∃ rest, p = before ++ rest ∧ AttributeSetting a rest
  | [], before, p => by simp [walkAttributes]
  | a :: as, before, p => by
      simp only [walkAttributes, List.mem_append, exists_or, mem_walkAttribute a before p,
        mem_walkAttributes as before p, List.exists_mem_cons_iff]

end

mutual

theorem mem_walk : ∀ (o : DataObject) (before p : List Step),
    (∃ texts, (p, texts) ∈ walk o (before ++ [⟨o.name, none⟩])) ↔
      ∃ rest, p = before ++ rest ∧ ObjectSetting o rest
  | ⟨name, attributes, subObjects, count⟩, before, p => by
      have hsub := mem_walkAll subObjects (before ++ [⟨name, none⟩]) p
      simp only [walk, List.mem_append, exists_or, hsub, mem_walkAttributes]
      constructor
      · rintro (⟨a, ha, rest, rfl, h⟩ | ⟨s, hs, rest, rfl, h⟩)
        · rw [List.mem_filter, decide_eq_true_eq] at ha
          exact ⟨⟨name, none⟩ :: rest, by simp, .own ha.1 ha.2 h⟩
        · exact ⟨⟨name, none⟩ :: rest, by simp, .sub hs h⟩
      · rintro ⟨rest, rfl, h⟩
        rcases objectSetting_iff.mp h with
          ⟨a, ha, hfc, rest, rfl, hbelow⟩ | ⟨s, hs, rest, rfl, hbelow⟩
        · refine Or.inl ⟨a, ?_, rest, by simp, hbelow⟩
          rw [List.mem_filter, decide_eq_true_eq]
          exact ⟨ha, hfc⟩
        · exact Or.inr ⟨s, hs, rest, by simp, hbelow⟩

theorem mem_walkAll : ∀ (os : List DataObject) (before p : List Step),
    (∃ texts, (p, texts) ∈ walkAll os before) ↔
      ∃ o ∈ os, ∃ rest, p = before ++ rest ∧ ObjectSetting o rest
  | [], before, p => by simp [walkAll]
  | o :: os, before, p => by
      simp only [walkAll, List.mem_append, exists_or, mem_walk o before p, mem_walkAll os before p,
        List.exists_mem_cons_iff]

end

theorem mem_settingsOf {ld : LogicalDevice} {r : SettingRef} :
    (∃ texts, (r, texts) ∈ settingsOf ld) ↔ DeclaredSg ld r := by
  obtain ⟨name, path⟩ := r
  unfold settingsOf DeclaredSg
  constructor
  · rintro ⟨texts, h⟩
    rw [List.mem_flatMap] at h
    obtain ⟨ln, hln, h⟩ := h
    rw [List.mem_map] at h
    obtain ⟨s, hs, heq⟩ := h
    cases heq
    obtain ⟨o, ho, rest, hpath, h⟩ := (mem_walkAll _ _ _).mp ⟨s.2, hs⟩
    rw [List.nil_append] at hpath
    exact ⟨ln, hln, rfl, o, ho, hpath ▸ h⟩
  · rintro ⟨ln, hln, rfl, o, ho, h⟩
    obtain ⟨texts, hs⟩ := (mem_walkAll ln.dataObjects [] path).mpr ⟨o, ho, path, rfl, h⟩
    refine ⟨texts, List.mem_flatMap.mpr ⟨ln, hln, ?_⟩⟩
    exact List.mem_map.mpr ⟨(path, texts), hs, rfl⟩

/-! ### Files whose settings the engine knows all -/

mutual

/-- The attribute and those below it are settings, no array, and spelled out. -/
def plainAttribute : DataAttribute → Bool
  | ⟨_, fc, btype, children, _, count⟩ =>
    (fc = .sg || fc = .se) && btype ≠ .phyComAddr && count.isNone && plainAttributes children

def plainAttributes : List DataAttribute → Bool
  | [] => true
  | a :: as => plainAttribute a && plainAttributes as

end

mutual

/-- What the object publishes under `SG` is declared under `SG`, and plain. -/
def plainObject : DataObject → Bool
  | ⟨_, attributes, subObjects, count⟩ =>
    attributes.all (fun a => !belongsUnder a.fc .sg || a.fc = .sg && plainAttribute a) &&
      count.isNone && plainObjects subObjects

def plainObjects : List DataObject → Bool
  | [] => true
  | o :: os => plainObject o && plainObjects os

end

theorem plainAttribute_of_mem {as : List DataAttribute} (h : plainAttributes as = true) :
    ∀ a ∈ as, plainAttribute a = true := by
  induction as with
  | nil =>
    intro a ha
    cases ha
  | cons a as ih =>
    rw [plainAttributes, Bool.and_eq_true] at h
    rw [List.forall_mem_cons]
    exact ⟨h.1, ih h.2⟩

theorem plainObject_of_mem {os : List DataObject} (h : plainObjects os = true) :
    ∀ o ∈ os, plainObject o = true := by
  induction os with
  | nil =>
    intro o ho
    cases ho
  | cons o os ih =>
    rw [plainObjects, Bool.and_eq_true] at h
    rw [List.forall_mem_cons]
    exact ⟨h.1, ih h.2⟩

variable {v w : Variable} {path : List Step}

theorem mem_attributeVariables {as : List DataAttribute} :
    v ∈ attributeVariables as ↔ ∃ a ∈ as, attributeVariable a = v := by
  induction as with
  | nil => simp [attributeVariables]
  | cons a as ih => rw [attributeVariables, List.mem_cons, ih, List.exists_mem_cons_iff, eq_comm]

theorem mem_objectsUnder {os : List DataObject} {fc : Fc} :
    v ∈ objectsUnder os fc ↔ ∃ o ∈ os, objectUnder o fc = some v := by
  induction os with
  | nil => simp [objectsUnder]
  | cons o os ih =>
    rw [objectsUnder, List.mem_append, ih, List.exists_mem_cons_iff, Option.mem_toList]

/-- A variable that is no array: what a longer path below it resolves to is below a child. -/
theorem resolve_cons {s : Step} (hv : v.arrayLen = none)
    (hchildren : ∀ c ∈ v.children, c.arrayLen = none) (h : v.resolve (s :: path) = some w) :
    ∃ c ∈ v.children, s = ⟨c.name, none⟩ ∧ c.resolve path = some w := by
  obtain ⟨name, index⟩ := s
  rw [Variable.resolve] at h
  dsimp only at h
  cases hchild : v.child name with
  | none =>
    rw [hchild] at h
    cases h
  | some c =>
    rw [hchild] at h
    rw [Variable.child, hv] at hchild
    have hc := List.mem_of_find?_eq_some hchild
    have hname : c.name = name := by simpa using List.find?_some hchild
    cases index with
    | none => exact ⟨c, hc, by rw [hname], h⟩
    | some i =>
      dsimp only at h
      rw [Variable.elementAt, hchildren c hc] at h
      cases h

theorem attributeVariable_plain {a : DataAttribute} (h : plainAttribute a = true) :
    (a.fc = .sg ∨ a.fc = .se) ∧ (attributeVariable a).name = a.name ∧
      (attributeVariable a).arrayLen = none ∧
      (∀ v ∈ (attributeVariable a).children, ∃ c ∈ a.children,
        plainAttribute c = true ∧ attributeVariable c = v) := by
  obtain ⟨name, fc, btype, children, groupValues, count⟩ := a
  rw [plainAttribute] at h
  simp only [Bool.and_eq_true, Bool.or_eq_true, decide_eq_true_eq, Option.isNone_iff_eq_none] at h
  obtain ⟨⟨⟨hfc, htype⟩, rfl⟩, hchildren⟩ := h
  refine ⟨hfc, ?_⟩
  rw [attributeVariable, counted, if_neg htype]
  split
  · exact ⟨rfl, rfl, fun v hv => absurd hv List.not_mem_nil⟩
  · refine ⟨rfl, rfl, ?_⟩
    intro v hv
    obtain ⟨c, hc, rfl⟩ := mem_attributeVariables.mp hv
    exact ⟨c, hc, plainAttribute_of_mem hchildren c hc, rfl⟩

/-- Every leaf of a plain attribute is a setting. -/
theorem attributeSetting_of_resolve {a : DataAttribute} (ha : plainAttribute a = true)
    (h : (attributeVariable a).resolve path = some v) :
    AttributeSetting a (⟨a.name, none⟩ :: path) := by
  induction path generalizing a with
  | nil => exact .self (attributeVariable_plain ha).1
  | cons s path ih =>
    obtain ⟨-, -, harray, hchildren⟩ := attributeVariable_plain ha
    obtain ⟨w, hw, rfl, hrest⟩ := resolve_cons harray (fun w hw => by
      obtain ⟨c, -, hc, rfl⟩ := hchildren w hw
      exact (attributeVariable_plain hc).2.2.1) h
    obtain ⟨c, hcmem, hc, rfl⟩ := hchildren w hw
    rw [(attributeVariable_plain hc).2.1]
    exact .child hcmem (ih hc hrest)

theorem objectUnder_plain {o : DataObject} (h : plainObject o = true)
    (hv : objectUnder o .sg = some v) : v.name = o.name ∧ v.kind = .struct ∧ ∀ w ∈ v.children,
        (∃ a ∈ o.attributes, a.fc = .sg ∧ plainAttribute a = true ∧ attributeVariable a = w) ∨
        ∃ s ∈ o.subObjects, plainObject s = true ∧ objectUnder s .sg = some w := by
  obtain ⟨name, attributes, subObjects, count⟩ := o
  rw [plainObject] at h
  simp only [Bool.and_eq_true, List.all_eq_true, Option.isNone_iff_eq_none] at h
  obtain ⟨⟨hattributes, rfl⟩, hsub⟩ := h
  unfold objectUnder at hv
  dsimp only at hv
  split at hv
  · cases hv
  · rw [Option.some.injEq, counted] at hv
    subst hv
    refine ⟨rfl, rfl, ?_⟩
    intro w hw
    rw [List.mem_append, mem_attributeVariables, mem_objectsUnder] at hw
    rcases hw with ⟨a, ha, rfl⟩ | ⟨s, hs, hs'⟩
    · rw [List.mem_filter] at ha
      have hplain := hattributes a ha.1
      rw [ha.2] at hplain
      simp only [Bool.not_true, Bool.false_or, Bool.and_eq_true, decide_eq_true_eq] at hplain
      exact Or.inl ⟨a, ha.1, hplain.1, hplain.2, rfl⟩
    · exact Or.inr ⟨s, hs, plainObject_of_mem hsub s hs, hs'⟩

/-- Every leaf that a plain object publishes under `SG` is a setting. -/
theorem objectSetting_of_resolve {o : DataObject} {btype : BType} (ho : plainObject o = true)
    (hv : objectUnder o .sg = some v) (h : v.resolve path = some w) (hw : w.kind = .leaf btype) :
    ObjectSetting o (⟨o.name, none⟩ :: path) := by
  induction path generalizing o v with
  | nil =>
    cases h
    rw [(objectUnder_plain ho hv).2.1] at hw
    cases hw
  | cons s path ih =>
    obtain ⟨-, hkind, hchildren⟩ := objectUnder_plain ho hv
    obtain ⟨c, hc, rfl, hrest⟩ := resolve_cons (by rw [Variable.arrayLen, hkind]) (fun c hc => by
      rcases hchildren c hc with ⟨a, -, -, ha, rfl⟩ | ⟨s, -, hs, hs'⟩
      · exact (attributeVariable_plain ha).2.2.1
      · rw [Variable.arrayLen, (objectUnder_plain hs hs').2.1]) h
    rcases hchildren c hc with ⟨a, hamem, hfc, ha, rfl⟩ | ⟨s, hsmem, hs, hs'⟩
    · rw [(attributeVariable_plain ha).2.1]
      exact .own hamem hfc (attributeSetting_of_resolve ha hrest)
    · rw [(objectUnder_plain hs hs').1]
      exact .sub hsmem (ih hs hs' hrest)

/-- Where all settings are plain the server publishes none under `SG` that is not declared there. -/
theorem declaredSg_of_plain {ld : LogicalDevice}
    (hplain : ∀ ln ∈ ld.logicalNodes, plainObjects ln.dataObjects = true) {r : SettingRef}
    {btype : BType} (h : nodeAt ld .sg r = some w) (hw : w.kind = .leaf btype) :
    DeclaredSg ld r := by
  unfold nodeAt at h
  split at h
  · cases h
  · rename_i ln hfind
    have hln := List.mem_of_find?_eq_some hfind
    have hname : ln.name = r.ln := by simpa using List.find?_some hfind
    split at h
    · cases h
    · rename_i v hnode
      rw [nodeUnder] at hnode
      split at hnode
      · dsimp only at hnode
        split at hnode
        · cases hnode
        · rw [Option.some.injEq] at hnode
          subst hnode
          have hchildren : ∀ c ∈ objectsUnder ln.dataObjects .sg, ∃ o ∈ ln.dataObjects,
              plainObject o = true ∧ objectUnder o .sg = some c := by
            intro c hc
            obtain ⟨o, ho, ho'⟩ := mem_objectsUnder.mp hc
            exact ⟨o, ho, plainObject_of_mem (hplain ln hln) o ho, ho'⟩
          obtain ⟨name, path⟩ := r
          cases path with
          | nil =>
            cases h
            cases hw
          | cons s path =>
            obtain ⟨c, hc, rfl, hrest⟩ := resolve_cons rfl (fun c hc => by
              obtain ⟨o, -, ho, ho'⟩ := hchildren c hc
              rw [Variable.arrayLen, (objectUnder_plain ho ho').2.1]) h
            obtain ⟨o, homem, ho, ho'⟩ := hchildren c hc
            refine ⟨ln, hln, hname, o, homem, ?_⟩
            rw [(objectUnder_plain ho ho').1]
            exact objectSetting_of_resolve ho ho' hrest hw
      · cases hnode

end Iec61850.Server
