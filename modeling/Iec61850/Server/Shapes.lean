import Iec61850.Server.Spellings

/-!
# The shapes of values

The type that `GetVariableAccessAttributes` reports of a variable, and what is read of it. Both follow
the tree, and they agree as long as every leaf holds a value of its own type: this is what the
defaults, the engineered values and every write keep, unless two variables share a text or a
structure is written into a leaf that has no components.
-/

namespace Iec61850.Server

open Theory Mms

/-! ### Types -/

def typeOf : BType → TypeSpec
  | .boolean => .boolean
  | .int8 | .enum => .integer 8
  | .int16 => .integer 16
  | .int24 => .integer 24
  | .int32 => .integer 32
  | .int64 => .integer 64
  | .int8U => .unsigned 8
  | .int16U => .unsigned 16
  | .int24U => .unsigned 24
  | .int32U => .unsigned 32
  | .float32 => .floatingPoint 32 8
  | .float64 => .floatingPoint 64 11
  | .dbpos | .tcmd => .bitString 2
  | .phyComAddr | .struct | .other _ => .structure false []
  | .quality => .bitString (-13)
  | .check => .bitString (-2)
  | .trgOps => .bitString (-6)
  | .optFlds => .bitString (-10)
  | .timestamp => .utcTime
  | .entryTime => .binaryTime true
  | .visString32 => .visibleString (-32)
  | .visString64 => .visibleString (-64)
  | .visString65 => .visibleString (-65)
  | .visString129 | .objRef => .visibleString (-129)
  | .visString255 => .visibleString (-255)
  | .currency => .visibleString (-3)
  | .octet64 => .octetString (-64)
  | .entryID => .octetString (-8)
  | .octet6 => .octetString 6
  | .octet16 => .octetString 16
  | .svOptFlds | .logOptFlds => .bitString (-8)
  | .unicode255 => .mmsString (-255)

mutual

def Variable.typeSpec : Variable → TypeSpec
  | ⟨_, .struct, children⟩ => .structure false (componentSpecs children)
  | ⟨_, .array n, element :: _⟩ => .array false n element.typeSpec
  | ⟨_, .array n, []⟩ => .array false n (.structure false [])
  | ⟨_, .leaf btype, _⟩ => typeOf btype

def componentSpecs : List Variable → List (Option Bytes × TypeSpec)
  | [] => []
  | c :: cs => (some c.name, c.typeSpec) :: componentSpecs cs

end

mutual

/-- A value has the shape of a type: the components of a structure, the number of the elements of an
array, and the kind of each leaf. -/
def conforms : TypeSpec → Value → Bool
  | .structure _ components, .structure xs => allConform components xs
  | .array _ n t, .array xs => xs.length = n && xs.all fun x => conforms t x
  | .boolean, x => isBoolean x
  | .bitString _, x => isBitString x
  | .integer _, x | .unsigned _, x => isNumber x
  | .floatingPoint _ _, x => isFloat x
  | .octetString _, x => isOctetString x
  | .visibleString _, x | .mmsString _, x => isString x
  | .binaryTime _, x => isBinaryTime x
  | .utcTime, x => isUtcTime x
  | _, _ => false

def allConform : List (Option Bytes × TypeSpec) → List Value → Bool
  | [], [] => true
  | (_, t) :: components, x :: xs => conforms t x && allConform components xs
  | _, _ => false

end

/-- A structure of which the file says nothing: a leaf without components. -/
def isOpen : BType → Bool
  | .struct | .other _ => true
  | _ => false

/-- A leaf may hold the value, and as the type that is reported of it says. -/
def Fits (btype : BType) (value : Value) : Prop :=
  accepts btype value = true ∧ (isOpen btype = true → value = .structure [])

theorem conforms_of_fits {btype : BType} {value : Value} (hbtype : btype ≠ .phyComAddr)
    (h : Fits btype value) : conforms (typeOf btype) value = true := by
  obtain ⟨haccepts, hopen⟩ := h
  cases btype
  case struct | other =>
    rw [hopen rfl]
    rfl
  case phyComAddr => exact absurd rfl hbtype
  all_goals
    rw [accepts] at haccepts
    rw [typeOf, conforms]
    exact haccepts

theorem fits_defaultValue (btype : BType) : Fits btype (defaultValue btype) := by
  refine ⟨accepts_defaultValue btype, ?_⟩
  intro hopen
  cases btype <;> first | rfl | cases hopen

/-! ### The leaves of a tree -/

mutual

/-- The leaves of a variable: the text of each as it is read, and its type. -/
def leafTypes (domain : Bytes) : Bytes → Variable → List (Bytes × BType)
  | item, ⟨_, .leaf btype, _⟩ => [(referenceOf domain item, btype)]
  | item, ⟨_, .struct, children⟩ => componentTypes domain item children
  | item, ⟨_, .array n, element :: _⟩ =>
    (List.range n).flatMap fun i => leafTypes domain (item ++ indexText i) element
  | _, ⟨_, .array _, []⟩ => []

def componentTypes (domain : Bytes) : Bytes → List Variable → List (Bytes × BType)
  | _, [] => []
  | item, c :: cs =>
    leafTypes domain (item ++ sep :: c.name) c ++ componentTypes domain item cs

end

variable {domain item name : Bytes} {cs : List Variable} {x : Value}

theorem mem_componentTypes {e : Bytes × BType} : e ∈ componentTypes domain item cs ↔
      ∃ c ∈ cs, e ∈ leafTypes domain (item ++ sep :: c.name) c := by
  induction cs with
  | nil => simp [componentTypes]
  | cons c cs ih => rw [componentTypes, List.mem_append, ih, List.exists_mem_cons_iff]

variable {e : Bytes × Value} {v : Variable} {values : LeafValues} {btype : BType}
  {components : List (Bytes × BType)} {base : Bytes}

theorem mem_seedComponents : e ∈ seedComponents domain item cs ↔
      ∃ c ∈ cs, e ∈ seedNode domain (item ++ sep :: c.name) c := by
  induction cs with
  | nil => simp [seedComponents]
  | cons c cs ih => rw [seedComponents, List.mem_append, ih, List.exists_mem_cons_iff]

theorem mem_seedNode (hformed : v.Formed) : e ∈ seedNode domain item v ↔
      ∃ btype, (e.1, btype) ∈ leafTypes domain item v ∧ e.2 = defaultValue btype := by
  induction hformed generalizing item with
  | @leaf name btype _ =>
    rw [seedNode, List.mem_singleton]
    constructor
    · rintro rfl
      exact ⟨btype, by rw [leafTypes, List.mem_singleton], rfl⟩
    · rintro ⟨btype', hmem, hvalue⟩
      rw [leafTypes, List.mem_singleton, Prod.mk.injEq] at hmem
      obtain ⟨htext, rfl⟩ := hmem
      exact Prod.ext htext hvalue
  | @struct name children _ ih =>
    rw [seedNode, mem_seedComponents]
    simp only [leafTypes, mem_componentTypes]
    constructor
    · rintro ⟨c, hc, he⟩
      obtain ⟨btype, hmem, hvalue⟩ := (ih c hc).mp he
      exact ⟨btype, ⟨c, hc, hmem⟩, hvalue⟩
    · rintro ⟨btype, ⟨c, hc, hmem⟩, hvalue⟩
      exact ⟨c, hc, (ih c hc).mpr ⟨btype, hmem, hvalue⟩⟩
  | @array name n element _ ih =>
    rw [seedNode, List.mem_flatMap]
    simp only [leafTypes, List.mem_flatMap]
    constructor
    · rintro ⟨i, hi, he⟩
      obtain ⟨btype, hmem, hvalue⟩ := ih.mp he
      exact ⟨btype, ⟨i, hi, hmem⟩, hvalue⟩
    · rintro ⟨btype, ⟨i, hi, hmem⟩, hvalue⟩
      exact ⟨i, hi, ih.mpr ⟨btype, hmem, hvalue⟩⟩

/-! ### Reads of the right shape -/

theorem readComponents_conforms
    (h : ∀ c ∈ cs, ∃ x, readNode values domain (item ++ sep :: c.name) c = some x ∧
      conforms c.typeSpec x = true) : ∃ xs, readComponents values domain item cs = some xs ∧
      allConform (componentSpecs cs) xs = true := by
  induction cs with
  | nil => exact ⟨[], rfl, by rw [componentSpecs, allConform]⟩
  | cons c cs ih =>
    rw [List.forall_mem_cons] at h
    obtain ⟨⟨x, hx, hshape⟩, hlater⟩ := h
    obtain ⟨xs, hxs, hshapes⟩ := ih hlater
    refine ⟨x :: xs, ?_, ?_⟩
    · rw [readComponents, hx, hxs]
      rfl
    · rw [componentSpecs, allConform, hshape, hshapes]
      rfl

/-- A variable all of whose leaves hold what fits them is read in the shape of its type. -/
theorem readNode_conforms (hformed : v.Formed)
    (h : ∀ e ∈ leafTypes domain item v, ∃ x, values.lookup e.1 = some x ∧ Fits e.2 x) :
    ∃ x, readNode values domain item v = some x ∧ conforms v.typeSpec x = true := by
  induction hformed generalizing item with
  | @leaf name btype hbtype =>
    obtain ⟨x, hx, hfits⟩ :=
      h (referenceOf domain item, btype) (by rw [leafTypes, List.mem_singleton])
    exact ⟨x, hx, conforms_of_fits hbtype hfits⟩
  | @struct name children _ ih =>
    obtain ⟨xs, hxs, hshape⟩ : ∃ xs, readComponents values domain item children = some xs ∧
        allConform (componentSpecs children) xs = true := by
      apply readComponents_conforms
      intro c hc
      apply ih c hc
      intro e he
      refine h e ?_
      rw [leafTypes, mem_componentTypes]
      exact ⟨c, hc, he⟩
    refine ⟨.structure xs, by rw [readNode, hxs, Option.map_some], ?_⟩
    rwa [Variable.typeSpec, conforms]
  | @array name n element _ ih =>
    have helements : ∀ i ∈ List.range n, ∃ x,
        readNode values domain (item ++ indexText i) element = some x ∧
          conforms element.typeSpec x = true := by
      intro i hi
      apply ih
      intro e he
      refine h e ?_
      rw [leafTypes, List.mem_flatMap]
      exact ⟨i, hi, he⟩
    obtain ⟨xs, hxs⟩ := exists_mapM_some fun i hi =>
      (helements i hi).imp fun _ hx => hx.1
    refine ⟨.array xs, by rw [readNode, hxs, Option.map_some], ?_⟩
    have hread := mapM_some_iff.mp hxs
    have hlen := hread.length_eq
    rw [List.length_range] at hlen
    rw [Variable.typeSpec, conforms, Bool.and_eq_true, decide_eq_true_eq, List.all_eq_true]
    refine ⟨hlen.symm, ?_⟩
    intro x hx
    obtain ⟨i, hi, hone⟩ := mem_of_mapM_some hxs hx
    obtain ⟨y, hy, hshape⟩ := helements i hi
    cases hone.symm.trans hy
    exact hshape

/-! ### What the file puts into the leaves -/

theorem fits_parseEngineered {m : IedModel} {t : Decimals} {reference text : Bytes}
    (h : parseEngineered m t reference btype text = some x) : Fits btype x := by
  unfold parseEngineered parseEngineeredTyped at h
  cases btype
  case boolean | visString32 | visString64 | visString65 | visString129 | visString255 | objRef |
      currency | unicode255 =>
    cases h
    exact ⟨rfl, nofun⟩
  case enum | int8 | int16 | int24 | int32 | int64 | int8U | int16U | int24U | int32U | float32 |
      float64 =>
    obtain ⟨n, -, rfl⟩ := Option.map_eq_some_iff.mp h
    exact ⟨rfl, nofun⟩
  all_goals cases h

theorem mem_leafTypes_leaves (h : (name, btype) ∈ components) :
    (referenceOf domain (item ++ sep :: name), btype) ∈
      componentTypes domain item (leaves components) := by
  rw [mem_componentTypes]
  refine ⟨_, List.mem_map.mpr ⟨(name, btype), h, rfl⟩, ?_⟩
  rw [leafTypes, List.mem_singleton]

theorem componentTypes_append (cs ds : List Variable) : componentTypes domain item (cs ++ ds) =
      componentTypes domain item cs ++ componentTypes domain item ds := by
  induction cs with
  | nil => rfl
  | cons c cs ih => rw [List.cons_append, componentTypes, componentTypes, ih, List.append_assoc]

theorem mem_of_lookup {α β : Type*} [BEq α] [LawfulBEq α] {xs : List (α × β)} {k : α} {b : β}
    (h : xs.lookup k = some b) : (k, b) ∈ xs := by
  obtain ⟨before, after, rfl, -⟩ := List.lookup_eq_some_iff.mp h
  exact List.mem_append_right _ List.mem_cons_self

/-- The block of a constraint has the leaf, and the value fits it. -/
def Suits (domain base : Bytes) (components : List Variable) (name : Bytes) (x : Value) : Prop :=
  ∃ btype, (referenceOf domain (base ++ sep :: name), btype) ∈
    componentTypes domain base components ∧ Fits btype x

theorem suits_leaves (btype : BType) (h : (name, btype) ∈ components) (hx : Fits btype x) :
    Suits domain base (leaves components) name x :=
  ⟨btype, mem_leafTypes_leaves h, hx⟩

theorem Suits.left {domain base name : Bytes} {x : Value} {cs : List Variable}
    (h : Suits domain base cs name x) (ds : List Variable) :
    Suits domain base (cs ++ ds) name x := by
  obtain ⟨btype, hmem, hx⟩ := h
  rw [Suits, componentTypes_append]
  exact ⟨btype, List.mem_append_left _ hmem, hx⟩

theorem Suits.right {ds : List Variable} (h : Suits domain base ds name x) (cs : List Variable) :
    Suits domain base (cs ++ ds) name x := by
  obtain ⟨btype, hmem, hx⟩ := h
  rw [Suits, componentTypes_append]
  exact ⟨btype, List.mem_append_right _ hmem, hx⟩

theorem Suits.cons {domain base name : Bytes} {x : Value} {ds : List Variable}
    (h : Suits domain base ds name x) (c : Variable) : Suits domain base (c :: ds) name x :=
  h.right [c]

/-- The defaults of an address suit the `PhyComAddr` of a block. -/
theorem suits_address (domain base mac : Bytes) (vlanPriority vlanId appid : Nat)
    (ds : List Variable) : ∀ d ∈ addressDefaults mac vlanPriority vlanId appid,
      Suits domain base (phyComAddr (ascii "DstAddress") :: ds) d.1 d.2 := by
  intro d hd
  refine @Suits.left domain base _ _ [phyComAddr (ascii "DstAddress")] ?_ ds
  have hinner : ∀ (name : Bytes) (btype : BType),
      (⟨name, .leaf btype, []⟩ : Variable) ∈ (phyComAddr (ascii "DstAddress")).children →
      (referenceOf domain (base ++ sep :: (ascii "DstAddress" ++ sep :: name)), btype) ∈
        componentTypes domain base [phyComAddr (ascii "DstAddress")] := by
    intro name btype hmem
    rw [mem_componentTypes]
    refine ⟨_, List.mem_singleton_self _, ?_⟩
    rw [phyComAddr, leafTypes, mem_componentTypes]
    refine ⟨_, hmem, ?_⟩
    rw [leafTypes, List.mem_singleton, List.append_assoc, List.cons_append]
  rw [addressDefaults] at hd
  simp only [List.mem_cons, List.not_mem_nil, or_false] at hd
  rcases hd with rfl | rfl | rfl | rfl
  · exact ⟨.octet6, hinner (ascii "Addr") _ (by simp [phyComAddr]), rfl, nofun⟩
  · exact ⟨.int8U, hinner (ascii "PRIORITY") _ (by simp [phyComAddr]), rfl, nofun⟩
  · exact ⟨.int16U, hinner (ascii "VID") _ (by simp [phyComAddr]), rfl, nofun⟩
  · exact ⟨.int16U, hinner (ascii "APPID") _ (by simp [phyComAddr]), rfl, nofun⟩

theorem suits_rcbDefaults (domain base : Bytes) (rcb : ReportControl) (rptId : Bytes)
    (dataSet : Option Bytes) (reservation : Bool) : ∀ d ∈ rcbDefaults rcb rptId dataSet reservation,
      Suits domain base (reportComponents rcb.buffered reservation) d.1.text d.2 := by
  intro d hd
  obtain ⟨btype, hlookup, haccepts⟩ := rcbDefaults_accepted rcb rptId dataSet reservation d hd
  have hmem : (d.1, btype) ∈ rcbComponents rcb.buffered reservation := mem_of_lookup hlookup
  have hclosed : ∀ c ∈ rcbComponents rcb.buffered reservation, isOpen c.2 = false := by
    cases rcb.buffered <;> cases reservation <;> decide
  refine suits_leaves btype (List.mem_map.mpr ⟨_, hmem, rfl⟩) ⟨haccepts, ?_⟩
  intro hopen
  rw [hclosed _ hmem] at hopen
  cases hopen

theorem suits_lcbDefaults (domain base : Bytes) (lcb : LogControl) (log dataSet : Bytes) :
    ∀ d ∈ lcbDefaults lcb log dataSet, Suits domain base logComponents d.1.text d.2 := by
  intro d hd
  obtain ⟨btype, hlookup, haccepts⟩ := lcbDefaults_accepted lcb log dataSet d hd
  have hmem : (d.1, btype) ∈ lcbComponents := mem_of_lookup hlookup
  have hclosed : ∀ c ∈ lcbComponents, isOpen c.2 = false := by decide
  refine suits_leaves btype (List.mem_map.mpr ⟨_, hmem, rfl⟩) ⟨haccepts, ?_⟩
  intro hopen
  rw [hclosed _ hmem] at hopen
  cases hopen

theorem suits_sgcbDefaults (domain base : Bytes) (sg : SettingControl) :
    ∀ a ∈ SgAttribute.components, Suits domain base sgcbComponents a.text (sgcbDefaults sg a) := by
  intro a ha
  refine suits_leaves _ (List.mem_map.mpr ⟨a, ha, rfl⟩) ?_
  cases a <;> exact ⟨rfl, nofun⟩

theorem suits_gocbDefaults (domain base : Bytes) (gcb : GseControl) (goId ld ln : Bytes) :
    ∀ d ∈ gocbDefaults gcb goId ld ln, Suits domain base gocbComponents d.1 d.2 := by
  intro d hd
  rw [gocbDefaults, List.mem_append] at hd
  rcases hd with hd | hd
  · simp only [List.mem_cons, List.not_mem_nil, or_false] at hd
    rcases hd with rfl | rfl | rfl | rfl | rfl | rfl
    · exact (suits_leaves .boolean (by simp) ⟨rfl, nofun⟩).left _
    · exact (suits_leaves .visString129 (by simp) ⟨rfl, nofun⟩).left _
    · exact (suits_leaves .visString129 (by simp) ⟨rfl, nofun⟩).left _
    · exact (suits_leaves .int32U (by simp) ⟨rfl, nofun⟩).left _
    · exact (suits_leaves .boolean (by simp) ⟨rfl, nofun⟩).left _
    · exact ((suits_leaves .boolean (by simp) ⟨rfl, nofun⟩).cons _).right _
  · split at hd
    · cases hd
    · rcases List.mem_append.mp hd with hd | hd
      · exact (suits_address domain base _ _ _ _ _ d hd).right _
      · simp only [List.mem_cons, List.not_mem_nil, or_false] at hd
        rcases hd with rfl | rfl
        · exact ((suits_leaves .int32U (by simp) ⟨rfl, nofun⟩).cons _).right _
        · exact ((suits_leaves .int32U (by simp) ⟨rfl, nofun⟩).cons _).right _

theorem suits_svcbDefaults (domain base : Bytes) (scb : SmvControl) (ld ln : Bytes) :
    ∀ d ∈ svcbDefaults scb ld ln, Suits domain base (svcbComponents scb.multicast) d.1 d.2 := by
  intro d hd
  rw [svcbDefaults] at hd
  simp only [List.mem_append, List.mem_cons, List.not_mem_nil, or_false] at hd
  rcases hd with ((rfl | rfl | rfl | rfl | rfl | rfl) | hd) | hd
  · exact (suits_leaves .boolean (by simp) ⟨rfl, fun h => by cases h⟩).left _
  · exact (suits_leaves .visString129 (by simp) ⟨rfl, fun h => by cases h⟩).left _
  · exact (suits_leaves .visString129 (by simp) ⟨rfl, fun h => by cases h⟩).left _
  · exact (suits_leaves .int32U (by simp) ⟨rfl, fun h => by cases h⟩).left _
  · exact (suits_leaves .int32U (by simp) ⟨rfl, fun h => by cases h⟩).left _
  · exact (suits_leaves .enum (by simp) ⟨rfl, fun h => by cases h⟩).left _
  · split at hd
    · rename_i hmulticast
      rw [List.mem_singleton] at hd
      subst hd
      rw [svcbComponents]
      dsimp only
      rw [if_pos hmulticast]
      exact ((suits_leaves .int32U (by decide) ⟨rfl, fun h => by cases h⟩).cons _).right _
    · cases hd
  · split at hd
    · cases hd
    · exact (suits_address domain base _ _ _ _ _ d hd).right _

end Iec61850.Server
