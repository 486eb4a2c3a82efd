import Iec61850.Server.Domains

/-!
# The values of a server

`Ied` as far as its variables go: one value for each leaf, under the text of its reference, and the
reads that put a structure or an array together again from the texts of what is in it. An index may
be spelt in many ways, and the server itself spells it in one.
-/

namespace Iec61850.Server

open Theory Mms

/-! ### Names and leaves -/

/-- The MMS reference of an item in a domain (`reference`). -/
def referenceOf (domain item : Bytes) : Bytes := domain ++ slash :: item

/-- What an index is spelt like. -/
def indexText (i : Nat) : Bytes := openParen :: numeral i ++ [closeParen]

mutual

def seedNode (domain : Bytes) : Bytes → Variable → List (Bytes × Value)
  | item, ⟨_, .leaf btype, _⟩ => [(referenceOf domain item, defaultValue btype)]
  | item, ⟨_, .struct, children⟩ => seedComponents domain item children
  | item, ⟨_, .array n, element :: _⟩ =>
    (List.range n).flatMap fun i => seedNode domain (item ++ indexText i) element
  | _, ⟨_, .array _, []⟩ => []

def seedComponents (domain : Bytes) : Bytes → List Variable → List (Bytes × Value)
  | _, [] => []
  | item, c :: cs =>
    seedNode domain (item ++ sep :: c.name) c ++ seedComponents domain item cs

end

/-- Leaf values by the text of the reference. -/
abbrev LeafValues := AList fun _ : Bytes => Value

mutual

def readNode (values : LeafValues) (domain : Bytes) : Bytes → Variable → Option Value
  | item, ⟨_, .leaf _, _⟩ => values.lookup (referenceOf domain item)
  | item, ⟨_, .struct, children⟩ => (readComponents values domain item children).map .structure
  | item, ⟨_, .array n, element :: _⟩ =>
    ((List.range n).mapM fun i => readNode values domain (item ++ indexText i) element).map .array
  | _, ⟨_, .array _, []⟩ => none

def readComponents (values : LeafValues) (domain : Bytes) :
    Bytes → List Variable → Option (List Value)
  | _, [] => some []
  | item, c :: cs => do
      let value ← readNode values domain (item ++ sep :: c.name) c
      let later ← readComponents values domain item cs
      some (value :: later)

end

/-! ### What the file engineers -/

/-- What `str::parse` makes of a floating-point number. -/
structure Decimals where
  float32 : Bytes → Option Nat
  float64 : Bytes → Option Nat

/-- `parse_engineered`, of the attribute with a reference. -/
def parseEngineered (m : IedModel) (t : Decimals) (reference : Bytes) (btype : BType)
    (text : Bytes) : Option Value :=
  parseEngineeredTyped ⟨fun _ => m.enumOrd (m.typeId reference), t.float32, t.float64⟩ btype
    ⟨[], []⟩ text

mutual

/-- The attributes that the `walk` of `engineered_of` comes to, by reference and type. -/
def attributePaths (before : Bytes) : DataAttribute → List (Bytes × BType)
  | ⟨name, _, btype, children, _, _⟩ =>
    (before ++ sep :: name, btype) :: attributesPaths (before ++ sep :: name) children

def attributesPaths (before : Bytes) : List DataAttribute → List (Bytes × BType)
  | [] => []
  | a :: as => attributePaths before a ++ attributesPaths before as

end

mutual

/-- The attributes that `engineered_of` comes to. -/
def objectPaths (ld ln doPath : Bytes) : DataObject → List (Bytes × BType)
  | ⟨_, attributes, subObjects, _⟩ =>
    (attributes.flatMap fun a =>
      attributePaths (referenceOf ld (ln ++ sep :: a.fc.asStr ++ sep :: doPath)) a) ++
      subObjectsPaths ld ln doPath subObjects

def subObjectsPaths (ld ln doPath : Bytes) : List DataObject → List (Bytes × BType)
  | [] => []
  | o :: os => objectPaths ld ln (doPath ++ sep :: o.name) o ++ subObjectsPaths ld ln doPath os

end

/-- Every attribute of the model. -/
def IedModel.attributePaths (m : IedModel) : List (Bytes × BType) :=
  m.logicalDevices.flatMap fun ld => ld.nodes.flatMap fun ln =>
    ln.dataObjects.flatMap fun o => objectPaths ld.name ln.name o.name o

/-- `Ied::engineered_values`. -/
def engineeredValues (m : IedModel) (t : Decimals) : List (Bytes × Value) :=
  m.attributePaths.filterMap fun a =>
    (m.value a.1).bind fun text => (parseEngineered m t a.1 a.2 text).map fun v => (a.1, v)

/-- The name of a block's attribute. -/
def attributeOf (base name : Bytes) : Bytes := base ++ sep :: name

/-- `DatSet` as a control block has it. -/
def dataSetRef (ld ln : Bytes) (datSet : Option Bytes) : Option Bytes :=
  datSet.map fun d => referenceOf ld (ln ++ sep :: d)

/-- `DstAddress`. -/
def addressDefaults (mac : Bytes) (vlanPriority vlanId appid : Nat) : List (Bytes × Value) :=
  [(ascii "DstAddress$Addr", .octetString mac),
    (ascii "DstAddress$PRIORITY", .unsigned vlanPriority), (ascii "DstAddress$VID", .unsigned vlanId),
    (ascii "DstAddress$APPID", .unsigned appid)]

def gocbDefaults (gcb : GseControl) (base ld ln : Bytes) : List (Bytes × Value) :=
  [(ascii "GoEna", .boolean false), (ascii "GoID", .visibleString (gcb.goId.getD base)),
    (ascii "DatSet", .visibleString ((dataSetRef ld ln gcb.datSet).getD [])),
    (ascii "ConfRev", .unsigned gcb.confRev), (ascii "NdsCom", .boolean false),
    (ascii "FixedOffs", .boolean gcb.fixedOffs)] ++
    match gcb.address with
    | none => []
    | some a =>
      addressDefaults a.mac a.vlanPriority a.vlanId a.appid ++
        [(ascii "MinTime", .unsigned (a.minTimeMs.getD 0)),
          (ascii "MaxTime", .unsigned (a.maxTimeMs.getD 0))]

def svcbDefaults (scb : SmvControl) (ld ln : Bytes) : List (Bytes × Value) :=
  let smpMod : Int :=
    if scb.smpMod = ascii "SmpPerSec" then 1 else if scb.smpMod = ascii "SecPerSmp" then 2 else 0
  [(ascii "SvEna", .boolean false), (svIdName scb.multicast, .visibleString scb.smvId),
    (ascii "DatSet", .visibleString ((dataSetRef ld ln scb.datSet).getD [])),
    (ascii "ConfRev", .unsigned scb.confRev), (ascii "SmpRate", .unsigned scb.smpRate),
    (ascii "SmpMod", .integer smpMod)] ++
    (if scb.multicast then [(ascii "noASDU", .unsigned scb.nofAsdu)] else []) ++
    match scb.address with
    | none => []
    | some a => addressDefaults a.mac a.vlanPriority a.vlanId a.appid

/-- A block under a constraint of a logical node. -/
def blockRef (ld ln : Bytes) (fc : Fc) (name : Bytes) : Bytes :=
  referenceOf ld (ln ++ sep :: fc.asStr ++ sep :: name)

/-- The log that a control block writes into (`LogRef`). -/
def logRef (ld ln : Bytes) (lcb : NamedLogControl) : Bytes :=
  referenceOf (lcb.logLdInst.getD ld) (ln ++ sep :: lcb.logName)

/-- `Ied::seed_blocks`, for one logical node. -/
def nodeBlockDefaults (reservation : Bool) (ld : Bytes) (ln : NodeModel) : List (Bytes × Value) :=
  (ln.reportControls.flatMap fun rcb => rcb.instanceNames.flatMap fun name =>
      let base := blockRef ld ln.name (reportFc rcb.buffered) name
      (rcbDefaults rcb.toReportControl base (dataSetRef ld ln.name rcb.datSet) reservation).map
        fun d => (attributeOf base d.1.text, d.2)) ++
    (ln.logControls.flatMap fun lcb =>
      (lcbDefaults lcb.toLogControl (logRef ld ln.name lcb)
        ((dataSetRef ld ln.name lcb.datSet).getD [])).map
          fun d => (attributeOf (blockRef ld ln.name .lg lcb.name) d.1.text, d.2)) ++
    (ln.settingControl.toList.flatMap fun sg => SgAttribute.components.map
      fun a => (attributeOf (blockRef ld ln.name .sp (ascii "SGCB")) a.text, sgcbDefaults sg a)) ++
    (ln.gseControls.flatMap fun gcb =>
      let base := blockRef ld ln.name .go gcb.name
      (gocbDefaults gcb base ld ln.name).map fun d => (attributeOf base d.1, d.2)) ++
    ln.smvControls.flatMap fun scb => (svcbDefaults scb ld ln.name).map
      fun d => (attributeOf (blockRef ld ln.name (svcbFc scb.multicast) scb.name) d.1, d.2)

/-- `Ied::seed_blocks`. -/
def blockDefaults (reservation : Bool) (m : IedModel) : List (Bytes × Value) :=
  m.logicalDevices.flatMap fun ld => ld.nodes.flatMap (nodeBlockDefaults reservation ld.name)

/-! ### The store -/

/-- `Ied`, as far as its variables go. -/
structure ValueStore where
  domains : List Domain
  values : LeafValues

namespace ValueStore

/-- `Ied::domain`. -/
def domain (s : ValueStore) (name : Bytes) : Option Domain :=
  s.domains.find? fun d => d.name = name

/-- `Ied::node_at`. -/
def nodeAt (s : ValueStore) (reference : Bytes) : Option Variable :=
  match splitOnce slash reference with
  | none => none
  | some (domain, item) => (s.domain domain).bind fun d => d.resolve item

/-- `Ied::read`. -/
def read (s : ValueStore) (domain item : Bytes) : Option Value :=
  match (s.domain domain).bind fun d => d.resolve item with
  | none => none
  | some node => readNode s.values domain item node

/-- `Ied::read_reference`. -/
def readReference (s : ValueStore) (reference : Bytes) : Option Value :=
  match splitOnce slash reference with
  | none => none
  | some (domain, item) => s.read domain item

/-- `Ied::write_leaf`, less the set of what has changed; and `Ied::set_internal`, which differs from
it in that alone. -/
def writeLeaf (s : ValueStore) (reference : Bytes) (value : Value) : Except Int ValueStore :=
  match s.nodeAt reference with
  | none => .error dataAccessNonExistent
  | some ⟨_, .leaf btype, _⟩ =>
    if accepts btype value then .ok { s with values := s.values.insert reference value }
    else .error dataAccessTypeInconsistent
  | some _ => .error dataAccessTypeInconsistent

/-- Values put into the store as it is built. -/
def seed (values : LeafValues) (entries : List (Bytes × Value)) : LeafValues :=
  entries.foldl (fun values e => values.insert e.1 e.2) values

/-- `Ied::with_edition`: every leaf has its default, and what the file engineers, for the attributes
and then for the control blocks, is put over it. -/
def build (reservation : Bool) (m : IedModel) (t : Decimals) : ValueStore :=
  let domains := m.logicalDevices.map (domainTree reservation)
  let defaults := domains.flatMap fun d => d.nodes.flatMap fun n => seedNode d.name n.name n
  ⟨domains, seed (seed (seed ∅ defaults) (engineeredValues m t)) (blockDefaults reservation m)⟩

/-- A write, by a client, the application or an engine of the server, that is refused or not. -/
def next (s : ValueStore) (w : Bytes × Value) : ValueStore :=
  match s.writeLeaf w.1 w.2 with
  | .ok s' => s'
  | .error _ => s

def after (s : ValueStore) (writes : List (Bytes × Value)) : ValueStore := writes.foldl next s

end ValueStore

/-! ### Places -/

/-- What a reference names, however it is spelt: a selection inside of a logical node. -/
structure Locus where
  domain : Bytes
  ln : Bytes
  selectors : List Selector
  deriving DecidableEq, Repr

/-- The place of a reference, for the parts that it is resolved by. -/
def locusOf (reference : Bytes) : Option Locus :=
  match splitOnce slash reference with
  | none => none
  | some (domain, item) =>
    match item.splitOn sep with
    | [] => none
    | ln :: parts => some ⟨domain, ln, (parts.map stepOf).flatMap Step.selectors⟩

/-- What the server puts behind an item name to go on inside of it. -/
def selectorText : Selector → Bytes
  | .component name => sep :: name
  | .index i => indexText i
  | .indexRange _ _ | .allElements => []

/-- The item name of a place in the spelling of the server itself. -/
def Locus.item (p : Locus) : Bytes := p.ln ++ p.selectors.flatMap selectorText

def Locus.text (p : Locus) : Bytes := referenceOf p.domain p.item

/-- A reference in the spelling of the server itself. -/
def Plain (reference : Bytes) : Prop := ∃ p, locusOf reference = some p ∧ p.text = reference

/-- A reference that selects no element of an array. -/
def Unindexed (reference : Bytes) : Prop :=
  ∀ p, locusOf reference = some p → ∀ i, Selector.index i ∉ p.selectors

/-- `c` is the place `p`, or a structure or an array around it in which `path` selects `p`. -/
structure Locus.Within (p c : Locus) (path : List Selector) : Prop where
  domain : c.domain = p.domain
  ln : c.ln = p.ln
  selectors : c.selectors ++ path = p.selectors

/-- What is selected in a value of a variable. -/
def partAt : Variable → Value → List Selector → Option Value
  | _, x, [] => some x
  | v, .structure members, .component name :: path =>
    ((v.children.zip members).find? fun e => e.1.name = name).bind fun e => partAt e.1 e.2 path
  | v, .array members, .index i :: path =>
    v.element.bind fun e => (members[i]?).bind fun x => partAt e x path
  | _, _, _ :: _ => none

/-- The variable at a place. -/
def ValueStore.nodeIn (s : ValueStore) (p : Locus) : Option Variable :=
  (s.domain p.domain).bind fun d => (d.node p.ln).bind fun n => n.descend p.selectors

theorem splitOnce_eq_some {c : UInt8} {bs a b : Bytes} (h : splitOnce c bs = some (a, b)) :
    bs = a ++ c :: b ∧ c ∉ a := by
  induction bs generalizing a with
  | nil => cases h
  | cons x bs ih =>
    rw [splitOnce] at h
    split at h
    · rename_i hx
      cases h
      rw [hx]
      exact ⟨rfl, List.not_mem_nil⟩
    · rename_i hx
      rw [Option.map_eq_some_iff] at h
      obtain ⟨⟨before, after⟩, hrest, h⟩ := h
      cases h
      obtain ⟨rfl, hnot⟩ := ih hrest
      exact ⟨rfl, by simpa [Ne.symm hx] using hnot⟩

/-- What a reference resolves to, and what is read there, depends on its place, and the text of what
is read on the item name it was given. -/
theorem exists_item_of_locusOf {reference : Bytes} {p : Locus} (h : locusOf reference = some p) :
    ∃ item, reference = referenceOf p.domain item ∧ slash ∉ p.domain ∧
      ∀ s : ValueStore, s.nodeAt reference = s.nodeIn p ∧
        s.readReference reference = (s.nodeIn p).bind (readNode s.values p.domain item) := by
  unfold locusOf at h
  split at h
  case h_1 => cases h
  case h_2 domain item hsplit =>
    split at h
    case h_1 => cases h
    case h_2 ln parts hparts =>
      cases h
      obtain ⟨rfl, hslash⟩ := splitOnce_eq_some hsplit
      refine ⟨item, rfl, hslash, ?_⟩
      intro s
      have hnode : ((s.domain domain).bind fun d => d.resolve item) =
          s.nodeIn ⟨domain, ln, (parts.map stepOf).flatMap Step.selectors⟩ := by
        rw [ValueStore.nodeIn]
        congr 1
        funext d
        rw [Domain.resolve, hparts]
        dsimp only
        congr 1
        funext n
        exact n.resolve_eq_descend _
      constructor
      · rw [ValueStore.nodeAt, hsplit]
        exact hnode
      · rw [ValueStore.readReference, hsplit]
        dsimp only
        rw [ValueStore.read, hnode]
        cases s.nodeIn ⟨domain, ln, (parts.map stepOf).flatMap Step.selectors⟩ <;> rfl

variable {v : Variable} {values : LeafValues} {domain item : Bytes} {cs : List Variable}

theorem locusOf_of_nodeAt {s : ValueStore} {reference : Bytes} (h : s.nodeAt reference = some v) :
    ∃ p, locusOf reference = some p ∧ s.nodeIn p = some v := by
  cases hp : locusOf reference with
  | some p =>
    obtain ⟨item, -, -, hs⟩ := exists_item_of_locusOf hp
    rw [(hs s).1] at h
    exact ⟨p, rfl, h⟩
  | none =>
    unfold ValueStore.nodeAt at h
    unfold locusOf at hp
    cases hsplit : splitOnce slash reference with
    | none =>
      rw [hsplit] at h
      cases h
    | some e =>
      rw [hsplit] at hp
      dsimp only at hp
      split at hp
      · rename_i hnil
        exact absurd hnil (List.splitOnP_ne_nil _ _)
      · cases hp

/-! ### What is read inside of what is read -/

variable {c w : Variable} {path : List Selector}

theorem readComponents_find {name : Bytes} {xs : List Value}
    (h : readComponents values domain item cs = some xs)
    (hc : cs.find? (fun c => c.name = name) = some c) :
    ∃ x, ((cs.zip xs).find? fun e => e.1.name = name) = some (c, x) ∧
      readNode values domain (item ++ sep :: name) c = some x := by
  induction cs generalizing xs with
  | nil => cases hc
  | cons d cs ih =>
    rw [readComponents] at h
    simp only [Option.bind_eq_bind, Option.bind_eq_some_iff] at h
    obtain ⟨y, hy, ys, hys, h⟩ := h
    cases h
    rw [List.zip_cons_cons]
    by_cases hname : d.name = name
    · rw [List.find?_cons_of_pos (by simpa using hname)] at hc ⊢
      cases hc
      exact ⟨y, rfl, hname ▸ hy⟩
    · rw [List.find?_cons_of_neg (by simpa using hname)] at hc ⊢
      exact ih hys hc

/-- Inside of what is read stands what would be read there. -/
theorem readNode_descend {x : Value} (hformed : v.Formed)
    (h : readNode values domain item v = some x) (hw : v.descend path = some w) :
    ∃ y, partAt v x path = some y ∧
      readNode values domain (item ++ path.flatMap selectorText) w = some y := by
  induction path generalizing v item x with
  | nil =>
    cases hw
    refine ⟨x, rfl, ?_⟩
    rwa [List.flatMap_nil, List.append_nil]
  | cons s path ih =>
    rw [List.flatMap_cons, ← List.append_assoc]
    cases s with
    | component name =>
      rw [Variable.descend, Option.bind_eq_some_iff] at hw
      obtain ⟨c, hc, hw⟩ := hw
      obtain ⟨hv, hmem, hname⟩ := hformed.child hc
      have hfind : v.children.find? (fun c => c.name = name) = some c := by
        rw [Variable.child, (Variable.mem_children_of_child hc).1] at hc
        exact hc
      rw [hv] at h hformed
      rw [readNode, Option.map_eq_some_iff] at h
      obtain ⟨xs, hxs, rfl⟩ := h
      obtain ⟨y, hy, hread⟩ := readComponents_find hxs hfind
      cases hformed with
      | struct _ hchildren =>
        obtain ⟨z, hz, hlater⟩ := ih (hchildren c hmem) hread hw
        refine ⟨z, ?_, hlater⟩
        rw [partAt, hy]
        exact hz
    | index i =>
      rw [Variable.descend, Option.bind_eq_some_iff] at hw
      obtain ⟨e, he, hw⟩ := hw
      obtain ⟨n, hi, hv⟩ := hformed.elementAt he
      rw [hv] at h hformed
      rw [readNode, Option.map_eq_some_iff] at h
      obtain ⟨xs, hxs, rfl⟩ := h
      obtain ⟨y, hy, hread⟩ := getElem?_of_mapM_range hxs hi
      cases hformed with
      | array _ _ helement =>
        obtain ⟨z, hz, hlater⟩ := ih helement hread hw
        refine ⟨z, ?_, hlater⟩
        rw [hv, partAt, Variable.element, Variable.arrayLen]
        dsimp only [List.head?_cons, Option.bind_some]
        rw [hy]
        exact hz
    | indexRange low count => cases hw
    | allElements => cases hw

/-! ### Every leaf has a value -/

theorem seedComponents_of_mem (hc : c ∈ cs) :
    seedNode domain (item ++ sep :: c.name) c ⊆ seedComponents domain item cs := by
  induction cs with
  | nil => cases hc
  | cons d cs ih =>
    rw [seedComponents]
    rcases List.mem_cons.mp hc with rfl | hc
    · exact List.subset_append_left _ _
    · exact List.Subset.trans (ih hc) (List.subset_append_right _ _)

theorem seedNode_descend (hformed : v.Formed) (hw : v.descend path = some w) :
    seedNode domain (item ++ path.flatMap selectorText) w ⊆ seedNode domain item v := by
  induction path generalizing v item with
  | nil =>
    cases hw
    rw [List.flatMap_nil, List.append_nil]
    exact List.Subset.refl _
  | cons s path ih =>
    rw [List.flatMap_cons, ← List.append_assoc]
    cases s with
    | component name =>
      rw [Variable.descend, Option.bind_eq_some_iff] at hw
      obtain ⟨c, hc, hw⟩ := hw
      obtain ⟨hv, hmem, rfl⟩ := hformed.child hc
      rw [hv] at hformed ⊢
      cases hformed with
      | struct _ hchildren =>
        refine List.Subset.trans (ih (hchildren c hmem) hw) ?_
        rw [seedNode]
        exact seedComponents_of_mem hmem
    | index i =>
      rw [Variable.descend, Option.bind_eq_some_iff] at hw
      obtain ⟨e, he, hw⟩ := hw
      obtain ⟨n, hi, hv⟩ := hformed.elementAt he
      rw [hv] at hformed ⊢
      cases hformed with
      | array _ _ helement =>
        refine List.Subset.trans (ih helement hw) ?_
        intro entry hentry
        rw [seedNode, List.mem_flatMap]
        exact ⟨i, List.mem_range.mpr hi, hentry⟩
    | indexRange low count => cases hw
    | allElements => cases hw

theorem exists_readComponents
    (h : ∀ c ∈ cs, ∃ x, readNode values domain (item ++ sep :: c.name) c = some x) :
    ∃ xs, readComponents values domain item cs = some xs := by
  induction cs with
  | nil => exact ⟨[], rfl⟩
  | cons c cs ih =>
    rw [List.forall_mem_cons] at h
    obtain ⟨⟨x, hx⟩, hlater⟩ := h
    obtain ⟨xs, hxs⟩ := ih hlater
    refine ⟨x :: xs, ?_⟩
    rw [readComponents, hx, hxs]
    rfl

theorem exists_readNode (hformed : v.Formed) (h : ∀ e ∈ seedNode domain item v, e.1 ∈ values) :
    ∃ x, readNode values domain item v = some x := by
  induction hformed generalizing item with
  | @leaf name btype _ =>
    have hmem : referenceOf domain item ∈ values :=
      h (referenceOf domain item, defaultValue btype) (by rw [seedNode, List.mem_singleton])
    rw [readNode]
    exact Option.isSome_iff_exists.mp (AList.lookup_isSome.mpr hmem)
  | @struct name children _ ih =>
    obtain ⟨xs, hxs⟩ : ∃ xs, readComponents values domain item children = some xs := by
      apply exists_readComponents
      intro c hc
      apply ih c hc
      intro e he
      refine h e ?_
      rw [seedNode]
      exact seedComponents_of_mem hc he
    exact ⟨.structure xs, by rw [readNode, hxs, Option.map_some]⟩
  | @array name n element _ ih =>
    obtain ⟨xs, hxs⟩ : ∃ xs, (List.range n).mapM (fun i =>
        readNode values domain (item ++ indexText i) element) = some xs := by
      apply exists_mapM_some
      intro i hi
      apply ih
      intro e he
      refine h e ?_
      rw [seedNode, List.mem_flatMap]
      exact ⟨i, hi, he⟩
    exact ⟨.array xs, by rw [readNode, hxs, Option.map_some]⟩

namespace ValueStore

/-- The trees are well formed, and every leaf has a value in the server's own spelling. -/
structure Seeded (s : ValueStore) : Prop where
  formed : ∀ d ∈ s.domains, ∀ n ∈ d.nodes, n.Formed
  valued : ∀ d ∈ s.domains, ∀ n ∈ d.nodes, ∀ e ∈ seedNode d.name n.name n, e.1 ∈ s.values

theorem mem_seed {values : LeafValues} {entries : List (Bytes × Value)} {k : Bytes} :
    k ∈ seed values entries ↔ k ∈ values ∨ ∃ e ∈ entries, e.1 = k := by
  induction entries generalizing values with
  | nil => simp [seed]
  | cons e entries ih =>
    rw [seed, List.foldl_cons]
    have hrest := @ih (values.insert e.1 e.2)
    rw [seed] at hrest
    rw [hrest, AList.mem_insert, List.exists_mem_cons_iff]
    constructor
    · rintro ((rfl | h) | h)
      · exact Or.inr (Or.inl rfl)
      · exact Or.inl h
      · exact Or.inr (Or.inr h)
    · rintro (h | rfl | h)
      · exact Or.inl (Or.inr h)
      · exact Or.inl (Or.inl rfl)
      · exact Or.inr h

theorem build_seeded (reservation : Bool) (m : IedModel) (t : Decimals) :
    (build reservation m t).Seeded := by
  constructor
  · intro d hd
    obtain ⟨ld, -, rfl⟩ := List.mem_map.mp hd
    exact domainTree_formed reservation ld
  · intro d hd n hn e he
    refine mem_seed.mpr (Or.inl (mem_seed.mpr (Or.inl (mem_seed.mpr (Or.inr ⟨e, ?_, rfl⟩)))))
    exact List.mem_flatMap.mpr ⟨d, hd, List.mem_flatMap.mpr ⟨n, hn, he⟩⟩

variable {s s' : ValueStore} {reference : Bytes} {value : Value}

theorem writeLeaf_ok (h : s.writeLeaf reference value = .ok s') :
    ∃ v btype, s.nodeAt reference = some v ∧ v.kind = .leaf btype ∧ accepts btype value = true ∧
      s' = { s with values := s.values.insert reference value } := by
  unfold writeLeaf at h
  split at h
  case h_1 => cases h
  case h_2 name btype children hnode =>
    split at h
    case isTrue haccepts =>
      cases h
      exact ⟨_, btype, hnode, rfl, haccepts, rfl⟩
    case isFalse => cases h
  case h_3 => cases h

theorem Seeded.writeLeaf (hs : s.Seeded) (h : s.writeLeaf reference value = .ok s') :
    s'.Seeded := by
  obtain ⟨v, btype, -, -, -, rfl⟩ := writeLeaf_ok h
  refine ⟨hs.formed, ?_⟩
  intro d hd n hn e he
  rw [AList.mem_insert]
  exact Or.inr (hs.valued d hd n hn e he)

theorem Seeded.after (hs : s.Seeded) (writes : List (Bytes × Value)) : (s.after writes).Seeded := by
  induction writes generalizing s with
  | nil => exact hs
  | cons w writes ih =>
    apply ih
    rw [next]
    split
    · rename_i s' hwrite
      exact hs.writeLeaf hwrite
    · exact hs

theorem Seeded.nodeIn (hs : s.Seeded) {p : Locus} {v : Variable} (hv : s.nodeIn p = some v) :
    v.Formed ∧ ∀ e ∈ seedNode p.domain p.item v, e.1 ∈ s.values := by
  rw [ValueStore.nodeIn, Option.bind_eq_some_iff] at hv
  obtain ⟨d, hd, hv⟩ := hv
  rw [Option.bind_eq_some_iff] at hv
  obtain ⟨n, hn, hv⟩ := hv
  have hdname : d.name = p.domain := by simpa using List.find?_some hd
  have hnname : n.name = p.ln := by simpa using List.find?_some hn
  have hdmem := List.mem_of_find?_eq_some hd
  have hnmem := List.mem_of_find?_eq_some hn
  have hformed := hs.formed d hdmem n hnmem
  refine ⟨hformed.descend hv, ?_⟩
  intro e he
  refine hs.valued d hdmem n hnmem e ?_
  rw [hdname, hnname]
  exact seedNode_descend hformed hv he

end ValueStore

end Iec61850.Server
