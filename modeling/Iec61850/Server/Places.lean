import Iec61850.Server.Browsing
import Iec61850.Server.ReadShapes

/-!
# Places and their texts

Where an attribute is published: under each constraint that it belongs under, and once for each
element of every array around it. In a model whose names are well formed the text of a place is the
text of no other, so that what is kept under it is kept of one leaf.
-/

namespace Iec61850.Server

open Theory Mms

/-! ### The text of a place -/

/-- Where lists that go on with a mark are cut, they are cut in one way. -/
theorem cut_unique {α : Type*} {mark : α → Prop} {a b x y : List α} (ha : ∀ c ∈ a, ¬ mark c)
    (hb : ∀ c ∈ b, ¬ mark c) (hx : ∀ c ∈ x.head?, mark c) (hy : ∀ c ∈ y.head?, mark c)
    (h : a ++ x = b ++ y) : a = b ∧ x = y := by
  induction a generalizing b with
  | nil =>
    cases b with
    | nil => exact ⟨rfl, h⟩
    | cons d b =>
      rw [List.nil_append, List.cons_append] at h
      exact absurd (hx d (by rw [h]; rfl)) (hb d List.mem_cons_self)
  | cons c a ih =>
    cases b with
    | nil =>
      rw [List.nil_append, List.cons_append] at h
      exact absurd (hy c (by rw [← h]; rfl)) (ha c List.mem_cons_self)
    | cons d b =>
      rw [List.forall_mem_cons] at ha hb
      rw [List.cons_append, List.cons_append, List.cons.injEq] at h
      obtain ⟨rfl, h⟩ := h
      obtain ⟨rfl, rfl⟩ := ih ha.2 hb.2 h
      exact ⟨rfl, rfl⟩

theorem cut_at {c : UInt8} {a b x y : Bytes} (ha : c ∉ a) (hb : c ∉ b)
    (h : a ++ c :: x = b ++ c :: y) : a = b ∧ x = y := by
  obtain ⟨rfl, hrest⟩ := @cut_unique _ (· = c) a b (c :: x) (c :: y)
    (fun d hd heq => ha (heq ▸ hd)) (fun d hd heq => hb (heq ▸ hd)) (by simp) (by simp) h
  exact ⟨rfl, (List.cons.inj hrest).2⟩

theorem numeral_injective : Function.Injective numeral := by
  intro i j h
  have hi := readNumeral_numeral (Nat.lt_succ_of_le (Nat.le_max_left i j))
  have hj := readNumeral_numeral (Nat.lt_succ_of_le (Nat.le_max_right i j))
  rw [h] at hi
  exact Option.some.inj (hi.symm.trans hj)

/-- A selection that its text shows: of a component with a plain name, or of one element. -/
inductive PlainSelector : Selector → Prop where
  | component {name : Bytes} (h : PlainName name) : PlainSelector (.component name)
  | index (i : Nat) : PlainSelector (.index i)

/-- What a selection begins with. -/
def isMark (c : UInt8) : Prop := c = sep ∨ c = openParen

theorem PlainName.not_isMark {name : Bytes} (h : PlainName name) : ∀ c ∈ name, ¬ isMark c := by
  rintro c hc (rfl | rfl)
  · exact h.1 hc
  · exact h.2 hc

theorem isMark_of_head {path : List Selector} (h : ∀ s ∈ path, PlainSelector s) :
    ∀ c ∈ (path.flatMap selectorText).head?, isMark c := by
  cases path with
  | nil => exact nofun
  | cons s path =>
    intro c hc
    rcases h s List.mem_cons_self with hname | i
    · cases hc
      exact Or.inl rfl
    · cases hc
      exact Or.inr rfl

theorem selectorText_injective {p q : List Selector} (hp : ∀ s ∈ p, PlainSelector s)
    (hq : ∀ s ∈ q, PlainSelector s) (h : p.flatMap selectorText = q.flatMap selectorText) :
    p = q := by
  have hmarks : sep ≠ openParen := by decide
  induction p generalizing q with
  | nil =>
    cases q with
    | nil => rfl
    | cons s q => rcases hq s List.mem_cons_self with hname | i <;> cases h
  | cons s p ih =>
    rw [List.forall_mem_cons] at hp
    cases q with
    | nil => rcases hp.1 with hname | i <;> cases h
    | cons r q =>
      rw [List.forall_mem_cons] at hq
      rw [List.flatMap_cons, List.flatMap_cons] at h
      rcases hp.1 with hname | i
      · rcases hq.1 with hother | j
        · rw [selectorText, selectorText, List.cons_append, List.cons_append,
            List.cons.injEq] at h
          obtain ⟨rfl, hrest⟩ := cut_unique hname.not_isMark hother.not_isMark
            (isMark_of_head hp.2) (isMark_of_head hq.2) h.2
          rw [ih hp.2 hq.2 hrest]
        · exact absurd (List.cons.inj h).1 hmarks
      · rcases hq.1 with hother | j
        · exact absurd (List.cons.inj h).1 hmarks.symm
        · have hdigits : ∀ n, closeParen ∉ numeral n := by
            intro n hmem
            exact absurd (isDigit_of_mem_numeral hmem) (by decide)
          rw [selectorText, selectorText, indexText, indexText, List.cons_append,
            List.cons_append, List.cons_append, List.cons_append, List.append_assoc,
            List.append_assoc, List.cons.injEq] at h
          obtain ⟨hnumeral, hrest⟩ := cut_at (hdigits i) (hdigits j) h.2
          rw [numeral_injective hnumeral, ih hp.2 hq.2 hrest]

/-- A place that its text shows. -/
structure Locus.Shown (p : Locus) : Prop where
  domain : slash ∉ p.domain
  ln : PlainName p.ln
  selectors : ∀ s ∈ p.selectors, PlainSelector s

theorem Locus.Shown.text_injective {p q : Locus} (hp : p.Shown) (hq : q.Shown)
    (h : p.text = q.text) : p = q := by
  obtain ⟨pdomain, pln, pselectors⟩ := p
  obtain ⟨qdomain, qln, qselectors⟩ := q
  rw [Locus.text, Locus.text, referenceOf, referenceOf] at h
  obtain ⟨hdomain, hitem⟩ := cut_at hp.domain hq.domain h
  obtain ⟨hln, hselectors⟩ := cut_unique hp.ln.not_isMark hq.ln.not_isMark
    (isMark_of_head hp.selectors) (isMark_of_head hq.selectors) hitem
  cases hdomain
  cases hln
  cases selectorText_injective hp.selectors hq.selectors hselectors
  rfl

/-! ### The leaves of a tree -/

/-- Every leaf of a variable is where a selection leads. -/
theorem exists_descend_of_leafTypes {domain item k : Bytes} {btype : BType} {v : Variable}
    (hformed : v.Formed) (hnames : v.Browsable) (h : (k, btype) ∈ leafTypes domain item v) :
    ∃ path w, (∀ s ∈ path, PlainSelector s) ∧ v.descend path = some w ∧ w.kind = .leaf btype ∧
      k = referenceOf domain (item ++ path.flatMap selectorText) := by
  induction hformed generalizing item with
  | @leaf name own _ =>
    rw [leafTypes, List.mem_singleton, Prod.mk.injEq] at h
    obtain ⟨rfl, rfl⟩ := h
    refine ⟨[], _, List.forall_mem_nil _, rfl, rfl, ?_⟩
    rw [List.flatMap_nil, List.append_nil]
  | @struct name children _ ih =>
    obtain ⟨_, once, names, below⟩ := hnames
    rw [leafTypes, mem_componentTypes] at h
    obtain ⟨c, hc, h⟩ := h
    obtain ⟨path, w, hpath, hw, hkind, rfl⟩ := ih c hc (below c hc) h
    refine ⟨.component c.name :: path, w, ?_, ?_, hkind, ?_⟩
    · rw [List.forall_mem_cons]
      exact ⟨.component (names c hc), hpath⟩
    · rw [Variable.descend, child_of_arrayLen rfl]
      have hfound : findKey Variable.name c.name children = some c := findKey_of_mem once hc rfl
      rw [hfound]
      exact hw
    · rw [List.flatMap_cons, selectorText, List.append_assoc]
  | @array name n element _ ih =>
    obtain ⟨_, -, -, below⟩ := hnames
    rw [leafTypes, List.mem_flatMap] at h
    obtain ⟨i, hi, h⟩ := h
    obtain ⟨path, w, hpath, hw, hkind, rfl⟩ := ih (below element (List.mem_singleton_self _)) h
    refine ⟨.index i :: path, w, ?_, ?_, hkind, ?_⟩
    · rw [List.forall_mem_cons]
      exact ⟨.index i, hpath⟩
    · rw [Variable.descend, Variable.elementAt]
      dsimp only [Variable.arrayLen]
      rw [if_pos (List.mem_range.mp hi)]
      exact hw
    · rw [List.flatMap_cons, selectorText, List.append_assoc]

/-- The names of a model are well formed: its domains are different from each other, and no
separator is in a name. -/
structure IedModel.NamesApart (reservation : Bool) (m : IedModel) : Prop where
  once : (m.logicalDevices.map (·.name)).Nodup
  domains : ∀ ld ∈ m.logicalDevices, slash ∉ ld.name ∧ sep ∉ ld.name
  devices : ∀ ld ∈ m.logicalDevices, DeviceModel.WellNamed reservation ld

namespace ValueStore

variable {reservation : Bool} {m : IedModel} {btype : BType}

/-- The domain of a device, and a logical node of it. -/
theorem nodeIn_build (hm : m.NamesApart reservation) (t : Decimals) {ld : DeviceModel}
    (hld : ld ∈ m.logicalDevices) {ln : NodeModel} (hln : ln ∈ ld.nodes) (path : List Selector) :
    (build reservation m t).nodeIn ⟨ld.name, ln.name, path⟩ =
      (nodeVariable reservation ln).descend path := by
  have hdomain : (build reservation m t).domain ld.name = some (domainTree reservation ld) := by
    change findKey Domain.name ld.name (m.logicalDevices.map (domainTree reservation)) = _
    rw [findKey_map]
    have hfound : findKey (fun d : DeviceModel => (domainTree reservation d).name) ld.name
        m.logicalDevices = some ld := findKey_of_mem hm.once hld rfl
    rw [hfound]
    rfl
  have hnode : (domainTree reservation ld).node ln.name = some (nodeVariable reservation ln) := by
    change findKey Variable.name ln.name (ld.nodes.map (nodeVariable reservation)) = _
    rw [findKey_map]
    have hfound : findKey (fun n : NodeModel => (nodeVariable reservation n).name) ln.name
        ld.nodes = some ln := findKey_of_mem (hm.devices ld hld).once hln rfl
    rw [hfound]
    rfl
  rw [nodeIn, hdomain, Option.bind_some, hnode, Option.bind_some]

/-- Every leaf of the trees is at a place, and has the text of the place. -/
theorem exists_place_of_leafTypes (hm : m.NamesApart reservation) (t : Decimals) {k : Bytes}
    (h : (k, btype) ∈ (build reservation m t).leafTypes) :
    ∃ p w, p.Shown ∧ (build reservation m t).nodeIn p = some w ∧ w.kind = .leaf btype ∧
      p.text = k := by
  obtain ⟨d, hd, h⟩ := List.mem_flatMap.mp h
  obtain ⟨n, hn, h⟩ := List.mem_flatMap.mp h
  obtain ⟨ld, hld, rfl⟩ := List.mem_map.mp hd
  obtain ⟨ln, hln, rfl⟩ := List.mem_map.mp hn
  have hnames := (hm.devices ld hld).browsable
  have hmem : nodeVariable reservation ln ∈ (domainTree reservation ld).nodes :=
    List.mem_map_of_mem hln
  obtain ⟨path, w, hpath, hw, hkind, rfl⟩ := exists_descend_of_leafTypes
    (nodeVariable_formed reservation ln) (hnames.below _ hmem) h
  refine ⟨⟨ld.name, ln.name, path⟩, w, ⟨(hm.domains ld hld).1, hnames.names _ hmem, hpath⟩, ?_,
    hkind, rfl⟩
  rw [nodeIn_build hm t hld hln, hw]

/-- The text of a leaf is the text of no leaf of another type. -/
theorem btype_unique (hm : m.NamesApart reservation) {t : Decimals} {p : Locus} (hp : p.Shown)
    {v : Variable} {btype' : BType} (hv : (build reservation m t).nodeIn p = some v)
    (hkind : v.kind = .leaf btype) (h : (p.text, btype') ∈ (build reservation m t).leafTypes) :
    btype' = btype := by
  obtain ⟨q, w, hq, hw, hwkind, htext⟩ := exists_place_of_leafTypes hm t h
  cases hq.text_injective hp htext
  rw [hw, Option.some.injEq] at hv
  rw [← hv, hwkind] at hkind
  exact VarKind.leaf.inj hkind

end ValueStore

/-! ### The declaration of an attribute -/

/-- The names that lead from an attribute to one in it. -/
inductive DataAttribute.Declares : DataAttribute → List Bytes → DataAttribute → Prop where
  | self (a : DataAttribute) : Declares a [a.name] a
  | component {a c b : DataAttribute} {names : List Bytes} (hc : c ∈ a.children)
      (h : Declares c names b) : Declares a (a.name :: names) b

/-- The names that lead from a data object to an attribute in it, and the constraint that the
attribute of the object is declared under. -/
inductive DataObject.Declares : DataObject → List Bytes → Fc → DataAttribute → Prop where
  | own {o : DataObject} {a b : DataAttribute} {names : List Bytes} (ha : a ∈ o.attributes)
      (h : a.Declares names b) : Declares o (o.name :: names) a.fc b
  | sub {o s : DataObject} {names : List Bytes} {fc : Fc} {b : DataAttribute}
      (hs : s ∈ o.subObjects) (h : Declares s names fc b) : Declares o (o.name :: names) fc b

variable {a b : DataAttribute} {names : List Bytes} {o : DataObject} {fc : Fc}

theorem DataAttribute.Declares.head (h : a.Declares names b) : ∃ rest, names = a.name :: rest := by
  cases h with
  | self => exact ⟨[], rfl⟩
  | component hc h => exact ⟨_, rfl⟩

theorem DataObject.Declares.head (h : o.Declares names fc b) :
    ∃ s rest, names = o.name :: s :: rest := by
  cases h with
  | own ha h =>
    obtain ⟨rest, rfl⟩ := h.head
    exact ⟨_, rest, rfl⟩
  | sub hs h =>
    cases h with
    | own => exact ⟨_, _, rfl⟩
    | sub => exact ⟨_, _, rfl⟩

theorem eq_of_name_eq {α β : Type*} {f : α → β} {l : List α} (h : (l.map f).Nodup) {a b : α}
    (ha : a ∈ l) (hb : b ∈ l) (hab : f a = f b) : a = b :=
  List.inj_on_of_nodup_map h ha hb hab

theorem DataAttribute.Declares.unique {b' : DataAttribute} (h : a.Declares names b)
    (h' : a.Declares names b') (hnames : a.WellNamed) : b = b' := by
  induction h with
  | self a =>
    cases h' with
    | self => rfl
    | component hc h' => cases h'
  | @component a c b names hc h ih =>
    cases h' with
    | self => cases h
    | @component _ c' _ _ hc' h' =>
      obtain ⟨_, once, -, below⟩ := hnames
      obtain ⟨rest, hrest⟩ := h.head
      obtain ⟨rest', hrest'⟩ := h'.head
      rw [hrest, List.cons.injEq] at hrest'
      cases eq_of_name_eq once hc hc' hrest'.1
      exact ih h' (below c hc)

theorem DataObject.Declares.unique {b' : DataAttribute} {fc' : Fc} (h : o.Declares names fc b)
    (h' : o.Declares names fc' b') (hnames : o.WellNamed) : fc = fc' ∧ b = b' := by
  induction h with
  | @own o a b names ha h =>
    obtain ⟨_, once, -, -, attributes, -⟩ := hnames
    rw [List.nodup_append] at once
    obtain ⟨rest, hrest⟩ := h.head
    cases h' with
    | @own _ a' _ _ ha' h' =>
      obtain ⟨rest', hrest'⟩ := h'.head
      rw [hrest, List.cons.injEq] at hrest'
      cases eq_of_name_eq once.1 ha ha' hrest'.1
      exact ⟨rfl, h.unique h' (attributes a ha)⟩
    | @sub _ s _ _ _ hs h' =>
      obtain ⟨next, rest', hrest'⟩ := h'.head
      rw [hrest, List.cons.injEq] at hrest'
      exact absurd hrest'.1
        (once.2.2 a.name (List.mem_map_of_mem ha) s.name (List.mem_map_of_mem hs))
  | @sub o s names fc b hs h ih =>
    obtain ⟨_, once, -, -, -, below⟩ := hnames
    rw [List.nodup_append] at once
    obtain ⟨next, rest, hrest⟩ := h.head
    cases h' with
    | @own _ a' _ _ ha' h' =>
      obtain ⟨rest', hrest'⟩ := h'.head
      rw [hrest, List.cons.injEq] at hrest'
      exact absurd hrest'.1.symm
        (once.2.2 a'.name (List.mem_map_of_mem ha') s.name (List.mem_map_of_mem hs))
    | @sub _ s' _ _ _ hs' h' =>
      obtain ⟨next', rest', hrest'⟩ := h'.head
      rw [hrest, List.cons.injEq] at hrest'
      cases eq_of_name_eq once.2.1 hs hs' hrest'.1
      exact ih h' (below s hs)

theorem DataAttribute.Declares.plain (h : a.Declares names b) (hplain : PlainName a.name)
    (hnames : a.WellNamed) : ∀ name ∈ names, PlainName name := by
  induction h with
  | self a => exact List.forall_mem_singleton.mpr hplain
  | @component a c b names hc h ih =>
    obtain ⟨_, -, plain, below⟩ := hnames
    exact List.forall_mem_cons.mpr ⟨hplain, ih (plain c hc) (below c hc)⟩

theorem DataObject.Declares.plain (h : o.Declares names fc b) (hplain : PlainName o.name)
    (hnames : o.WellNamed) : ∀ name ∈ names, PlainName name := by
  induction h with
  | @own o a b names ha h =>
    obtain ⟨_, -, plain, -, attributes, -⟩ := hnames
    exact List.forall_mem_cons.mpr ⟨hplain, h.plain (plain a ha) (attributes a ha)⟩
  | @sub o s names fc b hs h ih =>
    obtain ⟨_, -, -, plain, -, below⟩ := hnames
    exact List.forall_mem_cons.mpr ⟨hplain, ih (plain s hs) (below s hs)⟩

mutual

/-- What `engineered_of` comes to inside of an attribute. -/
theorem mem_attributePaths {before k : Bytes} {btype : BType} : ∀ {a : DataAttribute},
    (k, btype) ∈ attributePaths before a ↔
      ∃ names b, a.Declares names b ∧ b.btype = btype ∧
        k = before ++ names.flatMap fun name => sep :: name
  | ⟨name, fc, own, children, groupValues, count⟩ => by
      rw [attributePaths, List.mem_cons, mem_attributesPaths, Prod.mk.injEq]
      constructor
      · rintro (⟨rfl, rfl⟩ | ⟨c, hc, names, b, h, hbtype, rfl⟩)
        · exact ⟨_, _, .self _, rfl, by simp⟩
        · exact ⟨_, b, .component hc h, hbtype, by simp⟩
      · rintro ⟨names, b, h, rfl, rfl⟩
        cases h with
        | self => exact Or.inl ⟨by simp, rfl⟩
        | @component _ c _ names hc h => exact Or.inr ⟨c, hc, names, b, h, rfl, by simp⟩

theorem mem_attributesPaths {before k : Bytes} {btype : BType} : ∀ {as : List DataAttribute},
    (k, btype) ∈ attributesPaths before as ↔
      ∃ a ∈ as, ∃ names b, a.Declares names b ∧ b.btype = btype ∧
        k = before ++ names.flatMap fun name => sep :: name
  | [] => by simp [attributesPaths]
  | a :: as => by
      rw [attributesPaths, List.mem_append, mem_attributePaths, mem_attributesPaths,
        List.exists_mem_cons_iff]

end

/-- The reference of an attribute under the constraint it is declared under (`engineered_of`). -/
def declaredText (ld ln : Bytes) (fc : Fc) (names : List Bytes) : Bytes :=
  referenceOf ld (ln ++ sep :: fc.asStr ++ names.flatMap fun name => sep :: name)

mutual

theorem mem_objectPaths {ld ln doPath k : Bytes} {btype : BType} : ∀ {o : DataObject},
    (k, btype) ∈ objectPaths ld ln doPath o ↔
      ∃ rest fc b, o.Declares (o.name :: rest) fc b ∧ b.btype = btype ∧
        k = referenceOf ld (ln ++ sep :: fc.asStr ++ sep :: doPath ++
          rest.flatMap fun name => sep :: name)
  | ⟨name, attributes, subObjects, count⟩ => by
      rw [objectPaths, List.mem_append, List.mem_flatMap, mem_subObjectsPaths]
      constructor
      · rintro (⟨a, ha, hpath⟩ | ⟨s, hs, names, fc, b, h, hbtype, rfl⟩)
        · obtain ⟨names, b, h, hbtype, rfl⟩ := mem_attributePaths.mp hpath
          exact ⟨names, a.fc, b, .own ha h, hbtype, by simp [referenceOf]⟩
        · exact ⟨names, fc, b, .sub hs h, hbtype, by simp⟩
      · rintro ⟨rest, fc, b, h, rfl, rfl⟩
        cases h with
        | @own _ a _ names ha h =>
          exact Or.inl ⟨a, ha, mem_attributePaths.mpr ⟨rest, b, h, rfl, by simp [referenceOf]⟩⟩
        | @sub _ s names _ _ hs h => exact Or.inr ⟨s, hs, rest, fc, b, h, rfl, by simp⟩

theorem mem_subObjectsPaths {ld ln doPath k : Bytes} {btype : BType} : ∀ {os : List DataObject},
    (k, btype) ∈ subObjectsPaths ld ln doPath os ↔
      ∃ s ∈ os, ∃ names fc b, s.Declares names fc b ∧ b.btype = btype ∧
        k = referenceOf ld (ln ++ sep :: fc.asStr ++ sep :: doPath ++
          names.flatMap fun name => sep :: name)
  | [] => by simp [subObjectsPaths]
  | s :: os => by
      rw [subObjectsPaths, List.mem_append, mem_objectPaths, mem_subObjectsPaths,
        List.exists_mem_cons_iff]
      refine or_congr_left ?_
      constructor
      · rintro ⟨rest, fc, b, h, hbtype, rfl⟩
        exact ⟨s.name :: rest, fc, b, h, hbtype, by simp⟩
      · rintro ⟨names, fc, b, h, hbtype, rfl⟩
        obtain ⟨next, rest, rfl⟩ := h.head
        exact ⟨next :: rest, fc, b, h, hbtype, by simp⟩

end

/-- The names that lead to an attribute of the model from a logical node. -/
inductive IedModel.Declares (m : IedModel) :
    Bytes → Bytes → List Bytes → Fc → DataAttribute → Prop where
  | intro {ld : DeviceModel} {ln : NodeModel} {o : DataObject} {names : List Bytes} {fc : Fc}
      {b : DataAttribute} (hld : ld ∈ m.logicalDevices) (hln : ln ∈ ld.nodes)
      (ho : o ∈ ln.dataObjects) (h : o.Declares names fc b) :
      Declares m ld.name ln.name names fc b

namespace IedModel

/-- The attributes of a model, as `engineered_values` comes to them. -/
theorem mem_attributePaths {m : IedModel} {k : Bytes} {btype : BType} :
    (k, btype) ∈ m.attributePaths ↔
      ∃ domain ln names fc b, m.Declares domain ln names fc b ∧ b.btype = btype ∧
        k = declaredText domain ln fc names := by
  simp only [attributePaths, List.mem_flatMap, mem_objectPaths]
  constructor
  · rintro ⟨ld, hld, ln, hln, o, ho, rest, fc, b, h, hbtype, rfl⟩
    exact ⟨ld.name, ln.name, o.name :: rest, fc, b, .intro hld hln ho h, hbtype,
      by simp [declaredText]⟩
  · rintro ⟨domain, node, names, fc, b, ⟨hld, hln, ho, h⟩, hbtype, rfl⟩
    rename_i ld ln o
    obtain ⟨next, rest, rfl⟩ := h.head
    exact ⟨ld, hld, ln, hln, o, ho, next :: rest, fc, b, h, hbtype, by simp [declaredText]⟩

section Names

variable {m : IedModel} {reservation : Bool} (hm : m.NamesApart reservation) {domain node : Bytes}
  {names : List Bytes} {fc : Fc} {b : DataAttribute}
include hm

theorem Declares.unique {fc' : Fc} {b' : DataAttribute} (h : m.Declares domain node names fc b)
    (h' : m.Declares domain node names fc' b') : fc = fc' ∧ b = b' := by
  obtain ⟨hld, hln, ho, h⟩ := h
  rename_i ld ln o
  generalize hdomain : ld.name = domain at h'
  generalize hnode : ln.name = node at h'
  obtain ⟨hld', hln', ho', h'⟩ := h'
  rename_i ld' ln' o'
  cases eq_of_name_eq hm.once hld hld' hdomain
  have hdevice := hm.devices ld hld
  cases eq_of_name_eq hdevice.once hln hln' hnode
  have hnames := hdevice.nodes ln hln
  obtain ⟨next, rest, hrest⟩ := h.head
  obtain ⟨next', rest', hrest'⟩ := h'.head
  rw [hrest, List.cons.injEq] at hrest'
  cases eq_of_name_eq hnames.objectsOnce ho ho' hrest'.1
  exact h.unique h' (hnames.objects o ho)

omit hm in
theorem Declares.ne_nil (h : m.Declares domain node names fc b) : names ≠ [] := by
  obtain ⟨hld, hln, ho, h⟩ := h
  obtain ⟨next, rest, rfl⟩ := h.head
  exact List.cons_ne_nil _ _

theorem Declares.plain (h : m.Declares domain node names fc b) :
    slash ∉ domain ∧ sep ∉ domain ∧ PlainName node ∧ ∀ name ∈ names, PlainName name := by
  obtain ⟨hld, hln, ho, h⟩ := h
  rename_i ld ln o
  have hdevice := hm.devices ld hld
  have hnames := hdevice.nodes ln hln
  obtain ⟨hslash, hsep⟩ := hm.domains ld hld
  exact ⟨hslash, hsep, hdevice.names ln hln,
    h.plain (hnames.objectNames o ho) (hnames.objects o ho)⟩

end Names

end IedModel

theorem plainName_asStr (fc : Fc) : PlainName fc.asStr := by
  cases fc <;> decide

/-- The place that a declaration names. -/
def declaredLocus (domain ln : Bytes) (fc : Fc) (names : List Bytes) : Locus :=
  ⟨domain, ln, .component fc.asStr :: names.map .component⟩

theorem declaredLocus_text (domain ln : Bytes) (fc : Fc) (names : List Bytes) :
    (declaredLocus domain ln fc names).text = declaredText domain ln fc names := by
  rw [Locus.text, Locus.item, declaredLocus, declaredText, List.flatMap_cons, List.flatMap_map,
    selectorText, ← List.append_assoc]
  rfl

theorem IedModel.Declares.shown {m : IedModel} {reservation : Bool} (hm : m.NamesApart reservation)
    {domain node : Bytes} {names : List Bytes} {fc : Fc} {b : DataAttribute}
    (h : m.Declares domain node names fc b) (view : Fc) :
    (declaredLocus domain node view names).Shown := by
  obtain ⟨hslash, -, hnode, hplain⟩ := h.plain hm
  refine ⟨hslash, hnode, List.forall_mem_cons.mpr ⟨.component (plainName_asStr view), ?_⟩⟩
  intro s hs
  obtain ⟨name, hname, rfl⟩ := List.mem_map.mp hs
  exact .component (hplain name hname)

/-! ### The places of an attribute -/

/-- The index that selects one element: none, of what is not an array. -/
inductive Selects : Option Nat → Option Nat → Prop where
  | whole : Selects none none
  | element {n i : Nat} (h : i < n) : Selects (some n) (some i)

/-- The steps that lead from an attribute to an element of one in it. -/
inductive DataAttribute.Reaches : DataAttribute → List Step → DataAttribute → Prop where
  | self {a : DataAttribute} {i : Option Nat} (hi : Selects a.count i) : Reaches a [⟨a.name, i⟩] a
  | component {a c b : DataAttribute} {i : Option Nat} {path : List Step} (hi : Selects a.count i)
      (hc : c ∈ a.children) (h : Reaches c path b) : Reaches a (⟨a.name, i⟩ :: path) b

/-- The steps that lead from a data object to an element of an attribute in it. -/
inductive DataObject.Reaches : DataObject → List Step → Fc → DataAttribute → Prop where
  | own {o : DataObject} {a b : DataAttribute} {i : Option Nat} {path : List Step}
      (hi : Selects o.count i) (ha : a ∈ o.attributes) (h : a.Reaches path b) :
      Reaches o (⟨o.name, i⟩ :: path) a.fc b
  | sub {o s : DataObject} {i : Option Nat} {path : List Step} {fc : Fc} {b : DataAttribute}
      (hi : Selects o.count i) (hs : s ∈ o.subObjects) (h : Reaches s path fc b) :
      Reaches o (⟨o.name, i⟩ :: path) fc b

/-- An element of an attribute under a constraint that the tree publishes it under. -/
structure AttributePlace where
  domain : Bytes
  ln : Bytes
  declared : Fc
  view : Fc
  path : List Step
  target : DataAttribute

namespace AttributePlace

/-- The place of the tree. -/
def locus (pl : AttributePlace) : Locus :=
  ⟨pl.domain, pl.ln, .component pl.view.asStr :: pl.path.flatMap Step.selectors⟩

/-- The reference that the attribute is declared by, under which the file engineers its value. -/
def declaration (pl : AttributePlace) : Bytes :=
  declaredText pl.domain pl.ln pl.declared (pl.path.map Step.name)

/-- No array is on the way. -/
def Single (pl : AttributePlace) : Prop := ∀ s ∈ pl.path, s.index = none

instance (pl : AttributePlace) : Decidable pl.Single :=
  inferInstanceAs (Decidable (∀ s ∈ pl.path, s.index = none))

/-- The tree publishes the attribute here. -/
inductive Published (m : IedModel) : AttributePlace → Prop where
  | intro {ld : DeviceModel} {ln : NodeModel} {o : DataObject} {declared view : Fc}
      {path : List Step} {b : DataAttribute} (hld : ld ∈ m.logicalDevices) (hln : ln ∈ ld.nodes)
      (ho : o ∈ ln.dataObjects) (h : o.Reaches path declared b)
      (hview : belongsUnder declared view = true) :
      Published m ⟨ld.name, ln.name, declared, view, path, b⟩

/-- The same element under another constraint. -/
def under (pl : AttributePlace) (view : Fc) : AttributePlace := { pl with view := view }

theorem Published.under {m : IedModel} {pl : AttributePlace} (h : pl.Published m) {view : Fc}
    (hview : belongsUnder pl.declared view = true) : (pl.under view).Published m := by
  obtain ⟨hld, hln, ho, h, -⟩ := h
  exact .intro hld hln ho h hview

end AttributePlace

variable {a b : DataAttribute} {path : List Step} {o : DataObject} {fc : Fc} {v : Variable}

theorem DataAttribute.Reaches.declares (h : a.Reaches path b) :
    a.Declares (path.map Step.name) b := by
  induction h with
  | self hi => exact .self _
  | component hi hc h ih => exact .component hc ih

theorem DataObject.Reaches.declares (h : o.Reaches path fc b) :
    o.Declares (path.map Step.name) fc b := by
  induction h with
  | own hi ha h => exact .own ha h.declares
  | sub hi hs h ih => exact .sub hs ih

/-! ### What the tree has at a place -/

/-- What a component is, or one element of it, and what is below. -/
def Variable.enter (v : Variable) (index : Option Nat) (path : List Step) : Option Variable :=
  match index with
  | none => v.resolve path
  | some i => (v.elementAt i).bind fun e => e.resolve path

variable {x : FcdaNode} {index : Option Nat} {declared view : Fc}

theorem enter_toVariable (h : Selects x.count index) (fc : Fc) (path : List Step) :
    (x.toVariable fc).enter index path = (x.body fc).resolve path := by
  generalize hcount : x.count = count at h
  rw [FcdaNode.toVariable, hcount]
  cases h with
  | whole => rfl
  | @element n i h =>
    rw [Variable.enter, counted, Variable.elementAt]
    dsimp only [Variable.arrayLen]
    rw [if_pos h]
    rfl

theorem resolve_step (hv : v.child x.name = some (x.toVariable fc)) (h : Selects x.count index)
    (path : List Step) : v.resolve (⟨x.name, index⟩ :: path) = (x.body fc).resolve path := by
  rw [resolve_cons_eq, hv, Option.bind_some]
  exact enter_toVariable h fc path

theorem child_of_mem {c : Variable} (harray : v.arrayLen = none)
    (once : (v.children.map (·.name)).Nodup) (hc : c ∈ v.children) : v.child c.name = some c := by
  rw [child_of_arrayLen harray]
  exact findKey_of_mem once hc rfl

theorem child_component {c : DataAttribute} (hnames : a.WellNamed) (hc : c ∈ a.children) (fc : Fc) :
    ((FcdaNode.attribute a).body fc).child (FcdaNode.attribute c).name =
      some ((FcdaNode.attribute c).toVariable fc) := by
  obtain ⟨_, once, -, -⟩ := hnames
  have hbody : (FcdaNode.attribute a).body fc =
      ⟨a.name, .struct, attributeVariables a.children⟩ := by
    rw [FcdaNode.body, if_neg (by simpa using List.ne_nil_of_mem hc)]
  have hmem : (FcdaNode.attribute c).toVariable fc ∈ attributeVariables a.children :=
    mem_attributeVariables.mpr ⟨c, hc, attributeVariable_eq fc c⟩
  rw [hbody, ← FcdaNode.name_toVariable fc]
  apply child_of_mem rfl _ hmem
  rw [names_attributeVariables]
  exact once

theorem DataAttribute.Reaches.resolve (h : a.Reaches path b) (hnames : a.WellNamed)
    (hv : v.child a.name = some ((FcdaNode.attribute a).toVariable fc)) :
    v.resolve path = some ((FcdaNode.attribute b).body fc) := by
  induction h generalizing v with
  | @self a i hi => exact resolve_step (x := .attribute a) hv hi []
  | @component a c b i path hi hc h ih =>
    have hstep : v.resolve (⟨a.name, i⟩ :: path) = _ :=
      resolve_step (x := .attribute a) hv hi path
    rw [hstep]
    have hchild := child_component hnames hc fc
    obtain ⟨_, -, -, below⟩ := hnames
    exact ih (below c hc) hchild

theorem DataObject.Reaches.published (h : o.Reaches path declared b)
    (hview : belongsUnder declared view = true) :
    objectUnder o view = some ((FcdaNode.object o).toVariable view) := by
  have hfilled : ((FcdaNode.object o).body view).children ≠ [] := by
    induction h with
    | @own o a b i path hi ha h =>
      have hmem : attributeVariable a ∈ ((FcdaNode.object o).body view).children := by
        refine List.mem_append_left _ (mem_attributeVariables.mpr ⟨a, ?_, rfl⟩)
        exact List.mem_filter.mpr ⟨ha, hview⟩
      exact List.ne_nil_of_mem hmem
    | @sub o s i path fc b hi hs h ih =>
      have hsub : objectUnder s view = some ((FcdaNode.object s).toVariable view) := by
        rw [objectUnder_eq, if_neg (ih hview)]
      have hmem : (FcdaNode.object s).toVariable view ∈
          ((FcdaNode.object o).body view).children :=
        List.mem_append_right _ (mem_objectsUnder.mpr ⟨s, hs, hsub⟩)
      exact List.ne_nil_of_mem hmem
  rw [objectUnder_eq, if_neg hfilled]

theorem nodup_body (hnames : o.WellNamed) (fc : Fc) :
    (((FcdaNode.object o).body fc).children.map (·.name)).Nodup := by
  obtain ⟨_, once, -, -, -, -⟩ := hnames
  refine List.Sublist.nodup ?_ once
  rw [FcdaNode.body, List.map_append, names_attributeVariables]
  exact (List.filter_sublist.map _).append (names_objectsUnder o.subObjects fc)

theorem DataObject.Reaches.resolve (h : o.Reaches path declared b) (hnames : o.WellNamed)
    (hview : belongsUnder declared view = true)
    (hv : v.child o.name = some ((FcdaNode.object o).toVariable view)) :
    v.resolve path = some ((FcdaNode.attribute b).body view) := by
  induction h generalizing v with
  | @own o a b i path hi ha h =>
    have hstep : v.resolve (⟨o.name, i⟩ :: path) = _ := resolve_step (x := .object o) hv hi path
    have hmem : (FcdaNode.attribute a).toVariable view ∈
        ((FcdaNode.object o).body view).children := by
      refine List.mem_append_left _ (mem_attributeVariables.mpr ⟨a, ?_, ?_⟩)
      · exact List.mem_filter.mpr ⟨ha, hview⟩
      · exact attributeVariable_eq view a
    have hchild := child_of_mem rfl (nodup_body hnames view) hmem
    rw [FcdaNode.name_toVariable] at hchild
    obtain ⟨_, -, -, -, attributes, -⟩ := hnames
    rw [hstep]
    exact h.resolve (attributes a ha) hchild
  | @sub o s i path fc b hi hs h ih =>
    have hstep : v.resolve (⟨o.name, i⟩ :: path) = _ := resolve_step (x := .object o) hv hi path
    have hmem : (FcdaNode.object s).toVariable view ∈
        ((FcdaNode.object o).body view).children :=
      List.mem_append_right _ (mem_objectsUnder.mpr ⟨s, hs, h.published hview⟩)
    have hchild := child_of_mem rfl (nodup_body hnames view) hmem
    rw [FcdaNode.name_toVariable] at hchild
    obtain ⟨_, -, -, -, -, below⟩ := hnames
    rw [hstep]
    exact ih (below s hs) hview hchild

theorem DataObject.Reaches.head (h : o.Reaches path fc b) :
    ∃ i rest, path = ⟨o.name, i⟩ :: rest := by
  cases h with
  | own => exact ⟨_, _, rfl⟩
  | sub => exact ⟨_, _, rfl⟩

namespace AttributePlace.Published

variable {reservation : Bool} {m : IedModel} {pl : AttributePlace} (hpl : pl.Published m)
  (hm : m.NamesApart reservation)
include hpl hm

theorem nodeIn (t : Decimals) : (ValueStore.build reservation m t).nodeIn pl.locus =
    some ((FcdaNode.attribute pl.target).body pl.view) := by
  obtain ⟨hld, hln, ho, h, hview⟩ := hpl
  rename_i ld ln o declared view path b
  have hnode := (hm.devices ld hld).nodes ln hln
  have hobject := hnode.objects o ho
  have hresolve : (nodeVariable reservation ln).resolve (⟨view.asStr, none⟩ :: path) =
      some ((FcdaNode.attribute b).body view) := by
    have hmem : (FcdaNode.object o).toVariable view ∈ nodeBody reservation ln view :=
      List.mem_append_left _ (mem_objectsUnder.mpr ⟨o, ho, h.published hview⟩)
    have hchild : (⟨view.asStr, .struct, nodeBody reservation ln view⟩ : Variable).child o.name =
        some ((FcdaNode.object o).toVariable view) := by
      obtain ⟨_, once, -, -⟩ := hnode.body_browsable view
      have hchild := child_of_mem rfl once hmem
      rwa [FcdaNode.name_toVariable] at hchild
    obtain ⟨i, rest, hpath⟩ := h.head
    rw [hpath, nodeVariable_resolve, ← hpath]
    exact h.resolve hobject hview hchild
  rw [Variable.resolve_eq_descend] at hresolve
  rw [locus, ValueStore.nodeIn_build hm t hld hln]
  exact hresolve

theorem shown : pl.locus.Shown := by
  obtain ⟨hld, hln, ho, h, hview⟩ := hpl
  rename_i ld ln o declared view path b
  have hdevice := hm.devices ld hld
  have hnode := hdevice.nodes ln hln
  have hplain := h.declares.plain (hnode.objectNames o ho) (hnode.objects o ho)
  refine ⟨(hm.domains ld hld).1, hdevice.names ln hln, ?_⟩
  refine List.forall_mem_cons.mpr ⟨.component (plainName_asStr view), ?_⟩
  intro selector hselector
  obtain ⟨s, hs, hselector⟩ := List.mem_flatMap.mp hselector
  rcases List.mem_cons.mp hselector with rfl | hselector
  · exact .component (hplain s.name (List.mem_map_of_mem hs))
  · obtain ⟨i, -, rfl⟩ := List.mem_map.mp hselector
    exact .index i

end AttributePlace.Published

end Iec61850.Server
