import Iec61850.Server.Places

/-!
# Engineered values

What the file says of an attribute is put into the store under the reference of its declaration
(`engineered_of`), and the defaults of the leaves under their places (`seed_node`).
-/

namespace Iec61850.Server

open Theory Mms

/-! ### What is put into a store -/

namespace ValueStore

theorem lookup_seed_other {values : LeafValues} {entries : List (Bytes × Value)} {k : Bytes}
    (h : ∀ e ∈ entries, e.1 ≠ k) : (seed values entries).lookup k = values.lookup k := by
  induction entries generalizing values with
  | nil => rfl
  | cons e entries ih =>
    rw [List.forall_mem_cons] at h
    have hrest := @ih (values.insert e.1 e.2) h.2
    rw [seed] at hrest
    rw [seed, List.foldl_cons, hrest]
    exact AList.lookup_insert_ne (Ne.symm h.1)

/-- Under a text that one value alone is put under, the store has that value. -/
theorem lookup_seed_of_forall {values : LeafValues} {entries : List (Bytes × Value)} {k : Bytes}
    {x : Value} (hmem : ∃ e ∈ entries, e.1 = k) (h : ∀ e ∈ entries, e.1 = k → e.2 = x) :
    (seed values entries).lookup k = some x := by
  obtain ⟨y, hy⟩ : ∃ y, (seed values entries).lookup k = some y :=
    Option.isSome_iff_exists.mp (AList.lookup_isSome.mpr (mem_seed.mpr (Or.inr hmem)))
  induction entries generalizing values with
  | nil =>
    obtain ⟨e, he, -⟩ := hmem
    cases he
  | cons e entries ih =>
    rw [List.forall_mem_cons] at h
    by_cases hlater : ∃ e ∈ entries, e.1 = k
    · exact ih hlater h.2 hy
    · have hother : ∀ e ∈ entries, e.1 ≠ k := fun e he hk => hlater ⟨e, he, hk⟩
      obtain ⟨e', he', hk⟩ := hmem
      rcases List.mem_cons.mp he' with rfl | he'
      · change (seed (values.insert e'.1 e'.2) entries).lookup k = _
        rw [lookup_seed_other hother, ← hk, AList.lookup_insert, h.1 hk]
      · exact absurd hk (hother e' he')

end ValueStore

/-! ### The text of a control block -/

/-- A default of a control block is of an attribute of it. -/
theorem nodeBlockDefaults_text {reservation : Bool} {ld : Bytes} {ln : NodeModel}
    {d : Bytes × Value} (hd : d ∈ nodeBlockDefaults reservation ld ln) :
    ∃ b ∈ controlBlocks reservation ln, ∃ part,
      d.1 = attributeOf (blockRef ld ln.name b.1 b.2.name) part := by
  rw [nodeBlockDefaults] at hd
  simp only [controlBlocks, List.mem_append]
  simp only [List.mem_append] at hd
  rcases hd with (((hd | hd) | hd) | hd) | hd
  · obtain ⟨rcb, hrcb, hd⟩ := List.mem_flatMap.mp hd
    obtain ⟨name, hname, hd⟩ := List.mem_flatMap.mp hd
    obtain ⟨e, -, rfl⟩ := List.mem_map.mp hd
    refine ⟨_, Or.inl (Or.inl (Or.inl (Or.inl (List.mem_flatMap.mpr ⟨rcb, hrcb,
      List.mem_map.mpr ⟨name, hname, rfl⟩⟩)))), _, rfl⟩
  · obtain ⟨lcb, hlcb, hd⟩ := List.mem_flatMap.mp hd
    obtain ⟨e, -, rfl⟩ := List.mem_map.mp hd
    exact ⟨_, Or.inl (Or.inl (Or.inl (Or.inr (List.mem_map.mpr ⟨lcb, hlcb, rfl⟩)))), _, rfl⟩
  · obtain ⟨sg, hsg, hd⟩ := List.mem_flatMap.mp hd
    obtain ⟨e, -, rfl⟩ := List.mem_map.mp hd
    exact ⟨_, Or.inr (List.mem_map.mpr ⟨sg, hsg, rfl⟩), _, rfl⟩
  · obtain ⟨gcb, hgcb, hd⟩ := List.mem_flatMap.mp hd
    obtain ⟨e, -, rfl⟩ := List.mem_map.mp hd
    exact ⟨_, Or.inl (Or.inl (Or.inr (List.mem_map.mpr ⟨gcb, hgcb, rfl⟩))), _, rfl⟩
  · obtain ⟨scb, hscb, hd⟩ := List.mem_flatMap.mp hd
    obtain ⟨e, -, rfl⟩ := List.mem_map.mp hd
    exact ⟨_, Or.inl (Or.inr (List.mem_map.mpr ⟨scb, hscb, rfl⟩)), _, rfl⟩

namespace AttributePlace.Published

variable {reservation : Bool} {m : IedModel} {pl : AttributePlace} (hpl : pl.Published m)

include hpl in
theorem declared : m.Declares pl.domain pl.ln (pl.path.map Step.name) pl.declared pl.target := by
  obtain ⟨hld, hln, ho, h, -⟩ := hpl
  exact .intro hld hln ho h.declares

variable (hm : m.NamesApart reservation)
include hpl hm

/-- The text of a place is the text of no attribute of a control block. -/
theorem text_ne_block {ld : DeviceModel} (hld : ld ∈ m.logicalDevices) {ln : NodeModel}
    (hln : ln ∈ ld.nodes) {b : Fc × Variable} (hb : b ∈ controlBlocks reservation ln)
    (part : Bytes) : attributeOf (blockRef ld.name ln.name b.1 b.2.name) part ≠ pl.locus.text := by
  intro htext
  have hdomain := (hm.domains ld hld).1
  have hln' := (hm.devices ld hld).names ln hln
  have hblock := ((hm.devices ld hld).nodes ln hln).blockNames b hb
  have hshown := hpl.shown hm
  obtain ⟨hpld, hpln, ho, h, hview⟩ := hpl
  rename_i pld pln o declared view path target
  obtain ⟨i, rest, hpath⟩ := h.head
  have hselectors : path.flatMap Step.selectors =
      .component o.name :: (i.toList.map Selector.index ++ rest.flatMap Step.selectors) := by
    rw [hpath]
    rfl
  have hplace : Locus.text ⟨pld.name, pln.name,
      .component view.asStr :: path.flatMap Step.selectors⟩ =
      pld.name ++ slash :: (pln.name ++ sep :: (view.asStr ++ sep :: (o.name ++
        (i.toList.map Selector.index ++ rest.flatMap Step.selectors).flatMap selectorText))) := by
    rw [hselectors, Locus.text, Locus.item, referenceOf, List.flatMap_cons, List.flatMap_cons]
    simp [selectorText]
  have hattribute : attributeOf (blockRef ld.name ln.name b.1 b.2.name) part =
      ld.name ++ slash :: (ln.name ++ sep :: (b.1.asStr ++ sep :: (b.2.name ++ sep :: part))) := by
    simp [attributeOf, blockRef, referenceOf]
  have hbelow : ∀ s ∈ i.toList.map Selector.index ++ rest.flatMap Step.selectors,
      PlainSelector s := by
    intro s hs
    refine hshown.selectors s ?_
    refine List.mem_cons_of_mem _ ?_
    dsimp only
    rw [hselectors]
    exact List.mem_cons_of_mem _ hs
  have hdevice := hm.devices pld hpld
  have hnode := hdevice.nodes pln hpln
  rw [hattribute, locus, hplace] at htext
  obtain ⟨hld', hitem⟩ := cut_at hdomain (hm.domains pld hpld).1 htext
  cases eq_of_name_eq hm.once hld hpld hld'
  obtain ⟨hnode', hunder⟩ := cut_at hln'.1 (hdevice.names pln hpln).1 hitem
  cases eq_of_name_eq hdevice.once hln hpln hnode'
  obtain ⟨hfc, hrest⟩ := cut_at (plainName_asStr b.1).1 (plainName_asStr view).1 hunder
  have hsep : ∀ c ∈ (sep :: part).head?, isMark c := by
    intro c hc
    exact Or.inl (Option.mem_some.mp hc).symm
  obtain ⟨hname, -⟩ := cut_unique hblock.not_isMark (hnode.objectNames o ho).not_isMark hsep
    (isMark_of_head hbelow) hrest
  refine hnode.apart view ((FcdaNode.object o).toVariable view) ?_ b.2 ?_ ?_
  · exact mem_objectsUnder.mpr ⟨o, ho, h.published hview⟩
  · refine List.mem_map.mpr ⟨b, List.mem_filter.mpr ⟨hb, ?_⟩, rfl⟩
    simpa using Fc.asStr_inj.mp hfc
  · rw [FcdaNode.name_toVariable]
    exact hname.symm

omit hpl in
/-- What is declared under the text of a place, and in what way it is spelt there. -/
theorem eq_of_declaredText {domain node : Bytes} {names : List Bytes} {fc view : Fc}
    {b : DataAttribute} (h : m.Declares domain node names fc b) {pl : AttributePlace}
    (hpl : pl.Published m) (htext : declaredText domain node view names = pl.locus.text) :
    pl.Single ∧ view = pl.view ∧ fc = pl.declared ∧ b = pl.target ∧
      declaredText domain node fc names = pl.declaration := by
  have hlocus : declaredLocus domain node view names = pl.locus := by
    apply (h.shown hm view).text_injective (hpl.shown hm)
    rw [declaredLocus_text, htext]
  have hdeclared := hpl.declared
  rw [declaredLocus, locus, Locus.mk.injEq, List.cons.injEq, Selector.component.injEq] at hlocus
  obtain ⟨rfl, rfl, hview, hpath⟩ := hlocus
  obtain ⟨hsingle, rfl⟩ : pl.Single ∧ names = pl.path.map Step.name := by
    rw [Single]
    generalize pl.path = path at hpath
    clear hdeclared htext h
    induction path generalizing names with
    | nil => exact ⟨List.forall_mem_nil _, List.map_eq_nil_iff.mp hpath⟩
    | cons s path ih =>
      obtain ⟨name, index⟩ := s
      cases names with
      | nil => cases hpath
      | cons first names =>
        rw [List.map_cons, List.flatMap_cons, Step.selectors, List.cons_append,
          List.cons.injEq] at hpath
        cases hpath.1
        cases index with
        | none =>
          obtain ⟨hnone, rfl⟩ := ih hpath.2
          exact ⟨List.forall_mem_cons.mpr ⟨rfl, hnone⟩, rfl⟩
        | some i =>
          cases names with
          | nil => cases hpath.2
          | cons second names => cases (List.cons.inj hpath.2).1
  obtain ⟨hfc, hb⟩ := h.unique hm hdeclared
  exact ⟨hsingle, Fc.asStr_inj.mp hview, hfc, hb, by rw [hfc]; rfl⟩

omit hpl hm in
theorem locus_of_single (h : pl.Single) :
    pl.locus = declaredLocus pl.domain pl.ln pl.view (pl.path.map Step.name) := by
  have hpath : pl.path.flatMap Step.selectors = (pl.path.map Step.name).map .component := by
    rw [List.map_map, List.map_eq_flatMap]
    apply List.flatMap_congr
    intro s hs
    rw [Step.selectors, h s hs]
    rfl
  rw [locus, declaredLocus, hpath]

omit hpl hm in
theorem text_of_single (h : pl.Single) :
    pl.locus.text = declaredText pl.domain pl.ln pl.view (pl.path.map Step.name) := by
  rw [locus_of_single h, declaredLocus_text]

omit hpl hm in
/-- An attribute without components that a value is engineered for is a leaf. -/
theorem body_of_leaf {t : Decimals} {text : Bytes} {v : Value}
    (hparse : parseEngineered m t pl.declaration pl.target.btype text = some v)
    (hleaf : pl.target.children = []) : (FcdaNode.attribute pl.target).body pl.view =
      ⟨pl.target.name, .leaf pl.target.btype, []⟩ := by
  have hbtype : pl.target.btype ≠ .phyComAddr := by
    intro hbtype
    rw [hbtype] at hparse
    cases hparse
  rw [FcdaNode.body, hleaf, List.isEmpty_nil, if_pos rfl, if_neg hbtype]

/-- What is kept under the text of a place when the store is built: the engineered value where the
text is that of the declaration, and the default of the type elsewhere. -/
theorem lookup_build (t : Decimals) {text : Bytes} {v : Value}
    (hvalue : m.value pl.declaration = some text)
    (hparse : parseEngineered m t pl.declaration pl.target.btype text = some v)
    (hleaf : pl.target.children = []) :
    (ValueStore.build reservation m t).values.lookup pl.locus.text =
      some (if pl.Single ∧ pl.view = pl.declared then v else defaultValue pl.target.btype) := by
  have hnode := hpl.nodeIn hm t
  rw [body_of_leaf hparse hleaf] at hnode
  have hseeded := ValueStore.build_seeded reservation m t
  -- the blocks are elsewhere
  rw [ValueStore.build]
  dsimp only
  rw [ValueStore.lookup_seed_other]
  swap
  · intro e he
    obtain ⟨ld, hld, he⟩ := List.mem_flatMap.mp he
    obtain ⟨ln, hln, he⟩ := List.mem_flatMap.mp he
    obtain ⟨b, hb, part, htext⟩ := nodeBlockDefaults_text he
    rw [htext]
    exact hpl.text_ne_block hm hld hln hb part
  -- what the file engineers under the text is of the attribute itself
  have hentry : ∀ e ∈ engineeredValues m t, e.1 = pl.locus.text →
      (pl.Single ∧ pl.view = pl.declared) ∧ e.2 = v := by
    rintro ⟨k, x⟩ he hk
    obtain ⟨⟨path, btype⟩, hpath, he⟩ := List.mem_filterMap.mp he
    obtain ⟨text', htext, he⟩ := Option.bind_eq_some_iff.mp he
    obtain ⟨x', hx, he⟩ := Option.map_eq_some_iff.mp he
    cases he
    obtain ⟨domain, node, names, fc, b, h, rfl, rfl⟩ := IedModel.mem_attributePaths.mp hpath
    obtain ⟨hsingle, hview, hfc, rfl, hdeclaration⟩ := eq_of_declaredText hm h hpl hk
    dsimp only at hx htext
    rw [hdeclaration] at hx htext
    rw [hvalue] at htext
    cases htext
    rw [hparse] at hx
    exact ⟨⟨hsingle, hview.symm.trans hfc⟩, (Option.some.inj hx).symm⟩
  by_cases hown : pl.Single ∧ pl.view = pl.declared
  · rw [if_pos hown]
    apply ValueStore.lookup_seed_of_forall
    · refine ⟨(pl.declaration, v), ?_, ?_⟩
      · refine List.mem_filterMap.mpr ⟨(pl.declaration, pl.target.btype), ?_, ?_⟩
        · exact IedModel.mem_attributePaths.mpr ⟨_, _, _, _, _, hpl.declared, rfl, rfl⟩
        · rw [hvalue, Option.bind_some, hparse, Option.map_some]
      · rw [text_of_single hown.1, hown.2]
        rfl
    · exact fun e he hk => (hentry e he hk).2
  · rw [if_neg hown, ValueStore.lookup_seed_other fun e he hk => hown (hentry e he hk).1]
    apply ValueStore.lookup_seed_of_forall
    · obtain ⟨d, hd, n, hn, he⟩ : ∃ d ∈ (ValueStore.build reservation m t).domains, ∃ n ∈ d.nodes,
          (pl.locus.text, defaultValue pl.target.btype) ∈ seedNode d.name n.name n := by
        have hmem : (pl.locus.text, pl.target.btype) ∈
            leafTypes pl.locus.domain pl.locus.item
              ⟨pl.target.name, .leaf pl.target.btype, []⟩ := List.mem_singleton_self _
        obtain ⟨d, hd, hmem⟩ := List.mem_flatMap.mp (hseeded.leafTypes hnode hmem)
        obtain ⟨n, hn, hmem⟩ := List.mem_flatMap.mp hmem
        exact ⟨d, hd, n, hn, (mem_seedNode (hseeded.formed d hd n hn)).mpr ⟨_, hmem, rfl⟩⟩
      exact ⟨_, List.mem_flatMap.mpr ⟨d, hd, List.mem_flatMap.mpr ⟨n, hn, he⟩⟩, rfl⟩
    · rintro ⟨k, x⟩ he rfl
      obtain ⟨d, hd, he⟩ := List.mem_flatMap.mp he
      obtain ⟨n, hn, he⟩ := List.mem_flatMap.mp he
      obtain ⟨btype, hmem, rfl⟩ := (mem_seedNode (hseeded.formed d hd n hn)).mp he
      have hleaf : (pl.locus.text, btype) ∈ (ValueStore.build reservation m t).leafTypes :=
        List.mem_flatMap.mpr ⟨d, hd, List.mem_flatMap.mpr ⟨n, hn, hmem⟩⟩
      rw [ValueStore.btype_unique hm (hpl.shown hm) hnode rfl hleaf]

end AttributePlace.Published

end Iec61850.Server
