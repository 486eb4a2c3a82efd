import Iec61850.Server.Shapes

/-!
# Reads in the shape of their type

Every leaf of the tree holds a value of its type: when the server is built, and after every write.
So what is read, in the server's own spelling, has the shape that is reported of it, on three
conditions: no two variables of the file share a text, the reference is spelt as the server spells
it, and into a structure without components only the empty structure is written.
-/

namespace Iec61850.Server

open Theory Mms

/-! ### Leaves inside of a variable -/

variable {v w : Variable} {fc : Fc} {reservation : Bool} {ln : NodeModel}

/-- The leaves of what is inside of a variable are leaves of the variable. -/
theorem leafTypes_descend {domain item : Bytes} {path : List Selector} (hformed : v.Formed)
    (hw : v.descend path = some w) :
    leafTypes domain (item ++ path.flatMap selectorText) w ⊆ leafTypes domain item v := by
  induction path generalizing v item with
  | nil =>
    cases hw
    rw [List.flatMap_nil, List.append_nil]
    exact List.Subset.refl _
  | cons s path ih =>
    rw [List.flatMap_cons, ← List.append_assoc]
    cases s with
    | component name =>
      rw [Variable.descend, Option.bind_eq_some_iff] at hw
      obtain ⟨c, hc, hw⟩ := hw
      obtain ⟨hv, hmem, rfl⟩ := hformed.child hc
      rw [hv] at hformed ⊢
      cases hformed with
      | struct _ hchildren =>
        intro e he
        rw [leafTypes, mem_componentTypes]
        exact ⟨c, hmem, ih (hchildren c hmem) hw he⟩
    | index i =>
      rw [Variable.descend, Option.bind_eq_some_iff] at hw
      obtain ⟨e, he, hw⟩ := hw
      obtain ⟨n, hi, hv⟩ := hformed.elementAt he
      rw [hv] at hformed ⊢
      cases hformed with
      | array _ _ helement =>
        intro leaf hleaf
        rw [leafTypes, List.mem_flatMap]
        exact ⟨i, List.mem_range.mpr hi, ih helement hw hleaf⟩
    | indexRange low count => cases hw
    | allElements => cases hw

/-! ### Control blocks in the tree -/

theorem mem_addUnder (byFc : List (Fc × List Variable)) :
    ∃ e ∈ addUnder fc v byFc, e.1 = fc ∧ v ∈ e.2 := by
  induction byFc with
  | nil => exact ⟨(fc, [v]), List.mem_singleton_self _, rfl, List.mem_singleton_self _⟩
  | cons e byFc ih =>
    rw [addUnder]
    split
    · rename_i hfc
      exact ⟨_, List.mem_cons_self, hfc, List.mem_append_right _ (List.mem_singleton_self _)⟩
    · obtain ⟨e', he', hv⟩ := ih
      exact ⟨e', List.mem_cons_of_mem _ he', hv⟩

theorem mem_addUnder_of_mem {f : Fc} {byFc : List (Fc × List Variable)}
    (h : ∃ e ∈ byFc, e.1 = f ∧ w ∈ e.2) : ∃ e ∈ addUnder fc v byFc, e.1 = f ∧ w ∈ e.2 := by
  obtain ⟨e, he, hf, hw⟩ := h
  induction byFc with
  | nil => cases he
  | cons d byFc ih =>
    rw [addUnder]
    rcases List.mem_cons.mp he with rfl | he
    · split
      · exact ⟨_, List.mem_cons_self, hf, List.mem_append_left _ hw⟩
      · exact ⟨e, List.mem_cons_self, hf, hw⟩
    · split
      · exact ⟨e, List.mem_cons_of_mem _ he, hf, hw⟩
      · obtain ⟨e', he', h'⟩ := ih he
        exact ⟨e', List.mem_cons_of_mem _ he', h'⟩

theorem mem_foldl_addUnder {blocks : List (Fc × Variable)} {byFc : List (Fc × List Variable)}
    {f : Fc} {w : Variable} (h : (f, w) ∈ blocks ∨ ∃ e ∈ byFc, e.1 = f ∧ w ∈ e.2) :
    ∃ e ∈ blocks.foldl (fun byFc b => addUnder b.1 b.2 byFc) byFc, e.1 = f ∧ w ∈ e.2 := by
  induction blocks generalizing byFc with
  | nil => exact h.resolve_left List.not_mem_nil
  | cons b blocks ih =>
    apply ih
    rcases h with h | h
    · rcases List.mem_cons.mp h with rfl | h
      · exact Or.inr (mem_addUnder byFc)
      · exact Or.inl h
    · exact Or.inr (mem_addUnder_of_mem h)

/-- The leaves of a control block are leaves of the logical node. -/
theorem leafTypes_controlBlock (h : (fc, v) ∈ controlBlocks reservation ln) (domain : Bytes) :
    leafTypes domain (ln.name ++ sep :: fc.asStr ++ sep :: v.name) v ⊆
      leafTypes domain ln.name (nodeVariable reservation ln) := by
  intro e he
  rw [nodeVariable]
  dsimp only
  rw [leafTypes, mem_componentTypes]
  obtain ⟨under, hunder, rfl, hv⟩ := @mem_foldl_addUnder (controlBlocks reservation ln)
    ((functionalConstraints ln.toLogicalNode).filterMap fun fc =>
      let children := objectsUnder ln.dataObjects fc
      if children.isEmpty then none else some (fc, children)) fc v (Or.inl h)
  refine ⟨⟨under.1.asStr, .struct, under.2⟩, ?_, ?_⟩
  · refine List.mem_map.mpr ⟨under, ?_, rfl⟩
    rw [List.mem_mergeSort]
    exact hunder
  · rw [leafTypes, mem_componentTypes]
    exact ⟨v, hv, he⟩

/-- A default of a control block is of a leaf of the tree, and fits it. -/
theorem nodeBlockDefaults_fit {ld : Bytes} {d : Bytes × Value}
    (hd : d ∈ nodeBlockDefaults reservation ld ln) :
    ∃ btype, (d.1, btype) ∈ leafTypes ld ln.name (nodeVariable reservation ln) ∧ Fits btype d.2 := by
  have hsuits : ∀ {fc : Fc} {name part : Bytes} {components : List Variable} {x : Value},
      (fc, (⟨name, .struct, components⟩ : Variable)) ∈ controlBlocks reservation ln →
      Suits ld (ln.name ++ sep :: fc.asStr ++ sep :: name) components part x →
      ∃ btype, (attributeOf (blockRef ld ln.name fc name) part, btype) ∈
        leafTypes ld ln.name (nodeVariable reservation ln) ∧ Fits btype x := by
    intro fc name part components x hblock hsuits
    obtain ⟨btype, hmem, hfits⟩ := hsuits
    refine ⟨btype, leafTypes_controlBlock hblock ld ?_, hfits⟩
    rw [leafTypes]
    rw [attributeOf, blockRef]
    simpa [referenceOf] using hmem
  rw [nodeBlockDefaults] at hd
  simp only [List.mem_append] at hd
  rcases hd with (((hd | hd) | hd) | hd) | hd
  · obtain ⟨rcb, hrcb, hd⟩ := List.mem_flatMap.mp hd
    obtain ⟨name, hname, hd⟩ := List.mem_flatMap.mp hd
    obtain ⟨e, he, rfl⟩ := List.mem_map.mp hd
    refine hsuits ?_ (suits_rcbDefaults _ _ _ _ _ _ e he)
    simp only [controlBlocks, List.mem_append]
    exact Or.inl (Or.inl (Or.inl (Or.inl (List.mem_flatMap.mpr ⟨rcb, hrcb,
      List.mem_map.mpr ⟨name, hname, rfl⟩⟩))))
  · obtain ⟨lcb, hlcb, hd⟩ := List.mem_flatMap.mp hd
    obtain ⟨e, he, rfl⟩ := List.mem_map.mp hd
    refine hsuits ?_ (suits_lcbDefaults _ _ _ _ _ e he)
    simp only [controlBlocks, List.mem_append]
    exact Or.inl (Or.inl (Or.inl (Or.inr (List.mem_map.mpr ⟨lcb, hlcb, rfl⟩))))
  · obtain ⟨sg, hsg, hd⟩ := List.mem_flatMap.mp hd
    obtain ⟨e, he, rfl⟩ := List.mem_map.mp hd
    refine hsuits ?_ (suits_sgcbDefaults _ _ _ e he)
    simp only [controlBlocks, List.mem_append]
    exact Or.inr (List.mem_map.mpr ⟨sg, hsg, rfl⟩)
  · obtain ⟨gcb, hgcb, hd⟩ := List.mem_flatMap.mp hd
    obtain ⟨e, he, rfl⟩ := List.mem_map.mp hd
    refine hsuits ?_ (suits_gocbDefaults _ _ _ _ _ _ e he)
    simp only [controlBlocks, List.mem_append]
    exact Or.inl (Or.inl (Or.inr (List.mem_map.mpr ⟨gcb, hgcb, rfl⟩)))
  · obtain ⟨scb, hscb, hd⟩ := List.mem_flatMap.mp hd
    obtain ⟨e, he, rfl⟩ := List.mem_map.mp hd
    refine hsuits ?_ (suits_svcbDefaults _ _ _ _ _ e he)
    simp only [controlBlocks, List.mem_append]
    exact Or.inl (Or.inr (List.mem_map.mpr ⟨scb, hscb, rfl⟩))

namespace ValueStore

/-! ### Leaves that hold values of their type -/

/-- Every leaf of the trees, as it is read, with its type. -/
def leafTypes (s : ValueStore) : List (Bytes × BType) :=
  s.domains.flatMap fun d => d.nodes.flatMap fun n => Server.leafTypes d.name n.name n

/-- No text is the text of two variables of different types, and what the text of a leaf resolves to
is a leaf of its type. -/
structure Unambiguous (s : ValueStore) (attributes : List (Bytes × BType)) : Prop where
  one : ∀ k btype btype', (k, btype) ∈ s.leafTypes → (k, btype') ∈ s.leafTypes ++ attributes →
    btype = btype'
  resolved : ∀ e ∈ s.leafTypes, ∀ v, s.nodeAt e.1 = some v → v.kind = .leaf e.2

/-- Every leaf holds a value that fits it. -/
def Typed (s : ValueStore) : Prop :=
  ∀ e ∈ s.leafTypes, ∃ x, s.values.lookup e.1 = some x ∧ Fits e.2 x

theorem lookup_seed {values : LeafValues} {entries : List (Bytes × Value)} {k : Bytes} {x : Value}
    (h : (seed values entries).lookup k = some x) :
    values.lookup k = some x ∨ (k, x) ∈ entries := by
  induction entries generalizing values with
  | nil => exact Or.inl h
  | cons e entries ih =>
    rw [seed, List.foldl_cons] at h
    rcases ih h with h | h
    · by_cases hk : k = e.1
      · rw [hk, AList.lookup_insert] at h
        cases h
        exact Or.inr (List.mem_cons.mpr (Or.inl (Prod.ext hk rfl)))
      · rw [AList.lookup_insert_ne hk] at h
        exact Or.inl h
    · exact Or.inr (List.mem_cons_of_mem _ h)

theorem build_typed {reservation : Bool} {m : IedModel} {t : Decimals}
    (h : (build reservation m t).Unambiguous m.attributePaths) : (build reservation m t).Typed := by
  rintro ⟨k, btype⟩ hleaf
  have hnode : ∃ d ∈ (build reservation m t).domains, ∃ n ∈ d.nodes,
      (k, btype) ∈ Server.leafTypes d.name n.name n := by
    obtain ⟨d, hd, hleaf⟩ := List.mem_flatMap.mp hleaf
    obtain ⟨n, hn, hleaf⟩ := List.mem_flatMap.mp hleaf
    exact ⟨d, hd, n, hn, hleaf⟩
  obtain ⟨d, hd, n, hn, hmem⟩ := hnode
  have hseeded := build_seeded reservation m t
  have hvalued : k ∈ (build reservation m t).values :=
    hseeded.valued d hd n hn (k, defaultValue btype)
      ((mem_seedNode (hseeded.formed d hd n hn)).mpr ⟨btype, hmem, rfl⟩)
  obtain ⟨x, hx⟩ := Option.isSome_iff_exists.mp (AList.lookup_isSome.mpr hvalued)
  refine ⟨x, hx, ?_⟩
  dsimp only
  -- where the value comes from: a block, the file, or the type of a leaf with the same text
  rcases lookup_seed hx with hx | hx
  · rcases lookup_seed hx with hx | hx
    · rcases lookup_seed hx with hx | hx
      · cases hx
      · obtain ⟨d', hd', hx⟩ := List.mem_flatMap.mp hx
        obtain ⟨n', hn', hx⟩ := List.mem_flatMap.mp hx
        obtain ⟨btype', hmem', hvalue⟩ := (mem_seedNode (hseeded.formed d' hd' n' hn')).mp hx
        have hleaf' : (k, btype') ∈ (build reservation m t).leafTypes :=
          List.mem_flatMap.mpr ⟨d', hd', List.mem_flatMap.mpr ⟨n', hn', hmem'⟩⟩
        rw [h.one k btype btype' hleaf (List.mem_append_left _ hleaf')]
        dsimp only at hvalue
        rw [hvalue]
        exact fits_defaultValue btype'
    · obtain ⟨⟨path, btype'⟩, ha, hx⟩ := List.mem_filterMap.mp hx
      obtain ⟨text, -, hx⟩ := Option.bind_eq_some_iff.mp hx
      obtain ⟨v, hparse, hx⟩ := Option.map_eq_some_iff.mp hx
      cases hx
      rw [h.one _ btype btype' hleaf (List.mem_append_right _ ha)]
      exact fits_parseEngineered hparse
  · obtain ⟨ld, hld, hx⟩ := List.mem_flatMap.mp hx
    obtain ⟨ln, hln, hx⟩ := List.mem_flatMap.mp hx
    obtain ⟨btype', hmem', hfits⟩ := nodeBlockDefaults_fit hx
    have hleaf' : (k, btype') ∈ (build reservation m t).leafTypes :=
      List.mem_flatMap.mpr ⟨domainTree reservation ld, List.mem_map_of_mem hld,
        List.mem_flatMap.mpr ⟨nodeVariable reservation ln, List.mem_map_of_mem hln, hmem'⟩⟩
    rw [h.one k btype btype' hleaf (List.mem_append_left _ hleaf')]
    exact hfits

/-- A write into a structure without components brings none. -/
def BringsNone (s : ValueStore) (w : Bytes × Value) : Prop :=
  ∀ v btype, s.nodeAt w.1 = some v → v.kind = .leaf btype → isOpen btype = true →
    w.2 = .structure []

variable {s : ValueStore} {attributes : List (Bytes × BType)}

theorem Unambiguous.typed_next (h : s.Unambiguous attributes) (htyped : s.Typed) {w : Bytes × Value}
    (hw : s.BringsNone w) : (s.next w).Typed := by
  rw [next]
  split
  case h_2 => exact htyped
  case h_1 s' hwrite =>
    obtain ⟨v, btype, hnode, hkind, haccepts, rfl⟩ := writeLeaf_ok hwrite
    intro e he
    by_cases hk : e.1 = w.1
    · refine ⟨w.2, ?_, ?_⟩
      · rw [hk]
        exact AList.lookup_insert _
      · have hsame := h.resolved e he v (by rw [hk]; exact hnode)
        rw [hkind] at hsame
        cases hsame
        exact ⟨haccepts, hw v _ hnode hkind⟩
    · obtain ⟨x, hx, hfits⟩ := htyped e he
      exact ⟨x, by rw [AList.lookup_insert_ne hk, hx], hfits⟩

theorem next_domains (s : ValueStore) (w : Bytes × Value) : (s.next w).domains = s.domains := by
  rw [next]
  split
  · rename_i s' hwrite
    obtain ⟨v, btype, -, -, -, rfl⟩ := writeLeaf_ok hwrite
    rfl
  · rfl

theorem nodeAt_congr {s' : ValueStore} (h : s'.domains = s.domains) (reference : Bytes) :
    s'.nodeAt reference = s.nodeAt reference := by
  unfold nodeAt ValueStore.domain
  rw [h]

theorem Unambiguous.typed_after (h : s.Unambiguous attributes) (htyped : s.Typed)
    {writes : List (Bytes × Value)} (hwrites : ∀ w ∈ writes, s.BringsNone w) :
    (s.after writes).Typed := by
  induction writes generalizing s with
  | nil => exact htyped
  | cons w writes ih =>
    rw [List.forall_mem_cons] at hwrites
    have hdomains := next_domains s w
    have hleaves : (s.next w).leafTypes = s.leafTypes := by
      rw [leafTypes, leafTypes, hdomains]
    refine ih ?_ (h.typed_next htyped hwrites.1) ?_
    · refine ⟨?_, ?_⟩
      · rw [hleaves]
        exact h.one
      · rw [hleaves]
        intro e he v hv
        rw [nodeAt_congr hdomains] at hv
        exact h.resolved e he v hv
    · intro w' hw' v btype hv
      rw [nodeAt_congr hdomains] at hv
      exact hwrites.2 w' hw' v btype hv

theorem Seeded.leafTypes (hs : s.Seeded) {p : Locus} {v : Variable} (hv : s.nodeIn p = some v) :
    Server.leafTypes p.domain p.item v ⊆ s.leafTypes := by
  rw [ValueStore.nodeIn, Option.bind_eq_some_iff] at hv
  obtain ⟨d, hd, hv⟩ := hv
  rw [Option.bind_eq_some_iff] at hv
  obtain ⟨n, hn, hv⟩ := hv
  have hdname : d.name = p.domain := by simpa using List.find?_some hd
  have hnname : n.name = p.ln := by simpa using List.find?_some hn
  have hdmem := List.mem_of_find?_eq_some hd
  have hnmem := List.mem_of_find?_eq_some hn
  intro e he
  refine List.mem_flatMap.mpr ⟨d, hdmem, List.mem_flatMap.mpr ⟨n, hnmem, ?_⟩⟩
  rw [hdname, hnname]
  exact leafTypes_descend (hs.formed d hdmem n hnmem) hv he

/-! ### Reads -/

/-- In every state of a run, for a file whose variables do not share a text and with writes that bring
no components where there are none: a reference in the server's own spelling that resolves is read,
in the shape that is reported of it. -/
theorem read_conforms {reservation : Bool} {m : IedModel} {t : Decimals}
    (hfile : (build reservation m t).Unambiguous m.attributePaths) {writes : List (Bytes × Value)}
    (hwrites : ∀ w ∈ writes, (build reservation m t).BringsNone w) {reference : Bytes}
    {v : Variable} (hplain : Plain reference)
    (hv : ((build reservation m t).after writes).nodeAt reference = some v) :
    ∃ x, ((build reservation m t).after writes).readReference reference = some x ∧
      conforms v.typeSpec x = true := by
  have hseeded := (build_seeded reservation m t).after writes
  have htyped := hfile.typed_after (build_typed hfile) hwrites
  generalize hs : (build reservation m t).after writes = s at hv hseeded htyped
  obtain ⟨p, hp, htext⟩ := hplain
  obtain ⟨item, hreference, -, hat⟩ := exists_item_of_locusOf hp
  have hitem : item = p.item := by
    rw [← htext, Locus.text, referenceOf, referenceOf, List.append_cancel_left_eq,
      List.cons.injEq] at hreference
    exact hreference.2.symm
  have hnode : s.nodeIn p = some v := (hat s).1.symm.trans hv
  obtain ⟨hformed, -⟩ := hseeded.nodeIn hnode
  obtain ⟨x, hx, hshape⟩ : ∃ x, readNode s.values p.domain p.item v = some x ∧
      conforms v.typeSpec x = true := by
    apply readNode_conforms hformed
    intro e he
    exact htyped e (hseeded.leafTypes hnode he)
  refine ⟨x, ?_, hshape⟩
  rw [(hat s).2, hnode, hitem]
  exact hx

/-- A logical node with an open structure, and no more. -/
def opened : ValueStore :=
  build true
    ⟨[⟨ascii "0", ascii "D",
      [.plain ⟨ascii "M", [⟨ascii "X", [⟨ascii "s", .sp, .struct, [], [], none⟩], [], none⟩]⟩]⟩],
      [], fun _ => none, fun _ => none⟩
    ⟨fun _ => none, fun _ => none⟩

/-- The second of three numbers, after it was written. -/
theorem read_conforms_second :
    ∃ v x, (harmonics.after [(ascii "D/M$SP$HA$a(1)", .integer 7)]).nodeAt
        (ascii "D/M$SP$HA$a(1)") = some v ∧
      (harmonics.after [(ascii "D/M$SP$HA$a(1)", .integer 7)]).readReference
        (ascii "D/M$SP$HA$a(1)") = some x ∧ conforms v.typeSpec x = true := by
  have htypes : ∀ e ∈ harmonics.leafTypes ++ [(ascii "D/M$SP$HA$a", BType.int8)],
      e.2 = BType.int8 := by decide +kernel
  have hresolved : ∀ e ∈ harmonics.leafTypes,
      (harmonics.nodeAt e.1).map Variable.kind = some (.leaf e.2) := by decide +kernel
  have hopen : (harmonics.nodeAt (ascii "D/M$SP$HA$a(1)")).map Variable.kind =
      some (.leaf .int8) := by decide +kernel
  have hplace : locusOf (ascii "D/M$SP$HA$a(1)") = some ⟨ascii "D", ascii "M",
      [.component (ascii "SP"), .component (ascii "HA"), .component (ascii "a"), .index 1]⟩ := by
    decide +kernel
  have hresolves : ((harmonics.after [(ascii "D/M$SP$HA$a(1)", .integer 7)]).nodeAt
      (ascii "D/M$SP$HA$a(1)")).isSome = true := by decide +kernel
  obtain ⟨v, hv⟩ := Option.isSome_iff_exists.mp hresolves
  refine ⟨v, ?_⟩
  have hread := read_conforms ⟨?_, ?_⟩ ?_ ⟨_, hplace, by decide +kernel⟩ hv
  · obtain ⟨x, hx, hshape⟩ := hread
    exact ⟨x, hv, hx, hshape⟩
  · intro k btype btype' h h'
    have hone := htypes (k, btype) (List.mem_append_left _ h)
    exact hone.trans (htypes (k, btype') h').symm
  · intro e he v hv
    have hkind := hresolved e he
    rw [show harmonics.nodeAt e.1 = some v from hv] at hkind
    exact Option.some.inj hkind
  · rw [List.forall_mem_singleton]
    intro v btype hv hkind hbtype
    rw [show harmonics.nodeAt (ascii "D/M$SP$HA$a(1)") = some v from hv, Option.map_some,
      hkind] at hopen
    cases hopen
    cases hbtype

/-- A number of which there is no value under the spelling of the request, though the request
resolves; and a structure of one component, where none is reported. -/
theorem shape_lost : ((harmonics.nodeAt (ascii "D/M$SP$HA$a(02)")).isSome = true ∧
      harmonics.readReference (ascii "D/M$SP$HA$a(02)") = none) ∧
    ∃ v x, (opened.next (ascii "D/M$SP$X$s", .structure [.boolean true])).nodeAt
        (ascii "D/M$SP$X$s") = some v ∧
      (opened.next (ascii "D/M$SP$X$s", .structure [.boolean true])).readReference
        (ascii "D/M$SP$X$s") = some x ∧ conforms v.typeSpec x = false := by
  refine ⟨⟨by decide +kernel, ?_⟩, ?_⟩
  · rw [← Option.isNone_iff_eq_none]
    decide +kernel
  · have hread : (((opened.next (ascii "D/M$SP$X$s", .structure [.boolean true])).nodeAt
        (ascii "D/M$SP$X$s")).bind fun v =>
          ((opened.next (ascii "D/M$SP$X$s", .structure [.boolean true])).readReference
            (ascii "D/M$SP$X$s")).map fun x => conforms v.typeSpec x) = some false := by
      decide +kernel
    obtain ⟨v, hv, hread⟩ := Option.bind_eq_some_iff.mp hread
    obtain ⟨x, hx, hshape⟩ := Option.map_eq_some_iff.mp hread
    exact ⟨v, x, hv, hx, hshape⟩

end ValueStore

end Iec61850.Server
