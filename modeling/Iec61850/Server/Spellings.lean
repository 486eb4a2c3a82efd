import Iec61850.Server.Values

/-!
# The spellings of a reference

A reference is resolved by its place and the values are kept by its text. The server spells a place
in one way, and it is in this spelling that every value of the tree is held; with an index in it the
place has as many other spellings as there are leading zeros.
-/

namespace Iec61850.Server

open Theory Mms

/-! ### Taking a name apart and putting it together -/

variable {part reference : Bytes} {p : Locus}

theorem sep_not_mem_of_mem_splitOn {item : Bytes} (h : part ∈ item.splitOn sep) : sep ∉ part := by
  induction item generalizing part with
  | nil =>
    rw [List.splitOn_nil, List.mem_singleton] at h
    rw [h]
    exact List.not_mem_nil
  | cons b item ih =>
    rw [List.splitOn, List.splitOnP_cons_eq_if_modifyHead] at h
    split at h
    · rcases List.mem_cons.mp h with rfl | h
      · exact List.not_mem_nil
      · exact ih h
    · rename_i hb
      cases hparts : item.splitOnP (· == sep) with
      | nil => exact absurd hparts (List.splitOnP_ne_nil _ _)
      | cons first parts =>
        have hmem : ∀ part ∈ first :: parts, sep ∉ part := by
          intro part hpart
          refine ih ?_
          rw [List.splitOn, hparts]
          exact hpart
        rw [hparts, List.modifyHead_cons] at h
        rw [List.forall_mem_cons] at hmem
        rcases List.mem_cons.mp h with rfl | h
        · rw [List.mem_cons, not_or]
          refine ⟨?_, hmem.1⟩
          rintro rfl
          exact hb (beq_self_eq_true _)
        · exact hmem.2 _ h

theorem joined_of_splitOn {item ln : Bytes} {parts : List Bytes}
    (h : item.splitOn sep = ln :: parts) : item = ln ++ parts.flatMap fun part => sep :: part := by
  have hjoined : [sep].intercalate (item.splitOn sep) = item := List.intercalate_splitOn sep
  rw [h] at hjoined
  rw [← hjoined]
  clear h hjoined
  induction parts generalizing ln with
  | nil => simp [List.intercalate]
  | cons part parts ih =>
    have hrest := @ih part
    rw [List.flatMap_cons, List.cons_append, ← hrest]
    simp [List.intercalate]

theorem stepOf_name (h : (stepOf part).index = none) : (stepOf part).name = part := by
  unfold stepOf splitIndex at h ⊢
  dsimp only at h ⊢
  split
  · rfl
  · rename_i name rest hsplit
    rw [hsplit] at h
    dsimp only at h ⊢
    split
    · rename_i i hi
      rw [hi] at h
      cases h
    · rfl

/-- A step, its index spelt with zeros in front. -/
def Step.spelt (zeros : Nat) (s : Step) : Bytes :=
  s.name ++ s.index.elim [] fun i =>
    openParen :: (List.replicate zeros 48 ++ numeral i) ++ [closeParen]

theorem stepOf_index {i : Nat} (h : (stepOf part).index = some i) :
    openParen ∉ (stepOf part).name ∧ i < 2 ^ 32 ∧ ∃ rest, part = (stepOf part).name ++ rest := by
  unfold stepOf splitIndex at h ⊢
  dsimp only at h ⊢
  cases hsplit : splitOnce openParen part with
  | none =>
    rw [hsplit] at h
    cases h
  | some e =>
    obtain ⟨name, rest⟩ := e
    rw [hsplit] at h
    dsimp only at h ⊢
    cases hi : (stripSuffix closeParen rest).bind (readNumeral (2 ^ 32)) with
    | none =>
      rw [hi] at h
      cases h
    | some j =>
      rw [hi] at h
      cases h
      obtain ⟨rfl, hnot⟩ := splitOnce_eq_some hsplit
      refine ⟨hnot, ?_, _, rfl⟩
      rw [Option.bind_eq_some_iff] at hi
      obtain ⟨ds, -, hread⟩ := hi
      exact readNumeral_lt hread

theorem stepOf_spelt (zeros : Nat) (part : Bytes) :
    stepOf ((stepOf part).spelt zeros) = stepOf part := by
  cases hindex : (stepOf part).index with
  | none =>
    have hspelt : (stepOf part).spelt zeros = part := by
      rw [Step.spelt, hindex, stepOf_name hindex]
      exact List.append_nil part
    rw [hspelt]
  | some i =>
    obtain ⟨hnot, hlt, -⟩ := stepOf_index hindex
    have hstrip : stripSuffix closeParen (List.replicate zeros 48 ++ numeral i ++ [closeParen]) =
        some (List.replicate zeros 48 ++ numeral i) := by
      rw [stripSuffix, if_pos (List.getLast?_concat), List.dropLast_concat]
    have hsplit : splitIndex ((stepOf part).spelt zeros) = ((stepOf part).name, some i) := by
      rw [Step.spelt, hindex, Option.elim_some, List.cons_append, splitIndex,
        ObjectReference.splitOnce_append hnot]
      dsimp only
      rw [hstrip, Option.bind_some, readNumeral_zeros hlt]
    rw [stepOf, hsplit]
    exact congrArg (Step.mk _) hindex.symm

theorem sep_not_mem_spelt (zeros : Nat) (h : sep ∉ part) : sep ∉ (stepOf part).spelt zeros := by
  cases hindex : (stepOf part).index with
  | none =>
    rw [Step.spelt, hindex, stepOf_name hindex]
    simpa using h
  | some i =>
    obtain ⟨-, -, rest, hpart⟩ := stepOf_index hindex
    have hname : sep ∉ (stepOf part).name := by
      intro hmem
      rw [hpart] at h
      exact h (List.mem_append_left _ hmem)
    have hdigits : sep ∉ numeral i := by
      intro hmem
      exact absurd (isDigit_of_mem_numeral hmem) (by decide)
    have hzeros : sep ∉ List.replicate zeros (48 : UInt8) := by
      intro hmem
      exact absurd (List.eq_of_mem_replicate hmem) (by decide)
    have hparens : sep ≠ openParen ∧ sep ≠ closeParen := by decide
    rw [Step.spelt, hindex]
    simp [hname, hdigits, hzeros, hparens]

/-! ### The spellings of a place -/

/-- What a selection is spelt like, with zeros in front of an index. -/
def selectorSpelt (zeros : Nat) : Selector → Bytes
  | .component name => sep :: name
  | .index i => openParen :: (List.replicate zeros 48 ++ numeral i) ++ [closeParen]
  | .indexRange _ _ | .allElements => []

/-- A place spelt with zeros in front of every index. -/
def Locus.spelt (zeros : Nat) (p : Locus) : Bytes :=
  referenceOf p.domain (p.ln ++ p.selectors.flatMap (selectorSpelt zeros))

theorem Locus.spelt_zero (p : Locus) : p.spelt 0 = p.text := by
  have hspelt : selectorSpelt 0 = selectorText := by
    funext s
    cases s <;> rfl
  rw [spelt, hspelt]
  rfl

theorem flatMap_selectorSpelt (zeros : Nat) (steps : List Step) :
    (steps.flatMap Step.selectors).flatMap (selectorSpelt zeros) =
      steps.flatMap fun s => sep :: s.spelt zeros := by
  rw [List.flatMap_assoc]
  congr 1
  funext s
  obtain ⟨name, index⟩ := s
  cases index with
  | none => simp [Step.selectors, Step.spelt, selectorSpelt]
  | some i => simp [Step.selectors, Step.spelt, selectorSpelt]

/-- What is behind the place of a reference: the parts it is divided into. -/
theorem exists_parts_of_locusOf (h : locusOf reference = some p) :
    ∃ parts : List Bytes, p.selectors = (parts.map stepOf).flatMap Step.selectors ∧
      reference = referenceOf p.domain (p.ln ++ parts.flatMap fun part => sep :: part) ∧
      slash ∉ p.domain ∧ sep ∉ p.ln ∧ ∀ part ∈ parts, sep ∉ part := by
  unfold locusOf at h
  split at h
  case h_1 => cases h
  case h_2 domain item hsplit =>
    split at h
    case h_1 => cases h
    case h_2 ln parts hparts =>
      cases h
      obtain ⟨rfl, hslash⟩ := splitOnce_eq_some hsplit
      have hsep : ∀ part ∈ ln :: parts, sep ∉ part := by
        rw [← hparts]
        exact fun part hpart => sep_not_mem_of_mem_splitOn hpart
      rw [List.forall_mem_cons] at hsep
      refine ⟨parts, rfl, ?_, hslash, hsep.1, hsep.2⟩
      dsimp only
      rw [← joined_of_splitOn hparts]
      rfl

theorem locusOf_spelt (h : locusOf reference = some p) (zeros : Nat) :
    locusOf (p.spelt zeros) = some p := by
  obtain ⟨parts, hselectors, -, hslash, hln, hparts⟩ := exists_parts_of_locusOf h
  have hitem : (p.ln ++ p.selectors.flatMap (selectorSpelt zeros)).splitOn sep =
      p.ln :: parts.map fun part => (stepOf part).spelt zeros := by
    have hjoined : p.selectors.flatMap (selectorSpelt zeros) =
        (parts.map fun part => (stepOf part).spelt zeros).flatMap fun name => sep :: name := by
      rw [hselectors, flatMap_selectorSpelt, List.flatMap_map, List.flatMap_map]
    rw [hjoined]
    apply ObjectReference.splitOn_joined hln
    intro name hname
    obtain ⟨part, hpart, rfl⟩ := List.mem_map.mp hname
    exact sep_not_mem_spelt zeros (hparts part hpart)
  have hsteps : (parts.map fun part => (stepOf part).spelt zeros).map stepOf =
      parts.map stepOf := by
    rw [List.map_map]
    exact List.map_congr_left fun part _ => stepOf_spelt zeros part
  rw [locusOf, Locus.spelt, referenceOf, ObjectReference.splitOnce_append hslash]
  dsimp only
  rw [hitem]
  dsimp only
  rw [hsteps, ← hselectors]

theorem locusOf_text (h : locusOf reference = some p) : locusOf p.text = some p := by
  rw [← p.spelt_zero]
  exact locusOf_spelt h 0

theorem Unindexed.plain (hp : locusOf reference = some p) (h : Unindexed reference) :
    Plain reference := by
  refine ⟨p, hp, ?_⟩
  obtain ⟨parts, hselectors, hreference, -⟩ := exists_parts_of_locusOf hp
  have hsteps : ∀ part ∈ parts, (stepOf part).spelt 0 = part := by
    intro part hpart
    have hindex : (stepOf part).index = none := by
      cases hi : (stepOf part).index with
      | none => rfl
      | some i =>
        refine absurd ?_ (h p hp i)
        rw [hselectors, List.mem_flatMap]
        refine ⟨stepOf part, List.mem_map_of_mem hpart, ?_⟩
        simp [Step.selectors, hi]
    rw [Step.spelt, hindex, stepOf_name hindex]
    exact List.append_nil part
  have hitem : p.selectors.flatMap (selectorSpelt 0) = parts.flatMap fun part => sep :: part := by
    rw [hselectors, flatMap_selectorSpelt, List.flatMap_map]
    exact List.flatMap_congr fun part hpart => congrArg (sep :: ·) (hsteps part hpart)
  rw [← p.spelt_zero, Locus.spelt, hitem]
  exact hreference.symm

theorem exists_spelling {i : Nat} (hi : Selector.index i ∈ p.selectors) (values : LeafValues) :
    ∃ zeros, p.spelt zeros ∉ values := by
  obtain ⟨bound, hbound⟩ : ∃ bound, ∀ k ∈ values.keys, k.length < bound := by
    generalize values.keys = keys
    induction keys with
    | nil => exact ⟨0, nofun⟩
    | cons k keys ih =>
      obtain ⟨bound, hbound⟩ := ih
      refine ⟨max bound (k.length + 1), ?_⟩
      rw [List.forall_mem_cons]
      refine ⟨Nat.lt_of_lt_of_le (Nat.lt_succ_self _) (Nat.le_max_right _ _), ?_⟩
      intro l hl
      exact Nat.lt_of_lt_of_le (hbound l hl) (Nat.le_max_left _ _)
  refine ⟨bound, ?_⟩
  intro hmem
  have hlt := hbound _ (AList.mem_keys.mp hmem)
  obtain ⟨before, after, hselectors⟩ := List.append_of_mem hi
  rw [Locus.spelt, referenceOf, hselectors] at hlt
  simp [selectorSpelt] at hlt
  omega

/-! ### Reading back what was written -/

namespace ValueStore

/-- A read of the reference shows the value where the path selects it. -/
def Shows (s : ValueStore) (reader : Bytes) (path : List Selector) (value : Value) : Prop :=
  ∃ v x, s.nodeAt reader = some v ∧ s.readReference reader = some x ∧
    partAt v x path = some value

/-- After a write of `reference` that took `s` to `s'`, the readers of its place and of the structures
and arrays around it are shown the value, and the write has put no new name into the store. -/
structure Kept (readers : Bytes → Prop) (s s' : ValueStore) (reference : Bytes) (value : Value) :
    Prop where
  shown : ∀ reader p c path, readers reader → locusOf reference = some p →
    locusOf reader = some c → p.Within c path → s'.Shows reader path value
  names : ∀ k ∈ s'.values, k ∈ s.values

variable {s s' : ValueStore} {c : Locus} {path : List Selector} {reader : Bytes} {value : Value}

/-- Around a variable, a read in the server's own spelling shows what is read of the variable. -/
theorem Seeded.shows_part (hs : s.Seeded) {p : Locus} {part : Variable}
    (hpart : s.nodeIn p = some part) (hwithin : p.Within c path) (hreader : locusOf reader = some c)
    (hplain : c.text = reader) :
    s.Shows reader path value ↔ readNode s.values p.domain p.item part = some value := by
  obtain ⟨v, hv, hdescend⟩ : ∃ v, s.nodeIn c = some v ∧ v.descend path = some part := by
    rw [ValueStore.nodeIn, Option.bind_eq_some_iff] at hpart
    obtain ⟨d, hd, hpart⟩ := hpart
    rw [Option.bind_eq_some_iff] at hpart
    obtain ⟨n, hn, hpart⟩ := hpart
    rw [← hwithin.selectors, Variable.descend_append, Option.bind_eq_some_iff] at hpart
    obtain ⟨v, hv, hpart⟩ := hpart
    refine ⟨v, ?_, hpart⟩
    rw [ValueStore.nodeIn, hwithin.domain, hd, Option.bind_some, hwithin.ln, hn, Option.bind_some, hv]
  obtain ⟨item, htext, -, hat⟩ := exists_item_of_locusOf hreader
  have hitem : item = c.item := by
    rw [← hplain, Locus.text, referenceOf, referenceOf, List.append_cancel_left_eq,
      List.cons.injEq] at htext
    exact htext.2.symm
  obtain ⟨hformed, hvalued⟩ := hs.nodeIn hv
  obtain ⟨x, hx⟩ := exists_readNode hformed hvalued
  obtain ⟨y, hy, hread⟩ := readNode_descend hformed hx hdescend
  have hplace : c.item ++ path.flatMap selectorText = p.item := by
    rw [Locus.item, Locus.item, ← hwithin.selectors, hwithin.ln, List.flatMap_append,
      List.append_assoc]
  rw [hplace, hwithin.domain] at hread
  rw [hread, Option.some.injEq]
  have hnode : s.nodeAt reader = some v := (hat s).1.trans hv
  have hreads : s.readReference reader = some x := by
    rw [(hat s).2, hv, hitem]
    exact hx
  constructor
  · rintro ⟨v', x', hv', hx', hvalue⟩
    cases hnode.symm.trans hv'
    cases hreads.symm.trans hx'
    exact Option.some.inj (hy.symm.trans hvalue)
  · rintro rfl
    exact ⟨v, x, hnode, hreads, hy⟩

/-- Around a leaf, a read in the server's own spelling shows what is under the text of the leaf. -/
theorem Seeded.shows (hs : s.Seeded) {p : Locus} {leaf : Variable} {btype : BType}
    (hleaf : s.nodeIn p = some leaf) (hkind : leaf.kind = .leaf btype) (hwithin : p.Within c path)
    (hreader : locusOf reader = some c) (hplain : c.text = reader) :
    s.Shows reader path value ↔ s.values.lookup p.text = some value := by
  rw [hs.shows_part hleaf hwithin hreader hplain]
  obtain ⟨name, kind, children⟩ := leaf
  cases hkind
  rfl

/-- Readers who use the server's own spelling are shown what is written, by a write that uses it; and
otherwise only what is there already. -/
theorem kept_plain_iff (hs : s.Seeded) {reference : Bytes}
    (h : s.writeLeaf reference value = .ok s') :
    Kept Plain s s' reference value ↔ Plain reference ∨ reference ∈ s.values ∧
      ∃ p, locusOf reference = some p ∧ s.values.lookup p.text = some value := by
  have hs' := hs.writeLeaf h
  obtain ⟨leaf, btype, hnode, hkind, -, rfl⟩ := writeLeaf_ok h
  obtain ⟨p, hp, hleaf⟩ := locusOf_of_nodeAt hnode
  have hshown : ∀ value', (∀ reader p' c path, Plain reader → locusOf reference = some p' →
        locusOf reader = some c → p'.Within c path →
        ValueStore.Shows { s with values := s.values.insert reference value } reader path value') ↔
      (s.values.insert reference value).lookup p.text = some value' := by
    intro value'
    constructor
    · intro hall
      have hself : p.Within p [] := ⟨rfl, rfl, List.append_nil _⟩
      have htext := locusOf_text hp
      exact (hs'.shows hleaf hkind hself htext rfl).mp
        (hall p.text p p [] ⟨p, htext, rfl⟩ hp htext hself)
    · intro hlookup reader p' c path hreader hp' hc hwithin
      cases hp.symm.trans hp'
      obtain ⟨c', hc', htext⟩ := hreader
      cases hc.symm.trans hc'
      exact (hs'.shows hleaf hkind hwithin hc htext).mpr hlookup
  constructor
  · intro hkept
    by_cases hplain : p.text = reference
    · exact Or.inl ⟨p, hp, hplain⟩
    · refine Or.inr ⟨hkept.names reference ?_, p, hp, ?_⟩
      · exact (AList.mem_insert _).mpr (Or.inl rfl)
      · have hlookup := (hshown value).mp hkept.shown
        rwa [AList.lookup_insert_ne hplain] at hlookup
  · rintro (⟨p', hp', htext⟩ | ⟨hmem, p', hp', hheld⟩)
    · cases hp.symm.trans hp'
      constructor
      · apply (hshown value).mpr
        rw [htext]
        exact AList.lookup_insert _
      · intro k hk
        rcases (AList.mem_insert _).mp hk with rfl | hk
        · rw [← htext]
          obtain ⟨-, hvalued⟩ := hs.nodeIn hleaf
          refine hvalued (p.text, defaultValue btype) ?_
          obtain ⟨name, kind, children⟩ := leaf
          cases hkind
          rw [seedNode, List.mem_singleton]
          rfl
        · exact hk
    · cases hp.symm.trans hp'
      constructor
      · apply (hshown value).mpr
        by_cases htext : p.text = reference
        · rw [htext]
          exact AList.lookup_insert _
        · rwa [AList.lookup_insert_ne htext]
      · intro k hk
        rcases (AList.mem_insert _).mp hk with rfl | hk
        · exact hmem
        · exact hk

theorem kept_iff (hs : s.Seeded) {reference : Bytes} (h : s.writeLeaf reference value = .ok s') :
    Kept (fun _ => True) s s' reference value ↔ Unindexed reference := by
  have hplain := kept_plain_iff hs h
  obtain ⟨leaf, btype, hnode, hkind, -, rfl⟩ := writeLeaf_ok h
  obtain ⟨p, hp, hleaf⟩ := locusOf_of_nodeAt hnode
  constructor
  · intro hkept p' hp' i hi
    cases hp.symm.trans hp'
    obtain ⟨zeros, hzeros⟩ := exists_spelling hi (s.values.insert reference value)
    have hspelt := locusOf_spelt hp zeros
    obtain ⟨v, x, hv, hx, -⟩ := hkept.shown (p.spelt zeros) p p [] trivial hp hspelt
      ⟨rfl, rfl, List.append_nil _⟩
    obtain ⟨item, htext, -, hat⟩ := exists_item_of_locusOf hspelt
    rw [(hat _).2] at hx
    have hleaf' : ValueStore.nodeIn { s with values := s.values.insert reference value } p =
        some leaf := hleaf
    rw [hleaf', Option.bind_some] at hx
    obtain ⟨name, kind, children⟩ := leaf
    cases hkind
    rw [readNode, ← htext, AList.lookup_eq_none.mpr hzeros] at hx
    cases hx
  · intro hunindexed
    have hkept := hplain.mpr (Or.inl (hunindexed.plain hp))
    refine ⟨?_, hkept.names⟩
    rintro reader p' c path - hp' hc hwithin
    refine hkept.shown reader p' c path ?_ hp' hc hwithin
    refine Unindexed.plain hc ?_
    intro c' hc' i hi
    cases hc.symm.trans hc'
    refine hunindexed p' hp' i ?_
    rw [← hwithin.selectors]
    exact List.mem_append_left _ hi

/-- Along every run of writes, accepted and refused ones: a reader of any spelling is shown what is
written exactly when the leaf is in no array; a reader who spells as the server does, exactly when
the write does so too or has nothing to change. -/
theorem write_kept_iff (reservation : Bool) (m : IedModel) (t : Decimals)
    (writes : List (Bytes × Value)) (reference : Bytes) (value : Value) {s' : ValueStore}
    (h : ((build reservation m t).after writes).writeLeaf reference value = .ok s') :
    (Kept (fun _ => True) ((build reservation m t).after writes) s' reference value ↔
      Unindexed reference) ∧ (Kept Plain ((build reservation m t).after writes) s' reference value ↔
      Plain reference ∨ reference ∈ ((build reservation m t).after writes).values ∧
        ∃ p, locusOf reference = some p ∧
          ((build reservation m t).after writes).values.lookup p.text = some value) := by
  have hs := (build_seeded reservation m t).after writes
  exact ⟨kept_iff hs h, kept_plain_iff hs h⟩

/-- An array of three numbers in a logical node, and no more. -/
def harmonics : ValueStore :=
  build true
    ⟨[⟨ascii "0", ascii "D",
      [.plain ⟨ascii "M", [⟨ascii "HA", [⟨ascii "a", .sp, .int8, [], [], some 3⟩], [], none⟩]⟩]⟩],
      [], fun _ => none, fun _ => none⟩
    ⟨fun _ => none, fun _ => none⟩

theorem writeLeaf_next {s : ValueStore} {w : Bytes × Value}
    (h : (s.writeLeaf w.1 w.2).isOk = true) : s.writeLeaf w.1 w.2 = .ok (s.next w) := by
  rw [next]
  cases hwrite : s.writeLeaf w.1 w.2 with
  | ok s' => rfl
  | error e =>
    rw [hwrite] at h
    cases h

/-- The second number, written as the server spells it. -/
theorem write_kept_second : (Kept (fun _ => True) (harmonics.after [])
        (harmonics.next (ascii "D/M$SP$HA$a(2)", .integer 7))
        (ascii "D/M$SP$HA$a(2)") (.integer 7) ↔ Unindexed (ascii "D/M$SP$HA$a(2)")) ∧
    (Kept Plain (harmonics.after []) (harmonics.next (ascii "D/M$SP$HA$a(2)", .integer 7))
        (ascii "D/M$SP$HA$a(2)") (.integer 7) ↔ Plain (ascii "D/M$SP$HA$a(2)") ∨
        ascii "D/M$SP$HA$a(2)" ∈ (harmonics.after []).values ∧
        ∃ p, locusOf (ascii "D/M$SP$HA$a(2)") = some p ∧
          (harmonics.after []).values.lookup p.text = some (.integer 7)) :=
  write_kept_iff true _ _ [] (ascii "D/M$SP$HA$a(2)") (.integer 7)
    (@writeLeaf_next harmonics (ascii "D/M$SP$HA$a(2)", .integer 7) (by decide +kernel))

/-- Written with a zero in front of the index, the number goes under a name of its own, and who reads
it as the server spells it still finds the old one. -/
theorem zero_spelt : harmonics.writeLeaf (ascii "D/M$SP$HA$a(02)") (.integer 7) =
        .ok (harmonics.next (ascii "D/M$SP$HA$a(02)", .integer 7)) ∧
      locusOf (ascii "D/M$SP$HA$a(02)") = locusOf (ascii "D/M$SP$HA$a(2)") ∧
      ¬ (harmonics.next (ascii "D/M$SP$HA$a(02)", .integer 7)).Shows
        (ascii "D/M$SP$HA$a(2)") [] (.integer 7) ∧ ascii "D/M$SP$HA$a(02)" ∉ harmonics.values ∧
      ascii "D/M$SP$HA$a(02)" ∈ (harmonics.next (ascii "D/M$SP$HA$a(02)", .integer 7)).values := by
  refine ⟨@writeLeaf_next harmonics (ascii "D/M$SP$HA$a(02)", .integer 7) (by decide +kernel),
    by decide +kernel, ?_, ?_, ?_⟩
  · rintro ⟨v, x, -, hx, hvalue⟩
    cases hvalue
    have hread : ((harmonics.next (ascii "D/M$SP$HA$a(02)", .integer 7)).readReference
        (ascii "D/M$SP$HA$a(2)")).bind integerOf = some 0 := by decide +kernel
    rw [hx] at hread
    cases hread
  · rw [← AList.lookup_eq_none, ← Option.isNone_iff_eq_none]
    decide +kernel
  · rw [← AList.lookup_isSome]
    decide +kernel

end ValueStore

end Iec61850.Server
