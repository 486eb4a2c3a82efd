import Iec61850.Server.Domains
import Iec61850.Theory.Keyed

/-!
# What is under a functional constraint

A logical node of the tree has one structure for each functional constraint that something is
under: first what its data objects publish there, in the order of the model, then the control
blocks.
-/

namespace Iec61850.Server

open Theory Mms

theorem Fc.asStr_inj {fc fc' : Fc} : fc.asStr = fc'.asStr ↔ fc = fc' := by
  constructor
  · intro h
    have hparse := congrArg Fc.parse h
    rw [Fc.parse_asStr, Fc.parse_asStr] at hparse
    exact Option.some.inj hparse
  · rintro rfl
    rfl

/-! ### Constraints that are declared -/

theorem foldl_insert_nodup (fcs : List Fc) {out : List Fc} (h : out.Nodup) :
    (fcs.foldl (fun out fc => if out.contains fc then out else out ++ [fc]) out).Nodup := by
  induction fcs generalizing out with
  | nil => exact h
  | cons fc fcs ih =>
    rw [List.foldl_cons]
    apply ih
    split
    · exact h
    · rename_i hnot
      rw [List.contains_iff_mem] at hnot
      exact List.nodup_append.mpr ⟨h, List.nodup_singleton fc,
        fun x hx y hy hxy => hnot (List.mem_singleton.mp hy ▸ hxy ▸ hx)⟩

mutual

theorem collectFcs_nodup : ∀ (o : DataObject) (out : List Fc), out.Nodup → (collectFcs o out).Nodup
  | ⟨name, attributes, subObjects, count⟩, out, h => by
      rw [collectFcs]
      apply collectAllFcs_nodup
      have hfold := foldl_insert_nodup (attributes.map (·.fc)) h
      rwa [List.foldl_map] at hfold

theorem collectAllFcs_nodup : ∀ (os : List DataObject) (out : List Fc), out.Nodup →
    (collectAllFcs os out).Nodup
  | [], out, h => h
  | o :: os, out, h => by
      rw [collectAllFcs]
      exact collectAllFcs_nodup os _ (collectFcs_nodup o out h)

end

theorem functionalConstraints_nodup (ln : LogicalNode) : (functionalConstraints ln).Nodup := by
  have hall := collectAllFcs_nodup ln.dataObjects [] List.nodup_nil
  unfold functionalConstraints
  dsimp only
  split
  · exact foldl_insert_nodup _ hall
  · exact hall

mutual

/-- What is declared under is collected, and nothing collected is lost. -/
theorem mem_collectFcs : ∀ (o : DataObject) (out : List Fc) (fc : Fc),
    (fc ∈ out → fc ∈ collectFcs o out) ∧
      ((objectUnder o fc).isSome → ∃ declared ∈ collectFcs o out, belongsUnder declared fc = true)
  | ⟨name, attributes, subObjects, count⟩, out, fc => by
      have hrest := mem_collectAllFcs subObjects
        (attributes.foldl (fun out a => if out.contains a.fc then out else out ++ [a.fc]) out)
      have hfold : ∀ x, x ∈ attributes.foldl
          (fun out a => if out.contains a.fc then out else out ++ [a.fc]) out ↔
          x ∈ out ∨ x ∈ attributes.map (·.fc) := by
        intro x
        rw [← mem_foldl_insert, List.foldl_map]
      rw [collectFcs]
      constructor
      · intro hfc
        exact (hrest fc).1 ((hfold fc).mpr (Or.inl hfc))
      · intro hsome
        rw [objectUnder] at hsome
        split at hsome
        · cases hsome
        · rename_i hne
          rw [List.isEmpty_iff, List.append_eq_nil_iff, not_and_or] at hne
          rcases hne with hne | hne
          · obtain ⟨v, hv⟩ := List.exists_mem_of_ne_nil _ hne
            obtain ⟨a, ha, -⟩ := mem_attributeVariables.mp hv
            rw [List.mem_filter] at ha
            refine ⟨a.fc, (hrest a.fc).1 ((hfold a.fc).mpr (Or.inr ?_)), ha.2⟩
            exact List.mem_map_of_mem ha.1
          · exact (hrest fc).2 hne

theorem mem_collectAllFcs : ∀ (os : List DataObject) (out : List Fc) (fc : Fc),
    (fc ∈ out → fc ∈ collectAllFcs os out) ∧
      (objectsUnder os fc ≠ [] → ∃ declared ∈ collectAllFcs os out, belongsUnder declared fc = true)
  | [], out, fc => ⟨id, fun h => absurd rfl h⟩
  | o :: os, out, fc => by
      have hfirst := mem_collectFcs o out
      have hrest := mem_collectAllFcs os (collectFcs o out)
      rw [collectAllFcs]
      constructor
      · intro hfc
        exact (hrest fc).1 ((hfirst fc).1 hfc)
      · intro hne
        rw [objectsUnder] at hne
        cases ho : objectUnder o fc with
        | some v =>
          obtain ⟨declared, hmem, hbelongs⟩ := (hfirst fc).2 (by rw [ho]; rfl)
          exact ⟨declared, (hrest declared).1 hmem, hbelongs⟩
        | none =>
          rw [ho] at hne
          exact (hrest fc).2 hne

end

theorem mem_functionalConstraints {ln : LogicalNode} {fc : Fc}
    (h : objectsUnder ln.dataObjects fc ≠ []) : fc ∈ functionalConstraints ln := by
  obtain ⟨declared, hmem, hbelongs⟩ := (mem_collectAllFcs ln.dataObjects [] fc).2 h
  unfold functionalConstraints
  dsimp only
  unfold belongsUnder at hbelongs
  simp only [Bool.or_eq_true, Bool.and_eq_true, decide_eq_true_eq] at hbelongs
  rcases hbelongs with ⟨hdeclared, hfc⟩ | rfl
  · have hpair : ((collectAllFcs ln.dataObjects []).contains .sg ||
        (collectAllFcs ln.dataObjects []).contains .se) = true := by
      rw [Bool.or_eq_true, List.contains_iff_mem, List.contains_iff_mem]
      rcases hdeclared with rfl | rfl
      · exact Or.inl hmem
      · exact Or.inr hmem
    rw [if_pos hpair, mem_foldl_insert]
    refine Or.inr ?_
    rcases hfc with rfl | rfl
    · exact List.mem_cons_self
    · exact List.mem_cons_of_mem _ List.mem_cons_self
  · split
    · rw [mem_foldl_insert]
      exact Or.inl hmem
    · exact hmem

/-! ### Entries by constraint -/

/-- What a list of entries has under a constraint. -/
def contentUnder (fc : Fc) (byFc : List (Fc × List Variable)) : List Variable :=
  ((findKey Prod.fst fc byFc).map Prod.snd).getD []

/-- No entry is empty and no two are of one constraint. -/
structure Tidy (byFc : List (Fc × List Variable)) : Prop where
  keys : (byFc.map Prod.fst).Nodup
  filled : ∀ e ∈ byFc, e.2 ≠ []

theorem mem_addUnder_keys {fc f : Fc} {v : Variable} {byFc : List (Fc × List Variable)} :
    f ∈ (addUnder fc v byFc).map Prod.fst ↔ f = fc ∨ f ∈ byFc.map Prod.fst := by
  induction byFc with
  | nil => simp [addUnder]
  | cons e byFc ih =>
    rw [addUnder]
    split
    · rename_i he
      rw [List.map_cons, List.map_cons, List.mem_cons, he]
      simp
    · rw [List.map_cons, List.mem_cons, ih, List.map_cons, List.mem_cons]
      tauto

theorem Tidy.addUnder {byFc : List (Fc × List Variable)} (h : Tidy byFc) (fc : Fc) (v : Variable) :
    Tidy (addUnder fc v byFc) := by
  induction byFc with
  | nil => exact ⟨List.nodup_singleton fc, by simp [Server.addUnder]⟩
  | cons e byFc ih =>
    obtain ⟨hkeys, hfilled⟩ := h
    rw [List.map_cons, List.nodup_cons] at hkeys
    rw [List.forall_mem_cons] at hfilled
    rw [Server.addUnder]
    split
    · refine ⟨?_, ?_⟩
      · rw [List.map_cons, List.nodup_cons]
        exact hkeys
      · rw [List.forall_mem_cons]
        exact ⟨by simp, hfilled.2⟩
    · rename_i hne
      obtain ⟨hkeys', hfilled'⟩ := ih ⟨hkeys.2, hfilled.2⟩
      refine ⟨?_, ?_⟩
      · rw [List.map_cons, List.nodup_cons, mem_addUnder_keys, not_or]
        exact ⟨⟨hne, hkeys.1⟩, hkeys'⟩
      · rw [List.forall_mem_cons]
        exact ⟨hfilled.1, hfilled'⟩

theorem contentUnder_addUnder (fc f : Fc) (v : Variable) (byFc : List (Fc × List Variable)) :
    contentUnder fc (addUnder f v byFc) = contentUnder fc byFc ++ if f = fc then [v] else [] := by
  induction byFc with
  | nil =>
    rw [addUnder, contentUnder, findKey_cons]
    by_cases h : f = fc <;> simp [h, contentUnder]
  | cons e byFc ih =>
    rw [addUnder]
    split
    · rename_i he
      rw [contentUnder, contentUnder, findKey_cons, findKey_cons]
      by_cases h : f = fc
      · rw [if_pos (he.trans h), if_pos (he.trans h), if_pos h]
        rfl
      · rw [if_neg (fun h' => h (he.symm.trans h')), if_neg (fun h' => h (he.symm.trans h')),
          if_neg h, List.append_nil]
    · rename_i hne
      rw [contentUnder, findKey_cons, contentUnder, findKey_cons]
      by_cases h : e.1 = fc
      · rw [if_pos h, if_pos h, if_neg (fun hf => hne (h.trans hf.symm)), List.append_nil]
      · rw [if_neg h, if_neg h]
        exact ih

/-- The control blocks of a node under a constraint. -/
def blocksUnder (reservation : Bool) (ln : NodeModel) (fc : Fc) : List Variable :=
  ((controlBlocks reservation ln).filter fun b => b.1 = fc).map Prod.snd

theorem foldl_addUnder (blocks : List (Fc × Variable)) (fc : Fc)
    {byFc : List (Fc × List Variable)} (h : Tidy byFc) :
    Tidy (blocks.foldl (fun byFc b => addUnder b.1 b.2 byFc) byFc) ∧
      contentUnder fc (blocks.foldl (fun byFc b => addUnder b.1 b.2 byFc) byFc) =
        contentUnder fc byFc ++ (blocks.filter fun b => b.1 = fc).map Prod.snd := by
  induction blocks generalizing byFc with
  | nil => exact ⟨h, by simp⟩
  | cons b blocks ih =>
    obtain ⟨htidy, hcontent⟩ := ih (h.addUnder b.1 b.2)
    refine ⟨htidy, ?_⟩
    rw [List.foldl_cons, hcontent, contentUnder_addUnder, List.append_assoc]
    by_cases hb : b.1 = fc <;> simp [hb]

/-- Everything of a node under a constraint. -/
def nodeBody (reservation : Bool) (ln : NodeModel) (fc : Fc) : List Variable :=
  objectsUnder ln.dataObjects fc ++ blocksUnder reservation ln fc

theorem objectEntries (ln : LogicalNode) (fc : Fc) :
    let byFc := (functionalConstraints ln).filterMap fun fc =>
      let children := objectsUnder ln.dataObjects fc
      if children.isEmpty then none else some (fc, children)
    Tidy byFc ∧ contentUnder fc byFc = objectsUnder ln.dataObjects fc := by
  intro byFc
  have hkeys : byFc.map Prod.fst =
      (functionalConstraints ln).filter fun fc => !(objectsUnder ln.dataObjects fc).isEmpty := by
    dsimp only [byFc]
    generalize functionalConstraints ln = fcs
    induction fcs with
    | nil => rfl
    | cons f fcs ih =>
      rw [List.filterMap_cons, List.filter_cons]
      by_cases h : (objectsUnder ln.dataObjects f).isEmpty = true
      · simp only [h, if_true, Bool.not_true]
        exact ih
      · simp only [h, Bool.not_false, if_true]
        exact congrArg _ ih
  have hmem : ∀ e ∈ byFc, e.2 = objectsUnder ln.dataObjects e.1 ∧ e.2 ≠ [] := by
    intro e he
    obtain ⟨f, -, hf⟩ := List.mem_filterMap.mp he
    dsimp only at hf
    split at hf
    · cases hf
    · rename_i hne
      cases hf
      exact ⟨rfl, by simpa using hne⟩
  have hnodup : (byFc.map Prod.fst).Nodup := by
    rw [hkeys]
    exact (functionalConstraints_nodup ln).filter _
  refine ⟨⟨hnodup, fun e he => (hmem e he).2⟩, ?_⟩
  rw [contentUnder]
  by_cases hempty : objectsUnder ln.dataObjects fc = []
  · have hnone : findKey Prod.fst fc byFc = none := by
      rw [findKey_eq_none]
      rintro e he rfl
      exact (hmem e he).2 ((hmem e he).1.trans hempty)
    rw [hnone, hempty]
    rfl
  · have hin : (fc, objectsUnder ln.dataObjects fc) ∈ byFc := by
      refine List.mem_filterMap.mpr ⟨fc, mem_functionalConstraints hempty, ?_⟩
      dsimp only
      rw [if_neg (by simpa using hempty)]
    rw [findKey_of_mem hnodup hin rfl]
    rfl

/-- What a node of the tree has under a constraint. -/
theorem nodeVariable_child (reservation : Bool) (ln : NodeModel) (fc : Fc) :
    (nodeVariable reservation ln).child fc.asStr = if nodeBody reservation ln fc = [] then none
      else some ⟨fc.asStr, .struct, nodeBody reservation ln fc⟩ := by
  obtain ⟨htidy, hobjects⟩ := objectEntries ln.toLogicalNode fc
  obtain ⟨htidy, hcontent⟩ := foldl_addUnder (controlBlocks reservation ln) fc htidy
  rw [hobjects] at hcontent
  rw [nodeVariable]
  dsimp only
  generalize (controlBlocks reservation ln).foldl (fun byFc b => addUnder b.1 b.2 byFc) _ = byFc
    at htidy hcontent
  have hsorted := List.mergeSort_perm byFc fun a b => decide (a.1.asStr ≤ b.1.asStr)
  have hfind : findKey Variable.name fc.asStr ((byFc.mergeSort fun a b =>
      decide (a.1.asStr ≤ b.1.asStr)).map fun e => ⟨e.1.asStr, .struct, e.2⟩) =
      (findKey Prod.fst fc byFc).map fun e => ⟨e.1.asStr, .struct, e.2⟩ := by
    rw [findKey_map]
    congr 1
    have hkey : ∀ l : List (Fc × List Variable), findKey (fun e => e.1.asStr) fc.asStr l =
        findKey Prod.fst fc l := by
      intro l
      simp only [findKey, Fc.asStr_inj]
    rw [hkey]
    exact (findKey_perm hsorted.symm htidy.keys).symm
  change findKey Variable.name fc.asStr _ = _
  rw [hfind, nodeBody, blocksUnder, ← hcontent, contentUnder]
  cases hfound : findKey Prod.fst fc byFc with
  | none => rfl
  | some e =>
    obtain ⟨hmem, rfl⟩ := mem_of_findKey hfound
    exact (if_neg (htidy.filled e hmem)).symm

/-- What a longer item name resolves to in a node lies under its constraint. -/
theorem nodeVariable_resolve (reservation : Bool) (ln : NodeModel) (fc : Fc) {s : Step}
    {path : List Step} : (nodeVariable reservation ln).resolve (⟨fc.asStr, none⟩ :: s :: path) =
      (⟨fc.asStr, .struct, nodeBody reservation ln fc⟩ : Variable).resolve (s :: path) := by
  rw [Variable.resolve, nodeVariable_child]
  by_cases hempty : nodeBody reservation ln fc = []
  · rw [if_pos hempty, hempty]
    rfl
  · rw [if_neg hempty]

end Iec61850.Server
