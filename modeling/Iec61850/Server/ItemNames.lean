import Iec61850.Server.ReferenceGrammar
import Iec61850.Server.Spellings

/-!
# Item names and selections

`item_with` and `split_item` of `tree.rs`: how the server puts the selection that came beside a name
back behind the name, and how it divides the item that this gives. A reference a client divides into
a name and a selection is what the server makes of the two.
-/

namespace Iec61850.Server

open Theory Mms

/-! ### Joining and dividing -/

/-- The loop of `item_with`. -/
def itemWith : Bytes → List Selector → Option Bytes
  | out, [] => some out
  | out, .component name :: selection => itemWith (out ++ sep :: name) selection
  | out, .index i :: selection => itemWith (out ++ indexText i) selection
  | _, .indexRange _ _ :: _ => none
  | _, .allElements :: _ => none

def splitItem (item : Bytes) : Bytes × Option Fc × List Bytes :=
  match item.splitOn sep with
  | [] => ([], none, [])
  | ln :: parts =>
    match parts.head?.bind Fc.parse with
    | some fc => (ln, some fc, parts.tail)
    | none => (ln, none, parts)

/-! ### What is joined -/

/-- A selection of one value: no range, and not every element. -/
def Selector.Single : Selector → Prop
  | .component _ | .index _ => True
  | .indexRange _ _ | .allElements => False

theorem itemWith_of_single {selection : List Selector} (item : Bytes)
    (h : ∀ s ∈ selection, Selector.Single s) :
    itemWith item selection = some (item ++ selection.flatMap selectorText) := by
  induction selection generalizing item with
  | nil => simp [itemWith]
  | cons s selection ih =>
    rw [List.forall_mem_cons] at h
    obtain ⟨hsingle, hrest⟩ := h
    cases s with
    | component name => rw [itemWith, ih _ hrest]; simp [selectorText]
    | index i => rw [itemWith, ih _ hrest]; simp [selectorText]
    | indexRange low count => exact hsingle.elim
    | allElements => exact hsingle.elim

namespace ObjectReference

variable {r : ObjectReference}

theorem single_of_mem_selection {s : Selector} (h : s ∈ r.selection) : Selector.Single s := by
  have hmem : s ∈ r.parts.flatMap Step.selectors := by
    rw [← names_selection]
    exact List.mem_append_right _ h
  obtain ⟨step, -, hs⟩ := List.mem_flatMap.mp hmem
  rcases List.mem_cons.mp hs with rfl | hs
  · trivial
  · obtain ⟨i, -, rfl⟩ := List.mem_map.mp hs
    trivial

/-- The item that the server joins: all parts of the reference behind the node and the
constraint. -/
def joinedItem (r : ObjectReference) (fc : Fc) : Bytes :=
  r.ln ++ ((r.fc.getD fc).asStr :: r.parts.map (Step.spelt 0)).flatMap fun part => sep :: part

theorem itemWith_toMms (r : ObjectReference) (fc : Fc) :
    itemWith (r.toMms fc).2 r.selection = some (r.joinedItem fc) := by
  have htext : selectorText = selectorSpelt 0 := by
    funext s
    cases s <;> rfl
  have hparts : (r.names.flatMap fun name => sep :: name) ++ r.selection.flatMap selectorText =
      r.parts.flatMap fun s => sep :: s.spelt 0 := by
    rw [← flatMap_selectorSpelt, ← names_selection, List.flatMap_append, htext, List.flatMap_map]
    rfl
  rw [itemWith_of_single _ fun s hs => single_of_mem_selection hs]
  simp only [toMms, toMmsUnder, joinedItem, List.append_assoc, List.cons_append, hparts,
    List.flatMap_cons, List.flatMap_map]

/-! ### The parts of an accepted reference -/

variable {s : Step} {text : Bytes}

theorem exists_part (h : s ∈ r.parts) : ∃ part, stepOf part = s := by
  obtain ⟨part, -, hs⟩ := List.mem_map.mp h
  exact ⟨part, hs⟩

theorem stepOf_spelt_of_mem (h : s ∈ r.parts) : stepOf (s.spelt 0) = s := by
  obtain ⟨part, rfl⟩ := exists_part h
  exact stepOf_spelt 0 part

theorem isNumber_numeral {i : Nat} (h : i < 2 ^ 32) : IsNumber (numeral i) := by
  have hread := readDigits_numeral h
  exact Or.inl ((readDigits_isSome _).mp (by rw [hread]; rfl))

theorem isPart_spelt (h : parse text = .ok r) (hs : s ∈ r.parts) : IsPart IsNumber (s.spelt 0) := by
  have hname := (parse_named h).parts s hs
  obtain ⟨part, hpart⟩ := exists_part hs
  cases hindex : s.index with
  | none =>
    apply Or.inl
    simpa [Step.spelt, hindex] using hname
  | some i =>
    rw [← hpart] at hindex
    have hi := isNumber_numeral (stepOf_index hindex).2.1
    rw [hpart] at hindex
    refine Or.inr ⟨s.name, numeral i, hname, hi, ?_⟩
    simp [Step.spelt, hindex]

theorem isSeparator_spelt (h : parse text = .ok r) (hs : s ∈ r.parts) :
    ∀ b ∈ s.spelt 0, isSeparator b = false :=
  (isPart_spelt h hs).separator fun _ => id

/-! ### Dividing what was joined -/

theorem splitOn_joinedItem (h : parse text = .ok r) (fc : Fc) : (r.joinedItem fc).splitOn sep =
      r.ln :: (r.fc.getD fc).asStr :: r.parts.map (Step.spelt 0) := by
  apply splitOn_joined (not_mem_of_isName (parse_named h).ln (by decide))
  intro part hpart
  rcases List.mem_cons.mp hpart with rfl | hpart
  · exact sep_not_mem_asStr _
  · obtain ⟨s, hs, rfl⟩ := List.mem_map.mp hpart
    intro hsep
    have hclean := isSeparator_spelt h hs sep hsep
    exact absurd hclean (by decide)

theorem splitItem_joinedItem (h : parse text = .ok r) (fc : Fc) :
    splitItem (r.joinedItem fc) = (r.ln, some (r.fc.getD fc), r.parts.map (Step.spelt 0)) := by
  rw [splitItem, splitOn_joinedItem h]
  simp

theorem map_stepOf_spelt (r : ObjectReference) :
    (r.parts.map (Step.spelt 0)).map stepOf = r.parts := by
  rw [List.map_map]
  refine (List.map_congr_left ?_).trans (List.map_id _)
  intro s hs
  exact stepOf_spelt_of_mem hs

/-- The joined item is looked up along the parts of the reference. -/
theorem resolve_joinedItem (h : parse text = .ok r) (fc : Fc) (d : Domain) :
    d.resolve (r.joinedItem fc) =
      (d.node r.ln).bind fun node => node.resolve (stepOf (r.fc.getD fc).asStr :: r.parts) := by
  rw [Domain.resolve, splitOn_joinedItem h]
  dsimp only
  rw [List.map_cons, map_stepOf_spelt]

/-- Parts written one behind the other are the parts of the reference. -/
theorem parts_of_pieces {parts : List Bytes}
    (h : ∀ part ∈ parts, IsPart IsNumber part) (ld ln : Bytes) (fc : Option Fc) :
    (⟨ld, ln, fc, (behind (parts.map fun part => (sep, part))).tail⟩ : ObjectReference).parts =
      parts.map stepOf := by
  cases parts with
  | nil => rfl
  | cons first rest =>
    rw [List.forall_mem_cons] at h
    have hpieces : ∀ piece ∈ rest.map fun part => (sep, part),
        isSeparator piece.1 = true ∧ ∀ b ∈ piece.2, isSeparator b = false := by
      intro piece hpiece
      obtain ⟨part, hpart, rfl⟩ := List.mem_map.mp hpiece
      exact ⟨rfl, (h.2 part hpart).separator fun _ => id⟩
    have hsplit := splitOnP_behind (h.1.separator fun _ => id) hpieces
    have hne : ∀ part ∈ first :: rest, decide (part ≠ []) = true := by
      intro part hpart
      rcases List.mem_cons.mp hpart with rfl | hpart
      · exact decide_eq_true h.1.ne_nil
      · exact decide_eq_true (h.2 part hpart).ne_nil
    rw [List.map_map] at hsplit
    have hall : rest.map (Prod.snd ∘ fun part => (sep, part)) = rest := List.map_id rest
    rw [hall] at hsplit
    change (((first ++ behind _).splitOnP isSeparator).filter _).map stepOf = _
    rw [hsplit, List.filter_eq_self.mpr hne]

/-- The parts of a reference, written one behind the other, are its parts again. -/
theorem parts_behind (h : parse text = .ok r) {ld ln : Bytes} {fc : Option Fc} :
    (⟨ld, ln, fc, (behind (r.parts.map fun s => (sep, s.spelt 0))).tail⟩ :
      ObjectReference).parts = r.parts := by
  have hlegal : ∀ part ∈ r.parts.map (Step.spelt 0), IsPart IsNumber part := by
    intro part hpart
    obtain ⟨s, hs, rfl⟩ := List.mem_map.mp hpart
    exact isPart_spelt h hs
  have hparts := parts_of_pieces hlegal ld ln fc
  rw [List.map_map, map_stepOf_spelt] at hparts
  exact hparts

/-- The joined item is itself a reference, to the same. -/
theorem parse_joinedItem (h : parse text = .ok r) (fc : Fc) :
    ∃ again, parse (referenceOf r.ld (r.joinedItem fc)) = .ok again ∧ again.ld = r.ld ∧
      again.ln = r.ln ∧ again.fc = some (r.fc.getD fc) ∧ again.parts = r.parts := by
  let x : Spelling :=
    ⟨r.ld, r.ln, some (r.fc.getD fc), r.parts.map fun s => (sep, s.spelt 0)⟩
  have hlegal : x.Legal IsNumber := by
    refine ⟨(parse_named h).ld, (parse_named h).ln, ?_, ?_⟩
    · intro piece hpiece
      obtain ⟨s, -, rfl⟩ := List.mem_map.mp hpiece
      rfl
    · intro piece hpiece
      obtain ⟨s, hs, rfl⟩ := List.mem_map.mp hpiece
      exact isPart_spelt h hs
  have hheaded : x.Headed := by
    intro piece hpiece
    obtain ⟨s, -, rfl⟩ := List.mem_map.mp (List.mem_of_mem_head? hpiece)
    rfl
  have htext : x.text = referenceOf r.ld (r.joinedItem fc) := by
    simp [x, Spelling.text, nodeText, behind, referenceOf, joinedItem, List.flatMap_map]
  refine ⟨x.reference, ?_, rfl, rfl, rfl, ?_⟩
  · rw [← htext]
    exact Spelling.parse_text hlegal hheaded
  · exact parts_behind h

/-! ### From the client to the server -/

/-- What a client divides into a name and a selection, the server joins to the same node,
constraint, parts and indices, and looks it up along these. -/
theorem joined_again {text : Bytes} (h : parse text = .ok r) (fc : Fc) :
    ∃ item parts, itemWith (r.toMms fc).2 r.selection = some item ∧
      splitItem item = (r.ln, some (r.fc.getD fc), parts) ∧ parts.map stepOf = r.parts ∧
      (∃ again, parse (referenceOf (r.toMms fc).1 item) = .ok again ∧ again.ld = r.ld ∧
        again.ln = r.ln ∧ again.fc = some (r.fc.getD fc) ∧ again.parts = r.parts) ∧
      ∀ d : Domain, d.resolve item =
        (d.node r.ln).bind fun node => node.resolve (stepOf (r.fc.getD fc).asStr :: r.parts) :=
  ⟨r.joinedItem fc, r.parts.map (Step.spelt 0), itemWith_toMms r fc, splitItem_joinedItem h fc,
    map_stepOf_spelt r, parse_joinedItem h fc, resolve_joinedItem h fc⟩

/-- A nested array, and an index on the last part. -/
theorem joined_again_nested : ∃ r, parse (ascii "D/M.HA.a(2).b(+03).c(7)") = .ok r ∧
      (r.toMms .mx, r.selection) = ((ascii "D", ascii "M$MX$HA$a"),
        [.index 2, .component (ascii "b"), .index 3, .component (ascii "c"), .index 7]) ∧
      ∃ item parts, itemWith (r.toMms .mx).2 r.selection = some item ∧
        splitItem item = (ascii "M", some .mx, parts) ∧
        parts.map stepOf = [⟨ascii "HA", none⟩, ⟨ascii "a", some 2⟩, ⟨ascii "b", some 3⟩,
          ⟨ascii "c", some 7⟩] := by
  refine ⟨⟨ascii "D", ascii "M", none, ascii "HA.a(2).b(+03).c(7)"⟩, by decide, by decide, ?_⟩
  have hparse : parse (ascii "D/M.HA.a(2).b(+03).c(7)") =
      .ok ⟨ascii "D", ascii "M", none, ascii "HA.a(2).b(+03).c(7)"⟩ := by decide
  obtain ⟨item, parts, hitem, hsplit, hparts, -⟩ := joined_again hparse .mx
  refine ⟨item, parts, hitem, hsplit, ?_⟩
  rw [hparts]
  decide

end ObjectReference

end Iec61850.Server
