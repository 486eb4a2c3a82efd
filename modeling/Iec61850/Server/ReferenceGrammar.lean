import Iec61850.Server.Values

/-!
# The grammar of object references

What `ObjectReference::parse` is documented to accept, stated without the parser: a logical device
and a logical node, and below them parts that are names with an array index or without. The parser
accepts three kinds of text more and refuses one that belongs to the grammar
(`accepts_grammar_iff`); what it accepts is printed and read back unharmed.
-/

namespace Iec61850.Server

open Theory Ber Mms ObjectReference

/-! ### The grammar -/

def plus : UInt8 := 43

/-- Decimal digits that fit a `u32`. -/
def IsIndex (ds : Bytes) : Prop := ds ≠ [] ∧ ds.all isDigit = true ∧ numeralValue ds < 2 ^ 32

/-- What the integer parser of the standard library reads: digits, or a plus sign and digits. -/
def IsNumber (ds : Bytes) : Prop := IsIndex ds ∨ ∃ digits, IsIndex digits ∧ ds = plus :: digits

/-- A name, and behind it an index in parentheses or nothing. -/
def IsPart (index : Bytes → Prop) (part : Bytes) : Prop :=
  IsName part ∨ ∃ name ds, IsName name ∧ index ds ∧
    part = name ++ openParen :: (ds ++ [closeParen])

/-- Texts, each behind an octet of its own. -/
def behind (pieces : List (UInt8 × Bytes)) : Bytes := pieces.flatMap fun piece => piece.1 :: piece.2

/-- A reference as it is written: its parts, each with the separator in front of it. -/
structure Spelling where
  ld : Bytes
  ln : Bytes
  fc : Option Fc
  pieces : List (UInt8 × Bytes)

/-- What stands in front of the first part, in each of the two forms. -/
def mark : Option Fc → UInt8
  | none => dot
  | some _ => sep

/-- A logical node with its constraint. -/
def nodeText (ln : Bytes) (fc : Option Fc) : Bytes := ln ++ fc.elim [] fun fc => sep :: fc.asStr

namespace Spelling

def text (x : Spelling) : Bytes := x.ld ++ slash :: (nodeText x.ln x.fc ++ behind x.pieces)

/-- The grammar: only the form with a constraint allows both separators. -/
structure Legal (index : Bytes → Prop) (x : Spelling) : Prop where
  ld : IsName x.ld
  ln : IsName x.ln
  separators : ∀ piece ∈ x.pieces, if x.fc.isSome then isSeparator piece.1 else piece.1 = dot
  parts : ∀ piece ∈ x.pieces, IsPart index piece.2

/-- The first part stands behind the separator of its form. -/
def Headed (x : Spelling) : Prop := ∀ piece ∈ x.pieces.head?, piece.1 = mark x.fc

end Spelling

/-- The texts of the grammar. -/
def Grammatical (s : Bytes) : Prop := ∃ x : Spelling, x.Legal IsIndex ∧ s = x.text

/-- A reference to a logical node, and behind it a separator with nothing to separate. -/
def Trailing (s : Bytes) : Prop :=
  ∃ x : Spelling, x.Legal IsIndex ∧ x.pieces = [] ∧ s = x.text ++ [mark x.fc]

/-- A reference that has an index with a sign. -/
def Signed (s : Bytes) : Prop :=
  plus ∈ s ∧ ∃ x : Spelling, x.Legal IsNumber ∧ x.Headed ∧ s = x.text

/-- A reference with a dot behind its constraint. -/
def DottedConstraint (s : Bytes) : Prop :=
  ∃ x : Spelling, x.Legal IsIndex ∧ ¬ x.Headed ∧ s = x.text

/-- `Display` for `ObjectReference`. -/
def ObjectReference.format (r : ObjectReference) : Bytes :=
  let parts := (r.path.splitOnP isSeparator).filter (· ≠ [])
  match r.fc with
  | some fc => r.ld ++ slash :: (r.ln ++ sep :: fc.asStr) ++ behind (parts.map fun p => (sep, p))
  | none => r.ld ++ slash :: r.ln ++ behind (parts.map fun p => (dot, p))

/-! ### Indices -/

theorem readDigits_isSome (ds : Bytes) : (readDigits (2 ^ 32) ds).isSome = true ↔ IsIndex ds := by
  rw [readDigits]
  split
  case isTrue h => exact iff_of_true rfl h
  case isFalse h => exact iff_of_false Bool.false_ne_true h

theorem not_isIndex_plus (ds : Bytes) : ¬ IsIndex (plus :: ds) := by
  rintro ⟨-, hdigits, -⟩
  rw [List.all_cons, Bool.and_eq_true] at hdigits
  exact absurd hdigits.1 (by decide)

theorem readNumeral_isSome (ds : Bytes) :
    (readNumeral (2 ^ 32) ds).isSome = true ↔ IsNumber ds := by
  cases ds with
  | nil =>
    refine iff_of_false Bool.false_ne_true ?_
    rintro (h | ⟨digits, -, h⟩)
    · exact h.1 rfl
    · cases h
  | cons b ds =>
    rw [readNumeral]
    split
    case isTrue hb =>
      rw [readDigits_isSome]
      constructor
      · intro h
        exact Or.inr ⟨ds, h, by rw [hb]; rfl⟩
      · rintro (h | ⟨digits, h, hds⟩)
        · rw [hb] at h
          exact absurd h (not_isIndex_plus ds)
        · cases hds
          exact h
    case isFalse hb =>
      rw [readDigits_isSome]
      constructor
      · exact Or.inl
      · rintro (h | ⟨digits, h, hds⟩)
        · exact h
        · cases hds
          exact absurd rfl hb

variable {ds part path ln : Bytes}

theorem plus_not_mem_of_isIndex (h : IsIndex ds) : plus ∉ ds := by
  intro hmem
  exact absurd (List.all_eq_true.mp h.2.1 plus hmem) (by decide)

/-! ### Parts -/

theorem IsPart.number (h : IsPart IsIndex part) : IsPart IsNumber part := by
  rcases h with hname | ⟨name, ds, hname, hds, hpart⟩
  · exact Or.inl hname
  · exact Or.inr ⟨name, ds, hname, Or.inl hds, hpart⟩

theorem IsPart.index (h : IsPart IsNumber part) (hplus : plus ∉ part) : IsPart IsIndex part := by
  rcases h with hname | ⟨name, ds, hname, hds | ⟨digits, hdigits, rfl⟩, rfl⟩
  · exact Or.inl hname
  · exact Or.inr ⟨name, ds, hname, hds, rfl⟩
  · exact absurd (by simp) hplus

theorem stripSuffix_append (ds : Bytes) (last : UInt8) :
    stripSuffix last (ds ++ [last]) = some ds := by
  rw [stripSuffix, List.getLast?_concat, if_pos rfl, List.dropLast_concat]

theorem stripSuffix_eq_some {last : UInt8} {bs : Bytes} (h : stripSuffix last bs = some ds) :
    bs = ds ++ [last] := by
  rw [stripSuffix] at h
  split at h
  case isTrue hlast =>
    cases h
    exact (List.dropLast_append_getLast? last hlast).symm
  case isFalse => cases h

theorem splitIndex_indexed {name : Bytes} (hname : IsName name) (hds : IsNumber ds) :
    ∃ index, splitIndex (name ++ openParen :: (ds ++ [closeParen])) = (name, some index) := by
  obtain ⟨index, hindex⟩ := Option.isSome_iff_exists.mp ((readNumeral_isSome ds).mpr hds)
  refine ⟨index, ?_⟩
  rw [splitIndex, splitOnce_append (not_mem_of_isName hname (by decide))]
  dsimp only
  rw [stripSuffix_append, Option.bind_some, hindex]

theorem checkPart_eq_ok (part : Bytes) : checkPart part = .ok () ↔ IsPart IsNumber part := by
  constructor
  · intro h
    have hname := checkPart_ok h
    cases hopen : splitOnce openParen part with
    | none =>
      rw [splitIndex, hopen] at hname
      exact Or.inl hname
    | some halves =>
      obtain ⟨name, rest⟩ := halves
      rw [splitIndex, hopen] at hname
      dsimp only at hname
      obtain ⟨hpart, -⟩ := splitOnce_eq_some hopen
      cases hread : (stripSuffix closeParen rest).bind (readNumeral (2 ^ 32)) with
      | none =>
        rw [hread, hpart] at hname
        exact absurd (by simp) (not_mem_of_isName hname (b := openParen) (by decide))
      | some index =>
        rw [hread] at hname
        obtain ⟨ds, hstrip, hindex⟩ := Option.bind_eq_some_iff.mp hread
        rw [stripSuffix_eq_some hstrip] at hpart
        refine Or.inr ⟨name, ds, hname, (readNumeral_isSome ds).mp ?_, hpart⟩
        rw [hindex]
        rfl
  · rintro (hname | ⟨name, ds, hname, hds, rfl⟩)
    · exact checkPart_of_isName hname
    · obtain ⟨index, hindex⟩ := splitIndex_indexed hname hds
      rw [checkPart, hindex]
      simp [hname.1, hname.2]

theorem checkParts_eq_ok (parts : List Bytes) :
    checkParts parts = .ok () ↔ ∀ part ∈ parts, IsPart IsNumber part := by
  constructor
  · intro h part hpart
    exact (checkPart_eq_ok part).mp (checkParts_ok h part hpart)
  · intro h
    induction parts with
    | nil => rfl
    | cons part parts ih =>
      rw [checkParts, (checkPart_eq_ok part).mpr (h part List.mem_cons_self)]
      exact ih fun p hp => h p (List.mem_cons_of_mem _ hp)

/-! ### Paths -/

theorem IsPart.separator {index : Bytes → Prop} (hindex : ∀ ds, index ds → IsNumber ds)
    (h : IsPart index part) : ∀ b ∈ part, isSeparator b = false := by
  have hdigits : ∀ ds, IsIndex ds → ∀ b ∈ ds, isSeparator b = false := by
    intro ds hds b hb
    have hdigit := List.all_eq_true.mp hds.2.1 b hb
    rw [isSeparator, Bool.or_eq_false_iff, decide_eq_false_iff_not, decide_eq_false_iff_not]
    constructor
    · rintro rfl
      exact absurd hdigit (by decide)
    · rintro rfl
      exact absurd hdigit (by decide)
  rcases h with hname | ⟨name, ds, hname, hds, rfl⟩
  · exact isSeparator_of_isName hname
  · intro b hb
    rw [List.mem_append, List.mem_cons, List.mem_append, List.mem_singleton] at hb
    rcases hb with hb | rfl | hb | rfl
    · exact isSeparator_of_isName hname b hb
    · decide
    · rcases hindex ds hds with hnumber | ⟨digits, hnumber, rfl⟩
      · exact hdigits ds hnumber b hb
      · rcases List.mem_cons.mp hb with rfl | hb
        · decide
        · exact hdigits digits hnumber b hb
    · decide

/-- A text is what its separators part it into, each piece with the separator in front of it. -/
theorem exists_pieces (bs : Bytes) : ∃ head pieces, bs = head ++ behind pieces ∧
      bs.splitOnP isSeparator = head :: pieces.map (·.2) ∧
      ∀ piece ∈ pieces, isSeparator piece.1 = true := by
  induction bs with
  | nil => exact ⟨[], [], rfl, rfl, by simp⟩
  | cons b bs ih =>
    obtain ⟨head, pieces, htext, hsplit, hseparators⟩ := ih
    rw [List.splitOnP_cons_eq_if_modifyHead, hsplit]
    by_cases hb : isSeparator b = true
    · refine ⟨[], (b, head) :: pieces, ?_, ?_, ?_⟩
      · rw [htext]
        simp [behind]
      · rw [if_pos hb]
        rfl
      · rw [List.forall_mem_cons]
        exact ⟨hb, hseparators⟩
    · refine ⟨b :: head, pieces, ?_, ?_, hseparators⟩
      · rw [htext]
        rfl
      · rw [if_neg hb]
        rfl

theorem splitOnP_behind {head : Bytes} {pieces : List (UInt8 × Bytes)}
    (hhead : ∀ b ∈ head, isSeparator b = false)
    (hpieces : ∀ piece ∈ pieces, isSeparator piece.1 = true ∧
      ∀ b ∈ piece.2, isSeparator b = false) :
    (head ++ behind pieces).splitOnP isSeparator = head :: pieces.map (·.2) := by
  induction pieces generalizing head with
  | nil => rw [behind, List.flatMap_nil, List.append_nil, List.splitOnP_eq_singleton hhead]; rfl
  | cons piece pieces ih =>
    rw [List.forall_mem_cons] at hpieces
    rw [behind, List.flatMap_cons, List.cons_append,
      List.splitOnP_append_cons_of_forall_mem hhead piece.1 hpieces.1.1, List.map_cons]
    exact congrArg (head :: ·) (ih hpieces.1.2 hpieces.2)

/-- What the loop checks, whatever the separators are. -/
theorem checkPath_behind {pieces : List (UInt8 × Bytes)} (hpart : IsPart IsNumber part)
    (hpieces : ∀ piece ∈ pieces, isSeparator piece.1 = true ∧ IsPart IsNumber piece.2) :
    (part ++ behind pieces).splitOnP isSeparator = part :: pieces.map (·.2) ∧
      checkPath (part ++ behind pieces) = .ok () := by
  have hsplit : (part ++ behind pieces).splitOnP isSeparator = part :: pieces.map (·.2) := by
    apply splitOnP_behind (hpart.separator fun _ => id)
    intro piece hpiece
    exact ⟨(hpieces piece hpiece).1, (hpieces piece hpiece).2.separator fun _ => id⟩
  refine ⟨hsplit, ?_⟩
  rw [checkPath]
  split
  case isTrue => rfl
  case isFalse =>
    rw [hsplit, checkParts_eq_ok, List.forall_mem_cons]
    refine ⟨hpart, ?_⟩
    intro text htext
    obtain ⟨piece, hpiece, rfl⟩ := List.mem_map.mp htext
    exact (hpieces piece hpiece).2

theorem IsPart.ne_nil {index : Bytes → Prop} (h : IsPart index part) : part ≠ [] := by
  rcases h with hname | ⟨name, ds, -, -, rfl⟩
  · exact hname.1
  · simp

/-- A path that passes is parts with separators between them. -/
theorem exists_parts_of_checkPath (h : checkPath path = .ok ()) (hne : path ≠ []) :
    ∃ part pieces, path = part ++ behind pieces ∧ IsPart IsNumber part ∧
      ∀ piece ∈ pieces, isSeparator piece.1 = true ∧ IsPart IsNumber piece.2 := by
  obtain ⟨part, pieces, hpath, hsplit, hseparators⟩ := exists_pieces path
  rw [checkPath, if_neg hne, hsplit, checkParts_eq_ok, List.forall_mem_cons] at h
  refine ⟨part, pieces, hpath, h.1, ?_⟩
  intro piece hpiece
  exact ⟨hseparators piece hpiece, h.2 piece.2 (List.mem_map_of_mem hpiece)⟩

/-! ### What the parser accepts -/

theorem splitOnce_ne_none {c : UInt8} {bs : Bytes} (h : c ∈ bs) : splitOnce c bs ≠ none := by
  induction bs with
  | nil => cases h
  | cons b bs ih =>
    rw [splitOnce]
    split
    case isTrue => exact Option.some_ne_none _
    case isFalse hb =>
      rcases List.mem_cons.mp h with rfl | hmem
      · exact absurd rfl hb
      · rw [Ne, Option.map_eq_none_iff]
        exact ih hmem

theorem asStr_of_parse {s : Bytes} {fc : Fc} (h : Fc.parse s = some fc) : s = fc.asStr := by
  rw [Fc.parse] at h
  have hfound := List.find?_some h
  exact (of_decide_eq_true hfound).symm

theorem parseNode_nodeText (hln : IsName ln) (fc : Option Fc) :
    parseNode (nodeText ln fc) = .ok (ln, fc, []) := by
  have hsep : sep ∉ ln := not_mem_of_isName hln (by decide)
  cases fc with
  | none =>
    rw [parseNode, nodeText, Option.elim_none, List.append_nil, splitOnce_eq_none hsep,
      splitOnce_eq_none (not_mem_of_isName hln (by decide))]
    rfl
  | some fc =>
    rw [parseNode, nodeText, Option.elim_some, splitOnce_append hsep]
    dsimp only
    rw [splitOnce_eq_none (sep_not_mem_asStr fc), Option.getD_none]
    dsimp only
    rw [Fc.parse_asStr]

theorem parseNode_mark (hln : IsName ln) {fc : Option Fc} (hpath : fc = none → sep ∉ path) :
    parseNode (nodeText ln fc ++ mark fc :: path) = .ok (ln, fc, path) := by
  have hsep : sep ∉ ln := not_mem_of_isName hln (by decide)
  cases fc with
  | none =>
    have hnone : sep ∉ ln ++ dot :: path := by
      rw [List.mem_append, List.mem_cons, not_or, not_or]
      exact ⟨hsep, by decide, hpath rfl⟩
    rw [parseNode, nodeText, Option.elim_none, List.append_nil, mark, splitOnce_eq_none hnone,
      splitOnce_append (not_mem_of_isName hln (by decide))]
    rfl
  | some fc =>
    rw [parseNode, nodeText, Option.elim_some, List.append_assoc, List.cons_append,
      splitOnce_append hsep]
    dsimp only
    rw [mark, splitOnce_append (sep_not_mem_asStr fc), Option.getD_some]
    dsimp only
    rw [Fc.parse_asStr]

theorem parseNode_eq_ok {rest : Bytes} {fc : Option Fc} (h : parseNode rest = .ok (ln, fc, path)) :
    (path = [] ∧ rest = nodeText ln fc) ∨
      (rest = nodeText ln fc ++ mark fc :: path ∧ (fc = none → sep ∉ path)) := by
  unfold parseNode at h
  cases hnode : splitOnce sep rest with
  | some halves =>
    obtain ⟨before, tail⟩ := halves
    rw [hnode] at h
    dsimp only at h
    obtain ⟨rfl, -⟩ := splitOnce_eq_some hnode
    cases htail : splitOnce sep tail with
    | none =>
      rw [htail, Option.getD_none] at h
      dsimp only at h
      split at h
      case h_1 fc' hfc =>
        cases h
        rw [asStr_of_parse hfc]
        exact Or.inl ⟨rfl, rfl⟩
      case h_2 => cases h
    | some halves =>
      obtain ⟨constraint, below⟩ := halves
      rw [htail, Option.getD_some] at h
      dsimp only at h
      obtain ⟨rfl, -⟩ := splitOnce_eq_some htail
      split at h
      case h_1 fc' hfc =>
        cases h
        rw [asStr_of_parse hfc]
        refine Or.inr ⟨?_, nofun⟩
        rw [nodeText, Option.elim_some, List.append_assoc]
        rfl
      case h_2 => cases h
  | none =>
    rw [hnode] at h
    dsimp only at h
    cases hdot : splitOnce dot rest with
    | none =>
      rw [hdot, Option.getD_none] at h
      cases h
      exact Or.inl ⟨rfl, (List.append_nil _).symm⟩
    | some halves =>
      obtain ⟨before, below⟩ := halves
      rw [hdot, Option.getD_some] at h
      cases h
      obtain ⟨rfl, -⟩ := splitOnce_eq_some hdot
      refine Or.inr ⟨?_, ?_⟩
      · rw [nodeText, Option.elim_none, List.append_nil]
        rfl
      · intro _ hmem
        exact splitOnce_ne_none (List.mem_append_right _ (List.mem_cons_of_mem _ hmem)) hnode

/-- The parser as a relation: what it accepts, and as what. -/
theorem parse_eq_ok (s : Bytes) (r : ObjectReference) :
    parse s = .ok r ↔ IsName r.ld ∧ IsName r.ln ∧ checkPath r.path = .ok () ∧
      ((r.path = [] ∧ s = r.ld ++ slash :: nodeText r.ln r.fc) ∨
        (s = r.ld ++ slash :: (nodeText r.ln r.fc ++ mark r.fc :: r.path) ∧
          (r.fc = none → sep ∉ r.path))) := by
  constructor
  · intro h
    unfold parse at h
    split at h
    case h_1 => cases h
    case h_2 ld rest hslash =>
      split at h
      case isTrue => cases h
      case isFalse hld =>
        obtain ⟨⟨ln, fc, path⟩, hnode, h⟩ := bind_ok h
        dsimp only at h
        split at h
        case isTrue => cases h
        case isFalse hln =>
          obtain ⟨⟨⟩, hpath, hr⟩ := bind_ok h
          cases hr
          obtain ⟨rfl, -⟩ := splitOnce_eq_some hslash
          refine ⟨isName_of_not hld, isName_of_not hln, hpath, ?_⟩
          rcases parseNode_eq_ok hnode with ⟨hnil, rfl⟩ | ⟨rfl, hsep⟩
          · exact Or.inl ⟨hnil, rfl⟩
          · exact Or.inr ⟨rfl, hsep⟩
  · obtain ⟨ld, ln, fc, path⟩ := r
    rintro ⟨hld, hln, hpath, htext⟩
    have hname : ∀ {bs : Bytes}, IsName bs → ¬ (bs = [] ∨ ¬ bs.all isNameByte = true) := by
      intro bs hbs
      rw [not_or, not_not]
      exact hbs
    have hparse : ∀ {rest : Bytes}, parseNode rest = .ok (ln, fc, path) →
        parse (ld ++ slash :: rest) = .ok ⟨ld, ln, fc, path⟩ := by
      intro rest hrest
      rw [parse, splitOnce_append (not_mem_of_isName hld (by decide))]
      dsimp only
      rw [if_neg (hname hld), hrest]
      dsimp only [bind, Except.bind]
      rw [if_neg (hname hln), hpath]
    rcases htext with ⟨rfl, rfl⟩ | ⟨rfl, hsep⟩
    · exact hparse (parseNode_nodeText hln fc)
    · exact hparse (parseNode_mark hln hsep)

/-! ### The parser and the grammar -/

theorem asStr_length (fc : Fc) : fc.asStr.length = 2 := by
  cases fc <;> rfl

theorem isSeparator_mark (fc : Option Fc) : isSeparator (mark fc) = true := by
  cases fc <;> rfl

namespace Spelling

variable {x : Spelling}

theorem Legal.number (h : x.Legal IsIndex) : x.Legal IsNumber :=
  ⟨h.ld, h.ln, h.separators, fun piece hpiece => (h.parts piece hpiece).number⟩

theorem Legal.isSeparator {index : Bytes → Prop} (h : x.Legal index) {piece : UInt8 × Bytes}
    (hpiece : piece ∈ x.pieces) : isSeparator piece.1 = true := by
  have hseparator := h.separators piece hpiece
  split at hseparator
  · exact hseparator
  · rw [hseparator]
    decide

/-- What the parser makes of a legal text. -/
def reference (x : Spelling) : ObjectReference := ⟨x.ld, x.ln, x.fc, (behind x.pieces).tail⟩

theorem parse_text (h : x.Legal IsNumber) (hheaded : x.Headed) :
    parse x.text = .ok x.reference := by
  obtain ⟨ld, ln, fc, pieces⟩ := x
  refine (parse_eq_ok _ _).mpr ⟨h.ld, h.ln, ?_⟩
  cases pieces with
  | nil => exact ⟨rfl, Or.inl ⟨rfl, by rw [text, behind, List.flatMap_nil, List.append_nil]; rfl⟩⟩
  | cons piece pieces =>
    have hmark : piece.1 = mark fc := hheaded piece rfl
    have hpart := h.parts piece List.mem_cons_self
    have hpieces : ∀ later ∈ pieces, isSeparator later.1 = true ∧ IsPart IsNumber later.2 := by
      intro later hlater
      have hmem := List.mem_cons_of_mem piece hlater
      exact ⟨h.isSeparator hmem, h.parts later hmem⟩
    refine ⟨(checkPath_behind hpart hpieces).2, Or.inr ⟨?_, ?_⟩⟩
    · rw [text, behind, List.flatMap_cons, hmark]
      rfl
    · rintro rfl hsep
      obtain ⟨b, hb, hnot⟩ : ∃ b ∈ piece.2 ++ behind pieces, b = sep := ⟨sep, hsep, rfl⟩
      rcases List.mem_append.mp hb with hb | hb
      · have hclean := hpart.separator (fun _ => id) b hb
        rw [hnot] at hclean
        exact absurd hclean (by decide)
      · obtain ⟨later, hlater, hb⟩ := List.mem_flatMap.mp hb
        rcases List.mem_cons.mp hb with hb | hb
        · have hdot := h.separators later (List.mem_cons_of_mem _ hlater)
          rw [← hb, hnot] at hdot
          cases hdot
        · have hclean := (hpieces later hlater).2.separator (fun _ => id) b hb
          rw [hnot] at hclean
          exact absurd hclean (by decide)

theorem parseNode_dotted (ln : Bytes) (hln : IsName ln) (fc : Fc) (more : Bytes) :
    ∀ result, parseNode (nodeText ln (some fc) ++ dot :: more) ≠ .ok result := by
  intro result h
  obtain ⟨ln', fc', path⟩ := result
  unfold parseNode at h
  rw [nodeText, Option.elim_some, List.append_assoc, List.cons_append,
    splitOnce_append (not_mem_of_isName hln (by decide))] at h
  dsimp only at h
  split at h
  case h_2 => cases h
  case h_1 fc'' hfc =>
    have htext := asStr_of_parse hfc
    cases hsplit : splitOnce sep (fc.asStr ++ dot :: more) with
    | none =>
      rw [hsplit, Option.getD_none] at htext
      have hlength := congrArg List.length htext
      rw [List.length_append, asStr_length, asStr_length, List.length_cons] at hlength
      omega
    | some halves =>
      obtain ⟨constraint, below⟩ := halves
      rw [hsplit, Option.getD_some] at htext
      dsimp only at htext
      obtain ⟨hjoin, -⟩ := splitOnce_eq_some hsplit
      rw [htext] at hjoin
      have hlater := List.append_inj_right hjoin (by rw [asStr_length, asStr_length])
      cases hlater

theorem not_parse_text (h : x.Legal IsNumber) (hheaded : ¬ x.Headed) (r : ObjectReference) :
    parse x.text ≠ .ok r := by
  obtain ⟨ld, ln, fc, pieces⟩ := x
  cases pieces with
  | nil => exact absurd (by simp [Headed]) hheaded
  | cons piece pieces =>
    have hmark : piece.1 ≠ mark fc := by
      intro hmark
      apply hheaded
      intro first hfirst
      cases hfirst
      exact hmark
    have hseparator := h.separators piece List.mem_cons_self
    cases fc with
    | none => exact absurd hseparator hmark
    | some fc =>
      have hdot : piece.1 = dot := by
        rcases Bool.or_eq_true _ _ ▸ hseparator with hdot | hsep
        · exact of_decide_eq_true hdot
        · exact absurd (of_decide_eq_true hsep) hmark
      intro hok
      unfold parse at hok
      rw [text, splitOnce_append (not_mem_of_isName h.ld (by decide))] at hok
      dsimp only at hok
      split at hok
      · cases hok
      · obtain ⟨result, hnode, -⟩ := bind_ok hok
        rw [behind, List.flatMap_cons, hdot] at hnode
        exact parseNode_dotted ln h.ln fc _ result hnode

end Spelling

theorem exists_spelling_of_ok {s : Bytes} {r : ObjectReference} (h : parse s = .ok r) :
    (∃ x : Spelling, x.Legal IsNumber ∧ x.Headed ∧ s = x.text) ∨ Trailing s := by
  obtain ⟨ld, ln, fc, path⟩ := r
  obtain ⟨hld, hln, hpath, htext⟩ := (parse_eq_ok _ _).mp h
  dsimp only at hld hln hpath htext
  by_cases hnil : path = []
  · rcases htext with ⟨-, rfl⟩ | ⟨rfl, -⟩
    · refine Or.inl ⟨⟨ld, ln, fc, []⟩, ⟨hld, hln, by simp, by simp⟩, by simp [Spelling.Headed], ?_⟩
      simp [Spelling.text, behind]
    · refine Or.inr ⟨⟨ld, ln, fc, []⟩, ⟨hld, hln, by simp, by simp⟩, rfl, ?_⟩
      simp [Spelling.text, behind, hnil]
  · rcases htext with ⟨hempty, -⟩ | ⟨rfl, hsep⟩
    · exact absurd hempty hnil
    · obtain ⟨part, pieces, rfl, hpart, hpieces⟩ := exists_parts_of_checkPath hpath hnil
      refine Or.inl ⟨⟨ld, ln, fc, (mark fc, part) :: pieces⟩, ⟨hld, hln, ?_, ?_⟩, ?_, ?_⟩
      · rw [List.forall_mem_cons]
        cases fc with
        | some fc =>
          change isSeparator sep = true ∧ ∀ piece ∈ pieces, isSeparator piece.1 = true
          exact ⟨rfl, fun piece hpiece => (hpieces piece hpiece).1⟩
        | none =>
          refine ⟨rfl, ?_⟩
          intro piece hpiece
          have hnot : piece.1 ≠ sep := by
            intro heq
            apply hsep rfl
            rw [← heq]
            exact List.mem_append_right _
              (List.mem_flatMap.mpr ⟨piece, hpiece, List.mem_cons_self⟩)
          rcases Bool.or_eq_true _ _ ▸ (hpieces piece hpiece).1 with hdot | hsep
          · exact of_decide_eq_true hdot
          · exact absurd (of_decide_eq_true hsep) hnot
      · rw [List.forall_mem_cons]
        exact ⟨hpart, fun piece hpiece => (hpieces piece hpiece).2⟩
      · intro piece hpiece
        cases hpiece
        rfl
      · simp [Spelling.text, behind]

theorem plus_not_mem_of_isName {name : Bytes} (h : IsName name) : plus ∉ name :=
  not_mem_of_isName h (by decide)

theorem plus_not_mem_of_isPart {part : Bytes} (h : IsPart IsIndex part) : plus ∉ part := by
  rcases h with hname | ⟨name, ds, hname, hds, rfl⟩
  · exact plus_not_mem_of_isName hname
  · rw [List.mem_append, List.mem_cons, List.mem_append, List.mem_singleton]
    rintro (h | h | h | h)
    · exact plus_not_mem_of_isName hname h
    · exact absurd h (by decide)
    · exact plus_not_mem_of_isIndex hds h
    · exact absurd h (by decide)

theorem Grammatical.plus_not_mem {s : Bytes} (h : Grammatical s) : plus ∉ s := by
  obtain ⟨x, hx, rfl⟩ := h
  rw [Spelling.text, List.mem_append, List.mem_cons, List.mem_append, nodeText, List.mem_append]
  rintro (hmem | hmem | (hmem | hmem) | hmem)
  · exact plus_not_mem_of_isName hx.ld hmem
  · exact absurd hmem (by decide)
  · exact plus_not_mem_of_isName hx.ln hmem
  · cases hfc : x.fc with
    | none =>
      rw [hfc] at hmem
      cases hmem
    | some fc =>
      rw [hfc] at hmem
      revert hmem
      cases fc <;> decide
  · obtain ⟨piece, hpiece, hmem⟩ := List.mem_flatMap.mp hmem
    rcases List.mem_cons.mp hmem with hmem | hmem
    · have hseparator := hx.isSeparator hpiece
      rw [← hmem] at hseparator
      exact absurd hseparator (by decide)
    · exact plus_not_mem_of_isPart (hx.parts piece hpiece) hmem

theorem Spelling.Legal.index {x : Spelling} (h : x.Legal IsNumber) (hplus : plus ∉ x.text) :
    x.Legal IsIndex := by
  refine ⟨h.ld, h.ln, h.separators, ?_⟩
  intro piece hpiece
  apply (h.parts piece hpiece).index
  intro hmem
  apply hplus
  rw [Spelling.text]
  refine List.mem_append_right _ (List.mem_cons_of_mem _ (List.mem_append_right _ ?_))
  exact List.mem_flatMap.mpr ⟨piece, hpiece, List.mem_cons_of_mem _ hmem⟩

theorem Trailing.parse {s : Bytes} (h : Trailing s) :
    ∃ r : ObjectReference, ObjectReference.parse s = .ok r ∧ r.path = [] ∧
      s = r.ld ++ slash :: (nodeText r.ln r.fc ++ [mark r.fc]) := by
  obtain ⟨⟨ld, ln, fc, pieces⟩, hx, rfl, rfl⟩ := h
  have htext : (⟨ld, ln, fc, []⟩ : Spelling).text ++ [mark fc] =
      ld ++ slash :: (nodeText ln fc ++ [mark fc]) := by
    simp [Spelling.text, behind]
  have hok : ObjectReference.parse ((⟨ld, ln, fc, []⟩ : Spelling).text ++ [mark fc]) =
      .ok ⟨ld, ln, fc, []⟩ := by
    refine (parse_eq_ok _ _).mpr ⟨hx.ld, hx.ln, rfl, Or.inr ⟨htext, ?_⟩⟩
    intro _
    exact List.not_mem_nil
  exact ⟨_, hok, rfl, htext⟩

theorem Trailing.not_grammatical {s : Bytes} (h : Trailing s) : ¬ Grammatical s := by
  rintro ⟨x, hx, rfl⟩
  obtain ⟨r, hr, hpath, htext⟩ := h.parse
  by_cases hheaded : x.Headed
  · rw [Spelling.parse_text hx.number hheaded] at hr
    cases hr
    cases hpieces : x.pieces with
    | nil =>
      rw [Spelling.text, hpieces] at htext
      have hlength := congrArg List.length htext
      simp [Spelling.reference, behind] at hlength
    | cons piece pieces =>
      rw [Spelling.reference] at hpath
      dsimp only at hpath
      rw [hpieces, behind, List.flatMap_cons, List.cons_append, List.tail_cons,
        List.append_eq_nil_iff] at hpath
      have hmem : piece ∈ x.pieces := by
        rw [hpieces]
        exact List.mem_cons_self
      exact (hx.parts piece hmem).ne_nil hpath.1
  · exact Spelling.not_parse_text hx.number hheaded r hr

/-- What is printed of an accepted reference reads as the same. -/
theorem parse_format {s : Bytes} {r : ObjectReference} (h : parse s = .ok r) :
    ∃ r' : ObjectReference, parse r.format = .ok r' ∧ r'.ld = r.ld ∧ r'.ln = r.ln ∧
      r'.fc = r.fc ∧ r'.parts = r.parts := by
  obtain ⟨ld, ln, fc, path⟩ := r
  obtain ⟨hld, hln, hpath, -⟩ := (parse_eq_ok _ _).mp h
  dsimp only at hld hln hpath
  have hformat : (⟨ld, ln, fc, path⟩ : ObjectReference).format =
      ld ++ slash :: (nodeText ln fc ++ behind
        (((path.splitOnP isSeparator).filter (· ≠ [])).map fun part => (mark fc, part))) := by
    cases fc <;> simp [ObjectReference.format, nodeText, mark]
  by_cases hnil : path = []
  · subst hnil
    have hok : parse (⟨ld, ln, fc, []⟩ : ObjectReference).format = .ok ⟨ld, ln, fc, []⟩ := by
      refine (parse_eq_ok _ _).mpr ⟨hld, hln, rfl, Or.inl ⟨rfl, ?_⟩⟩
      rw [hformat]
      simp [behind]
    exact ⟨_, hok, rfl, rfl, rfl, rfl⟩
  · obtain ⟨part, pieces, rfl, hpart, hpieces⟩ := exists_parts_of_checkPath hpath hnil
    have hsplit := (checkPath_behind hpart hpieces).1
    have hkept : ((part ++ behind pieces).splitOnP isSeparator).filter (· ≠ []) =
        part :: pieces.map (·.2) := by
      rw [hsplit, List.filter_eq_self, List.forall_mem_cons]
      refine ⟨decide_eq_true hpart.ne_nil, ?_⟩
      intro text htext
      obtain ⟨piece, hpiece, rfl⟩ := List.mem_map.mp htext
      exact decide_eq_true (hpieces piece hpiece).2.ne_nil
    let x : Spelling := ⟨ld, ln, fc, (mark fc, part) :: pieces.map fun piece => (mark fc, piece.2)⟩
    have hx : x.Legal IsNumber := by
      refine ⟨hld, hln, ?_, ?_⟩
      · intro piece hpiece
        have hmark : piece.1 = mark fc := by
          rcases List.mem_cons.mp hpiece with rfl | hpiece
          · rfl
          · obtain ⟨later, -, rfl⟩ := List.mem_map.mp hpiece
            rfl
        rw [hmark]
        cases fc with
        | none => rfl
        | some fc => exact isSeparator_mark _
      · intro piece hpiece
        rcases List.mem_cons.mp hpiece with rfl | hpiece
        · exact hpart
        · obtain ⟨later, hlater, rfl⟩ := List.mem_map.mp hpiece
          exact (hpieces later hlater).2
    have hheaded : x.Headed := by
      intro piece hpiece
      cases hpiece
      rfl
    refine ⟨x.reference, ?_, rfl, rfl, rfl, ?_⟩
    · rw [← Spelling.parse_text hx hheaded, hformat, hkept, Spelling.text, List.map_cons,
        List.map_map]
      rfl
    · have hsame : x.reference.path.splitOnP isSeparator = part :: pieces.map (·.2) := by
        have hmarked : ∀ piece ∈ pieces.map fun piece => (mark fc, piece.2),
            isSeparator piece.1 = true ∧ IsPart IsNumber piece.2 := by
          intro piece hpiece
          obtain ⟨later, hlater, rfl⟩ := List.mem_map.mp hpiece
          exact ⟨isSeparator_mark fc, (hpieces later hlater).2⟩
        have hagain := (checkPath_behind hpart hmarked).1
        rw [List.map_map] at hagain
        exact hagain
      rw [parts, parts, hsame, hsplit]

/-- The parser accepts what the grammar says, and prints and reads back what it accepts, for exactly
the texts that are neither a node with a separator too many, nor a reference with a signed index,
nor one with a dot behind its constraint. -/
theorem accepts_grammar_iff (s : Bytes) : (((∃ r, parse s = .ok r) ↔ Grammatical s) ∧
      ∀ r, parse s = .ok r → ∃ r' : ObjectReference, parse r.format = .ok r' ∧ r'.ld = r.ld ∧
        r'.ln = r.ln ∧ r'.fc = r.fc ∧ r'.parts = r.parts) ↔
      ¬ (Trailing s ∨ Signed s ∨ DottedConstraint s) := by
  constructor
  · rintro ⟨haccepts, -⟩ (htrailing | ⟨hplus, x, hx, hheaded, rfl⟩ | ⟨x, hx, hheaded, rfl⟩)
    · obtain ⟨r, hr, -⟩ := htrailing.parse
      exact htrailing.not_grammatical (haccepts.mp ⟨r, hr⟩)
    · have hgrammar := haccepts.mp ⟨_, Spelling.parse_text hx hheaded⟩
      exact hgrammar.plus_not_mem hplus
    · obtain ⟨r, hr⟩ := haccepts.mpr ⟨x, hx, rfl⟩
      exact Spelling.not_parse_text hx.number hheaded r hr
  · intro hnone
    rw [not_or, not_or] at hnone
    obtain ⟨htrailing, hsigned, hdotted⟩ := hnone
    refine ⟨⟨?_, ?_⟩, fun r hr => parse_format hr⟩
    · rintro ⟨r, hr⟩
      rcases exists_spelling_of_ok hr with ⟨x, hx, hheaded, rfl⟩ | h
      · have hplus : plus ∉ x.text := by
          intro hplus
          exact hsigned ⟨hplus, x, hx, hheaded, rfl⟩
        exact ⟨x, hx.index hplus, rfl⟩
      · exact absurd h htrailing
    · rintro ⟨x, hx, rfl⟩
      have hheaded : x.Headed := by
        by_contra hheaded
        exact hdotted ⟨x, hx, hheaded, rfl⟩
      exact ⟨_, Spelling.parse_text hx.number hheaded⟩

/-- A logical node with a dot behind it and an index with a sign are accepted, and neither is a
reference of the grammar. -/
theorem trailing_dot_accepted :
    (∃ r, parse (ascii "LD/LN.") = .ok r) ∧ ¬ Grammatical (ascii "LD/LN.") ∧
      (∃ r, parse (ascii "LD/LN.Ha(+2)") = .ok r) ∧ ¬ Grammatical (ascii "LD/LN.Ha(+2)") := by
  refine ⟨⟨_, rfl⟩, ?_, ⟨_, rfl⟩, ?_⟩
  · have htrailing : Trailing (ascii "LD/LN.") :=
      ⟨⟨ascii "LD", ascii "LN", none, []⟩, ⟨⟨nofun, rfl⟩, ⟨nofun, rfl⟩, by simp, by simp⟩, rfl, rfl⟩
    exact htrailing.not_grammatical
  · intro h
    exact h.plus_not_mem (by decide)

end Iec61850.Server
