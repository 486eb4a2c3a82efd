import Iec61850.Ber.Reread
import Iec61850.Server.Tree
import Iec61850.Theory.Decimal

/-!
# Object references

The functional constraints as they are spelt and the references of `common/reference.rs`: what is
accepted, and how a reference is divided into the name of a variable and a selection inside it.
-/

namespace Iec61850.Server

open Theory Ber Mms

/-! ### Functional constraints -/

def Fc.asStr : Fc → Bytes
  | .st => ascii "ST"
  | .mx => ascii "MX"
  | .sp => ascii "SP"
  | .sv => ascii "SV"
  | .cf => ascii "CF"
  | .dc => ascii "DC"
  | .sg => ascii "SG"
  | .se => ascii "SE"
  | .sr => ascii "SR"
  | .or => ascii "OR"
  | .bl => ascii "BL"
  | .ex => ascii "EX"
  | .co => ascii "CO"
  | .us => ascii "US"
  | .ms => ascii "MS"
  | .rp => ascii "RP"
  | .br => ascii "BR"
  | .lg => ascii "LG"
  | .go => ascii "GO"
  | .gs => ascii "GS"
  | .xx => ascii "XX"

/-- Every functional constraint. -/
def Fc.all : List Fc :=
  [.st, .mx, .sp, .sv, .cf, .dc, .sg, .se, .sr, .or, .bl, .ex, .co, .us, .ms, .rp, .br, .lg, .go,
    .gs, .xx]

def Fc.parse (s : Bytes) : Option Fc := Fc.all.find? fun fc => fc.asStr = s

@[simp] theorem Fc.parse_asStr (fc : Fc) : Fc.parse fc.asStr = some fc := by
  cases fc <;> decide

/-! ### Taking a text apart -/

/-- `str::split_once`, at an octet. -/
def splitOnce (at' : UInt8) : Bytes → Option (Bytes × Bytes)
  | [] => none
  | b :: bs =>
    if b = at' then some ([], bs)
    else (splitOnce at' bs).map fun (before, after) => (b :: before, after)

/-- `str::strip_suffix`, of one octet. -/
def stripSuffix (last : UInt8) (bs : Bytes) : Option Bytes :=
  if bs.getLast? = some last then some bs.dropLast else none

def sep : UInt8 := 36

def slash : UInt8 := 47
def dot : UInt8 := 46
def openParen : UInt8 := 40
def closeParen : UInt8 := 41

def isNameByte (b : UInt8) : Bool :=
  decide (48 ≤ b.toNat ∧ b.toNat ≤ 57) || decide (65 ≤ b.toNat ∧ b.toNat ≤ 90) ||
    decide (97 ≤ b.toNat ∧ b.toNat ≤ 122) || decide (b.toNat = 95)

def splitIndex (part : Bytes) : Bytes × Option Nat :=
  match splitOnce openParen part with
  | none => (part, none)
  | some (name, rest) =>
    match (stripSuffix closeParen rest).bind (readNumeral (2 ^ 32)) with
    | some index => (name, some index)
    | none => (part, none)

/-! ### References -/

structure ObjectReference where
  ld : Bytes
  ln : Bytes
  fc : Option Fc
  path : Bytes
  deriving DecidableEq, Repr

/-- What a reference or an item name is divided at below the logical node. -/
def isSeparator (b : UInt8) : Bool := b = dot || b = sep

/-- One round of the loop of `ObjectReference::parse`. -/
def checkPart (part : Bytes) : Except Error Unit :=
  let (name, index) := splitIndex part
  if name = [] ∨ ¬ name.all isNameByte then
    .error (.invalidReference "data object / attribute name")
  else if index = none ∧ name.length ≠ part.length then .error (.invalidReference "array index")
  else .ok ()

/-- The loop of `ObjectReference::parse`. -/
def checkParts : List Bytes → Except Error Unit
  | [] => .ok ()
  | part :: parts => do
      checkPart part
      checkParts parts

def checkPath (path : Bytes) : Except Error Unit :=
  if path = [] then .ok () else checkParts (path.splitOnP isSeparator)

namespace ObjectReference

/-- What follows the logical device, in either of the two forms. -/
def parseNode (rest : Bytes) : Except Error (Bytes × Option Fc × Bytes) :=
  match splitOnce sep rest with
  | some (ln, tail) =>
    let (fc, path) := (splitOnce sep tail).getD (tail, [])
    match Fc.parse fc with
    | some fc => .ok (ln, some fc, path)
    | none => .error (.invalidReference "functional constraint")
  | none =>
    let (ln, path) := (splitOnce dot rest).getD (rest, [])
    .ok (ln, none, path)

def parse (s : Bytes) : Except Error ObjectReference :=
  match splitOnce slash s with
  | none => .error (.invalidReference "missing `/` between LD and LN")
  | some (ld, rest) =>
    if ld = [] ∨ ¬ ld.all isNameByte then .error (.invalidReference "logical device name")
    else do
      let (ln, fc, path) ← parseNode rest
      if ln = [] ∨ ¬ ln.all isNameByte then .error (.invalidReference "logical node name")
      else do
        checkPath path
        .ok ⟨ld, ln, fc, path⟩

variable (r : ObjectReference)

def parts : List Step :=
  ((r.path.splitOnP isSeparator).filter (· ≠ [])).map fun part =>
    ⟨(splitIndex part).1, (splitIndex part).2⟩

/-- The count of `named_len`: up to and including the first component that carries an index. -/
def countNamed : List Step → Nat
  | [] => 0
  | s :: parts => if s.index.isSome then 1 else countNamed parts + 1

def namedLen : Nat := countNamed r.parts

/-- `ObjectReference::path`. -/
def names : List Bytes := (r.parts.map (·.name)).take r.namedLen

def selection : List Selector :=
  r.parts.zipIdx.flatMap fun (s, n) =>
    (if r.namedLen < n + 1 then [Selector.component s.name] else []) ++
      s.index.toList.map Selector.index

def toMmsUnder (fc : Fc) : Bytes × Bytes :=
  (r.ld, r.ln ++ sep :: fc.asStr ++ r.names.flatMap fun part => sep :: part)

def toMms (fc : Fc) : Bytes × Bytes := r.toMmsUnder (r.fc.getD fc)

end ObjectReference

/-! ### The element a reference names -/

/-- A component, and the element of it that an index selects. -/
def Step.selectors (s : Step) : List Selector :=
  .component s.name :: s.index.toList.map Selector.index

/-- What is inside of a logical node under a functional constraint. -/
structure Element where
  ld : Bytes
  ln : Bytes
  fc : Fc
  selectors : List Selector
  deriving DecidableEq, Repr

/-- What a reference names, read under `fc` when it does not carry a constraint itself. -/
def ObjectReference.element (r : ObjectReference) (fc : Fc) : Element :=
  ⟨r.ld, r.ln, r.fc.getD fc, r.parts.flatMap Step.selectors⟩

/-- What a named variable is: its components one below the other. -/
def variableElement (domain item : Bytes) : Option Element :=
  match item.splitOn sep with
  | ln :: fc :: names => (Fc.parse fc).map fun fc => ⟨domain, ln, fc, names.map Selector.component⟩
  | _ => none

/-- What a variable specification addresses. -/
def specifiedElement : VariableSpecification → Option Element
  | .name (.domainSpecific domain item) => variableElement domain item
  | .element (.domainSpecific domain item) access =>
    (variableElement domain item).map fun e => { e with selectors := e.selectors ++ access }
  | _ => none

/-! ### What an accepted reference is made of -/

/-- What `ObjectReference::parse` takes for a name. -/
def IsName (bs : Bytes) : Prop := bs ≠ [] ∧ bs.all isNameByte = true

theorem not_mem_of_isName {bs : Bytes} (h : IsName bs) {b : UInt8} (hb : isNameByte b = false) :
    b ∉ bs := by
  intro hmem
  rw [List.all_eq_true.mp h.2 b hmem] at hb
  cases hb

theorem isName_of_not {bs : Bytes} (h : ¬ (bs = [] ∨ ¬ bs.all isNameByte)) : IsName bs := by
  rwa [not_or, not_not] at h

theorem checkPart_ok {part : Bytes} (h : checkPart part = .ok ()) : IsName (splitIndex part).1 := by
  unfold checkPart at h
  dsimp only at h
  split at h
  · cases h
  · rename_i hname
    exact isName_of_not hname

theorem checkParts_ok {parts : List Bytes} (h : checkParts parts = .ok ()) :
    ∀ part ∈ parts, checkPart part = .ok () := by
  induction parts with
  | nil =>
    intro part hpart
    cases hpart
  | cons first parts ih =>
    obtain ⟨⟨⟩, hfirst, hrest⟩ := bind_ok h
    intro part hpart
    rcases List.mem_cons.mp hpart with rfl | hlater
    · exact hfirst
    · exact ih hrest part hlater

namespace ObjectReference

/-- The names of a reference are names. -/
structure Named (r : ObjectReference) : Prop where
  ld : IsName r.ld
  ln : IsName r.ln
  parts : ∀ s ∈ r.parts, IsName s.name

theorem parse_named {s : Bytes} {r : ObjectReference} (h : parse s = .ok r) : r.Named := by
  unfold parse at h
  split at h
  case h_1 => cases h
  case h_2 ld rest _ =>
    split at h
    case isTrue => cases h
    case isFalse hld =>
      obtain ⟨⟨ln, fc, path⟩, -, h⟩ := bind_ok h
      dsimp only at h
      split at h
      case isTrue => cases h
      case isFalse hln =>
        obtain ⟨⟨⟩, hpath, hr⟩ := bind_ok h
        cases hr
        refine ⟨isName_of_not hld, isName_of_not hln, ?_⟩
        intro s hs
        obtain ⟨part, hpart, rfl⟩ := List.mem_map.mp hs
        obtain ⟨hmem, hne⟩ := List.mem_filter.mp hpart
        unfold checkPath at hpath
        split at hpath
        case isTrue hnil =>
          dsimp only at hmem
          rw [hnil, List.splitOnP_nil, List.mem_singleton] at hmem
          exact absurd hmem (of_decide_eq_true hne)
        case isFalse => exact checkPart_ok (checkParts_ok hpath part hmem)

/-! ### The name and the selection -/

/-- What `selection` gives for the components from the `k`-th on, of which the first `named` make up
the name. -/
def selectFrom (named k : Nat) (parts : List Step) : List Selector :=
  (parts.zipIdx k).flatMap fun (s, n) =>
    (if named < n + 1 then [Selector.component s.name] else []) ++
      s.index.toList.map Selector.index

theorem selectFrom_cons (named k : Nat) (s : Step) (parts : List Step) :
    selectFrom named k (s :: parts) = (if named < k + 1 then [Selector.component s.name] else []) ++
        s.index.toList.map Selector.index ++ selectFrom named (k + 1) parts := by
  simp [selectFrom]

theorem selectFrom_behind {named k : Nat} (h : named ≤ k) (parts : List Step) :
    selectFrom named k parts = parts.flatMap Step.selectors := by
  induction parts generalizing k with
  | nil => rfl
  | cons s parts ih =>
    rw [selectFrom_cons, if_pos (Nat.lt_succ_of_le h), ih (Nat.le_succ_of_le h),
      List.flatMap_cons, Step.selectors]
    rfl

/-- The name and the selection together are all of the components. -/
theorem names_selectFrom (parts : List Step) (k : Nat) :
    ((parts.map (·.name)).take (countNamed parts)).map Selector.component ++
        selectFrom (k + countNamed parts) k parts = parts.flatMap Step.selectors := by
  induction parts generalizing k with
  | nil => rfl
  | cons s parts ih =>
    rw [selectFrom_cons, List.flatMap_cons, Step.selectors, List.map_cons]
    by_cases hindex : s.index.isSome = true
    · have hbehind := selectFrom_behind (Nat.le_refl (k + 1)) parts
      simp only [countNamed, if_pos hindex, List.take_succ_cons, List.take_zero, List.map_cons,
        List.map_nil, Nat.lt_irrefl, if_false, List.nil_append, hbehind, List.cons_append]
    · have hnone : s.index = none := Option.not_isSome_iff_eq_none.mp hindex
      have hlt : ¬ k + (countNamed parts + 1) < k + 1 := by omega
      have hsame : k + (countNamed parts + 1) = k + 1 + countNamed parts := by omega
      rw [countNamed, if_neg hindex, if_neg hlt, hnone, hsame, List.take_succ_cons, List.map_cons,
        List.cons_append]
      exact congrArg (Selector.component s.name :: ·) (ih (k + 1))

theorem names_selection (r : ObjectReference) :
    r.names.map Selector.component ++ r.selection = r.parts.flatMap Step.selectors := by
  have h := names_selectFrom r.parts 0
  rwa [Nat.zero_add] at h

theorem flatMap_selectors {parts : List Step} (h : ∀ s ∈ parts, s.index = none) :
    parts.flatMap Step.selectors = (parts.map (·.name)).map Selector.component := by
  induction parts with
  | nil => rfl
  | cons s parts ih =>
    rw [List.flatMap_cons, ih fun t ht => h t (List.mem_cons_of_mem _ ht), Step.selectors,
      h s List.mem_cons_self]
    rfl

theorem countNamed_eq_length {parts : List Step} (h : ∀ s ∈ parts, s.index = none) :
    countNamed parts = parts.length := by
  induction parts with
  | nil => rfl
  | cons s parts ih =>
    have hindex : ¬ s.index.isSome = true := by
      rw [h s List.mem_cons_self]
      exact Bool.false_ne_true
    rw [countNamed, if_neg hindex, ih fun t ht => h t (List.mem_cons_of_mem _ ht),
      List.length_cons]

theorem names_of_unindexed {r : ObjectReference} (h : ∀ s ∈ r.parts, s.index = none) :
    r.names = r.parts.map (·.name) := by
  rw [names, namedLen, countNamed_eq_length h]
  exact List.take_of_length_le (Nat.le_of_eq (List.length_map _))

theorem selection_eq_nil (r : ObjectReference) :
    r.selection = [] ↔ ∀ s ∈ r.parts, s.index = none := by
  have hall := names_selection r
  constructor
  · intro hnil s hs
    rw [hnil, List.append_nil] at hall
    cases hi : s.index with
    | none => rfl
    | some i =>
      have hmem : Selector.index i ∈ r.parts.flatMap Step.selectors :=
        List.mem_flatMap.mpr ⟨s, hs, by simp [Step.selectors, hi]⟩
      rw [← hall] at hmem
      obtain ⟨name, -, hname⟩ := List.mem_map.mp hmem
      cases hname
  · intro hnone
    rw [flatMap_selectors hnone, names_of_unindexed hnone] at hall
    exact List.self_eq_append_right.mp hall.symm

/-! ### Names on the wire -/

theorem splitOn_joined {a : Bytes} (ha : sep ∉ a) {names : List Bytes}
    (hnames : ∀ name ∈ names, sep ∉ name) :
    (a ++ names.flatMap fun name => sep :: name).splitOn sep = a :: names := by
  induction names generalizing a with
  | nil => rw [List.flatMap_nil, List.append_nil, List.splitOn_eq_singleton ha]
  | cons name names ih =>
    rw [List.flatMap_cons, List.cons_append, List.splitOn_append_cons_self_of_not_mem ha,
      ih (hnames name List.mem_cons_self) fun n hn => hnames n (List.mem_cons_of_mem _ hn)]

theorem sep_not_mem_asStr (fc : Fc) : sep ∉ fc.asStr := by
  cases fc <;> decide

variable {r : ObjectReference}

theorem Named.sep_not_mem_name (h : r.Named) : ∀ name ∈ r.names, sep ∉ name := by
  intro name hname
  obtain ⟨s, hs, rfl⟩ := List.mem_map.mp (List.mem_of_mem_take hname)
  exact not_mem_of_isName (h.parts s hs) (by decide)

theorem Named.variableElement (h : r.Named) (fc : Fc) :
    variableElement (r.toMms fc).1 (r.toMms fc).2 =
      some ⟨r.ld, r.ln, r.fc.getD fc, r.names.map Selector.component⟩ := by
  have hjoined : (r.toMms fc).2.splitOn sep = r.ln :: (r.fc.getD fc).asStr :: r.names := by
    have hsep : ∀ name ∈ (r.fc.getD fc).asStr :: r.names, sep ∉ name := by
      intro name hname
      rcases List.mem_cons.mp hname with rfl | hname
      · exact sep_not_mem_asStr _
      · exact h.sep_not_mem_name name hname
    rw [← splitOn_joined (not_mem_of_isName h.ln (by decide)) hsep]
    simp [toMms, toMmsUnder]
  rw [Server.variableElement, hjoined]
  dsimp only
  rw [Fc.parse_asStr]
  rfl

/-! ### The reference of a name -/

theorem splitOnce_append {c : UInt8} {a : Bytes} (h : c ∉ a) (b : Bytes) :
    splitOnce c (a ++ c :: b) = some (a, b) := by
  induction a with
  | nil => rw [List.nil_append, splitOnce, if_pos rfl]
  | cons x a ih =>
    rw [List.mem_cons, not_or] at h
    rw [List.cons_append, splitOnce, if_neg (Ne.symm h.1), ih h.2]
    rfl

theorem splitOnce_eq_none {c : UInt8} {a : Bytes} (h : c ∉ a) : splitOnce c a = none := by
  induction a with
  | nil => rfl
  | cons x a ih =>
    rw [List.mem_cons, not_or] at h
    rw [splitOnce, if_neg (Ne.symm h.1), ih h.2]
    rfl

theorem splitIndex_of_isName {name : Bytes} (h : IsName name) : splitIndex name = (name, none) := by
  rw [splitIndex, splitOnce_eq_none (not_mem_of_isName h (by decide))]

theorem checkPart_of_isName {name : Bytes} (h : IsName name) : checkPart name = .ok () := by
  rw [checkPart, splitIndex_of_isName h]
  simp [h.1, h.2]

theorem checkParts_of_isName {names : List Bytes} (h : ∀ name ∈ names, IsName name) :
    checkParts names = .ok () := by
  induction names with
  | nil => rfl
  | cons name names ih =>
    rw [checkParts, checkPart_of_isName (h name List.mem_cons_self)]
    exact ih fun n hn => h n (List.mem_cons_of_mem _ hn)

/-- A path of names. -/
def joined (names : List Bytes) : Bytes := (names.flatMap fun name => sep :: name).tail

theorem isSeparator_of_isName {name : Bytes} (h : IsName name) :
    ∀ b ∈ name, isSeparator b = false := by
  intro b hb
  rw [isSeparator, Bool.or_eq_false_iff, decide_eq_false_iff_not, decide_eq_false_iff_not]
  constructor
  · rintro rfl
    exact not_mem_of_isName h (by decide) hb
  · rintro rfl
    exact not_mem_of_isName h (by decide) hb

theorem splitOnP_joined {names : List Bytes} (h : ∀ name ∈ names, IsName name)
    (hne : names ≠ []) : (joined names).splitOnP isSeparator = names := by
  induction names with
  | nil => exact absurd rfl hne
  | cons name names ih =>
    have hname := isSeparator_of_isName (h name List.mem_cons_self)
    cases names with
    | nil =>
      rw [joined, List.flatMap_cons, List.cons_append, List.tail_cons, List.flatMap_nil,
        List.append_nil, List.splitOnP_eq_singleton hname]
    | cons next names =>
      have hrest := ih (fun n hn => h n (List.mem_cons_of_mem _ hn)) (List.cons_ne_nil _ _)
      rw [joined, List.flatMap_cons, List.cons_append, List.tail_cons] at hrest ⊢
      rw [List.flatMap_cons, List.cons_append,
        List.splitOnP_append_cons_of_forall_mem hname sep (by decide), hrest]

theorem joined_eq_nil {names : List Bytes} (h : ∀ name ∈ names, IsName name) :
    joined names = [] ↔ names = [] := by
  cases names with
  | nil => exact iff_of_true rfl rfl
  | cons name names =>
    have hne := (h name List.mem_cons_self).1
    simp [joined, hne]

theorem checkPath_joined {names : List Bytes} (h : ∀ name ∈ names, IsName name) :
    checkPath (joined names) = .ok () := by
  rw [checkPath]
  split
  case isTrue => rfl
  case isFalse hne =>
    rw [joined_eq_nil h] at hne
    rw [splitOnP_joined h hne, checkParts_of_isName h]

theorem flatMap_sep {names : List Bytes} (hne : names ≠ []) :
    (names.flatMap fun name => sep :: name) = sep :: joined names := by
  cases names with
  | nil => exact absurd rfl hne
  | cons name names => simp [joined]

theorem parseNode_mms {ln : Bytes} (hln : IsName ln) (fc : Fc) (names : List Bytes) :
    parseNode (ln ++ sep :: fc.asStr ++ names.flatMap fun name => sep :: name) =
      .ok (ln, some fc, joined names) := by
  have hnode : splitOnce sep (ln ++ sep :: fc.asStr ++ names.flatMap fun name => sep :: name) =
      some (ln, fc.asStr ++ names.flatMap fun name => sep :: name) := by
    rw [List.append_assoc, List.cons_append,
      splitOnce_append (not_mem_of_isName hln (by decide))]
  have hfc : (splitOnce sep (fc.asStr ++ names.flatMap fun name => sep :: name)).getD
      (fc.asStr ++ names.flatMap fun name => sep :: name, []) = (fc.asStr, joined names) := by
    by_cases hnames : names = []
    · rw [hnames, List.flatMap_nil, List.append_nil, splitOnce_eq_none (sep_not_mem_asStr fc)]
      rfl
    · rw [flatMap_sep hnames, splitOnce_append (sep_not_mem_asStr fc)]
      rfl
  rw [parseNode, hnode]
  dsimp only
  rw [hfc]
  dsimp only
  rw [Fc.parse_asStr]

/-- The text of a variable reads as the variable. -/
theorem parse_mms {ld ln : Bytes} (hld : IsName ld) (hln : IsName ln) (fc : Fc)
    {names : List Bytes} (hnames : ∀ name ∈ names, IsName name) :
    parse (ld ++ slash :: (ln ++ sep :: fc.asStr ++ names.flatMap fun name => sep :: name)) =
      .ok ⟨ld, ln, some fc, joined names⟩ := by
  have hname : ∀ {bs : Bytes}, IsName bs → ¬ (bs = [] ∨ ¬ bs.all isNameByte = true) := by
    intro bs hbs
    rw [not_or, not_not]
    exact hbs
  rw [parse, splitOnce_append (not_mem_of_isName hld (by decide))]
  dsimp only
  rw [if_neg (hname hld), parseNode_mms hln]
  dsimp only [bind, Except.bind]
  rw [if_neg (hname hln), checkPath_joined hnames]

theorem parts_joined {ld ln : Bytes} {fc : Option Fc} {names : List Bytes}
    (h : ∀ name ∈ names, IsName name) :
    (⟨ld, ln, fc, joined names⟩ : ObjectReference).parts = names.map fun name => ⟨name, none⟩ := by
  rw [parts]
  dsimp only
  by_cases hnames : names = []
  · rw [hnames]
    decide
  · rw [splitOnP_joined h hnames, List.filter_eq_self.mpr]
    · refine List.map_congr_left fun name hname => ?_
      rw [splitIndex_of_isName (h name hname)]
    · intro name hname
      exact decide_eq_true (h name hname).1

theorem unindexed_joined {ld ln : Bytes} {fc : Option Fc} {names : List Bytes}
    (h : ∀ name ∈ names, IsName name) :
    ∀ s ∈ (⟨ld, ln, fc, joined names⟩ : ObjectReference).parts, s.index = none := by
  rw [parts_joined h]
  intro s hs
  obtain ⟨name, -, rfl⟩ := List.mem_map.mp hs
  rfl

theorem names_joined {ld ln : Bytes} {fc : Option Fc} {names : List Bytes}
    (h : ∀ name ∈ names, IsName name) :
    (⟨ld, ln, fc, joined names⟩ : ObjectReference).names = names := by
  rw [names_of_unindexed (unindexed_joined h), parts_joined h, List.map_map]
  exact List.map_id _

theorem Named.names (h : r.Named) : ∀ name ∈ r.names, IsName name := by
  intro name hname
  obtain ⟨s, hs, rfl⟩ := List.mem_map.mp (List.mem_of_mem_take hname)
  exact h.parts s hs

end ObjectReference

end Iec61850.Server
