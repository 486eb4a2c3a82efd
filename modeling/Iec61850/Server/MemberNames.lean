import Iec61850.Server.MemberPaths

/-!
# Members that are declared and members that are served

Where the validator and the server agree on whether a member of a data set exists. Both answers
are brought to the same path: the validator's to what the path names in the declarations, the
server's to what the tree resolves. What is left between them is named in `Fitting`.
-/

namespace Iec61850.Server

open Theory Mms

/-! ### The index of a member -/

/-- `ix` becomes the index of the first array. -/
def place (ix : Nat) : List FcdaNode → List Step → List Step
  | x :: nodes, s :: path =>
    if x.count.isSome then ⟨s.name, some ix⟩ :: path else s :: place ix nodes path
  | _, path => path

/-- Some component carries an index. -/
def indexed (path : List Step) : Bool := path.any fun s => s.index.isSome

/-- A path with the `ix` of the member, where no component carries an index. -/
def placed (ln : LogicalNode) (ix : Option Nat) (path : List Step) : List Step :=
  match ix with
  | none => path
  | some ix =>
    if indexed path then path
    else
      match chain ln none path with
      | some nodes => place ix nodes path
      | none => path

/-- The `ix` of a member has no array to be the index of. -/
def idle (ln : LogicalNode) (ix : Option Nat) (path : List Step) : Bool :=
  ix.isSome && !indexed path &&
    !(chain ln none path).any fun nodes => nodes.any fun x => x.count.isSome

/-! ### What the validator asks -/

/-- The components of a walk, by the declarations they lead to. -/
def stepsOf : Bytes → List Bytes → List FcdaNode → List FcdaStep
  | before, part :: parts, x :: nodes =>
    let reference := before ++ sep :: (splitIndex part).1
    ⟨reference, (splitIndex part).1, (splitIndex part).2, x.count⟩ ::
      stepsOf (reference ++ ((splitIndex part).2.map indexText).getD []) parts nodes
  | _, _, _ => []

theorem walkFrom_toOption (ln : LogicalNode) (before : Bytes) (here : Option FcdaNode)
    (parts : List Bytes) : (walkFrom ln before here parts).toOption =
      (chain ln here (parts.map stepOf)).map (stepsOf before parts) := by
  induction parts generalizing before here with
  | nil => rfl
  | cons part parts ih =>
    rw [walkFrom, List.map_cons, chain]
    change _ = Option.map _ ((nextNode ln here (splitIndex part).1).bind _)
    dsimp only
    cases hnext : nextNode ln here (splitIndex part).1 with
    | none => rfl
    | some x =>
      have hrest := ih (before ++ sep :: (splitIndex part).1 ++
        ((splitIndex part).2.map indexText).getD []) (some x)
      dsimp only
      rw [Option.bind_some]
      generalize walkFrom ln _ (some x) parts = walk at hrest ⊢
      cases hchain : chain ln (some x) (parts.map stepOf) with
      | none =>
        rw [hchain] at hrest
        cases walk with
        | error e => rfl
        | ok walk => cases hrest
      | some nodes =>
        rw [hchain] at hrest
        cases walk with
        | error e => cases hrest
        | ok walk =>
          cases hrest
          rfl

/-- The indexes of a path go with the declarations it names. -/
def takesAll (nodes : List FcdaNode) (path : List Step) : Bool :=
  (nodes.zip path).all fun e => e.1.takes e.2.index

theorem declares_eq (ln : LogicalNode) (here : Option FcdaNode) (path : List Step) :
    declares ln here path = (chain ln here path).any fun nodes => takesAll nodes path := by
  induction path generalizing here with
  | nil => rfl
  | cons s path ih =>
    rw [declares, chain]
    cases nextNode ln here s.name with
    | none => rfl
    | some x =>
      dsimp only
      rw [Option.bind_some, ih (some x)]
      cases chain ln (some x) path with
      | none => simp
      | some nodes => rfl

theorem checkSteps_stepsOf (before : Bytes) (parts : List Bytes) (nodes : List FcdaNode) :
    (checkSteps (stepsOf before parts nodes)).isOk = takesAll nodes (parts.map stepOf) := by
  induction parts generalizing before nodes with
  | nil => cases nodes <;> rfl
  | cons part parts ih =>
    cases nodes with
    | nil => rfl
    | cons x nodes =>
      rw [stepsOf, checkSteps]
      change _ = (x.takes (splitIndex part).2 && takesAll nodes (parts.map stepOf))
      rw [← ih (before ++ sep :: (splitIndex part).1 ++
        ((splitIndex part).2.map indexText).getD []) nodes, FcdaStep.check]
      dsimp only
      cases hindex : (splitIndex part).2 with
      | none => rfl
      | some i =>
        cases hcount : x.count with
        | none =>
          rw [FcdaNode.takes, hcount]
          rfl
        | some n =>
          rw [FcdaNode.takes, hcount]
          dsimp only
          by_cases hi : i < n
          · rw [if_neg (Nat.not_le.mpr hi), decide_eq_true hi]
            rfl
          · rw [if_pos (Nat.not_lt.mp hi), decide_eq_false hi]
            rfl

theorem indexed_stepsOf (before : Bytes) {parts : List Bytes} {nodes : List FcdaNode}
    (hlength : nodes.length = parts.length) :
    ((stepsOf before parts nodes).any fun s => s.index.isSome) = indexed (parts.map stepOf) := by
  induction parts generalizing before nodes with
  | nil => cases nodes <;> rfl
  | cons part parts ih =>
    cases nodes with
    | nil => cases hlength
    | cons x nodes =>
      rw [stepsOf, List.any_cons, ih _ (Nat.succ.inj hlength)]
      rfl

theorem length_of_chain {ln : LogicalNode} {here : Option FcdaNode} {path : List Step}
    {nodes : List FcdaNode} (h : chain ln here path = some nodes) : nodes.length = path.length := by
  induction path generalizing here nodes with
  | nil =>
    cases h
    rfl
  | cons s path ih =>
    rw [chain, Option.bind_eq_some_iff] at h
    obtain ⟨x, -, h⟩ := h
    obtain ⟨rest, hrest, rfl⟩ := Option.map_eq_some_iff.mp h
    rw [List.length_cons, List.length_cons, ih hrest]

theorem chain_place (ln : LogicalNode) (here : Option FcdaNode) (ix : Nat) (nodes : List FcdaNode)
    (path : List Step) : chain ln here (place ix nodes path) = chain ln here path := by
  induction path generalizing here nodes with
  | nil => cases nodes <;> rfl
  | cons s path ih =>
    cases nodes with
    | nil => rfl
    | cons x nodes =>
      rw [place]
      split
      · rfl
      · rw [chain, chain]
        congr 1
        funext y
        rw [ih]

theorem takesAll_of_not_indexed {nodes : List FcdaNode} {path : List Step}
    (h : indexed path = false) : takesAll nodes path = true := by
  rw [takesAll, List.all_eq_true]
  rintro ⟨x, s⟩ hmem
  have hnone := List.any_eq_false.mp h s (List.of_mem_zip hmem).2
  rw [Option.not_isSome_iff_eq_none] at hnone
  rw [hnone]
  rfl

/-- The check of `ix` asks what the index would be asked in its place. -/
theorem checkIx_stepsOf (ix : Nat) (before : Bytes) {parts : List Bytes} {nodes : List FcdaNode}
    (hlength : nodes.length = parts.length) (hindexed : indexed (parts.map stepOf) = false) :
    (checkIx ix (stepsOf before parts nodes)).isOk =
      (takesAll nodes (place ix nodes (parts.map stepOf)) &&
        nodes.any fun x => x.count.isSome) := by
  rw [checkIx, indexed_stepsOf before hlength, hindexed, if_neg Bool.false_ne_true]
  induction parts generalizing before nodes with
  | nil =>
    cases nodes with
    | nil => rfl
    | cons x nodes => cases hlength
  | cons part parts ih =>
    cases nodes with
    | nil => cases hlength
    | cons x nodes =>
      rw [indexed, List.map_cons, List.any_cons, Bool.or_eq_false_iff] at hindexed
      rw [stepsOf, List.map_cons, place, List.any_cons]
      cases hcount : x.count with
      | some n =>
        rw [List.find?_cons_of_pos rfl]
        change _ = ((x.takes (some ix) && takesAll nodes (parts.map stepOf)) && (true || _))
        rw [takesAll_of_not_indexed hindexed.2, FcdaNode.takes, hcount]
        simp only [Option.getD_some]
        by_cases hix : ix < n
        · rw [if_neg (Nat.not_le.mpr hix), decide_eq_true hix]
          rfl
        · rw [if_pos (Nat.not_lt.mp hix), decide_eq_false hix]
          rfl
      | none =>
        rw [List.find?_cons_of_neg (by simp)]
        have hrest := ih (before ++ sep :: (splitIndex part).1 ++
          ((splitIndex part).2.map indexText).getD []) (Nat.succ.inj hlength) hindexed.2
        rw [hrest]
        have hnone : (splitIndex part).2 = none := by simpa [stepOf] using hindexed.1
        change _ = ((x.takes (splitIndex part).2 && takesAll nodes _) && (false || _))
        rw [hnone]
        rfl

/-- The member is declared: its parts name declarations, each index goes with its declaration, and
an `ix` has an array to be the index of. -/
def declared (ln : LogicalNode) (ix : Option Nat) (path : List Step) : Bool :=
  declares ln none (placed ln ix path) && !idle ln ix path

/-- What the checks of the validator come to. -/
theorem checks_isOk (ln : LogicalNode) (before : Bytes) (ix : Option UInt32) (parts : List Bytes) :
    (do
      let walk ← walkFrom ln before none parts
      checkSteps walk
      match ix with
      | some ix => checkIx ix.toNat walk
      | none => .ok () : Except Bytes Unit).isOk =
      declared ln (ix.map UInt32.toNat) (parts.map stepOf) := by
  have hwalk := walkFrom_toOption ln before none parts
  have hbind : ∀ {walk : Except Bytes (List FcdaStep)} (k : List FcdaStep → Except Bytes Unit),
      (walk >>= k).isOk = walk.toOption.any fun w => (k w).isOk := by
    intro walk k
    cases walk <;> rfl
  have hbind' : ∀ (a b : Except Bytes Unit), (a >>= fun _ => b).isOk = (a.isOk && b.isOk) := by
    intro a b
    cases a <;> rfl
  rw [hbind, hwalk, declared, declares_eq]
  cases hchain : chain ln none (parts.map stepOf) with
  | none =>
    have hplaced : placed ln (ix.map UInt32.toNat) (parts.map stepOf) = parts.map stepOf := by
      unfold placed
      split
      · rfl
      · rw [hchain, ite_self]
    rw [hplaced, hchain]
    rfl
  | some nodes =>
    have hlength := length_of_chain hchain
    rw [List.length_map] at hlength
    rw [Option.map_some, Option.any_some, hbind', checkSteps_stepsOf]
    cases ix with
    | none =>
      rw [Option.map_none, placed, hchain, idle]
      simp [Except.isOk, Except.toBool]
    | some ix =>
      rw [Option.map_some, placed, idle, hchain]
      dsimp only
      by_cases hindexed : indexed (parts.map stepOf) = true
      · rw [if_pos hindexed, hchain, hindexed, checkIx, indexed_stepsOf before hlength, hindexed]
        simp [Except.isOk, Except.toBool]
      · rw [Bool.not_eq_true] at hindexed
        rw [hindexed, if_neg Bool.false_ne_true, chain_place, hchain,
          takesAll_of_not_indexed hindexed, checkIx_stepsOf ix.toNat before hlength hindexed]
        simp

/-- What the validator says of a member. -/
theorem fcdaResolves_isOk (m : IedModel) (ldName : Bytes) (fcda : Fcda) :
    (m.fcdaResolves ldName fcda).isOk =
      ((m.fcdaDevice ldName fcda).bind fun ld => ld.nodes.find? fun ln => ln.name = fcda.lnName).any
        fun ln => declared ln.toLogicalNode (fcda.ix.map UInt32.toNat)
          ((fcda.parts.filter (· ≠ [])).map stepOf) := by
  rw [IedModel.fcdaResolves, IedModel.fcdaWalk]
  cases m.fcdaDevice ldName fcda with
  | none => rfl
  | some ld =>
    dsimp only
    rw [Option.bind_some]
    cases ld.nodes.find? fun ln => ln.name = fcda.lnName with
    | none => rfl
    | some ln => exact checks_isOk ln.toLogicalNode _ fcda.ix _

/-! ### What the server is asked -/

/-- The components of a reference after what it begins with. -/
def joined (parts : List Bytes) : Bytes := parts.flatMap fun part => sep :: part

/-- `ix` as the text behind the first array. -/
def placeText (ix : Nat) : List FcdaNode → List Bytes → List Bytes
  | x :: nodes, part :: parts =>
    if x.count.isSome then (part ++ indexText ix) :: parts else part :: placeText ix nodes parts
  | _, parts => parts

theorem stepOf_indexText {part : Bytes} (h : openParen ∉ part) {ix : Nat} (hix : ix < 2 ^ 32) :
    stepOf (part ++ indexText ix) = ⟨part, some ix⟩ := by
  have hstrip : stripSuffix closeParen (numeral ix ++ [closeParen]) = some (numeral ix) := by
    rw [stripSuffix, if_pos (List.getLast?_concat), List.dropLast_concat]
  rw [stepOf, indexText, List.cons_append, splitIndex, ObjectReference.splitOnce_append h]
  dsimp only
  rw [hstrip, Option.bind_some, readNumeral_numeral hix]

theorem stepOf_placeText {ix : Nat} (hix : ix < 2 ^ 32) (nodes : List FcdaNode)
    {parts : List Bytes} (h : ∀ part ∈ parts, openParen ∉ part) :
    (placeText ix nodes parts).map stepOf = place ix nodes (parts.map stepOf) := by
  induction parts generalizing nodes with
  | nil => cases nodes <;> rfl
  | cons part parts ih =>
    rw [List.forall_mem_cons] at h
    cases nodes with
    | nil => rfl
    | cons x nodes =>
      rw [placeText, List.map_cons, place]
      split
      · rw [List.map_cons, stepOf_indexText h.1 hix, stepOf_of_not_mem h.1]
      · rw [List.map_cons, ih nodes h.2]

theorem sep_not_mem_indexText (ix : Nat) : sep ∉ indexText ix := by
  rw [indexText, List.cons_append, List.mem_cons, List.mem_append, List.mem_singleton]
  rintro (h | h | h)
  · revert h
    decide
  · have hdigit := isDigit_of_mem_numeral h
    revert hdigit
    decide
  · revert h
    decide

theorem prefix_of_stepsOf {before : Bytes} {parts : List Bytes} {nodes : List FcdaNode}
    {s : FcdaStep} (h : s ∈ stepsOf before parts nodes) : before <+: s.reference := by
  induction parts generalizing before nodes with
  | nil => cases nodes <;> cases h
  | cons part parts ih =>
    cases nodes with
    | nil => cases h
    | cons x nodes =>
      rw [stepsOf, List.mem_cons] at h
      rcases h with rfl | h
      · exact List.prefix_append _ _
      · refine List.IsPrefix.trans ?_ (ih h)
        rw [List.append_assoc]
        exact List.prefix_append _ _

/-- And from its first part. -/
theorem prefix_part_of_stepsOf {before part : Bytes} {parts : List Bytes} {nodes : List FcdaNode}
    {s : FcdaStep} (hpart : openParen ∉ part) (h : s ∈ stepsOf before (part :: parts) nodes) :
    before ++ sep :: part <+: s.reference := by
  have hname : splitIndex part = (part, none) := by
    have hstep := stepOf_of_not_mem hpart
    rw [stepOf, Step.mk.injEq] at hstep
    exact Prod.ext hstep.1 hstep.2
  cases nodes with
  | nil => cases h
  | cons x nodes =>
    rw [stepsOf, hname, List.mem_cons] at h
    rcases h with rfl | h
    · exact List.prefix_rfl
    · refine List.IsPrefix.trans ?_ (prefix_of_stepsOf h)
      exact List.prefix_append _ _

theorem stripPrefix_append (a b : Bytes) : stripPrefix a (a ++ b) = some b := by
  rw [stripPrefix, if_pos (List.isPrefixOf_iff_prefix.mpr (List.prefix_append a b)),
    List.drop_left]

theorem stripPrefix_eq_some {a b rest : Bytes} (h : stripPrefix a b = some rest) : a <+: b := by
  unfold stripPrefix at h
  split at h
  · rename_i hprefix
    exact List.isPrefixOf_iff_prefix.mp hprefix
  · cases h

theorem not_prefix_joined {part : Bytes} {parts : List Bytes} (hne : part ≠ []) (hsep : sep ∉ part) :
    ¬ part <+: joined parts := by
  cases part with
  | nil => exact absurd rfl hne
  | cons b part =>
    cases parts with
    | nil =>
      intro h
      cases List.prefix_nil.mp h
    | cons next parts =>
      rw [joined, List.flatMap_cons, List.cons_append, List.cons_prefix_cons]
      rintro ⟨rfl, -⟩
      exact hsep List.mem_cons_self

/-- Putting `ix` into the text of the reference: the names stay, and where no part is empty the
text is that of the parts with the index in its place. -/
theorem place_joined {ix : Nat} (hix : ix < 2 ^ 32) {before : Bytes} {parts : List Bytes}
    {nodes : List FcdaNode} {step : FcdaStep}
    (hlength : nodes.length = (parts.filter (· ≠ [])).length)
    (hsep : ∀ part ∈ parts, sep ∉ part) (hopen : ∀ part ∈ parts, openParen ∉ part)
    (hstep : (stepsOf before (parts.filter (· ≠ [])) nodes).find? (fun s => s.count.isSome) =
      some step) :
    match stripPrefix step.reference (before ++ joined parts) with
    | some rest => ∃ parts', step.reference ++ indexText ix ++ rest = before ++ joined parts' ∧
        (∀ part ∈ parts', sep ∉ part) ∧
        parts'.map (fun part => (stepOf part).name) = parts.map (fun part => (stepOf part).name) ∧
        ([] ∉ parts → parts' = placeText ix nodes parts)
    | none => [] ∈ parts := by
  induction parts generalizing before nodes with
  | nil => cases nodes <;> cases hstep
  | cons part parts ih =>
    rw [List.forall_mem_cons] at hsep hopen
    by_cases hempty : part = []
    · -- the reference of the first array has another part here
      subst hempty
      rw [List.filter_cons_of_neg (by simp)] at hstep hlength
      cases hstrip : stripPrefix step.reference (before ++ joined ([] :: parts)) with
      | none => exact List.mem_cons_self
      | some rest =>
        exfalso
        cases hfilter : parts.filter (· ≠ []) with
        | nil =>
          rw [hfilter] at hstep
          cases nodes <;> cases hstep
        | cons first others =>
          have hmem : first ∈ parts.filter (· ≠ []) := by
            rw [hfilter]
            exact List.mem_cons_self
          rw [List.mem_filter, decide_eq_true_eq] at hmem
          rw [hfilter] at hstep
          have hprefix := (prefix_part_of_stepsOf (hopen.2 first hmem.1)
            (List.mem_of_find?_eq_some hstep)).trans (stripPrefix_eq_some hstrip)
          rw [List.prefix_append_right_inj, joined, List.flatMap_cons, List.singleton_append,
            List.cons_prefix_cons] at hprefix
          exact not_prefix_joined hmem.2 (hsep.2 first hmem.1) hprefix.2
    · rw [List.filter_cons_of_pos (by simpa using hempty)] at hstep hlength
      have hname : splitIndex part = (part, none) := by
        have h := stepOf_of_not_mem hopen.1
        rw [stepOf, Step.mk.injEq] at h
        exact Prod.ext h.1 h.2
      cases nodes with
      | nil => cases hlength
      | cons x nodes =>
        rw [stepsOf, hname] at hstep
        have hjoined : before ++ joined (part :: parts) =
            before ++ sep :: part ++ joined parts := by
          simp [joined]
        cases hcount : x.count with
        | some n =>
          rw [hcount, List.find?_cons_of_pos rfl] at hstep
          cases hstep
          rw [hjoined, stripPrefix_append]
          refine ⟨(part ++ indexText ix) :: parts, ?_, ?_, ?_, ?_⟩
          · simp [joined]
          · rw [List.forall_mem_cons]
            refine ⟨?_, hsep.2⟩
            rw [List.mem_append]
            rintro (h | h)
            · exact hsep.1 h
            · exact sep_not_mem_indexText ix h
          · rw [List.map_cons, List.map_cons, stepOf_indexText hopen.1 hix,
              stepOf_of_not_mem hopen.1]
          · intro _
            rw [placeText, hcount]
            rfl
        | none =>
          rw [hcount, List.find?_cons_of_neg (by simp)] at hstep
          have hrest := @ih (before ++ sep :: part) nodes
            (Nat.succ.inj hlength) hsep.2 hopen.2 (by simpa using hstep)
          rw [hjoined]
          cases hstrip : stripPrefix step.reference (before ++ sep :: part ++ joined parts) with
          | none =>
            rw [hstrip] at hrest
            exact List.mem_cons_of_mem _ hrest
          | some rest =>
            rw [hstrip] at hrest
            obtain ⟨parts', htext, hsep', hnames, hplace⟩ := hrest
            refine ⟨part :: parts', ?_, ?_, ?_, ?_⟩
            · rw [htext]
              simp [joined]
            · rw [List.forall_mem_cons]
              exact ⟨hsep.1, hsep'⟩
            · rw [List.map_cons, List.map_cons, hnames]
            · intro hnone
              rw [List.mem_cons, not_or] at hnone
              rw [placeText, hcount, hplace hnone.2]
              rfl

/-! ### Members of a file that names what it declares -/

/-- What a legal file promises of the names around a member: a name of a device leads back to the
device, the parts of a reference can be told from each other in it, and declarations of one place
have names, different ones, that no control block has. -/
structure WellNamed (reservation : Bool) (m : IedModel) (ldName : Bytes) (fcda : Fcda) : Prop where
  device : ∀ ld, m.logicalDeviceByInst fcda.ldInst = some ld → m.logicalDevice ld.name = some ld
  deviceName : slash ∉ m.fcdaLdName ldName fcda ∧ openParen ∉ m.fcdaLdName ldName fcda
  nodeName : sep ∉ fcda.lnName ∧ openParen ∉ fcda.lnName
  parts : ∀ part ∈ fcda.parts,
    sep ∉ part ∧ (openParen ∈ part → (stepOf part).index.isSome = true)
  node : ∀ ld, m.fcdaDevice ldName fcda = some ld → ∀ ln ∈ ld.nodes, ln.name = fcda.lnName →
    ln.toLogicalNode.Distinct ∧ Apart reservation ln fcda.fc ∧
      ∀ b ∈ blocksUnder reservation ln fcda.fc, b.name ≠ []

/-- The path of a member, the empty parts of it among the others. -/
def Fcda.path (fcda : Fcda) : List Step := fcda.parts.map stepOf

/-- The path that the validator follows. -/
def Fcda.walked (fcda : Fcda) : List Step := (fcda.parts.filter (· ≠ [])).map stepOf

def Fcda.ixNat (fcda : Fcda) : Option Nat := fcda.ix.map UInt32.toNat

/-- What a member must be like for the validator and the server to agree about it. A declared
member has no empty part, is published under its functional constraint at each component, and has
an index at each array that it goes on below of. A member that is not declared is not one that an
`ix` on a path without an array is the only fault of, no component that the standard gives a
`PhyComAddr`, and nothing in a control block. -/
structure Fitting (reservation : Bool) (ln : NodeModel) (fcda : Fcda) : Prop where
  declared : declared ln.toLogicalNode fcda.ixNat fcda.walked = true → [] ∉ fcda.parts ∧
    publishes ln.toLogicalNode fcda.fc none (placed ln.toLogicalNode fcda.ixNat fcda.path) = true
  index : idle ln.toLogicalNode fcda.ixNat fcda.path = true →
    declares ln.toLogicalNode none fcda.path = true →
      publishes ln.toLogicalNode fcda.fc none fcda.path = false
  address : addresses ln.toLogicalNode fcda.fc none fcda.path = false
  block : namesBlock reservation ln fcda.fc fcda.path = false

theorem splitOn_ne_nil (b : UInt8) (bs : Bytes) : bs.splitOn b ≠ [] := List.splitOnP_ne_nil _ _

theorem Fcda.parts_ne_nil (fcda : Fcda) : fcda.parts ≠ [] := by
  intro h
  exact splitOn_ne_nil dot fcda.doName (List.append_eq_nil_iff.mp h).1

theorem place_of_none {ix : Nat} {nodes : List FcdaNode} {path : List Step}
    (h : nodes.any (fun x => x.count.isSome) = false) : place ix nodes path = path := by
  induction nodes generalizing path with
  | nil => cases path <;> rfl
  | cons x nodes ih =>
    rw [List.any_cons, Bool.or_eq_false_iff] at h
    cases path with
    | nil => rfl
    | cons s path =>
      rw [place, h.1, if_neg Bool.false_ne_true, ih h.2]

theorem find?_stepsOf_eq_none {before : Bytes} {parts : List Bytes} {nodes : List FcdaNode}
    (hlength : nodes.length = parts.length)
    (h : (stepsOf before parts nodes).find? (fun s => s.count.isSome) = none) :
    nodes.any (fun x => x.count.isSome) = false := by
  induction parts generalizing before nodes with
  | nil =>
    cases nodes with
    | nil => rfl
    | cons x nodes => cases hlength
  | cons part parts ih =>
    cases nodes with
    | nil => cases hlength
    | cons x nodes =>
      rw [stepsOf, List.find?_eq_none, List.forall_mem_cons] at h
      rw [List.any_cons, ih (Nat.succ.inj hlength) (List.find?_eq_none.mpr h.2), Bool.or_false]
      simpa using h.1

section Member

variable {reservation : Bool} {m : IedModel} {ldName : Bytes} {fcda : Fcda}

/-- The part of a reference before its first component. -/
def Fcda.start (fcda : Fcda) (ld : Bytes) : Bytes :=
  referenceOf ld (fcda.lnName ++ sep :: fcda.fc.asStr)

theorem mmsReference_eq (ld : Bytes) : fcda.mmsReference ld = fcda.start ld ++ joined fcda.parts := by
  simp [Fcda.mmsReference, Fcda.start, referenceOf, joined]

theorem openParen_not_mem_asStr (fc : Fc) : openParen ∉ fc.asStr := by
  cases fc <;> decide

theorem indexed_iff (h : WellNamed reservation m ldName fcda) :
    openParen ∈ fcda.mmsReference (m.fcdaLdName ldName fcda) ↔
      ∃ part ∈ fcda.parts, openParen ∈ part := by
  have hslash : openParen ≠ slash := by decide
  have hsep : openParen ≠ sep := by decide
  simp only [mmsReference_eq, Fcda.start, referenceOf, joined, List.mem_append, List.mem_cons,
    List.mem_flatMap, h.deviceName.2, h.nodeName.2, openParen_not_mem_asStr, hslash, hsep, false_or,
    or_false]

/-- `parts'` are the components of the reference of a member in a node that exists: their names are
those of the parts, and where no part is empty they are the path with its `ix`. -/
structure Refers (m : IedModel) (ldName : Bytes) (fcda : Fcda) (ln : LogicalNode)
    (parts' : List Bytes) : Prop where
  text : m.fcdaReference ldName fcda = fcda.start (m.fcdaLdName ldName fcda) ++ joined parts'
  sep : ∀ part ∈ parts', sep ∉ part
  names : (parts'.map stepOf).map Step.name = fcda.path.map Step.name
  placed : [] ∉ fcda.parts → parts'.map stepOf = placed ln fcda.ixNat fcda.path
  unplaced : chain ln none fcda.walked = none → parts' = fcda.parts

theorem walked_eq (h : [] ∉ fcda.parts) : fcda.walked = fcda.path := by
  rw [Fcda.walked, Fcda.path, List.filter_eq_self.mpr]
  intro part hpart
  rw [decide_eq_true_eq]
  rintro rfl
  exact h hpart

theorem exists_refers (h : WellNamed reservation m ldName fcda) {ld : DeviceModel}
    {ln : NodeModel} (hld : m.fcdaDevice ldName fcda = some ld)
    (hname : ld.name = m.fcdaLdName ldName fcda)
    (hln : ld.nodes.find? (fun ln => ln.name = fcda.lnName) = some ln) :
    ∃ parts', Refers m ldName fcda ln.toLogicalNode parts' := by
  have hsep : ∀ part ∈ fcda.parts, Server.sep ∉ part := fun part hpart => (h.parts part hpart).1
  have hplain : m.fcdaReference ldName fcda = fcda.mmsReference (m.fcdaLdName ldName fcda) →
      ([] ∉ fcda.parts → placed ln.toLogicalNode fcda.ixNat fcda.path = fcda.path) →
      Refers m ldName fcda ln.toLogicalNode fcda.parts :=
    fun heq hplaced => ⟨heq.trans (mmsReference_eq _), hsep, rfl,
      fun hempty => (hplaced hempty).symm, fun _ => rfl⟩
  cases hix : fcda.ix with
  | none =>
    refine ⟨fcda.parts, hplain ?_ ?_⟩
    · rw [IedModel.fcdaReference, hix]
    · intro _
      rw [Fcda.ixNat, hix]
      rfl
  | some ix =>
    have hixNat : fcda.ixNat = some ix.toNat := by rw [Fcda.ixNat, hix]; rfl
    by_cases hparen : openParen ∈ fcda.mmsReference (m.fcdaLdName ldName fcda)
    · refine ⟨fcda.parts, hplain ?_ ?_⟩
      · rw [IedModel.fcdaReference, hix]
        exact if_pos hparen
      · intro _
        obtain ⟨part, hpart, hin⟩ := (indexed_iff h).mp hparen
        have hindexed : indexed fcda.path = true := by
          rw [indexed, List.any_eq_true]
          exact ⟨stepOf part, List.mem_map_of_mem hpart, (h.parts part hpart).2 hin⟩
        rw [hixNat, placed, if_pos hindexed]
    · have hopen : ∀ part ∈ fcda.parts, openParen ∉ part := by
        intro part hpart hin
        exact hparen ((indexed_iff h).mpr ⟨part, hpart, hin⟩)
      have hindexed : indexed fcda.path = false := by
        rw [indexed, List.any_eq_false]
        intro s hs
        obtain ⟨part, hpart, rfl⟩ := List.mem_map.mp hs
        rw [stepOf_of_not_mem (hopen part hpart)]
        exact Bool.false_ne_true
      have hreference : m.fcdaReference ldName fcda =
          (m.placeIndex ldName fcda (fcda.mmsReference (m.fcdaLdName ldName fcda))
            ix.toNat).getD (fcda.mmsReference (m.fcdaLdName ldName fcda)) := by
        rw [IedModel.fcdaReference, hix]
        exact if_neg hparen
      have hnode : ln.name = fcda.lnName := by simpa using List.find?_some hln
      have hwalk : (m.fcdaWalk ldName fcda).toOption =
          (chain ln.toLogicalNode none fcda.walked).map
            (stepsOf (fcda.start (m.fcdaLdName ldName fcda)) (fcda.parts.filter (· ≠ []))) := by
        rw [IedModel.fcdaWalk, hld]
        dsimp only
        rw [hln]
        dsimp only
        rw [walkFrom_toOption, hname, hnode]
        rfl
      cases hchain : chain ln.toLogicalNode none fcda.walked with
      | none =>
        refine ⟨fcda.parts, hplain ?_ ?_⟩
        · rw [hreference, IedModel.placeIndex, hwalk, hchain]
          rfl
        · intro hempty
          rw [hixNat, placed, hindexed, if_neg Bool.false_ne_true, ← walked_eq hempty, hchain]
      | some nodes =>
        have hlength : nodes.length = (fcda.parts.filter (· ≠ [])).length := by
          rw [length_of_chain hchain, Fcda.walked, List.length_map]
        cases hfind : (stepsOf (fcda.start (m.fcdaLdName ldName fcda))
            (fcda.parts.filter (· ≠ [])) nodes).find? (fun s => s.count.isSome) with
        | none =>
          refine ⟨fcda.parts, hplain ?_ ?_⟩
          · rw [hreference, IedModel.placeIndex, hwalk, hchain, Option.map_some]
            change (Option.bind (some _) fun walk => _).getD _ = _
            rw [Option.bind_some]
            change (Option.bind (List.find? _ _) fun step => _).getD _ = _
            rw [hfind]
            rfl
          · intro hempty
            rw [hixNat, placed, hindexed, if_neg Bool.false_ne_true, ← walked_eq hempty,
              hchain]
            exact place_of_none (find?_stepsOf_eq_none hlength hfind)
        | some step =>
          have hplace := place_joined ix.toNat_lt hlength hsep hopen hfind
          have hvalue : m.fcdaReference ldName fcda =
              ((stripPrefix step.reference
                (fcda.start (m.fcdaLdName ldName fcda) ++ joined fcda.parts)).map
                fun rest => step.reference ++ indexText ix.toNat ++ rest).getD
                (fcda.mmsReference (m.fcdaLdName ldName fcda)) := by
            rw [hreference, IedModel.placeIndex, hwalk, hchain, Option.map_some]
            change (Option.bind (some _) fun walk => _).getD _ = _
            rw [Option.bind_some]
            change (Option.bind (List.find? _ _) fun step => _).getD _ = _
            rw [hfind, Option.bind_some, mmsReference_eq]
            cases stripPrefix step.reference
              (fcda.start (m.fcdaLdName ldName fcda) ++ joined fcda.parts) <;> rfl
          cases hstrip : stripPrefix step.reference
              (fcda.start (m.fcdaLdName ldName fcda) ++ joined fcda.parts) with
          | none =>
            rw [hstrip] at hplace hvalue
            refine ⟨fcda.parts, hplain hvalue ?_⟩
            intro hempty
            exact absurd hplace hempty
          | some rest =>
            rw [hstrip] at hplace hvalue
            obtain ⟨parts', htext, hsep', hnames, hparts⟩ := hplace
            refine ⟨parts', ⟨hvalue.trans htext, hsep', ?_, ?_, ?_⟩⟩
            · rw [Fcda.path, List.map_map, List.map_map]
              exact hnames
            · intro hempty
              rw [hparts hempty, stepOf_placeText ix.toNat_lt nodes hopen, hixNat, placed,
                hindexed, if_neg Bool.false_ne_true, ← walked_eq hempty, hchain,
                walked_eq hempty]
              rfl
            · intro hnone
              rw [hchain] at hnone
              cases hnone

/-! ### What the tree resolves -/

/-- The tree a file is served by resolves the reference that the model gives to the member. -/
def Served (reservation : Bool) (t : Decimals) (m : IedModel) (ldName : Bytes) (fcda : Fcda) : Bool :=
  ((ValueStore.build reservation m t).nodeAt (m.fcdaReference ldName fcda)).isSome

theorem nodeAt_reference {s : ValueStore} {ld item : Bytes} (hld : slash ∉ ld) :
    s.nodeAt (referenceOf ld item) = (s.domain ld).bind fun d => d.resolve item := by
  rw [ValueStore.nodeAt, referenceOf, ObjectReference.splitOnce_append hld]

/-- The devices of the tree are those of the model, by their names on the wire. -/
theorem domain_build (reservation : Bool) (m : IedModel) (t : Decimals) (name : Bytes) :
    (ValueStore.build reservation m t).domain name =
      (m.logicalDevice name).map (domainTree reservation) :=
  List.find?_map

theorem node_domainTree (reservation : Bool) (ld : DeviceModel) (name : Bytes) :
    (domainTree reservation ld).node name =
      (ld.nodes.find? fun ln => ln.name = name).map (nodeVariable reservation) :=
  List.find?_map

theorem item_eq (fcda : Fcda) (ld : Bytes) (parts : List Bytes) : fcda.start ld ++ joined parts =
      referenceOf ld (fcda.lnName ++ (fcda.fc.asStr :: parts).flatMap fun part => sep :: part) := by
  simp [Fcda.start, referenceOf, joined]

/-- What the tree is asked, by the components of a reference. -/
theorem nodeAt_joined (h : WellNamed reservation m ldName fcda) (t : Decimals) {parts : List Bytes}
    (hsep : ∀ part ∈ parts, sep ∉ part) : (ValueStore.build reservation m t).nodeAt
        (fcda.start (m.fcdaLdName ldName fcda) ++ joined parts) =
      (m.logicalDevice (m.fcdaLdName ldName fcda)).bind fun ld =>
        (ld.nodes.find? fun ln => ln.name = fcda.lnName).bind fun ln =>
          (nodeVariable reservation ln).resolve (⟨fcda.fc.asStr, none⟩ :: parts.map stepOf) := by
  have hall : ∀ part ∈ fcda.fc.asStr :: parts, sep ∉ part := by
    rw [List.forall_mem_cons]
    exact ⟨ObjectReference.sep_not_mem_asStr _, hsep⟩
  rw [item_eq, nodeAt_reference h.deviceName.1, domain_build, Option.bind_map]
  congr 1
  funext ld
  change (domainTree reservation ld).resolve _ = _
  rw [Domain.resolve, ObjectReference.splitOn_joined h.nodeName.1 hall]
  dsimp only
  rw [node_domainTree, Option.bind_map, List.map_cons,
    stepOf_of_not_mem (openParen_not_mem_asStr fcda.fc)]
  rfl

/-- A reference whose device or node does not exist is left as it is, and resolves to nothing. -/
theorem not_served_of_missing (h : WellNamed reservation m ldName fcda) (t : Decimals)
    (hmissing : (m.fcdaDevice ldName fcda).bind
      (fun ld => ld.nodes.find? fun ln => ln.name = fcda.lnName) = none) :
    Served reservation t m ldName fcda = false := by
  have hwalk : (m.fcdaWalk ldName fcda).toOption = none := by
    rw [IedModel.fcdaWalk]
    cases hld : m.fcdaDevice ldName fcda with
    | none => rfl
    | some ld =>
      rw [hld, Option.bind_some] at hmissing
      dsimp only
      rw [hmissing]
      rfl
  have hreference : m.fcdaReference ldName fcda = fcda.mmsReference (m.fcdaLdName ldName fcda) := by
    rw [IedModel.fcdaReference]
    cases fcda.ix with
    | none => rfl
    | some ix =>
      dsimp only
      split
      · rfl
      · rw [IedModel.placeIndex, hwalk]
        rfl
  have hdevice : ∀ ld, m.logicalDevice (m.fcdaLdName ldName fcda) = some ld →
      m.fcdaDevice ldName fcda = some ld := by
    intro ld hld
    rw [IedModel.fcdaDevice]
    rw [IedModel.fcdaLdName] at hld
    cases hinst : m.logicalDeviceByInst fcda.ldInst with
    | none =>
      rw [hinst] at hld
      exact hld
    | some ld' =>
      rw [hinst] at hld
      have hback := h.device ld' hinst
      exact hback.symm.trans hld
  rw [Served, hreference, mmsReference_eq, nodeAt_joined h t fun part hpart => (h.parts part hpart).1]
  cases hld : m.logicalDevice (m.fcdaLdName ldName fcda) with
  | none => rfl
  | some ld =>
    rw [hdevice ld hld, Option.bind_some] at hmissing
    rw [Option.bind_some, hmissing]
    rfl

/-! ### Paths that do not name declarations -/

theorem chain_of_addresses {ln : LogicalNode} {fc : Fc} {here : Option FcdaNode} {path : List Step}
    (h : addresses ln fc here path = true) : chain ln here path = none := by
  induction path generalizing here with
  | nil => cases h
  | cons s path ih =>
    rw [addresses] at h
    rw [chain]
    cases hnext : nextNode ln here s.name with
    | none => rfl
    | some x =>
      rw [hnext] at h
      simp only [Bool.and_eq_true] at h
      rw [Option.bind_some, ih h.2]
      rfl

/-- What names a control block does not name an object. -/
theorem namesBlock_of_object {ln : NodeModel} {fc : Fc} (hapart : Apart reservation ln fc) {s : Step}
    {path : List Step} {x : FcdaNode} (h : nextNode ln.toLogicalNode none s.name = some x) :
    namesBlock reservation ln fc (s :: path) = false := by
  rw [nextNode_eq] at h
  obtain ⟨o, ho, -⟩ := Option.map_eq_some_iff.mp h
  obtain ⟨hmem, hname⟩ := mem_of_findKey ho
  have hblock : findKey Variable.name s.name (blocksUnder reservation ln fc) = none := by
    rw [findKey_eq_none]
    intro b hb hbname
    exact hapart o hmem b hb (hbname.trans hname.symm)
  rw [namesBlock, hblock]

/-- A path with a component without a name is not declared. -/
theorem chain_of_empty {ln : LogicalNode} (hln : ln.Distinct) {here : Option FcdaNode}
    (hhere : ∀ y, here = some y → y.Legal) {path : List Step} (h : [] ∈ path.map Step.name) :
    chain ln here path = none := by
  induction path generalizing here with
  | nil => cases h
  | cons s path ih =>
    rw [chain]
    cases hnext : nextNode ln here s.name with
    | none => rfl
    | some x =>
      obtain ⟨hx, hname⟩ := nextNode_legal hln hhere hnext
      rw [List.map_cons, List.mem_cons] at h
      rcases h with h | h
      · exact absurd h.symm hname
      · rw [Option.bind_some, ih (fun y hy => Option.some.inj hy ▸ hx) h]
        rfl

theorem declares_of_chain {ln : LogicalNode} {here : Option FcdaNode} {path : List Step}
    (h : chain ln here path = none) : declares ln here path = false := by
  rw [declares_eq, h]
  rfl

/-- Nor does the standard give it a `PhyComAddr`. -/
theorem addresses_of_empty {ln : LogicalNode} (hln : ln.Distinct) {fc : Fc} {here : Option FcdaNode}
    (hhere : ∀ y, here = some y → y.Legal) {path : List Step} (h : [] ∈ path.map Step.name) :
    addresses ln fc here path = false := by
  induction path generalizing here with
  | nil => cases h
  | cons s path ih =>
    rw [addresses]
    rw [List.map_cons, List.mem_cons] at h
    cases hnext : nextNode ln here s.name with
    | some x =>
      obtain ⟨hx, hname⟩ := nextNode_legal hln hhere hnext
      dsimp only
      rcases h with h | h
      · exact absurd h.symm hname
      · rw [ih (fun y hy => Option.some.inj hy ▸ hx) h, Bool.and_false]
    | none =>
      dsimp only
      rcases h with h | h
      · rw [← h]
        have hnone : (phyComAddr []).child [] = none := rfl
        rw [hnone]
        simp
      · cases path with
        | nil => cases h
        | cons s path => simp

theorem chain_placed (ln : LogicalNode) (ix : Option Nat) (path : List Step) :
    chain ln none (placed ln ix path) = chain ln none path := by
  unfold placed
  split
  · rfl
  · split
    · rfl
    · split
      · exact chain_place ln none _ _ path
      · rfl

theorem placed_of_chain {ln : LogicalNode} {ix : Option Nat} {path : List Step}
    (h : chain ln none path = none) : placed ln ix path = path := by
  unfold placed
  split
  · rfl
  · rw [h, ite_self]

theorem placed_of_idle {ln : LogicalNode} {ix : Option Nat} {path : List Step}
    (h : idle ln ix path = true) : placed ln ix path = path := by
  cases ix with
  | none => cases h
  | some ix =>
    rw [idle, Bool.and_eq_true, Bool.and_eq_true, Bool.not_eq_true', Bool.not_eq_true'] at h
    rw [placed, h.1.2, if_neg Bool.false_ne_true]
    cases hchain : chain ln none path with
    | none => rfl
    | some nodes =>
      rw [hchain] at h
      exact place_of_none h.2

/-! ### Agreement -/

/-- What the tree has of a path under the constraint of a member. -/
def resolved (reservation : Bool) (ln : NodeModel) (fc : Fc) (path : List Step) : Bool :=
  declares ln.toLogicalNode none path && publishes ln.toLogicalNode fc none path ||
    addresses ln.toLogicalNode fc none path || namesBlock reservation ln fc path

/-- The first part of a declared path is no name of a control block. -/
theorem namesBlock_of_chain {ln : NodeModel} {fc : Fc} (hapart : Apart reservation ln fc)
    (hblocks : ∀ b ∈ blocksUnder reservation ln fc, b.name ≠ []) {parts : List Bytes}
    {nodes : List FcdaNode}
    (h : chain ln.toLogicalNode none ((parts.filter (· ≠ [])).map stepOf) = some nodes)
    {path : List Step} (hpath : path.map Step.name = (parts.map stepOf).map Step.name) :
    namesBlock reservation ln fc path = false := by
  cases parts with
  | nil =>
    cases List.map_eq_nil_iff.mp hpath
    rfl
  | cons part parts =>
    obtain ⟨s, path, rfl⟩ : ∃ s rest, path = s :: rest := by
      cases path with
      | nil => cases hpath
      | cons s rest => exact ⟨s, rest, rfl⟩
    rw [List.map_cons, List.map_cons, List.map_cons, List.cons.injEq] at hpath
    by_cases hempty : part = []
    · subst hempty
      have hnone : findKey Variable.name s.name (blocksUnder reservation ln fc) = none := by
        rw [findKey_eq_none]
        intro b hb hname
        exact hblocks b hb (hname.trans hpath.1)
      rw [namesBlock, hnone]
    · rw [List.filter_cons_of_pos (by simpa using hempty), List.map_cons, chain,
        Option.bind_eq_some_iff] at h
      obtain ⟨x, hx, -⟩ := h
      rw [← hpath.1] at hx
      exact namesBlock_of_object hapart hx

/-- The two answers about a member in a node that exists. -/
theorem answers_iff {ln : NodeModel} (hln : ln.toLogicalNode.Distinct)
    (hapart : Apart reservation ln fcda.fc)
    (hblocks : ∀ b ∈ blocksUnder reservation ln fcda.fc, b.name ≠ []) {parts' : List Bytes}
    (hrefers : Refers m ldName fcda ln.toLogicalNode parts') :
    declared ln.toLogicalNode fcda.ixNat fcda.walked =
        resolved reservation ln fcda.fc (parts'.map stepOf) ↔ Fitting reservation ln fcda := by
  have hnil : ∀ y, (none : Option FcdaNode) = some y → y.Legal := by
    intro y hy
    cases hy
  cases hchain : chain ln.toLogicalNode none fcda.walked with
  | none =>
    -- nothing is declared, and the reference carries the parts as they are
    have hundeclared : declared ln.toLogicalNode fcda.ixNat fcda.walked = false := by
      rw [declared, placed_of_chain hchain, declares_of_chain hchain]
      rfl
    have hpath : declares ln.toLogicalNode none fcda.path = false := by
      apply declares_of_chain
      by_cases hempty : [] ∈ fcda.parts
      · apply chain_of_empty hln hnil
        rw [Fcda.path, List.map_map]
        exact List.mem_map.mpr ⟨[], hempty, rfl⟩
      · rw [← walked_eq hempty]
        exact hchain
    rw [hundeclared, hrefers.unplaced hchain, resolved]
    change false = (declares ln.toLogicalNode none fcda.path && _ ||
      addresses ln.toLogicalNode fcda.fc none fcda.path ||
      namesBlock reservation ln fcda.fc fcda.path) ↔ _
    rw [hpath, Bool.false_and, Bool.false_or]
    constructor
    · intro h
      rw [eq_comm, Bool.or_eq_false_iff] at h
      refine ⟨?_, ?_, h.1, h.2⟩
      · intro hdeclared
        rw [hundeclared] at hdeclared
        cases hdeclared
      · intro _ hdeclares
        rw [hpath] at hdeclares
        cases hdeclares
    · intro h
      rw [h.address, h.block]
      rfl
  | some nodes =>
    have hblock : ∀ path : List Step, path.map Step.name = fcda.path.map Step.name →
        namesBlock reservation ln fcda.fc path = false :=
      fun path hpath => namesBlock_of_chain hapart hblocks hchain hpath
    rw [resolved, hblock _ hrefers.names, Bool.or_false]
    by_cases hempty : [] ∈ fcda.parts
    · -- the server looks for a part without a name
      have hpath : [] ∈ fcda.path.map Step.name := by
        rw [Fcda.path, List.map_map]
        exact List.mem_map.mpr ⟨[], hempty, rfl⟩
      have hparts : [] ∈ (parts'.map stepOf).map Step.name := by
        rw [hrefers.names]
        exact hpath
      rw [declares_of_chain (chain_of_empty hln hnil hparts), Bool.false_and, Bool.false_or,
        addresses_of_empty hln hnil hparts]
      constructor
      · intro hundeclared
        refine ⟨?_, ?_, addresses_of_empty hln hnil hpath, hblock _ rfl⟩
        · intro hdeclared
          rw [hundeclared] at hdeclared
          cases hdeclared
        · intro _ hdeclares
          rw [declares_of_chain (chain_of_empty hln hnil hpath)] at hdeclares
          cases hdeclares
      · intro h
        by_contra hdeclared
        rw [Bool.not_eq_false] at hdeclared
        exact (h.declared hdeclared).1 hempty
    · have hwalked : fcda.walked = fcda.path := walked_eq hempty
      rw [hwalked] at hchain ⊢
      have haddress : addresses ln.toLogicalNode fcda.fc none fcda.path = false := by
        by_contra h
        rw [Bool.not_eq_false] at h
        rw [chain_of_addresses h] at hchain
        cases hchain
      have haddress' : addresses ln.toLogicalNode fcda.fc none
          (placed ln.toLogicalNode fcda.ixNat fcda.path) = false := by
        by_contra h
        rw [Bool.not_eq_false] at h
        have hnone := chain_of_addresses h
        rw [chain_placed, hchain] at hnone
        cases hnone
      rw [hrefers.placed hempty, haddress', Bool.or_false, declared]
      cases hidle : idle ln.toLogicalNode fcda.ixNat fcda.path with
      | true =>
        rw [placed_of_idle hidle, Bool.not_true, Bool.and_false, eq_comm, Bool.and_eq_false_iff]
        constructor
        · intro h
          refine ⟨?_, ?_, haddress, hblock _ rfl⟩
          · intro hdeclared
            rw [hwalked, declared, hidle, Bool.not_true, Bool.and_false] at hdeclared
            cases hdeclared
          · intro _ hdeclares
            rcases h with h | h
            · rw [hdeclares] at h
              cases h
            · exact h
        · intro h
          cases hdeclares : declares ln.toLogicalNode none fcda.path with
          | false => exact Or.inl rfl
          | true => exact Or.inr (h.index hidle hdeclares)
      | false =>
        rw [Bool.not_false, Bool.and_true, eq_comm, Bool.and_eq_left_iff_imp]
        constructor
        · intro h
          refine ⟨?_, ?_, haddress, hblock _ rfl⟩
          · intro hdeclared
            rw [hwalked, declared, hidle, Bool.not_false, Bool.and_true] at hdeclared
            exact ⟨hempty, h hdeclared⟩
          · intro hidle'
            rw [hidle] at hidle'
            cases hidle'
        · intro h hdeclares
          refine (h.declared ?_).2
          rw [hwalked, declared, hidle, Bool.not_false, Bool.and_true]
          exact hdeclares

/-- In a file that names what it declares the validator and the server agree on whether a member
exists exactly when the member is fitting. -/
theorem fcdaResolves_served_iff (reservation : Bool) (m : IedModel) (t : Decimals) (ldName : Bytes)
    (fcda : Fcda) (h : WellNamed reservation m ldName fcda) :
    (m.fcdaResolves ldName fcda).isOk = Served reservation t m ldName fcda ↔
      ∀ ld, m.fcdaDevice ldName fcda = some ld → ∀ ln,
        ld.nodes.find? (fun ln => ln.name = fcda.lnName) = some ln → Fitting reservation ln fcda := by
  rw [fcdaResolves_isOk]
  cases hfound : (m.fcdaDevice ldName fcda).bind
      (fun ld => ld.nodes.find? fun ln => ln.name = fcda.lnName) with
  | none =>
    rw [not_served_of_missing h t hfound]
    refine iff_of_true rfl ?_
    intro ld hld ln hln
    rw [hld, Option.bind_some, hln] at hfound
    cases hfound
  | some ln =>
    obtain ⟨ld, hld, hln⟩ := Option.bind_eq_some_iff.mp hfound
    have hdevice : m.logicalDevice (m.fcdaLdName ldName fcda) = some ld := by
      rw [IedModel.fcdaDevice] at hld
      rw [IedModel.fcdaLdName]
      cases hinst : m.logicalDeviceByInst fcda.ldInst with
      | none =>
        rw [hinst] at hld
        exact hld
      | some ld' =>
        rw [hinst] at hld
        cases hld
        exact h.device ld hinst
    have hname : ld.name = m.fcdaLdName ldName fcda := by
      simpa [IedModel.logicalDevice] using List.find?_some hdevice
    obtain ⟨hdistinct, hapart, hblocks⟩ := h.node ld hld ln (List.mem_of_find?_eq_some hln)
      (by simpa using List.find?_some hln)
    obtain ⟨parts', hrefers⟩ := exists_refers h hld hname hln
    have hserved : Served reservation t m ldName fcda =
        resolved reservation ln fcda.fc (parts'.map stepOf) := by
      rw [Served, hrefers.text, nodeAt_joined h t hrefers.sep, hdevice, Option.bind_some, hln,
        Option.bind_some]
      cases hparts : parts'.map stepOf with
      | nil =>
        have hnames := hrefers.names
        rw [hparts, eq_comm, List.map_nil, List.map_eq_nil_iff, Fcda.path,
          List.map_eq_nil_iff] at hnames
        exact absurd hnames fcda.parts_ne_nil
      | cons s path => exact resolve_node hdistinct hapart s path
    rw [hserved]
    constructor
    · intro hagree ld' hld' ln' hln'
      rw [hld] at hld'
      cases hld'
      rw [hln] at hln'
      cases hln'
      exact (answers_iff hdistinct hapart hblocks hrefers).mp hagree
    · intro hfitting
      exact (answers_iff hdistinct hapart hblocks hrefers).mpr (hfitting ld hld ln hln)

end Member

/-- A node with an array of measured harmonics. -/
def measuring : NodeModel :=
  .plain ⟨ascii "M", [
    ⟨ascii "HA", [⟨ascii "a", .mx, .struct, [⟨ascii "f", .mx, .float32, [], [], none⟩], [],
      some 3⟩], [], none⟩]⟩

def measuringModel : IedModel :=
  ⟨[⟨ascii "0", ascii "D", [measuring]⟩], [], fun _ => none, fun _ => none⟩

/-- A member of the node. -/
def member (doName : String) (daName : Option String) (fc : Fc) (ix : Option UInt32) : Fcda :=
  ⟨ascii "0", [], ascii "M", [], ascii doName, daName.map ascii, fc, ix⟩

theorem measuring_distinct : measuring.toLogicalNode.Distinct := by
  refine ⟨by decide, by decide, ?_⟩
  have hnamed : ∀ (name : Bytes) (fc : Fc) (btype : BType) (count : Option Nat),
      (⟨name, fc, btype, [], [], count⟩ : DataAttribute).Named :=
    fun name fc btype count => .intro _ nofun nofun
  intro o ho
  cases List.mem_singleton.mp ho
  refine .intro _ (by decide) (by decide) ?_ nofun
  simp only [List.mem_singleton, forall_eq]
  refine .intro _ (by decide) ?_
  simp only [List.mem_singleton, forall_eq]
  exact hnamed _ _ _ _

theorem measuring_wellNamed {fcda : Fcda} (hinst : fcda.ldInst = ascii "0")
    (hname : sep ∉ fcda.lnName ∧ openParen ∉ fcda.lnName) (hparts : ∀ part ∈ fcda.parts,
      sep ∉ part ∧ (openParen ∈ part → (stepOf part).index.isSome = true)) :
    WellNamed true measuringModel (ascii "D") fcda := by
  have hblocks : ∀ fc, blocksUnder true measuring fc = [] := fun fc => rfl
  have hldName : measuringModel.fcdaLdName (ascii "D") fcda = ascii "D" := by
    rw [IedModel.fcdaLdName, hinst]
    decide
  refine ⟨?_, ?_, hname, hparts, ?_⟩
  · intro ld hld
    rw [hinst] at hld
    cases hld
    rfl
  · rw [hldName]
    decide
  · intro ld hld ln hln _
    rw [IedModel.fcdaDevice, hinst] at hld
    cases hld
    rw [List.mem_singleton.mp hln, Apart, hblocks]
    exact ⟨measuring_distinct, fun o _ => nofun, nofun⟩

/-- One element of the array, which both find. -/
theorem fcdaResolves_served_element :
    (measuringModel.fcdaResolves (ascii "D") (member "HA" (some "a.f") .mx (some 2))).isOk =
        Served true ⟨fun _ => none, fun _ => none⟩ measuringModel (ascii "D")
          (member "HA" (some "a.f") .mx (some 2)) ↔
      ∀ ld, measuringModel.fcdaDevice (ascii "D") (member "HA" (some "a.f") .mx (some 2)) = some ld →
        ∀ ln, ld.nodes.find?
          (fun ln => ln.name = (member "HA" (some "a.f") .mx (some 2)).lnName) = some ln →
          Fitting true ln (member "HA" (some "a.f") .mx (some 2)) :=
  fcdaResolves_served_iff true measuringModel ⟨fun _ => none, fun _ => none⟩ (ascii "D")
    (member "HA" (some "a.f") .mx (some 2))
    (measuring_wellNamed rfl (by decide +kernel) (by decide +kernel))

/-- A member under a functional constraint that its data object has nothing under passes the check,
and the server has no such variable. -/
theorem constraint_ignored :
    ¬ ∀ (reservation : Bool) (m : IedModel) (t : Decimals), ∀ ld ∈ m.logicalDevices,
      ∀ fcda : Fcda, (m.fcdaResolves ld.name fcda).isOk = Served reservation t m ld.name fcda := by
  intro h
  have hboth : (measuringModel.fcdaResolves (ascii "D") (member "HA" none .st none)).isOk = true ∧
      Served true ⟨fun _ => none, fun _ => none⟩ measuringModel (ascii "D")
        (member "HA" none .st none) = false := by decide +kernel
  have heq := h true measuringModel ⟨fun _ => none, fun _ => none⟩ _ List.mem_cons_self
    (member "HA" none .st none)
  rw [hboth.1] at heq
  rw [hboth.2] at heq
  cases heq

-- an array without its index is declared and not served, an `ix` without an array the other way
example : (measuringModel.fcdaResolves (ascii "D") (member "HA" (some "a.f") .mx none)).isOk = true ∧
    Served true ⟨fun _ => none, fun _ => none⟩ measuringModel (ascii "D")
      (member "HA" (some "a.f") .mx none) = false := by decide +kernel

example : (measuringModel.fcdaResolves (ascii "D") (member "HA" none .mx (some 1))).isOk = false ∧
    Served true ⟨fun _ => none, fun _ => none⟩ measuringModel (ascii "D")
      (member "HA" none .mx (some 1)) = true := by decide +kernel

end Iec61850.Server
