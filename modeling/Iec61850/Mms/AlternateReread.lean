import Iec61850.Mms.Reread

/-!
# Alternate access, level by level

`Path::parse` and `Path::write` of `proto/mms/alternate.rs`. Writer and reader agree on one
level of the nesting, and a whole path follows by induction on the levels the reader still
allows: a path that fits the limit is read back, a longer one is refused at the limit. The
second half is about any element, written here or not: what the reader returns has one step
for each level, and a level with two selections is refused wherever it sits.
-/

namespace Iec61850.Mms.Alternate

open Theory Ber

/-! ### One level -/

/-- One level of `Path::parse_into`: its selection, and the next level if there is one. -/
def level (t : Tlv) : Except Error (Selector × Option Tlv) := do
  let (first, c) ← t.children.nextRequired
  if ¬ c.isEmpty then .error (.decode .badValue first.offset)
  else if first.tag = Tag.contextConstructed 0 then do
    let (selection, inner) ← first.children.nextRequired
    let here ← selector selection ((selection.tag.number + 1) % 2 ^ 32)
    let (rest, inner) ← inner.nextTag tagSequence
    inner.finish
    .ok (here, some rest)
  else do
    let last ← selector first first.tag.number
    .ok (last, none)

/-- The steps below a level. -/
def below (left : Nat) : Selector × Option Tlv → Except Error (List Selector)
  | (here, none) => .ok [here]
  | (here, some rest) => do
      let steps ← parseInto left rest
      .ok (here :: steps)

theorem parseInto_succ (left : Nat) (t : Tlv) :
    parseInto (left + 1) t = level t >>= below left := by
  unfold parseInto level
  rw [bind_assoc]
  apply bind_congr
  rintro ⟨first, c⟩
  dsimp only
  split
  · rfl
  · split
    · simp only [bind_assoc]
      rfl
    · simp only [bind_assoc]
      rfl

/-! ### What is written -/

/-- The numbers of a selector are `u32`. -/
def InRange : Selector → Prop
  | .index i => i ≤ u32Max
  | .indexRange low count => low ≤ u32Max ∧ count ≤ u32Max
  | _ => True

theorem reads_unsigned {v : Nat} (h : v ≤ u32Max) : Reads Tlv.unsignedLenientU32 v :=
  ⟨tlvAt 0 (Tag.context 0) (unsignedContents v), by simp [Tag.context],
    unsignedLenientU32_contents h 0 (Tag.context 0)⟩

/-- A selector is read back under either of its numbers. -/
theorem selector_written {s : Selector} {number : Nat} (h : InRange s) (hnumber : number ≤ u32Max) :
    Rereads (writeSelector s number) (selectorTag s number) (fun t => selector t (lastTag s))
      (· = s) := by
  cases s with
  | component name =>
    have hname : Rereads (visibleString (Tag.context number) name) _ _ _ :=
      rereads_visibleString hnumber
    exact hname.map (fun _ _ => rfl) (by rintro _ rfl; rfl)
  | index i =>
    have hindex : Rereads (unsigned (Tag.context number) i) _ _ _ :=
      rereads_unsigned (reads_unsigned h) hnumber
    exact hindex.map (fun _ _ => rfl) (by rintro _ rfl; rfl)
  | indexRange low count =>
    obtain ⟨hlow, hcount⟩ := h
    refine rereads_constructed hnumber fun value offset hvalue => ?_
    refine gets_required (c := (tlvAt offset _ value).children) hvalue
      (rereads_unsigned (reads_unsigned hlow) (by decide)) ?_
    rintro _ c hc rfl
    refine gets_required hc (rereads_unsigned (reads_unsigned hcount) (by decide)) ?_
    rintro _ c hc rfl
    exact gets_ok rfl
  | allElements => exact rereads_primitive hnumber fun offset => gets_ok rfl

variable {t : Tlv} {left : Nat} {steps : List Selector} {x : Selector × Option Tlv}

theorem level_last {last : Selector} (h : InRange last) (ht : writeSteps [last] = .ok t.value) :
    level t = .ok (last, none) := by
  rw [← gets_eq_iff]
  have hselector := selector_written h (Nat.le_trans (lastTag_le last) (by decide))
  refine gets_nextRequired (c := t.children) (concatM_single.mpr ht) hselector ?_
  intro first c hc htag hgets
  have hne : first.tag ≠ Tag.contextConstructed 0 := by
    intro heq
    have hone := lastTag_pos last
    have hzero := congrArg Tag.number (htag.symm.trans heq)
    rw [selectorTag_number] at hzero
    change lastTag last = 0 at hzero
    omega
  dsimp only
  rw [if_neg (by simp [isEmpty_of_concatM_nil hc]), if_neg hne, htag, selectorTag_number]
  apply gets_bind hgets
  rintro _ rfl
  exact gets_ok rfl

/-- A step with more after it: `selectAlternateAccess`. -/
theorem level_inner {first : Selector} (h : InRange first) {rest : List Selector}
    (hrest : rest ≠ []) (ht : writeSteps (first :: rest) = .ok t.value) :
    ∃ t', level t = .ok (first, some t') ∧ writeSteps rest = .ok t'.value := by
  have hlevel : Gets (level t)
      (fun x => ∃ t', x = (first, some t') ∧ writeSteps rest = .ok t'.value) := by
    rw [writeSteps_cons hrest] at ht
    refine gets_nextRequired (c := t.children) (concatM_single.mpr ht)
      (rereads_contents (by decide)) ?_
    intro outer c hc htag hcontents
    have hsteps := of_gets_ok hcontents
    dsimp only
    rw [if_neg (by simp [isEmpty_of_concatM_nil hc]), if_pos htag]
    refine gets_nextRequired hsteps (selector_written h (innerTag_le first)) ?_
    intro selection c hc htag hgets
    dsimp only
    rw [htag, selectorTag_number, innerTag_succ]
    apply gets_bind hgets
    rintro _ rfl
    refine gets_nextTag hc (rereads_contents (by decide)) ?_
    intro t' c hc hcontents
    obtain ⟨_, hkept, hbelow⟩ := hcontents
    obtain rfl := Except.ok.inj hkept
    exact gets_finish hc (gets_ok ⟨_, rfl, hbelow⟩)
  obtain ⟨_, hread, t', rfl, hwritten⟩ := hlevel
  exact ⟨t', hread, hwritten⟩

/-- A written path under any number of levels: it is read back, or refused for its depth. -/
theorem parseInto_written (hsteps : steps ≠ []) (hrange : ∀ s ∈ steps, InRange s)
    (ht : writeSteps steps = .ok t.value) : parseInto left t = if steps.length ≤ left then .ok steps
      else .error (.limitExceeded "alternate_access_depth" (maxDepth + 1)) := by
  induction left generalizing steps t with
  | zero =>
    have hpos := List.length_pos_iff.mpr hsteps
    rw [if_neg (by omega)]
    rfl
  | succ left ih =>
    rw [parseInto_succ]
    cases steps with
    | nil => exact absurd rfl hsteps
    | cons first rest =>
      have hfirst := hrange first List.mem_cons_self
      by_cases hrest : rest = []
      · subst hrest
        rw [level_last hfirst ht, if_pos (by simp)]
        rfl
      · obtain ⟨t', hlevel, hwritten⟩ := level_inner hfirst hrest ht
        have hmore := ih hrest (fun s hs => hrange s (List.mem_cons_of_mem first hs)) hwritten
        rw [hlevel]
        change (parseInto left t' >>= fun steps => Except.ok (first :: steps)) = _
        rw [hmore]
        by_cases hdepth : rest.length ≤ left
        · rw [if_pos hdepth, if_pos (by simpa using hdepth)]
          rfl
        · rw [if_neg hdepth, if_neg (by simpa using hdepth)]
          rfl

/-! ### What is read -/

/-- A level and the next one inside its `selectAlternateAccess`. -/
def Descends (t rest : Tlv) : Prop :=
  ∃ first c selection inner inner', t.children.nextRequired = .ok (first, c) ∧
    first.tag = Tag.contextConstructed 0 ∧
    first.children.nextRequired = .ok (selection, inner) ∧
    inner.nextTag tagSequence = .ok (rest, inner')

/-- The level this many steps inside an alternate access. -/
inductive LevelAt : Nat → Tlv → Tlv → Prop
  | here (t : Tlv) : LevelAt 0 t t
  | inside {n : Nat} {t rest t' : Tlv} (h : Descends t rest) (h' : LevelAt n rest t') :
      LevelAt (n + 1) t t'

/-- More than one selection at a level. -/
def Crowded (t : Tlv) : Prop :=
  ∃ first c, t.children.nextRequired = .ok (first, c) ∧ c.isEmpty = false

theorem level_uncrowded (h : level t = .ok x) : ¬ Crowded t := by
  rintro ⟨first, c, hnext, hmore⟩
  unfold level at h
  rw [hnext] at h
  simp [bind, Except.bind, hmore] at h

theorem level_descends {rest : Tlv} (h : level t = .ok x) (hdescends : Descends t rest) :
    x.2 = some rest := by
  obtain ⟨first, c, selection, inner, inner', hfirst, htag, hselection, hrest⟩ := hdescends
  unfold level at h
  rw [hfirst] at h
  change (if ¬ c.isEmpty then _ else if first.tag = Tag.contextConstructed 0 then _ else _) = _ at h
  rw [if_pos htag] at h
  split at h
  · cases h
  · rw [hselection] at h
    change (selector selection _ >>= _) = _ at h
    obtain ⟨here, -, h⟩ := bind_ok h
    rw [hrest] at h
    change (inner'.finish >>= _) = _ at h
    obtain ⟨-, -, h⟩ := bind_ok h
    rw [← Except.ok.inj h]

theorem parseInto_levels {n : Nat} {t' : Tlv} (h : parseInto left t = .ok steps)
    (hlevel : LevelAt n t t') : n < steps.length ∧ steps.length ≤ left ∧ ¬ Crowded t' := by
  induction left generalizing n t t' steps with
  | zero => cases h
  | succ left ih =>
    rw [parseInto_succ] at h
    obtain ⟨⟨here, more⟩, hhere, h⟩ := bind_ok h
    have huncrowded := level_uncrowded hhere
    cases more with
    | none =>
      obtain rfl := Except.ok.inj h
      cases hlevel with
      | here => exact ⟨by simp, by simp, huncrowded⟩
      | inside hdescends _ => cases level_descends hhere hdescends
    | some rest =>
      obtain ⟨steps', hsteps', h⟩ := bind_ok h
      obtain rfl := Except.ok.inj h
      cases hlevel with
      | here =>
        obtain ⟨-, hle, -⟩ := ih hsteps' (LevelAt.here rest)
        exact ⟨by simp, by simpa using hle, huncrowded⟩
      | inside hdescends hbelow =>
        obtain rfl := Option.some.inj (level_descends hhere hdescends)
        obtain ⟨hlt, hle, hone⟩ := ih hsteps' hbelow
        exact ⟨by simpa using hlt, by simpa using hle, hone⟩

/-! ### A whole path -/

/-- A path of one to sixteen steps is read back from wherever it was written, and a longer one is
refused. Of any element: as many steps are returned as there are levels, and an element with
too many levels, or with two selections at one of them, is refused. -/
theorem path_reread : (∀ (steps : List Selector) (bs rest : Bytes) (offset : Nat), steps ≠ [] →
      (∀ s ∈ steps, InRange s) → write steps = .ok bs →
      ∃ t, Cursor.nextRequired ⟨bs ++ rest, offset⟩ = .ok (t, ⟨rest, offset + bs.length⟩) ∧
        parse t = if steps.length ≤ maxDepth then .ok steps
          else .error (.limitExceeded "alternate_access_depth" (maxDepth + 1))) ∧
    (∀ (t t' : Tlv) (n : Nat), LevelAt n t t' → (∀ steps, parse t = .ok steps → n < steps.length) ∧
      (maxDepth ≤ n ∨ Crowded t' → ∃ e, parse t = .error e)) := by
  constructor
  · intro steps bs rest offset hsteps hrange h
    rw [write_eq hsteps] at h
    obtain ⟨value, hvalue, hlen, rfl⟩ := constructed_ok h
    have hfits : Fitting (Tag.contextConstructed 5, value) :=
      ⟨(by decide : (Tag.contextConstructed 5).number ≤ u32Max), hlen⟩
    exact ⟨_, nextRequired_element hfits offset rest, parseInto_written hsteps hrange hvalue⟩
  · intro t t' n hlevel
    constructor
    · intro steps hparse
      exact (parseInto_levels hparse hlevel).1
    · intro hrefused
      cases hparse : parse t with
      | error e => exact ⟨e, rfl⟩
      | ok steps =>
        obtain ⟨hlt, hle, hone⟩ := parseInto_levels hparse hlevel
        rcases hrefused with hdeep | hcrowded
        · omega
        · exact absurd hcrowded hone

/-- One step of each kind, at both depths, and in front of other octets. -/
theorem path_reread_steps : ∃ t bs, write [.component [0x68], .index 2, .allElements] = .ok bs ∧
      Cursor.nextRequired ⟨bs ++ [7], 5⟩ = .ok (t, ⟨[7], 5 + bs.length⟩) ∧
      parse t = .ok [.component [0x68], .index 2, .allElements] := by
  obtain ⟨t, hnext, hparse⟩ := path_reread.1 [.component [0x68], .index 2, .allElements] _ [7] 5
    (by simp) (by simp [InRange, u32Max]) rfl
  exact ⟨t, _, rfl, hnext, hparse⟩

end Iec61850.Mms.Alternate
