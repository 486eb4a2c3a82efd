import Iec61850.Ber.Places
import Iec61850.Mms.Access

/-!
# Names and access specifications, read again

The names, scopes, alternate accesses, variable lists and access results of MMS are read from
what was written as they were read before, wherever they sit: an element that is kept whole
comes back with its tag and its contents, at another place (`Tlv.unplaced`).
-/

namespace Iec61850.Mms

open Theory Ber

/-! ### Fields -/

section Fields

variable {α β : Type} {f : Tlv → Except Error α} {w : Except Error Bytes}
  {ws : List (Except Error Bytes)} {tag : Tag} {Q : α → Prop} {P : β → Prop} {c : Cursor}

theorem gets_required {k : α × Cursor → Except Error β} (hc : concatM (w :: ws) = .ok c.rest)
    (h : Rereads w tag f Q) (hk : ∀ a c', concatM ws = .ok c'.rest → Q a → Gets (k (a, c')) P) :
    Gets (required c tag f >>= k) P := by
  have hrequired : Gets (required c tag f) (fun x => concatM ws = .ok x.2.rest ∧ Q x.1) :=
    gets_nextTag hc h fun t c' hrest hread => gets_bind hread fun a ha => gets_ok ⟨hrest, ha⟩
  exact gets_bind hrequired fun x hx => hk x.1 x.2 hx.1 hx.2

theorem gets_present {k : Option α × Cursor → Except Error β}
    (hc : concatM (w :: ws) = .ok c.rest) (h : Rereads w tag f Q)
    (hk : ∀ a c', concatM ws = .ok c'.rest → Q a → Gets (k (some a, c')) P) :
    Gets (optional c tag f >>= k) P := by
  have hoptional : Gets (optional c tag f)
      (fun x => ∃ a, x.1 = some a ∧ concatM ws = .ok x.2.rest ∧ Q a) :=
    gets_nextIfTag hc h fun t c' hrest _ hread =>
      gets_bind hread fun a ha => gets_ok ⟨a, rfl, hrest, ha⟩
  refine gets_bind hoptional ?_
  rintro ⟨_, c'⟩ ⟨a, rfl, hrest, ha⟩
  exact hk a c' hrest ha

theorem gets_absent {k : Option α × Cursor → Except Error β} (hc : concatM ws = .ok c.rest)
    (hlacks : Lacks (concatM ws) tag) (hk : Gets (k (none, c)) P) :
    Gets (optional c tag f >>= k) P := by
  have hoptional : Gets (optional c tag f) (· = (none, c)) := gets_skip hc hlacks (gets_ok rfl)
  refine gets_bind hoptional ?_
  rintro _ rfl
  exact hk

theorem gets_optional {γ : Type} {field : Option γ} {write : γ → Except Error Bytes}
    {Q : γ → α → Prop} {k : Option α × Cursor → Except Error β}
    (hc : concatM (optM field write :: ws) = .ok c.rest)
    (h : ∀ a, field = some a → Rereads (write a) tag f (Q a)) (hlacks : Lacks (concatM ws) tag)
    (hk : ∀ a c', concatM ws = .ok c'.rest → Option.Rel Q field a → Gets (k (a, c')) P) :
    Gets (optional c tag f >>= k) P := by
  cases field with
  | none => exact gets_absent (concatM_nothing hc) hlacks (hk none c (concatM_nothing hc) .none)
  | some a => exact gets_present hc (h a rfl) fun b c' hrest hb => hk (some b) c' hrest (.some hb)

/-- A field that is written only where it differs from its default. -/
theorem gets_default {a : α} (dflt : α) {cond : Prop} [Decidable cond]
    {k : Option α × Cursor → Except Error β}
    (hc : concatM ((if cond then w else .ok []) :: ws) = .ok c.rest)
    (h : cond → Rereads w tag f (· = a)) (hdflt : ¬ cond → a = dflt) (hlacks : Lacks (concatM ws) tag)
    (hk : ∀ b c', concatM ws = .ok c'.rest → b.getD dflt = a → Gets (k (b, c')) P) :
    Gets (optional c tag f >>= k) P := by
  by_cases hcond : cond
  · rw [if_pos hcond] at hc
    exact gets_present hc (h hcond) fun b c' hrest hb => hk (some b) c' hrest hb
  · rw [if_neg hcond] at hc
    exact gets_absent (concatM_nothing hc) hlacks
      (hk none c (concatM_nothing hc) (hdflt hcond).symm)

/-- A field that is left out where it has its default. -/
theorem gets_unless {a : α} (dflt : α) {cond : Prop} [Decidable cond]
    {k : Option α × Cursor → Except Error β}
    (hc : concatM ((if cond then .ok [] else w) :: ws) = .ok c.rest)
    (h : ¬ cond → Rereads w tag f (· = a)) (hdflt : cond → a = dflt) (hlacks : Lacks (concatM ws) tag)
    (hk : ∀ b c', concatM ws = .ok c'.rest → b.getD dflt = a → Gets (k (b, c')) P) :
    Gets (optional c tag f >>= k) P := by
  rw [← ite_not] at hc
  exact gets_default dflt hc h (fun hcond => hdflt (not_not.mp hcond)) hlacks hk

theorem rereads_firstChild {tag' : Tag} (h : Rereads w tag' f Q) (htag : tag.number ≤ u32Max) :
    Rereads (constructed tag w) tag firstChild (fun t => t.tag = tag' ∧ Gets (f t) Q) := by
  refine rereads_constructed htag fun value offset hvalue => ?_
  obtain ⟨inner, rfl, hfit, hread⟩ := h value hvalue
  have hnext := nextRequired_element hfit (tlvAt offset tag (element tag' inner)).valueOffset []
  rw [List.append_nil] at hnext
  refine ⟨tlvAt (tlvAt offset tag (element tag' inner)).valueOffset tag' inner, ?_, rfl, hread _⟩
  rw [firstChild, Tlv.children, tlvAt_value, hnext]
  rfl

theorem rereads_child {tag' : Tag} (h : Rereads w tag' f Q) (htag : tag.number ≤ u32Max) :
    Rereads (constructed tag w) tag (fun t => firstChild t >>= f) Q := by
  intro bs hbs
  obtain ⟨value, rfl, hfit, hread⟩ := rereads_firstChild h htag bs hbs
  exact ⟨value, rfl, hfit, fun offset => gets_bind (hread offset) fun t ht => ht.2⟩

theorem required_reads {a : α} {c' : Cursor} (h : required c tag f = .ok (a, c')) : Reads f a := by
  obtain ⟨⟨t, c''⟩, hnext, hread⟩ := bind_ok h
  change (f t >>= fun a => Except.ok (a, c'')) = _ at hread
  obtain ⟨b, hb, hok⟩ := bind_ok hread
  cases hok
  exact ⟨t, (nextTag_ok hnext).2, hb⟩

theorem optional_reads {a : Option α} {c' : Cursor} (h : optional c tag f = .ok (a, c')) :
    ∀ b, a = some b → Reads f b := by
  obtain ⟨⟨t, c''⟩, hnext, hread⟩ := bind_ok h
  rintro b rfl
  cases t with
  | none => cases hread
  | some t =>
    change (f t >>= fun a => Except.ok (some a, c'')) = _ at hread
    obtain ⟨b, hb, hok⟩ := bind_ok hread
    cases hok
    exact ⟨t, (nextIfTag_some hnext).2, hb⟩

theorem optional_none {c' : Cursor} (h : optional c tag f = .ok (none, c')) :
    c' = c ∧ ∀ t c'', c.nextRequired = .ok (t, c'') → t.tag ≠ tag := by
  obtain ⟨⟨t, c''⟩, hnext, hread⟩ := bind_ok h
  cases t with
  | none =>
    cases hread
    exact nextIfTag_none hnext
  | some t =>
    change (f t >>= fun a => Except.ok (some a, c'')) = _ at hread
    obtain ⟨b, -, hok⟩ := bind_ok hread
    cases hok

theorem firstChild_number_le {t child : Tlv} (h : firstChild t = .ok child) :
    child.tag.number ≤ u32Max := by
  obtain ⟨⟨t', c'⟩, hnext, hok⟩ := bind_ok h
  cases hok
  exact nextRequired_number_le hnext

theorem child_reads {a : α} (h : Reads (fun t => firstChild t >>= f) a) : Reads f a := by
  obtain ⟨t, -, ht⟩ := h
  obtain ⟨child, hchild, hread⟩ := bind_ok ht
  exact ⟨child, firstChild_number_le hchild, hread⟩

end Fields

/-! ### Object names -/

namespace ObjectName

/-- The tag of a name. -/
def tag : ObjectName → Tag
  | .vmdSpecific _ => Tag.context 0
  | .domainSpecific _ _ => Tag.contextConstructed 1
  | .aaSpecific _ => Tag.context 2

theorem tag_number_le (n : ObjectName) : n.tag.number ≤ u32Max := by
  cases n <;> exact Nat.le_of_ble_eq_true rfl

theorem rereads (n : ObjectName) : Rereads n.write n.tag ObjectName.parse (· = n) := by
  have hnumber := n.tag_number_le
  cases n with
  | vmdSpecific s =>
    have hname : Rereads (visibleString (Tag.context 0) s) _ _ _ := rereads_visibleString hnumber
    exact hname.map (fun _ _ => rfl) (by rintro _ rfl; rfl)
  | aaSpecific s =>
    have hname : Rereads (visibleString (Tag.context 2) s) _ _ _ := rereads_visibleString hnumber
    exact hname.map (fun _ _ => rfl) (by rintro _ rfl; rfl)
  | domainSpecific domain item =>
    refine rereads_constructed hnumber fun value offset hvalue => ?_
    refine gets_required (c := (tlvAt offset _ value).children) hvalue
      (rereads_visibleString (by decide)) ?_
    rintro _ c hc rfl
    refine gets_required hc (rereads_visibleString (by decide)) ?_
    rintro _ c hc rfl
    exact gets_ok rfl

end ObjectName

namespace ObjectScope

/-- The scope without the place of what is kept whole. -/
def unplaced : ObjectScope → ObjectScope
  | .other t => .other t.unplaced
  | s => s

def tag : ObjectScope → Tag
  | .vmdSpecific => Tag.context 0
  | .domainSpecific _ => Tag.context 1
  | .aaSpecific => Tag.context 2
  | .other t => t.tag

theorem rereads {s : ObjectScope} (h : Reads ObjectScope.parse s) :
    Rereads s.write s.tag ObjectScope.parse (fun s' => s'.unplaced = s.unplaced) := by
  cases s with
  | vmdSpecific => exact rereads_primitive (by decide) fun offset => gets_ok rfl
  | aaSpecific => exact rereads_primitive (by decide) fun offset => gets_ok rfl
  | domainSpecific d =>
    have hname : Rereads (visibleString (Tag.context 1) d) _ _ _ :=
      rereads_visibleString (by decide)
    exact hname.map (fun _ _ => rfl) (by rintro _ rfl; rfl)
  | other t =>
    obtain ⟨t', hnumber, hparse⟩ := h
    unfold ObjectScope.parse at hparse
    split at hparse
    · cases hparse
    rename_i hcls
    split at hparse
    · cases hparse
    · obtain ⟨_, -, hother⟩ := map_ok hparse
      cases hother
    · cases hparse
    · rename_i h0 h1 h2
      cases hparse
      refine rereads_primitive hnumber fun offset => ?_
      unfold ObjectScope.parse
      rw [tlvAt_tag, if_neg hcls]
      split
      · exact absurd ‹_› h0
      · exact absurd ‹_› h1
      · exact absurd ‹_› h2
      · exact gets_ok rfl

end ObjectScope

/-! ### Alternate access -/

namespace Alternate

/-- The tag of a selector that is written under this number. -/
def selectorTag (s : Selector) (number : Nat) : Tag :=
  match s with
  | .indexRange _ _ => Tag.contextConstructed number
  | _ => Tag.context number

theorem selectorTag_number (s : Selector) (number : Nat) :
    (selectorTag s number).number = number := by
  cases s <;> rfl

theorem lastTag_pos (s : Selector) : 0 < lastTag s := by
  cases s <;> exact Nat.le_of_ble_eq_true rfl

theorem innerTag_succ (s : Selector) : (innerTag s + 1) % 2 ^ 32 = lastTag s := by
  cases s <;> rfl

theorem innerTag_le (s : Selector) : innerTag s ≤ u32Max := by
  cases s <;> exact Nat.le_of_ble_eq_true rfl

theorem writeSteps_cons {first : Selector} {rest : List Selector} (h : rest ≠ []) :
    writeSteps (first :: rest) = constructed (Tag.contextConstructed 0)
      (concatM [writeSelector first (innerTag first),
        constructed tagSequence (writeSteps rest)]) := by
  cases rest with
  | nil => exact absurd rfl h
  | cons next rest => rfl

theorem lastTag_le (s : Selector) : lastTag s ≤ 4 := by
  cases s <;> exact Nat.le_of_ble_eq_true rfl

/-- A selector that was read once is read again, under either of its numbers. -/
theorem selector_rereads {s : Selector} {n number : Nat} (h : Reads (fun t => selector t n) s)
    (hnumber : number ≤ u32Max) :
    Rereads (writeSelector s number) (selectorTag s number) (fun t => selector t (lastTag s))
      (· = s) := by
  obtain ⟨t, htag, hread⟩ := h
  change selector t n = .ok s at hread
  unfold selector at hread
  split at hread
  · cases hread
  split at hread
  · obtain ⟨name, -, rfl⟩ := map_ok hread
    have hname : Rereads (visibleString (Tag.context number) name) _ _ _ :=
      rereads_visibleString hnumber
    exact hname.map (fun _ _ => rfl) (by rintro _ rfl; rfl)
  · obtain ⟨i, hi, rfl⟩ := map_ok hread
    have hindex : Rereads (unsigned (Tag.context number) i) _ _ _ :=
      rereads_unsigned ⟨t, htag, hi⟩ hnumber
    exact hindex.map (fun _ _ => rfl) (by rintro _ rfl; rfl)
  · obtain ⟨⟨low, c⟩, hlow, hrest⟩ := bind_ok hread
    dsimp only at hrest
    obtain ⟨⟨count, c'⟩, hcount, hok⟩ := bind_ok hrest
    cases hok
    refine rereads_constructed hnumber fun value offset hvalue => ?_
    refine gets_required (c := (tlvAt offset _ value).children) hvalue
      (rereads_unsigned (required_reads hlow) (by decide)) ?_
    rintro _ c hc rfl
    refine gets_required hc (rereads_unsigned (required_reads hcount) (by decide)) ?_
    rintro _ c hc rfl
    exact gets_ok rfl
  · cases hread
    exact rereads_primitive hnumber fun offset => gets_ok rfl
  · cases hread

/-- What is left of a chain of selectors, by induction on the levels still allowed. -/
theorem parseInto_rereads {left : Nat} {steps : List Selector} {tag : Tag}
    (h : Reads (parseInto left) steps) (htag : tag.number ≤ u32Max) :
    steps ≠ [] ∧ Rereads (constructed tag (writeSteps steps)) tag (parseInto left) (· = steps) := by
  induction left generalizing steps tag with
  | zero =>
    obtain ⟨t, -, hread⟩ := h
    cases hread
  | succ left ih =>
    obtain ⟨t, -, hread⟩ := h
    unfold parseInto at hread
    obtain ⟨⟨first, c⟩, hfirst, hrest⟩ := bind_ok hread
    dsimp only at hrest
    split at hrest
    · cases hrest
    split at hrest
    · obtain ⟨⟨selection, inner⟩, hselection, hrest⟩ := bind_ok hrest
      dsimp only at hrest
      obtain ⟨here, hhere, hrest⟩ := bind_ok hrest
      obtain ⟨⟨rest, inner'⟩, hnext, hrest⟩ := bind_ok hrest
      dsimp only at hrest
      obtain ⟨-, -, hrest⟩ := bind_ok hrest
      obtain ⟨more, hmore, hok⟩ := bind_ok hrest
      cases hok
      have hdecide : tagSequence.number ≤ u32Max := by decide
      obtain ⟨hne, hreread⟩ := ih ⟨rest, (nextTag_ok hnext).2, hmore⟩ hdecide
      refine ⟨by simp, rereads_constructed htag fun value offset hvalue => ?_⟩
      rw [writeSteps_cons hne] at hvalue
      refine gets_nextRequired (c := (tlvAt offset _ value).children) (concatM_single.mpr hvalue)
        (rereads_contents (by decide)) ?_
      intro t c hc htag hcontents
      have hsteps := of_gets_ok hcontents
      dsimp only
      rw [if_neg (by simp [isEmpty_of_concatM_nil hc]), if_pos htag]
      refine gets_nextRequired hsteps (selector_rereads
        ⟨selection, nextRequired_number_le hselection, hhere⟩ (innerTag_le here)) ?_
      intro t c hc htag hgets
      dsimp only
      rw [htag, selectorTag_number, innerTag_succ]
      refine gets_bind hgets ?_
      rintro _ rfl
      refine gets_nextTag hc hreread ?_
      intro t c hc hgets
      refine gets_finish hc (gets_bind hgets ?_)
      rintro _ rfl
      exact gets_ok rfl
    · obtain ⟨last, hlast, hok⟩ := bind_ok hrest
      cases hok
      refine ⟨by simp, rereads_constructed htag fun value offset hvalue => ?_⟩
      have hselector := selector_rereads ⟨first, nextRequired_number_le hfirst, hlast⟩
        (Nat.le_trans (lastTag_le last) (by decide))
      refine gets_nextRequired (c := (tlvAt offset _ value).children) (concatM_single.mpr hvalue)
        hselector ?_
      intro t c hc htag hgets
      have hone := lastTag_pos last
      have hne : t.tag ≠ Tag.contextConstructed 0 := by
        intro heq
        have hzero := congrArg Tag.number (htag.symm.trans heq)
        rw [selectorTag_number] at hzero
        change lastTag last = 0 at hzero
        omega
      dsimp only
      rw [if_neg (by simp [isEmpty_of_concatM_nil hc]), if_neg hne, htag, selectorTag_number]
      refine gets_bind hgets ?_
      rintro _ rfl
      exact gets_ok rfl

theorem rereads {steps : List Selector} (h : Reads Alternate.parse steps) :
    steps ≠ [] ∧ Rereads (constructed (Tag.contextConstructed 5) (writeSteps steps))
      (Tag.contextConstructed 5) Alternate.parse (· = steps) :=
  parseInto_rereads h (by decide)

theorem write_eq {steps : List Selector} (h : steps ≠ []) :
    Alternate.write steps = constructed (Tag.contextConstructed 5) (writeSteps steps) :=
  if_neg (by simpa using h)

end Alternate

/-! ### Variable access -/

namespace VariableSpecification

def unplaced : VariableSpecification → VariableSpecification
  | .other t => .other t.unplaced
  | v => v

theorem rereads {v : VariableSpecification} (h : Reads VariableSpecification.parse v) :
    Rereads (constructed tagSequence v.write) tagSequence VariableSpecification.parse
      (fun v' => v'.unplaced = v.unplaced) := by
  obtain ⟨item, -, hread⟩ := h
  unfold VariableSpecification.parse at hread
  obtain ⟨item', -, hrest⟩ := bind_ok hread
  obtain ⟨⟨spec, c⟩, hspec, hrest⟩ := bind_ok hrest
  dsimp only at hrest
  refine rereads_constructed (by decide) fun value offset hvalue => gets_expect rfl ?_
  split at hrest
  · obtain ⟨child, -, hrest⟩ := bind_ok hrest
    obtain ⟨n, -, hrest⟩ := bind_ok hrest
    obtain ⟨⟨access, c'⟩, haccess, hok⟩ := bind_ok hrest
    have hname : Rereads (constructed (Tag.contextConstructed 0) n.write) _ _ _ :=
      rereads_firstChild n.rereads (by decide)
    cases access with
    | none =>
      cases hok
      refine gets_nextRequired (c := (tlvAt offset _ value).children) (concatM_single.mpr hvalue)
        hname ?_
      intro t c hc htag hgets
      dsimp only
      rw [if_pos htag]
      refine gets_bind hgets fun child hchild => gets_bind hchild.2 ?_
      rintro _ rfl
      exact gets_absent hc lacks_nil (gets_ok rfl)
    | some steps =>
      cases hok
      obtain ⟨hne, hsteps⟩ := Alternate.rereads (optional_reads haccess steps rfl)
      change concatM [_, Alternate.write steps] = _ at hvalue
      rw [Alternate.write_eq hne] at hvalue
      refine gets_nextRequired (c := (tlvAt offset _ value).children) hvalue hname ?_
      intro t c hc htag hgets
      dsimp only
      rw [if_pos htag]
      refine gets_bind hgets fun child hchild => gets_bind hchild.2 ?_
      rintro _ rfl
      refine gets_present hc hsteps ?_
      rintro _ c hc rfl
      exact gets_ok rfl
  · rename_i hne
    cases hrest
    refine gets_nextRequired (c := (tlvAt offset _ value).children) (concatM_single.mpr hvalue)
      (rereads_whole (nextRequired_number_le hspec)) ?_
    intro t c hc htag hgets
    dsimp only
    rw [if_neg (by rwa [htag])]
    have hsame := of_gets_ok hgets
    exact gets_ok (congrArg VariableSpecification.other hsame)

end VariableSpecification

theorem variableList_rereads {items : List VariableSpecification} {limits : Limits} {tag : Tag}
    (h : Reads (fun t => parseVariableList t limits) items) (htag : tag.number ≤ u32Max) :
    Rereads (writeVariableList items tag) tag (fun t => parseVariableList t limits)
      (fun items' => items'.map VariableSpecification.unplaced =
        items.map VariableSpecification.unplaced) := by
  obtain ⟨t, -, hread⟩ := h
  obtain ⟨hmax, hitems⟩ := collectItems_reads hread
  have hlist : Rereads (writeVariableList items tag) tag (fun t => parseVariableList t limits) _ :=
    rereads_list _ htag (fun v hv => ⟨_, VariableSpecification.rereads (hitems v hv)⟩) hmax
  exact hlist.mono fun _ hall => map_eq_of_forall₂ hall

namespace VariableAccess

def unplaced : VariableAccess → VariableAccess
  | .listOfVariable items => .listOfVariable (items.map VariableSpecification.unplaced)
  | .variableListName n => .variableListName n

def tag : VariableAccess → Tag
  | .listOfVariable _ => Tag.contextConstructed 0
  | .variableListName _ => Tag.contextConstructed 1

theorem rereads {a : VariableAccess} (h : Reads VariableAccess.parse a) :
    Rereads a.write a.tag VariableAccess.parse (fun a' => a'.unplaced = a.unplaced) := by
  obtain ⟨t, htag, hread⟩ := h
  unfold VariableAccess.parse at hread
  split at hread
  · obtain ⟨items, hitems, rfl⟩ := map_ok hread
    have hlist : Rereads (writeVariableList items (Tag.contextConstructed 0)) _ _ _ :=
      variableList_rereads ⟨t, htag, hitems⟩ (by decide)
    exact hlist.map (fun _ _ => rfl) fun items' h => congrArg VariableAccess.listOfVariable h
  · obtain ⟨child, -, hrest⟩ := bind_ok hread
    obtain ⟨n, -, rfl⟩ := map_ok hrest
    have hname : Rereads (constructed (Tag.contextConstructed 1) n.write) _ _ _ :=
      rereads_firstChild n.rereads (by decide)
    exact hname.bind (fun _ _ => rfl) fun child hchild =>
      gets_map hchild.2 (by rintro _ rfl; rfl)
  · cases hread

end VariableAccess

/-! ### Values -/

theorem placeless_utf8String : Placeless utf8String := by
  intro t t' a hvalue h
  unfold utf8String at h ⊢
  rw [hvalue]
  split at h
  · rename_i hvalid
    rw [if_pos hvalid]
    exact h
  · cases h

theorem placeless_floatingPoint : Placeless floatingPoint := by
  intro t t' a hvalue h
  unfold floatingPoint at h ⊢
  rw [hvalue]
  split at h
  · split at h
    · rename_i hlen
      rw [if_pos hlen]
      exact h
    · cases h
  · split at h
    · rename_i hlen
      rw [if_pos hlen]
      exact h
    · cases h
  · cases h

theorem placeless_utcTime : Placeless utcTime := by
  intro t t' a hvalue h
  unfold utcTime at h ⊢
  rw [hvalue]
  split at h
  · exact h
  · cases h

theorem fromTlv_placeless {t t' : Tlv} {v : DataView} (htag : t'.tag = t.tag)
    (hvalue : t'.value = t.value) (h : DataView.fromTlv t = .ok v) :
    ∃ v', DataView.fromTlv t' = .ok v' := by
  unfold DataView.fromTlv at h ⊢
  rw [htag]
  split at h
  · cases h
  rename_i hcls
  rw [if_neg hcls]
  split at h
  · exact ⟨_, rfl⟩
  · exact ⟨_, rfl⟩
  · obtain ⟨b, hb, -⟩ := map_ok h
    rw [placeless_boolean t t' b hvalue hb]
    exact ⟨_, rfl⟩
  · obtain ⟨b, hb, -⟩ := bind_ok h
    rw [placeless_bitString t t' b hvalue hb]
    exact ⟨_, rfl⟩
  · obtain ⟨b, hb, -⟩ := map_ok h
    rw [placeless_integerI64 t t' b hvalue hb]
    exact ⟨_, rfl⟩
  · obtain ⟨b, hb, -⟩ := map_ok h
    rw [placeless_unsignedLenientU64 t t' b hvalue hb]
    exact ⟨_, rfl⟩
  · obtain ⟨b, hb, -⟩ := bind_ok h
    rw [placeless_floatingPoint t t' b hvalue hb]
    exact ⟨_, rfl⟩
  · exact ⟨_, rfl⟩
  · obtain ⟨b, hb, -⟩ := map_ok h
    rw [placeless_visibleString t t' b hvalue hb]
    exact ⟨_, rfl⟩
  · obtain ⟨b, hb, -⟩ := map_ok h
    rw [placeless_utf8String t t' b hvalue hb]
    exact ⟨_, rfl⟩
  · obtain ⟨b, hb, -⟩ := map_ok h
    rw [placeless_utcTime t t' b hvalue hb]
    exact ⟨_, rfl⟩
  · exact ⟨_, rfl⟩
  · exact ⟨_, rfl⟩

/-- A value that decoded once is kept whole and decodes again. -/
theorem value_rereads {t : Tlv} {v : DataView} (htag : t.tag.number ≤ u32Max)
    (h : DataView.fromTlv t = .ok v) : Rereads (primitive t.tag t.value) t.tag Except.ok
      (fun t' => t'.unplaced = t.unplaced ∧ ∃ v', DataView.fromTlv t' = .ok v') := by
  refine rereads_primitive htag fun offset => ?_
  have htag : (tlvAt offset t.tag t.value).tag = t.tag := rfl
  exact gets_ok ⟨rfl, fromTlv_placeless htag rfl h⟩

/-! ### Access results -/

namespace AccessResult

def unplaced : AccessResult → AccessResult
  | .success t => .success t.unplaced
  | r => r

def tag : AccessResult → Tag
  | .failure _ => Tag.context 0
  | .success t => t.tag

theorem rereads {r : AccessResult} (h : Reads AccessResult.parse r) :
    Rereads r.write r.tag AccessResult.parse (fun r' => r'.unplaced = r.unplaced) := by
  obtain ⟨t, htag, hread⟩ := h
  unfold AccessResult.parse at hread
  split at hread
  · obtain ⟨code, hcode, rfl⟩ := map_ok hread
    have hinteger : Rereads (integer (Tag.context 0) code) _ _ _ :=
      rereads_integer ⟨t, htag, hcode⟩ (by decide)
    exact hinteger.map (fun _ _ => rfl) (by rintro _ rfl; rfl)
  · rename_i hne
    obtain ⟨v, hv, hok⟩ := bind_ok hread
    cases hok
    intro bs hbs
    obtain ⟨value, rfl, hfit, hgets⟩ := value_rereads htag hv bs hbs
    refine ⟨value, rfl, hfit, fun offset => ?_⟩
    obtain ⟨hsame, v', hv'⟩ := of_gets_ok (hgets offset)
    unfold AccessResult.parse
    rw [tlvAt_tag, if_neg (show ¬ (success t).tag = Tag.context 0 from hne)]
    exact gets_bind (P := (· = v')) ⟨v', hv', rfl⟩ fun _ _ =>
      gets_ok (congrArg AccessResult.success hsame)

end AccessResult

theorem accessResults_rereads {results : List AccessResult} {limits : Limits} {tag : Tag}
    (h : Reads (fun t => parseAccessResults t limits) results) (htag : tag.number ≤ u32Max) :
    Rereads (writeAccessResults results tag) tag (fun t => parseAccessResults t limits)
      (fun results' => results'.map AccessResult.unplaced = results.map AccessResult.unplaced) := by
  obtain ⟨t, -, hread⟩ := h
  obtain ⟨hmax, hresults⟩ := collectItems_reads hread
  have hlist : Rereads (writeAccessResults results tag) tag (fun t => parseAccessResults t limits) _ :=
    rereads_list _ htag (fun r hr => ⟨_, AccessResult.rereads (hresults r hr)⟩) hmax
  exact hlist.mono fun _ hall => map_eq_of_forall₂ hall

end Iec61850.Mms
