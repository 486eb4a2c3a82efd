import Iec61850.Ber.Collect

/-!
# Values that are read again

A codec that reads a value and writes it may choose other octets than it read, but has to read
the same value from what it wrote. Here are the rules for that: `Reads f a` says that the
reader `f` has returned `a` somewhere, `Rereads w tag f Q` that whatever the write `w` produces
is an element which `f` reads again, as something of which `Q` holds. The rules take the reader
apart field by field, along with the writes that made the octets.
-/

namespace Iec61850.Ber

open Theory

/-- The element without its place in the buffer. -/
def Tlv.unplaced (t : Tlv) : Tlv := ⟨t.tag, t.value, 0, 0⟩

section Results

variable {α β : Type}

/-- The reader returns something of which this holds. -/
def Gets (x : Except Error α) (Q : α → Prop) : Prop := ∃ a, x = .ok a ∧ Q a

theorem gets_ok {a : α} {Q : α → Prop} (h : Q a) : Gets (.ok a) Q := ⟨a, rfl, h⟩

theorem gets_eq_iff {x : Except Error α} {a : α} : Gets x (· = a) ↔ x = .ok a :=
  ⟨fun ⟨_, hx, ha⟩ => ha ▸ hx, fun h => ⟨a, h, rfl⟩⟩

theorem of_gets_ok {a : α} {Q : α → Prop} (h : Gets (.ok a) Q) : Q a := by
  obtain ⟨_, ha, hq⟩ := h
  cases ha
  exact hq

theorem gets_bind {x : Except Error α} {k : α → Except Error β} {P : α → Prop} {Q : β → Prop}
    (h : Gets x P) (hk : ∀ a, P a → Gets (k a) Q) : Gets (x >>= k) Q := by
  obtain ⟨a, rfl, ha⟩ := h
  exact hk a ha

theorem gets_map {x : Except Error α} {g : α → β} {P : α → Prop} {Q : β → Prop} (h : Gets x P)
    (hg : ∀ a, P a → Q (g a)) : Gets (g <$> x) Q := by
  obtain ⟨a, rfl, ha⟩ := h
  exact ⟨g a, rfl, hg a ha⟩

theorem eq_of_rel {x y : Option α} (h : Option.Rel (fun a b => b = a) x y) : y = x := by
  cases h with
  | none => rfl
  | some h => rw [h]

theorem map_eq_of_forall₂ {γ : Type} {g : β → γ} {g' : α → γ} {xs : List α} {ys : List β}
    (h : List.Forall₂ (fun x y => g y = g' x) xs ys) : ys.map g = xs.map g' := by
  induction h with
  | nil => rfl
  | cons hhead htail ih => rw [List.map_cons, List.map_cons, hhead, ih]

theorem eq_of_forall₂ {xs ys : List α} (h : List.Forall₂ (fun x y => y = x) xs ys) : ys = xs :=
  List.forall₂_eq_eq_eq ▸ h.flip

theorem map_eq_of_rel {γ : Type} {g : α → γ} {x y : Option α}
    (h : Option.Rel (fun a b => g b = g a) x y) : y.map g = x.map g := by
  cases h with
  | none => rfl
  | some h => rw [Option.map_some, Option.map_some, h]

end Results

/-! ### One element -/

theorem nextRequired_element {tag : Tag} {value : Bytes} (h : Fitting (tag, value)) (offset : Nat)
    (rest : Bytes) : Cursor.nextRequired ⟨element tag value ++ rest, offset⟩ =
      .ok (tlvAt offset tag value, ⟨rest, offset + (element tag value).length⟩) := by
  have hpos := element_length_pos tag value
  have hne : (⟨element tag value ++ rest, offset⟩ : Cursor).isEmpty = false := by
    rw [Cursor.isEmpty, List.isEmpty_eq_false_iff]
    intro hnil
    rw [(List.append_eq_nil_iff.mp hnil).1] at hpos
    exact absurd hpos (by decide)
  rw [Cursor.nextRequired, hne]
  exact nextInner_element h offset rest

theorem next_of_nextRequired {c c' : Cursor} {t : Tlv} (h : c.nextRequired = .ok (t, c')) :
    c.next = some (.ok t, c') := by
  rw [Cursor.nextRequired] at h
  rw [Cursor.next]
  split at h
  · cases h
  · rename_i hne
    rw [if_neg hne, h]

theorem peekTag_of_nextRequired {c c' : Cursor} {t : Tlv} (h : c.nextRequired = .ok (t, c')) :
    c.peekTag = some t.tag := by
  rw [Cursor.peekTag, next_of_nextRequired h]

section Reread

variable {α β : Type} {f : Tlv → Except Error α} {w : Except Error Bytes}
  {ws : List (Except Error Bytes)} {tag : Tag} {Q : α → Prop}

/-- The reader has returned this value. -/
def Reads (f : Tlv → Except Error α) (a : α) : Prop := ∃ t, t.tag.number ≤ u32Max ∧ f t = .ok a

/-- Whatever is written is one element with this tag, and reading it again gets something of
which `Q` holds. -/
def Rereads (w : Except Error Bytes) (tag : Tag) (f : Tlv → Except Error α) (Q : α → Prop) : Prop :=
  ∀ bs, w = .ok bs → ∃ value, bs = element tag value ∧ Fitting (tag, value) ∧
    ∀ offset, Gets (f (tlvAt offset tag value)) Q

theorem Rereads.mono {P : α → Prop} (h : Rereads w tag f P) (hpq : ∀ a, P a → Q a) :
    Rereads w tag f Q := by
  intro bs hbs
  obtain ⟨value, rfl, hfit, hread⟩ := h bs hbs
  refine ⟨value, rfl, hfit, fun offset => ?_⟩
  obtain ⟨a, ha, hp⟩ := hread offset
  exact ⟨a, ha, hpq a hp⟩

/-- A reader that hands on what another one reads. -/
theorem Rereads.map {f' : Tlv → Except Error β} {g : α → β} {P : β → Prop} (h : Rereads w tag f Q)
    (hf : ∀ offset value, f' (tlvAt offset tag value) = g <$> f (tlvAt offset tag value))
    (hg : ∀ a, Q a → P (g a)) : Rereads w tag f' P := by
  intro bs hbs
  obtain ⟨value, rfl, hfit, hread⟩ := h bs hbs
  refine ⟨value, rfl, hfit, fun offset => ?_⟩
  rw [hf]
  exact gets_map (hread offset) hg

theorem Rereads.lift {P : β → Prop} (g : α → β) (h : Rereads w tag f Q) (hg : ∀ a, Q a → P (g a)) :
    Rereads w tag (fun t => g <$> f t) P :=
  h.map (fun _ _ => rfl) hg

theorem Rereads.bind {f' : Tlv → Except Error β} {k : α → Except Error β} {P : β → Prop}
    (h : Rereads w tag f Q)
    (hf : ∀ offset value, f' (tlvAt offset tag value) = f (tlvAt offset tag value) >>= k)
    (hk : ∀ a, Q a → Gets (k a) P) : Rereads w tag f' P := by
  intro bs hbs
  obtain ⟨value, rfl, hfit, hread⟩ := h bs hbs
  refine ⟨value, rfl, hfit, fun offset => ?_⟩
  rw [hf]
  exact gets_bind (hread offset) hk

theorem rereads_primitive {value : Bytes} (htag : tag.number ≤ u32Max)
    (h : ∀ offset, Gets (f (tlvAt offset tag value)) Q) :
    Rereads (primitive tag value) tag f Q := by
  intro bs hbs
  obtain ⟨hlen, rfl⟩ := primitive_ok hbs
  exact ⟨value, rfl, ⟨htag, hlen⟩, h⟩

variable {children : Except Error Bytes} {v : Int} {c : Cursor} {bs : Bytes} {tag' : Tag}
  {cond : Prop}

theorem rereads_constructed (htag : tag.number ≤ u32Max)
    (h : ∀ value offset, children = .ok value → Gets (f (tlvAt offset tag value)) Q) :
    Rereads (constructed tag children) tag f Q := by
  intro bs hbs
  obtain ⟨value, hvalue, hlen, rfl⟩ := constructed_ok hbs
  exact ⟨value, rfl, ⟨htag, hlen⟩, fun offset => h value offset hvalue⟩

theorem rereads_contents (htag : tag.number ≤ u32Max) :
    Rereads (constructed tag children) tag Except.ok (fun t => children = .ok t.children.rest) :=
  rereads_constructed htag fun _ _ hvalue => gets_ok hvalue

theorem rereads_whole {t : Tlv} (htag : t.tag.number ≤ u32Max) :
    Rereads (primitive t.tag t.value) t.tag Except.ok (fun t' => t'.unplaced = t.unplaced) :=
  rereads_primitive htag fun _ => gets_ok rfl

/-! ### Values -/

theorem rereads_visibleString {s : Bytes} (htag : tag.number ≤ u32Max) :
    Rereads (visibleString tag s) tag Tlv.visibleString (· = s) := by
  unfold visibleString
  split
  · rename_i hascii
    refine rereads_primitive htag fun offset => ?_
    rw [Tlv.visibleString, tlvAt_value, if_pos hascii]
    exact gets_ok rfl
  · intro bs hbs
    cases hbs

theorem rereads_boolean {b : Bool} (htag : tag.number ≤ u32Max) :
    Rereads (boolean tag b) tag Tlv.boolean (· = b) := by
  refine rereads_primitive htag fun offset => ?_
  cases b
  · exact gets_ok rfl
  · exact gets_ok rfl

theorem rereads_bitString {unused : UInt8} {contents : Bytes} (htag : tag.number ≤ u32Max) :
    Rereads (bitString tag unused contents) tag Tlv.bitString (· = (unused, contents)) := by
  intro bs hbs
  obtain ⟨hunused, hlen, rfl⟩ := bitString_ok hbs
  exact ⟨_, rfl, ⟨htag, hlen⟩, fun offset => ⟨_, bitString_tlvAt hunused offset tag, rfl⟩⟩

theorem integerI64_minimal (h : Reads Tlv.integerI64 v) (offset : Nat) (tag : Tag) :
    (tlvAt offset tag (minimalSigned (i64Octets v))).integerI64 = .ok v := by
  obtain ⟨t, -, ht⟩ := h
  obtain ⟨hlow, hhigh⟩ := integerI64_range ht
  exact integerI64_minimalSigned hlow hhigh offset tag

theorem rereads_integer (h : Reads Tlv.integerI64 v) (htag : tag.number ≤ u32Max) :
    Rereads (integer tag v) tag Tlv.integerI64 (· = v) :=
  rereads_primitive htag fun offset => ⟨v, integerI64_minimal h offset tag, rfl⟩

theorem rereads_integerI32 (h : Reads Tlv.integerI32 v) (htag : tag.number ≤ u32Max) :
    Rereads (integer tag v) tag Tlv.integerI32 (· = v) := by
  obtain ⟨t, hnumber, ht⟩ := h
  obtain ⟨v', hv', hrange⟩ := bind_ok ht
  split at hrange
  · rename_i hfits
    cases hrange
    refine rereads_primitive htag fun offset => ⟨v, ?_, rfl⟩
    rw [Tlv.integerI32, integerI64_minimal ⟨t, hnumber, hv'⟩]
    exact if_pos hfits
  · cases hrange

theorem unsignedLenientU32_le {v : Nat} (h : Reads Tlv.unsignedLenientU32 v) : v ≤ u32Max := by
  obtain ⟨t, -, ht⟩ := h
  obtain ⟨v', -, hrange⟩ := bind_ok ht
  split at hrange
  · cases hrange
    assumption
  · cases hrange

theorem rereads_unsigned {v : Nat} (h : Reads Tlv.unsignedLenientU32 v)
    (htag : tag.number ≤ u32Max) : Rereads (unsigned tag v) tag Tlv.unsignedLenientU32 (· = v) :=
  rereads_primitive htag fun offset =>
    ⟨v, unsignedLenientU32_contents (unsignedLenientU32_le h) offset tag, rfl⟩

/-! ### A cursor over what was written -/

/-- No element with this tag comes first in what is written. -/
def Lacks (w : Except Error Bytes) (tag : Tag) : Prop :=
  ∀ c : Cursor, w = .ok c.rest → c.peekTag ≠ some tag

theorem cursor_cons (hc : concatM (w :: ws) = .ok c.rest) (h : Rereads w tag f Q) :
    ∃ t c', c.nextRequired = .ok (t, c') ∧ c.peekTag = some tag ∧ concatM ws = .ok c'.rest ∧
      t.tag = tag ∧ Gets (f t) Q := by
  obtain ⟨here, rest, hhere, hrest, hcat⟩ := concatM_cons_ok hc
  obtain ⟨value, rfl, hfit, hread⟩ := h here hhere
  have hcursor : c = ⟨element tag value ++ rest, c.offset⟩ := by rw [← hcat]
  have hnext : c.nextRequired = .ok (tlvAt c.offset tag value,
      ⟨rest, c.offset + (element tag value).length⟩) := by
    rw [hcursor]
    exact nextRequired_element hfit c.offset rest
  exact ⟨_, _, hnext, peekTag_of_nextRequired hnext, hrest, rfl, hread c.offset⟩

theorem concatM_single : concatM [w] = .ok bs ↔ w = .ok bs := by
  cases w with
  | error e => exact ⟨fun h => (by cases h), fun h => (by cases h)⟩
  | ok here => simp [concatM, bind, Except.bind]

theorem lacks_nil : Lacks (concatM []) tag := by
  intro c hc
  have hnil := concatM_nil_ok hc
  rw [Cursor.peekTag, Cursor.next, Cursor.isEmpty, hnil]
  simp

theorem lacks_cons (h : Rereads w tag' f Q) (hne : tag' ≠ tag) : Lacks (concatM (w :: ws)) tag := by
  intro c hc
  obtain ⟨t, c', -, hpeek, -⟩ := cursor_cons hc h
  rw [hpeek]
  exact fun heq => hne (Option.some.inj heq)

theorem concatM_nothing (h : concatM (.ok [] :: ws) = .ok bs) : concatM ws = .ok bs := by
  obtain ⟨here, rest, hhere, hrest, rfl⟩ := concatM_cons_ok h
  cases hhere
  exact hrest

theorem isEmpty_of_concatM_nil (hc : concatM [] = .ok c.rest) : c.isEmpty = true := by
  rw [Cursor.isEmpty, concatM_nil_ok hc]
  rfl

theorem lacks_nothing (hws : Lacks (concatM ws) tag) : Lacks (concatM (.ok [] :: ws)) tag :=
  fun c hc => hws c (concatM_nothing hc)

theorem lacks_optM {γ : Type} {field : Option γ} {write : γ → Except Error Bytes} {Q : γ → α → Prop}
    (h : ∀ a, field = some a → Rereads (write a) tag' f (Q a)) (hne : tag' ≠ tag)
    (hws : Lacks (concatM ws) tag) : Lacks (concatM (optM field write :: ws)) tag := by
  cases field with
  | none => exact lacks_nothing hws
  | some a => exact lacks_cons (h a rfl) hne

theorem lacks_default [Decidable cond] (h : Rereads w tag' f Q) (hne : tag' ≠ tag)
    (hws : Lacks (concatM ws) tag) : Lacks (concatM ((if cond then w else .ok []) :: ws)) tag := by
  split
  · exact lacks_cons h hne
  · exact lacks_nothing hws

theorem lacks_unless [Decidable cond] (h : Rereads w tag' f Q) (hne : tag' ≠ tag)
    (hws : Lacks (concatM ws) tag) : Lacks (concatM ((if cond then .ok [] else w) :: ws)) tag := by
  rw [← ite_not]
  exact lacks_default h hne hws

section Rules

variable {P : β → Prop} {c : Cursor} {k : Tlv × Cursor → Except Error β}

theorem gets_nextRequired (hc : concatM (w :: ws) = .ok c.rest) (h : Rereads w tag f Q)
    (hk : ∀ t c', concatM ws = .ok c'.rest → t.tag = tag → Gets (f t) Q → Gets (k (t, c')) P) :
    Gets (c.nextRequired >>= k) P := by
  obtain ⟨t, c', hnext, -, hrest, htag, hread⟩ := cursor_cons hc h
  rw [hnext]
  exact hk t c' hrest htag hread

theorem gets_nextTag (hc : concatM (w :: ws) = .ok c.rest) (h : Rereads w tag f Q)
    (hk : ∀ t c', concatM ws = .ok c'.rest → Gets (f t) Q → Gets (k (t, c')) P) :
    Gets (c.nextTag tag >>= k) P := by
  obtain ⟨t, c', hnext, -, hrest, htag, hread⟩ := cursor_cons hc h
  have htagged : c.nextTag tag = .ok (t, c') := by
    rw [Cursor.nextTag, hnext]
    simp only [bind, Except.bind, Tlv.expect, if_pos htag]
  rw [htagged]
  exact hk t c' hrest hread

theorem gets_nextIfTag {k : Option Tlv × Cursor → Except Error β}
    (hc : concatM (w :: ws) = .ok c.rest) (h : Rereads w tag f Q)
    (hk : ∀ t c', concatM ws = .ok c'.rest → t.tag = tag → Gets (f t) Q →
      Gets (k (some t, c')) P) : Gets (c.nextIfTag tag >>= k) P := by
  obtain ⟨t, c', hnext, hpeek, hrest, htag, hread⟩ := cursor_cons hc h
  have htagged : c.nextIfTag tag = .ok (some t, c') := by
    rw [Cursor.nextIfTag, if_pos hpeek, hnext]
    rfl
  rw [htagged]
  exact hk t c' hrest htag hread

theorem gets_finish {k : Unit → Except Error β} (hc : concatM [] = .ok c.rest) (hk : Gets (k ()) P) :
    Gets (c.finish >>= k) P := by
  have hfinish : c.finish = .ok () := if_pos (isEmpty_of_concatM_nil hc)
  rw [hfinish]
  exact hk

theorem gets_expect {t : Tlv} {k : Tlv → Except Error β} (htag : t.tag = tag)
    (hk : Gets (k t) P) : Gets (t.expect tag >>= k) P := by
  have hexpect : t.expect tag = .ok t := if_pos htag
  rw [hexpect]
  exact hk

theorem gets_skip {k : Option Tlv × Cursor → Except Error β} (hc : concatM ws = .ok c.rest)
    (hlacks : Lacks (concatM ws) tag) (hk : Gets (k (none, c)) P) :
    Gets (c.nextIfTag tag >>= k) P := by
  rw [Cursor.nextIfTag, if_neg (hlacks c hc)]
  exact hk

end Rules

/-! ### Lists -/

section Lists

variable {γ : Type} {Q : γ → α → Prop} {items : List γ} {write : γ → Except Error Bytes}

theorem rereads_items (h : ∀ a ∈ items, ∃ tag, Rereads (write a) tag f (Q a)) {bs : Bytes}
    (hbs : concatM (items.map write) = .ok bs) :
    ∃ es, Spells bs es ∧ ∀ offset, ∃ as, List.Forall₂ (fun t a => f t = .ok a) (tlvsAt offset es) as ∧
      List.Forall₂ Q items as := by
  induction items generalizing bs with
  | nil =>
    rw [concatM_nil_ok hbs]
    exact ⟨[], spells_nil, fun _ => ⟨[], .nil, .nil⟩⟩
  | cons a items ih =>
    obtain ⟨here, rest, hhere, hrest, rfl⟩ := concatM_cons_ok hbs
    obtain ⟨tag, hread⟩ := h a List.mem_cons_self
    obtain ⟨value, rfl, hfit, hgets⟩ := hread here hhere
    obtain ⟨es, hspells, hall⟩ := ih (fun b hb => h b (List.mem_cons_of_mem a hb)) hrest
    refine ⟨(tag, value) :: es, (spells_element hfit.1 hfit.2).append hspells, fun offset => ?_⟩
    obtain ⟨b, hb, hq⟩ := hgets offset
    obtain ⟨bs, hbs, hqs⟩ := hall (offset + (element tag value).length)
    exact ⟨b :: bs, .cons hb hbs, .cons hq hqs⟩

theorem gets_collectItems {c : Cursor} {limit : String} {max : Nat}
    (hc : concatM (items.map write) = .ok c.rest)
    (h : ∀ a ∈ items, ∃ tag, Rereads (write a) tag f (Q a)) (hmax : items.length ≤ max) :
    Gets (collectItems limit max c f) (List.Forall₂ Q items) := by
  obtain ⟨es, hspells, hall⟩ := rereads_items h hc
  obtain ⟨as, hread, hq⟩ := hall c.offset
  refine ⟨as, ?_, hq⟩
  have hcursor : c = ⟨elements es, c.offset⟩ := by rw [← hspells.1]
  rw [hcursor]
  exact collectItems_elements hspells.2 c.offset hread (by rwa [← hq.length_eq])

/-- A list under a tag of its own. -/
theorem rereads_list (limit : String) {max : Nat} {tag : Tag} (htag : tag.number ≤ u32Max)
    (h : ∀ a ∈ items, ∃ tag, Rereads (write a) tag f (Q a)) (hmax : items.length ≤ max) :
    Rereads (constructed tag (concatM (items.map write))) tag
      (fun list => collectItems limit max list.children f) (List.Forall₂ Q items) :=
  rereads_constructed htag fun value offset hvalue =>
    gets_collectItems (c := (tlvAt offset tag value).children) hvalue h hmax

/-- The body of a loop that keeps what it reads. -/
theorem foldlM_appends {ts : List Tlv} {as : List α} (out : List α)
    (h : List.Forall₂ (fun t a => f t = .ok a) ts as) :
    ts.foldlM (fun out t => do
      let a ← f t
      .ok (out ++ [a])) out = .ok (out ++ as) := by
  induction h generalizing out with
  | nil => simp [pure, Except.pure]
  | cons hhead htail ih =>
    rename_i t a ts as
    rw [List.foldlM_cons, hhead]
    have hrest := ih (out ++ [a])
    rw [List.append_assoc] at hrest
    exact hrest

theorem gets_forItems {c : Cursor} (hc : concatM (items.map write) = .ok c.rest)
    (h : ∀ a ∈ items, ∃ tag, Rereads (write a) tag f (Q a)) :
    Gets (forItems c [] (fun out t => do
      let a ← f t
      .ok (out ++ [a]))) (List.Forall₂ Q items) := by
  obtain ⟨es, hspells, hall⟩ := rereads_items h hc
  obtain ⟨as, hread, hq⟩ := hall c.offset
  refine ⟨as, ?_, hq⟩
  have hcursor : c = ⟨elements es, c.offset⟩ := by rw [← hspells.1]
  rw [hcursor, forItems_elements hspells.2]
  exact foldlM_appends [] hread

end Lists

/-! ### What has been read -/

variable {c c' : Cursor} {t : Tlv}

theorem nextRequired_number_le (h : c.nextRequired = .ok (t, c')) : t.tag.number ≤ u32Max := by
  rw [Cursor.nextRequired] at h
  split at h
  · cases h
  · exact nextInner_number_le h

theorem expect_ok {t' : Tlv} (h : t.expect tag = .ok t') : t' = t ∧ t.tag = tag := by
  unfold Tlv.expect at h
  split at h
  · rename_i htag
    exact ⟨(Except.ok.inj h).symm, htag⟩
  · cases h

theorem nextTag_ok (h : c.nextTag tag = .ok (t, c')) : t.tag = tag ∧ t.tag.number ≤ u32Max := by
  obtain ⟨⟨t', c''⟩, hnext, hrest⟩ := bind_ok h
  dsimp only at hrest
  obtain ⟨t'', hexpect, hok⟩ := bind_ok hrest
  cases hok
  obtain ⟨rfl, htag⟩ := expect_ok hexpect
  exact ⟨htag, nextRequired_number_le hnext⟩

theorem nextIfTag_some (h : c.nextIfTag tag = .ok (some t, c')) :
    t.tag = tag ∧ t.tag.number ≤ u32Max := by
  rw [Cursor.nextIfTag] at h
  split at h
  · rename_i hpeek
    obtain ⟨⟨t', c''⟩, hnext, hok⟩ := bind_ok h
    cases hok
    rw [peekTag_of_nextRequired hnext] at hpeek
    exact ⟨Option.some.inj hpeek, nextRequired_number_le hnext⟩
  · cases h

theorem nextIfTag_none (h : c.nextIfTag tag = .ok (none, c')) :
    c' = c ∧ ∀ t c'', c.nextRequired = .ok (t, c'') → t.tag ≠ tag := by
  rw [Cursor.nextIfTag] at h
  split at h
  · obtain ⟨⟨t', c''⟩, hnext, hok⟩ := bind_ok h
    cases hok
  · rename_i hpeek
    cases h
    refine ⟨rfl, fun t c'' hnext htag => hpeek ?_⟩
    rw [peekTag_of_nextRequired hnext, htag]

theorem collectItems_reads {limit : String} {max : Nat} {as : List α}
    (h : collectItems limit max c f = .ok as) : as.length ≤ max ∧ ∀ a ∈ as, Reads f a := by
  obtain ⟨hlen, hall⟩ := collectItems_ok h
  refine ⟨hlen, fun a ha => ?_⟩
  obtain ⟨n, hn, rfl⟩ := List.getElem_of_mem ha
  have hlen' : n < c.items.length := by rwa [hall.length_eq]
  obtain ⟨t, ht, hread⟩ := hall.get hlen' hn
  have hmem : .ok t ∈ c.items := ht ▸ List.get_mem _ _
  exact ⟨t, items_number_le hmem, hread⟩

theorem foldlM_reads {items : List (Except Error Tlv)} {out as : List α}
    (h : items.foldlM (fun out item => item >>= fun t => do
      let a ← f t
      .ok (out ++ [a])) out = .ok as)
    (hitems : ∀ t, Except.ok t ∈ items → t.tag.number ≤ u32Max) (hstart : ∀ a ∈ out, Reads f a) :
    ∀ a ∈ as, Reads f a := by
  induction items generalizing out with
  | nil =>
    simp only [List.foldlM_nil, pure, Except.pure, Except.ok.injEq] at h
    rwa [← h]
  | cons item items ih =>
    rw [List.foldlM_cons] at h
    obtain ⟨out', hstep, hrest⟩ := bind_ok h
    obtain ⟨t, rfl, hbody⟩ := bind_ok hstep
    change (f t >>= fun a => Except.ok (out ++ [a])) = .ok out' at hbody
    obtain ⟨a, hread, hout⟩ := bind_ok hbody
    cases hout
    refine ih hrest (fun t ht => hitems t (List.mem_cons_of_mem _ ht)) fun b hb => ?_
    rcases List.mem_append.mp hb with hb | hb
    · exact hstart b hb
    · rw [List.mem_singleton.mp hb]
      exact ⟨t, hitems t List.mem_cons_self, hread⟩

theorem forItems_reads {c : Cursor} {as : List α}
    (h : forItems c [] (fun out t => do
      let a ← f t
      .ok (out ++ [a])) = .ok as) : ∀ a ∈ as, Reads f a :=
  foldlM_reads h (fun _ => items_number_le) (by simp)

end Reread

end Iec61850.Ber
