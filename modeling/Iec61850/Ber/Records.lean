import Iec61850.Ber.Fixed

/-!
# Records

A record is written as elements one after the other, some of them optional: how each of them is
written and read, where the contents of one of them are, and what the record is after they were
overwritten (`splice_placeOf`).
-/

namespace Iec61850.Ber

open Theory

/-- Elements with an optional one in front of them. -/
def optionally (tag : Tag) (field : Option Bytes) (es : List (Tag × Bytes)) : List (Tag × Bytes) :=
  (field.toList.map fun s => (tag, s)) ++ es

variable {tag : Tag} {es : List (Tag × Bytes)}

theorem forall_mem_optionally {field : Option Bytes} {P : Tag × Bytes → Prop} :
    (∀ e ∈ optionally tag field es, P e) ↔ (∀ s ∈ field, P (tag, s)) ∧ ∀ e ∈ es, P e := by
  cases field <;> simp [optionally]

/-! ### Writing -/

theorem lists_visibleString {s : Bytes} (htag : tag.number ≤ u32Max) :
    Lists (visibleString tag s) [(tag, s)] := by
  unfold visibleString
  split
  · exact lists_primitive htag
  · intro bs hbs
    cases hbs

theorem lists_unsigned {value : Nat} (htag : tag.number ≤ u32Max) :
    Lists (unsigned tag value) [(tag, unsignedContents value)] := lists_primitive htag

theorem lists_boolean {value : Bool} (htag : tag.number ≤ u32Max) :
    Lists (boolean tag value) [(tag, [if value then 1 else 0])] := lists_primitive htag

theorem lists_unsignedFixedMin {value minWidth : Nat} (htag : tag.number ≤ u32Max)
    (hvalue : value < 2 ^ 64) (hmin : minWidth ≤ 8) : Lists (unsignedFixedMin tag value minWidth)
      [(tag, beBytes (unsignedWidth value minWidth) value)] := by
  obtain ⟨hpos, hle, -, hlt⟩ := unsignedWidth_spec hvalue hmin
  rw [unsignedFixedMin, unsignedFixed_eq hpos hle hlt]
  exact lists_primitive htag

/-- An optional field is written as no element or as one. -/
theorem lists_optionally {α : Type} {tag : Tag} {field : Option α}
    {write : α → Except Error Bytes} {contents : α → Bytes}
    {ws : List (Except Error Bytes)} {es : List (Tag × Bytes)}
    (h : ∀ a, Lists (write a) [(tag, contents a)]) (h' : Lists (concatM ws) es) :
    Lists (concatM (optM field write :: ws)) (optionally tag (field.map contents) es) := by
  apply lists_concatM_cons _ h'
  cases field with
  | none =>
    intro bs hbs
    cases hbs
    exact spells_nil
  | some a => exact h a

theorem lists_optionally_self {field : Option Bytes} {write : Bytes → Except Error Bytes}
    {ws : List (Except Error Bytes)} (h : ∀ s, Lists (write s) [(tag, s)])
    (h' : Lists (concatM ws) es) :
    Lists (concatM (optM field write :: ws)) (optionally tag field es) := by
  have hlists := @lists_optionally _ tag field write id ws es h h'
  rwa [Option.map_id_fun, id] at hlists

theorem lists_cons {w : Except Error Bytes} {ws : List (Except Error Bytes)} {e : Tag × Bytes}
    (h : Lists w [e]) (h' : Lists (concatM ws) es) : Lists (concatM (w :: ws)) (e :: es) :=
  lists_concatM_cons h h'

theorem visibleString_ascii {s bs : Bytes} (h : visibleString tag s = .ok bs) :
    isAscii s = true := by
  unfold visibleString at h
  split at h
  · assumption
  · cases h

/-! ### Reading -/

section Read

variable {tag : Tag} {es : List (Tag × Bytes)} (offset : Nat)

/-- An optional element in front of elements with other tags. -/
theorem nextIfTag_optionally {field : Option Bytes}
    (hfit : ∀ e ∈ optionally tag field es, Fitting e) (hne : ∀ e ∈ es, e.1 ≠ tag) :
    Cursor.nextIfTag ⟨elements (optionally tag field es), offset⟩ tag =
      .ok (field.map (tlvAt offset tag),
        ⟨elements es, offset + (elements (optionally tag field [])).length⟩) := by
  rw [forall_mem_optionally] at hfit
  obtain ⟨hfield, hes⟩ := hfit
  cases field with
  | some s =>
    have hread : Cursor.nextIfTag ⟨elements ((tag, s) :: es), offset⟩ tag = _ :=
      nextIfTag_pair offset (hfield s rfl)
    simpa [optionally, elements] using hread
  | none =>
    cases es with
    | nil => exact nextIfTag_nil offset tag
    | cons e es =>
      have he : Fitting e := hes e List.mem_cons_self
      exact nextIfTag_elements_ne offset he (hne e List.mem_cons_self)

theorem visibleString_tlvAt (hascii : isAscii value = true) :
    (tlvAt offset tag value).visibleString = .ok value := by
  rw [Tlv.visibleString, tlvAt_value, if_pos hascii]

theorem boolean_tlvAt (b : Bool) : (tlvAt offset tag [if b then 1 else 0]).boolean = .ok b := by
  cases b <;> rfl

end Read

theorem element_le_elements {e : Tag × Bytes} {es : List (Tag × Bytes)} (h : e ∈ es) :
    e.2.length ≤ (elements es).length := by
  induction es with
  | nil => cases h
  | cons e' es ih =>
    rw [elements_cons, List.length_append]
    rcases List.mem_cons.mp h with rfl | h
    · rw [element, List.length_append]
      omega
    · have := ih h
      omega

/-! ### Places -/

/-- Where the contents of the first element with a tag are, and how long they are, in elements
that start at an offset. -/
def placeOf (tag : Tag) : Nat → List (Tag × Bytes) → Option (Nat × Nat)
  | _, [] => none
  | offset, e :: es =>
    if e.1 = tag then some ((tlvAt offset e.1 e.2).valueOffset, e.2.length)
    else placeOf tag (offset + (element e.1 e.2).length) es

/-- The contents of the first element with a tag. -/
def contentsOf (tag : Tag) : List (Tag × Bytes) → Option Bytes
  | [] => none
  | e :: es => if e.1 = tag then some e.2 else contentsOf tag es

/-- The record with other contents in the first element with a tag. -/
def replaceIn (tag : Tag) (new : Bytes) : List (Tag × Bytes) → List (Tag × Bytes)
  | [] => []
  | e :: es => if e.1 = tag then (tag, new) :: es else e :: replaceIn tag new es

section Places

variable {tag : Tag} {offset : Nat} {e : Tag × Bytes} {es fs : List (Tag × Bytes)}

variable {value : Bytes} {tag' : Tag} {field : Option Bytes} {start len : Nat}

@[simp] theorem placeOf_self : placeOf tag offset ((tag, value) :: es) =
      some ((tlvAt offset tag value).valueOffset, value.length) := by
  rw [placeOf, if_pos rfl]

theorem placeOf_cons_ne (h : e.1 ≠ tag) :
    placeOf tag offset (e :: es) = placeOf tag (offset + (element e.1 e.2).length) es := by
  rw [placeOf, if_neg h]

theorem placeOf_append_ne (h : ∀ e ∈ es, e.1 ≠ tag) :
    placeOf tag offset (es ++ fs) = placeOf tag (offset + (elements es).length) fs := by
  induction es generalizing offset with
  | nil => rfl
  | cons e es ih =>
    have hhead : e.1 ≠ tag := h e List.mem_cons_self
    have htail : ∀ e ∈ es, e.1 ≠ tag := fun e he => h e (List.mem_cons_of_mem _ he)
    rw [List.cons_append, placeOf_cons_ne hhead, ih htail, elements_cons, List.length_append,
      Nat.add_assoc]

theorem mem_optionally_ne (h : tag' ≠ tag) :
    ∀ e ∈ field.toList.map fun s => (tag', s), e.1 ≠ tag := by
  cases field <;> simp [h]

theorem placeOf_optionally_ne (h : tag' ≠ tag) : placeOf tag offset (optionally tag' field es) =
      placeOf tag (offset + (elements (optionally tag' field [])).length) es := by
  rw [optionally, placeOf_append_ne (mem_optionally_ne h), optionally, List.append_nil]

theorem placeOf_none (h : ∀ e ∈ es, e.1 ≠ tag) : placeOf tag offset es = none := by
  rw [← List.append_nil es, placeOf_append_ne h]
  rfl

theorem placeOf_optionally_self (h : ∀ e ∈ es, e.1 ≠ tag) :
    placeOf tag offset (optionally tag field es) =
      field.map fun s => ((tlvAt offset tag s).valueOffset, s.length) := by
  cases field with
  | none => exact placeOf_none h
  | some s => exact placeOf_self

/-- The element a place belongs to. -/
theorem placeOf_split (h : placeOf tag offset es = some (start, len)) :
    ∃ front value back, es = front ++ (tag, value) :: back ∧ (∀ e ∈ front, e.1 ≠ tag) ∧
      start = (tlvAt (offset + (elements front).length) tag value).valueOffset ∧
      len = value.length := by
  induction es generalizing offset with
  | nil => cases h
  | cons e es ih =>
    by_cases htag : e.1 = tag
    · obtain ⟨tag', value⟩ := e
      simp only at htag
      subst htag
      rw [placeOf_self] at h
      cases h
      refine ⟨[], value, es, rfl, ?_, rfl, rfl⟩
      intro e he
      cases he
    · rw [placeOf_cons_ne htag] at h
      obtain ⟨front, value, back, rfl, hfront, hstart, hlen⟩ := ih h
      refine ⟨e :: front, value, back, rfl, ?_, ?_, hlen⟩
      · intro e' he'
        rcases List.mem_cons.mp he' with rfl | he'
        · exact htag
        · exact hfront e' he'
      · rw [hstart, elements_cons, List.length_append, Nat.add_assoc]

theorem contentsOf_split (h : ∀ e ∈ es, e.1 ≠ tag) :
    contentsOf tag (es ++ (tag, value) :: fs) = some value := by
  induction es with
  | nil => simp [contentsOf]
  | cons e es ih =>
    have hhead : e.1 ≠ tag := h e List.mem_cons_self
    rw [List.cons_append, contentsOf, if_neg hhead]
    exact ih fun e he => h e (List.mem_cons_of_mem _ he)

theorem replaceIn_split {new : Bytes} (h : ∀ e ∈ es, e.1 ≠ tag) :
    replaceIn tag new (es ++ (tag, value) :: fs) = es ++ (tag, new) :: fs := by
  induction es with
  | nil => simp [replaceIn]
  | cons e es ih =>
    have hhead : e.1 ≠ tag := h e List.mem_cons_self
    rw [List.cons_append, replaceIn, if_neg hhead, List.cons_append]
    rw [ih fun e he => h e (List.mem_cons_of_mem _ he)]

theorem contentsOf_cons_ne (h : e.1 ≠ tag) : contentsOf tag (e :: es) = contentsOf tag es := by
  rw [contentsOf, if_neg h]

@[simp] theorem contentsOf_self : contentsOf tag ((tag, value) :: es) = some value := by
  rw [contentsOf, if_pos rfl]

theorem contentsOf_optionally_ne (h : tag' ≠ tag) :
    contentsOf tag (optionally tag' field es) = contentsOf tag es := by
  cases field with
  | none => rfl
  | some s => exact contentsOf_cons_ne h

/-- A record whose contents were overwritten where an element has them is the record with these
contents in the element. -/
theorem splice_placeOf {new : Bytes} (pre post : Bytes)
    (h : placeOf tag pre.length es = some (start, len)) (hlen : new.length = len) :
    splice (pre ++ (elements es ++ post)) start new =
      pre ++ (elements (replaceIn tag new es) ++ post) := by
  obtain ⟨front, value, back, rfl, hfront, rfl, rfl⟩ := placeOf_split h
  rw [replaceIn_split hfront]
  exact splice_elements front back pre post rfl hlen

/-- What is read where an element has its contents. -/
theorem slice_placeOf (pre post : Bytes) (h : placeOf tag pre.length es = some (start, len)) :
    ∃ value, contentsOf tag es = some value ∧ value.length = len ∧
      ∃ before after, pre ++ (elements es ++ post) = before ++ (value ++ after) ∧
        before.length = start := by
  obtain ⟨front, value, back, rfl, hfront, rfl, rfl⟩ := placeOf_split h
  refine ⟨value, contentsOf_split hfront, rfl,
    pre ++ elements front ++ writeTag tag ++ lengthField value.length, elements back ++ post, ?_, ?_⟩
  · rw [elements_append, elements_cons, element]
    simp only [List.append_assoc]
  · simp only [List.length_append, tlvAt]

/-! ### The shape of a record -/

variable {new : Bytes}

theorem replaceIn_cons_ne (h : tag' ≠ tag) :
    replaceIn tag new ((tag', value) :: es) = (tag', value) :: replaceIn tag new es := if_neg h

theorem replaceIn_optionally_ne (h : tag' ≠ tag) :
    replaceIn tag new (optionally tag' field es) = optionally tag' field (replaceIn tag new es) := by
  cases field with
  | none => rfl
  | some s => exact replaceIn_cons_ne h

theorem replaceIn_self : replaceIn tag new ((tag, value) :: es) = (tag, new) :: es := if_pos rfl

theorem replaceIn_optionally_self :
    replaceIn tag new (optionally tag (some value) es) = optionally tag (some new) es := replaceIn_self

/-- The tags of elements and the lengths of their contents, which is what places depend on. -/
def shape (es : List (Tag × Bytes)) : List (Tag × Nat) := es.map fun e => (e.1, e.2.length)

theorem shape_replaceIn (h : placeOf tag offset es = some (start, new.length)) :
    shape (replaceIn tag new es) = shape es := by
  obtain ⟨front, value, back, rfl, hfront, -, hlen⟩ := placeOf_split h
  rw [replaceIn_split hfront]
  simp [shape, hlen]

theorem of_shape (h : shape es = shape fs) : (elements es).length = (elements fs).length ∧
    ∀ tag offset, placeOf tag offset es = placeOf tag offset fs := by
  induction es generalizing fs with
  | nil =>
    obtain rfl : fs = [] := List.map_eq_nil_iff.mp h.symm
    exact ⟨rfl, fun _ _ => rfl⟩
  | cons e es ih =>
    cases fs with
    | nil => cases h
    | cons f fs =>
      rw [shape, shape, List.map_cons, List.map_cons, List.cons.injEq, Prod.mk.injEq] at h
      obtain ⟨⟨htag, hlen⟩, h⟩ := h
      obtain ⟨hrest, hplaces⟩ := ih h
      have hhere : (element e.1 e.2).length = (element f.1 f.2).length := by
        simp only [element, List.length_append, htag, hlen]
      refine ⟨?_, ?_⟩
      · rw [elements_cons, elements_cons, List.length_append, List.length_append, hhere, hrest]
      · intro tag offset
        rw [placeOf, placeOf, hhere, hplaces]
        simp only [htag, hlen, tlvAt]

theorem placeOf_shift (n : Nat) :
    placeOf tag (n + offset) es = (placeOf tag offset es).map fun place => (n + place.1, place.2) := by
  induction es generalizing offset with
  | nil => rfl
  | cons e es ih =>
    rw [placeOf, placeOf, Nat.add_assoc, ih]
    split
    · simp only [tlvAt, Option.map_some, Nat.add_assoc]
    · rfl

end Places

end Iec61850.Ber
