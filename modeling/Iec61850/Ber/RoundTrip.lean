import Iec61850.Ber.Sizes

/-!
# Reading back what was written

An element that the writer produced is the next element the cursor yields, with its tag, its
contents and its offsets, whatever follows it (`nextInner_element`). The codecs above write
sequences of elements (`elements`) and read them with a cursor, so that no proof of theirs
looks into tag and length octets again.
-/

namespace Iec61850.Ber

open Theory

/-! ### Tags -/

/-- The number that base-128 groups spell, most significant first. -/
def groupValue (gs : List Nat) : Nat := gs.foldl (fun acc g => acc * 128 + g) 0

theorem foldl_groups (gs : List Nat) (start : Nat) :
    gs.foldl (fun acc g => acc * 128 + g) start = start * 128 ^ gs.length + groupValue gs := by
  induction gs generalizing start with
  | nil => simp [groupValue]
  | cons g gs ih =>
    simp only [groupValue, List.foldl_cons, List.length_cons]
    rw [ih, ih (0 * 128 + g)]
    simp only [Nat.pow_succ, Nat.add_mul, Nat.zero_mul, Nat.zero_add]
    rw [Nat.mul_assoc, Nat.mul_comm 128]
    omega

theorem groupValue_append_singleton (gs : List Nat) (g : Nat) :
    groupValue (gs ++ [g]) = groupValue gs * 128 + g := by
  simp [groupValue]

theorem tagGroups_value {fuel v : Nat} (h : v < 128 ^ fuel) :
    groupValue (tagGroups fuel v).reverse = v := by
  induction fuel generalizing v with
  | zero =>
    have hv : v = 0 := by simpa using h
    simp [tagGroups, groupValue, hv]
  | succ fuel ih =>
    rw [tagGroups, List.reverse_cons, groupValue_append_singleton]
    split
    · simp only [List.reverse_nil, groupValue, List.foldl_nil]
      omega
    · have hlt : v / 128 < 128 ^ fuel := by
        rw [Nat.div_lt_iff_lt_mul (by omega)]
        rwa [Nat.pow_succ] at h
      rw [ih hlt]
      omega

theorem tagGroups_lt (fuel v : Nat) : ∀ g ∈ tagGroups fuel v, g < 128 := by
  induction fuel generalizing v with
  | zero => simp [tagGroups]
  | succ fuel ih =>
    intro g hg
    rw [tagGroups, List.mem_cons] at hg
    rcases hg with rfl | hg
    · omega
    · split at hg
      · simp at hg
      · exact ih (v / 128) g hg

theorem tagGroups_getLast {fuel v : Nat} (hv : 0 < v) (h : v < 128 ^ fuel) :
    ∃ gs last, tagGroups fuel v = gs ++ [last] ∧ last ≠ 0 := by
  induction fuel generalizing v with
  | zero => simp at h; omega
  | succ fuel ih =>
    rw [tagGroups]
    split
    · exact ⟨[], v % 128, rfl, by omega⟩
    · have hlt : v / 128 < 128 ^ fuel := by
        rw [Nat.div_lt_iff_lt_mul (by omega)]
        rwa [Nat.pow_succ] at h
      obtain ⟨gs, last, heq, hne⟩ := ih (by omega) hlt
      exact ⟨v % 128 :: gs, last, by rw [heq]; rfl, hne⟩

theorem Cursor.highTag_groups (start : Nat) (gs : List Nat) (hne : gs ≠ []) (hlt : ∀ g ∈ gs, g < 128) :
    ∀ (left : Nat) (isFirst : Bool) (number pos : Nat) (rest : Bytes), gs.length ≤ left →
      (isFirst = true → gs.head hne ≠ 0) → number * 128 ^ gs.length + groupValue gs ≤ u32Max →
      Cursor.highTag start left isFirst number pos (groupOctets gs ++ rest) =
        .ok (number * 128 ^ gs.length + groupValue gs, pos + gs.length, rest) := by
  induction gs with
  | nil => exact absurd rfl hne
  | cons g gs ih =>
    intro left isFirst number pos rest hleft hfirst hle
    obtain ⟨left, rfl⟩ : ∃ l, left = l + 1 := ⟨left - 1, by
      simp only [List.length_cons] at hleft
      omega⟩
    have hg : g < 128 := hlt g List.mem_cons_self
    have hvalue : groupValue (g :: gs) = g * 128 ^ gs.length + groupValue gs := by
      have := foldl_groups gs (0 * 128 + g)
      simpa [groupValue] using this
    have hnumber : number ≤ u32Max / 128 := by
      have hpow : 0 < 128 ^ gs.length := Nat.pow_pos (by omega)
      rw [Nat.le_div_iff_mul_le (by omega)]
      have h1 : number * 128 * 1 ≤ number * 128 * 128 ^ gs.length := Nat.mul_le_mul_left _ hpow
      rw [List.length_cons, Nat.pow_succ, Nat.mul_comm (128 ^ gs.length), ← Nat.mul_assoc] at hle
      omega
    cases gs with
    | nil =>
      have hbyte : (UInt8.ofNat g).toNat = g := by rw [toNat_ofNat8]; omega
      have h1 : ¬ (isFirst = true ∧ g = 128) := by omega
      have h2 : ¬ number > u32Max / 128 := by omega
      have h3 : g / 128 = 0 := by omega
      have h4 : g % 128 = g := by omega
      simp only [groupOctets, List.cons_append, List.nil_append, Cursor.highTag, hbyte]
      rw [if_neg h1, if_neg h2, if_pos h3, h4]
      simp [groupValue]
    | cons g' gs =>
      have hbyte : (UInt8.ofNat (g + 128)).toNat = g + 128 := by rw [toNat_ofNat8]; omega
      have h1 : ¬ (isFirst = true ∧ g + 128 = 128) := by
        rintro ⟨hf, hz⟩
        exact hfirst hf (by simpa using hz)
      have h2 : ¬ number > u32Max / 128 := by omega
      have h3 : ¬ (g + 128) / 128 = 0 := by omega
      have h4 : (g + 128) % 128 = g := by omega
      have hrest := ih (by simp) (fun x hx => hlt x (List.mem_cons_of_mem g hx)) left false
        (number * 128 + g) (pos + 1) rest (by simpa using hleft) (by simp) (by
          rw [hvalue, List.length_cons, Nat.pow_succ, Nat.mul_comm (128 ^ (g' :: gs).length),
            ← Nat.mul_assoc] at hle
          rw [Nat.add_mul]
          omega)
      simp only [groupOctets, List.cons_append, Cursor.highTag, hbyte]
      rw [if_neg h1, if_neg h2, if_neg h3, h4, hrest, hvalue]
      rw [List.length_cons (a := g), Nat.pow_succ, Nat.mul_comm (128 ^ (g' :: gs).length),
        ← Nat.mul_assoc, Nat.add_mul, Nat.add_assoc, Nat.add_assoc pos, Nat.add_comm 1]

/-- The five bits of the first identifier octet that carry a low number. -/
def Tag.low (tag : Tag) : Nat := if tag.number < 31 then tag.number else 31

theorem Tag.low_le (tag : Tag) : tag.low ≤ 31 := by
  unfold Tag.low
  split <;> omega

/-- The two class bits. -/
def Class.bits : Class → Nat
  | .universal => 0
  | .application => 1
  | .context => 2
  | .priv => 3

theorem firstOctet_toNat (tag : Tag) :
    tag.firstOctet.toNat = tag.cls.bits * 64 + (if tag.constructed then 32 else 0) + tag.low := by
  have hlow := tag.low_le
  have hcon : (if tag.constructed then 32 else 0) ≤ 32 := by split <;> omega
  unfold Tag.firstOctet
  rw [toNat_ofNat8]
  change (_ + _ + tag.low) % 256 = _
  cases tag.cls <;> simp only [Class.bits] <;> omega

theorem classOf_firstOctet (tag : Tag) : Cursor.classOf tag.firstOctet = tag.cls := by
  have hlow := tag.low_le
  have hcon : (if tag.constructed then 32 else 0) ≤ 32 := by split <;> omega
  have hdiv : tag.firstOctet.toNat / 64 = tag.cls.bits := by
    rw [firstOctet_toNat]
    omega
  rw [Cursor.classOf, hdiv]
  cases tag.cls <;> rfl

theorem constructed_firstOctet (tag : Tag) :
    decide (tag.firstOctet.toNat / 32 % 2 = 1) = tag.constructed := by
  have hlow := tag.low_le
  rw [firstOctet_toNat]
  cases tag.constructed <;> simp <;> omega

theorem low_firstOctet (tag : Tag) : tag.firstOctet.toNat % 32 = tag.low := by
  have hlow := tag.low_le
  rw [firstOctet_toNat]
  cases tag.constructed <;> simp <;> omega

theorem readTag_writeTag {tag : Tag} (h : tag.number ≤ u32Max) (pos : Nat) (rest : Bytes) :
    Cursor.readTag pos (writeTag tag ++ rest) = .ok (tag, pos + (writeTag tag).length, rest) := by
  unfold writeTag
  rw [List.cons_append, Cursor.readTag]
  simp only [classOf_firstOctet, constructed_firstOctet, low_firstOctet]
  by_cases hlow : tag.number < 31
  · have hlow' : tag.low = tag.number := by rw [Tag.low, if_pos hlow]
    rw [if_neg (by omega), if_neg (by omega), hlow']
    rfl
  · have hlow' : tag.low = 31 := by rw [Tag.low, if_neg hlow]
    have hbound : tag.number < 128 ^ 5 := Nat.lt_of_le_of_lt h (by decide)
    obtain ⟨gs, last, hgroups, hlast⟩ := tagGroups_getLast (by omega) hbound
    have hne : (tagGroups 5 tag.number).reverse ≠ [] := by
      rw [hgroups]
      simp
    have hhead : (tagGroups 5 tag.number).reverse.head hne ≠ 0 := by
      simp only [hgroups, List.reverse_append, List.reverse_singleton, List.singleton_append,
        List.head_cons]
      exact hlast
    have hvalue := tagGroups_value hbound
    have hread := Cursor.highTag_groups pos (tagGroups 5 tag.number).reverse hne
      (fun g hg => tagGroups_lt 5 tag.number g (List.mem_reverse.mp hg)) 5 true 0 (pos + 1) rest
      (by
        rw [List.length_reverse]
        exact tagGroups_length_le 5 tag.number)
      (fun _ => hhead) (by
        rw [hvalue, Nat.zero_mul, Nat.zero_add]
        exact h)
    rw [hvalue, Nat.zero_mul, Nat.zero_add] at hread
    rw [if_pos hlow', if_pos (by omega), hread]
    simp only [bind, Except.bind, if_neg hlow, List.length_cons, groupOctets_length]
    rw [Nat.add_assoc, Nat.add_comm 1]

/-! ### Lengths -/

theorem beNat_dropWhile_zero (bs : Bytes) : beNat (bs.dropWhile (· == 0)) = beNat bs := by
  induction bs with
  | nil => rfl
  | cons b bs ih =>
    by_cases hb : b = 0
    · rw [List.dropWhile_cons_of_pos (by simp [hb]), ih, beNat_cons, hb]
      simp
    · rw [List.dropWhile_cons_of_neg (by simpa using hb)]

/-- The octets of a length field. -/
def lengthField (len : Nat) : Bytes :=
  if len < 128 then [UInt8.ofNat len]
  else UInt8.ofNat (128 + (lengthOctets len).length) :: lengthOctets len

theorem encodeLength_eq {len : Nat} (h : len ≤ u32Max) : encodeLength len = .ok (lengthField len) := by
  unfold encodeLength lengthField
  split
  · rfl
  · rw [if_neg (by omega)]

theorem encodeLength_ok {len : Nat} {bs : Bytes} (h : encodeLength len = .ok bs) :
    len ≤ u32Max ∧ bs = lengthField len := by
  have hle : len ≤ u32Max := by
    unfold encodeLength at h
    split at h
    · have : (127 : Nat) ≤ u32Max := by decide
      omega
    · split at h
      · cases h
      · omega
  rw [encodeLength_eq hle, Except.ok.injEq] at h
  exact ⟨hle, h.symm⟩

/-- The length is read back, and what follows it is left. -/
theorem readLength_lengthField {len : Nat} (h : len ≤ u32Max) (pos : Nat) (rest : Bytes) :
    Cursor.readLength pos (lengthField len ++ rest) =
      .ok (len, pos + (lengthField len).length, rest) := by
  unfold lengthField
  by_cases hshort : len < 128
  · have hbyte : (UInt8.ofNat len).toNat = len := by rw [toNat_ofNat8]; omega
    rw [if_pos hshort, List.singleton_append, Cursor.readLength, hbyte, if_pos hshort]
    rfl
  · have hle := lengthOctets_length_le len
    have hvalue : beNat (lengthOctets len) = len := by
      rw [lengthOctets, beNat_dropWhile_zero, beNat_beBytes_of_lt]
      exact Nat.lt_of_le_of_lt h (by decide)
    have hpos : 0 < (lengthOctets len).length := by
      cases hoctets : lengthOctets len with
      | nil =>
        rw [hoctets] at hvalue
        simp only [beNat, List.foldl_nil] at hvalue
        omega
      | cons b bs => simp
    have hbyte : (UInt8.ofNat (128 + (lengthOctets len).length)).toNat =
        128 + (lengthOctets len).length := by
      rw [toNat_ofNat8]
      omega
    rw [if_neg hshort, List.cons_append, Cursor.readLength, hbyte, if_neg (by omega)]
    have hn : (128 + (lengthOctets len).length) % 128 = (lengthOctets len).length := by omega
    simp only [hn]
    rw [if_neg (by omega), if_neg (by omega), if_neg (by simp), List.take_left' rfl,
      List.drop_left' rfl, hvalue]
    simp only [List.length_cons]
    rw [Nat.add_assoc, Nat.add_comm 1]

/-! ### Elements -/

/-- The octets of one element. -/
def element (tag : Tag) (value : Bytes) : Bytes := writeTag tag ++ lengthField value.length ++ value

/-- The element as the cursor yields it at an offset. -/
def tlvAt (offset : Nat) (tag : Tag) (value : Bytes) : Tlv :=
  ⟨tag, value, offset, offset + (writeTag tag).length + (lengthField value.length).length⟩

@[simp] theorem tlvAt_tag (offset : Nat) (tag : Tag) (value : Bytes) :
    (tlvAt offset tag value).tag = tag := rfl

@[simp] theorem tlvAt_value (offset : Nat) (tag : Tag) (value : Bytes) :
    (tlvAt offset tag value).value = value := rfl

/-- A tag number and a length that fit their fields. -/
def Fitting (e : Tag × Bytes) : Prop := e.1.number ≤ u32Max ∧ e.2.length ≤ u32Max

theorem element_length_pos (tag : Tag) (value : Bytes) : 0 < (element tag value).length := by
  simp [element, writeTag]

/-- What was written is the next element, whatever follows it. -/
theorem nextInner_element {tag : Tag} {value : Bytes} (h : Fitting (tag, value)) (offset : Nat)
    (rest : Bytes) : Cursor.nextInner ⟨element tag value ++ rest, offset⟩ =
      .ok (tlvAt offset tag value, ⟨rest, offset + (element tag value).length⟩) := by
  unfold element
  rw [Cursor.nextInner, List.append_assoc, List.append_assoc, readTag_writeTag h.1]
  simp only [bind, Except.bind]
  rw [readLength_lengthField h.2]
  simp only
  rw [if_neg (by simp), List.take_left' rfl, List.drop_left' rfl]
  simp only [tlvAt, List.length_append, Nat.add_assoc]

/-- A sequence of elements. -/
def elements (es : List (Tag × Bytes)) : Bytes := (es.map (fun e => element e.1 e.2)).flatten

@[simp] theorem elements_nil : elements [] = [] := rfl

theorem elements_cons (e : Tag × Bytes) (es : List (Tag × Bytes)) :
    elements (e :: es) = element e.1 e.2 ++ elements es := rfl

theorem elements_append (es fs : List (Tag × Bytes)) :
    elements (es ++ fs) = elements es ++ elements fs := by
  simp [elements]

theorem isEmpty_elements_cons (e : Tag × Bytes) (es : List (Tag × Bytes)) (offset : Nat) :
    (⟨elements (e :: es), offset⟩ : Cursor).isEmpty = false := by
  have h := element_length_pos e.1 e.2
  rw [Cursor.isEmpty, elements_cons, List.isEmpty_eq_false_iff]
  intro hnil
  rw [List.append_eq_nil_iff] at hnil
  rw [hnil.1] at h
  exact absurd h (by decide)

section Cursor

variable {e : Tag × Bytes} {es : List (Tag × Bytes)} (offset : Nat)

theorem nextRequired_elements (h : Fitting e) : Cursor.nextRequired ⟨elements (e :: es), offset⟩ =
      .ok (tlvAt offset e.1 e.2, ⟨elements es, offset + (element e.1 e.2).length⟩) := by
  rw [Cursor.nextRequired, isEmpty_elements_cons, elements_cons]
  exact nextInner_element h offset _

theorem next_elements (h : Fitting e) : Cursor.next ⟨elements (e :: es), offset⟩ =
      some (.ok (tlvAt offset e.1 e.2), ⟨elements es, offset + (element e.1 e.2).length⟩) := by
  rw [Cursor.next, isEmpty_elements_cons, elements_cons, nextInner_element h offset]
  rfl

theorem nextTag_elements (h : Fitting e) : Cursor.nextTag ⟨elements (e :: es), offset⟩ e.1 =
      .ok (tlvAt offset e.1 e.2, ⟨elements es, offset + (element e.1 e.2).length⟩) := by
  rw [Cursor.nextTag, nextRequired_elements offset h]
  simp [bind, Except.bind, Tlv.expect]

theorem nextIfTag_elements (h : Fitting e) : Cursor.nextIfTag ⟨elements (e :: es), offset⟩ e.1 =
      .ok (some (tlvAt offset e.1 e.2), ⟨elements es, offset + (element e.1 e.2).length⟩) := by
  rw [Cursor.nextIfTag, Cursor.peekTag, next_elements offset h, nextRequired_elements offset h]
  simp [bind, Except.bind]

theorem nextIfTag_elements_ne {tag : Tag} (h : Fitting e) (hne : e.1 ≠ tag) :
    Cursor.nextIfTag ⟨elements (e :: es), offset⟩ tag =
      .ok (none, ⟨elements (e :: es), offset⟩) := by
  rw [Cursor.nextIfTag, Cursor.peekTag, next_elements offset h]
  simp [hne]

theorem nextIfTag_nil (tag : Tag) :
    Cursor.nextIfTag ⟨[], offset⟩ tag = .ok (none, ⟨[], offset⟩) := by
  rfl

end Cursor

/-- The elements as the cursor yields them, one after the other. -/
def tlvsAt : Nat → List (Tag × Bytes) → List Tlv
  | _, [] => []
  | offset, e :: es => tlvAt offset e.1 e.2 :: tlvsAt (offset + (element e.1 e.2).length) es

theorem itemsFuel_elements {es : List (Tag × Bytes)} (h : ∀ e ∈ es, Fitting e) :
    ∀ (fuel offset : Nat), es.length ≤ fuel →
      Cursor.itemsFuel fuel ⟨elements es, offset⟩ = (tlvsAt offset es).map .ok := by
  induction es with
  | nil =>
    intro fuel offset _
    cases fuel <;> rfl
  | cons e es ih =>
    intro fuel offset hfuel
    obtain ⟨fuel, rfl⟩ : ∃ f, fuel = f + 1 := ⟨fuel - 1, by
      rw [List.length_cons] at hfuel
      omega⟩
    rw [Cursor.itemsFuel, next_elements offset (h e List.mem_cons_self)]
    simp only [tlvsAt, List.map_cons]
    rw [ih (fun x hx => h x (List.mem_cons_of_mem e hx)) fuel _ (by simpa using hfuel)]

theorem length_le_elements (es : List (Tag × Bytes)) : es.length ≤ (elements es).length := by
  induction es with
  | nil => exact Nat.le_refl 0
  | cons e es ih =>
    have h := element_length_pos e.1 e.2
    rw [elements_cons, List.length_append, List.length_cons]
    omega

theorem items_elements {es : List (Tag × Bytes)} (h : ∀ e ∈ es, Fitting e) (offset : Nat) :
    Cursor.items ⟨elements es, offset⟩ = (tlvsAt offset es).map .ok :=
  itemsFuel_elements h _ _ (length_le_elements es)

/-- A loop over written elements is a fold over them. -/
theorem forItems_elements {σ : Type} {es : List (Tag × Bytes)} (h : ∀ e ∈ es, Fitting e)
    (offset : Nat) (init : σ) (f : σ → Tlv → Except Error σ) :
    forItems ⟨elements es, offset⟩ init f = (tlvsAt offset es).foldlM f init := by
  rw [forItems, items_elements h, List.foldlM_map]
  rfl

end Iec61850.Ber
