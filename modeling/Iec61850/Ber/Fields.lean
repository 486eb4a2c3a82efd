import Iec61850.Ber.RoundTrip
import Mathlib.Tactic.Ring

/-!
# Fields that are read back

The codecs of the upper layers write a sequence of fields with `concatM` and read it with a
loop over the elements. `Conveys w f s s'` says that whatever the write `w` produces takes
the loop with body `f` from `s` to `s'`; the rules follow the shape of the writer, so a
round trip is proved field by field, in the order in which the fields are written.
-/

namespace Iec61850.Ber

open Theory

/-! ### Successful writes -/

variable {tag : Tag} {bs contents : Bytes} {unused : UInt8} {t : Tlv} {v : Int} {value : Nat}

theorem primitive_ok {value : Bytes} (h : primitive tag value = .ok bs) :
    value.length ≤ u32Max ∧ bs = element tag value := by
  cases hlen : encodeLength value.length with
  | error e =>
    rw [primitive, hlen] at h
    cases h
  | ok len =>
    rw [primitive, hlen] at h
    obtain ⟨hle, rfl⟩ := encodeLength_ok hlen
    simp only [bind, Except.bind, Except.ok.injEq] at h
    exact ⟨hle, h.symm⟩

theorem constructed_ok {children : Except Error Bytes} (h : constructed tag children = .ok bs) :
    ∃ contents, children = .ok contents ∧ contents.length ≤ u32Max ∧ bs = element tag contents := by
  cases children with
  | error e => cases h
  | ok contents => exact ⟨contents, rfl, primitive_ok h⟩

theorem concatM_cons_ok {w : Except Error Bytes} {ws : List (Except Error Bytes)}
    (h : concatM (w :: ws) = .ok bs) :
    ∃ here rest, w = .ok here ∧ concatM ws = .ok rest ∧ bs = here ++ rest := by
  rw [concatM] at h
  cases w with
  | error e => cases h
  | ok here =>
    cases hrest : concatM ws with
    | error e =>
      rw [hrest] at h
      cases h
    | ok rest =>
      rw [hrest] at h
      simp only [bind, Except.bind, Except.ok.injEq] at h
      exact ⟨here, rest, rfl, rfl, h.symm⟩

theorem concatM_nil_ok (h : concatM [] = .ok bs) : bs = [] := by
  simpa [concatM] using h.symm

theorem bitString_ok (h : bitString tag unused contents = .ok bs) :
    ¬ (unused.toNat > 7 ∨ (contents.isEmpty ∧ unused ≠ 0)) ∧
      (unused :: contents).length ≤ u32Max ∧ bs = element tag (unused :: contents) := by
  unfold bitString at h
  split at h
  · cases h
  · rename_i hunused
    exact ⟨hunused, primitive_ok h⟩

/-! ### Values -/

/-- The number a two's complement string stands for. -/
def signedValue (bs : Bytes) : Int :=
  (beNat bs : Int) - (if (bs.headD 0).toNat ≥ 128 then 256 ^ bs.length else 0)

theorem signedValue_cons (b : UInt8) (bs : Bytes) :
    signedValue (b :: bs) =
      (beNat (b :: bs) : Int) - (if b.toNat ≥ 128 then 256 ^ (bs.length + 1) else 0) := rfl

theorem foldl_signed (bs : Bytes) (start : Int) :
    bs.foldl (fun acc b => acc * 256 + (b.toNat : Int)) start =
      start * 256 ^ bs.length + (beNat bs : Int) := by
  induction bs generalizing start with
  | nil => simp [beNat]
  | cons b bs ih =>
    rw [List.foldl_cons, ih, beNat_cons, List.length_cons]
    push_cast
    ring

theorem integerI64_eq (hne : t.value ≠ []) (hle : t.value.length ≤ 8) :
    t.integerI64 = .ok (signedValue t.value) := by
  have hcond : ¬ (t.value.isEmpty = true ∨ t.value.length > 8) := by
    rw [List.isEmpty_iff]
    rintro (hnil | hlong)
    · exact hne hnil
    · omega
  simp only [Tlv.integerI64]
  rw [if_neg hcond, foldl_signed, signedValue]
  split
  · congr 1
    ring
  · congr 1
    ring

theorem signedValue_minimalSigned (bs : Bytes) : signedValue (minimalSigned bs) = signedValue bs := by
  fun_induction minimalSigned bs with
  | case1 a b rest h ih =>
    rw [ih, signedValue_cons, signedValue_cons, beNat_cons a, List.length_cons]
    rcases h with ⟨ha, hb⟩ | ⟨ha, hb⟩
    · have h0 : a.toNat = 0 := by rw [ha]; rfl
      rw [if_neg (by omega), if_neg (by omega), h0]
      simp
    · have h255 : a.toNat = 255 := by rw [ha]; rfl
      rw [if_pos hb, if_pos (by omega), h255]
      push_cast
      ring
  | case2 => rfl
  | case3 => rfl

theorem minimalSigned_ne_nil (h : bs ≠ []) : minimalSigned bs ≠ [] := by
  fun_induction minimalSigned bs with
  | case1 a b rest hcond ih => exact ih (by simp)
  | case2 => simp
  | case3 => exact h

theorem signedValue_i64Octets (hlow : -2 ^ 63 ≤ v) (hhigh : v < 2 ^ 63) :
    signedValue (i64Octets v) = v := by
  have hlt : (v % 2 ^ 64).toNat < 256 ^ 8 := by omega
  have hhead : ((i64Octets v).headD 0).toNat = (v % 2 ^ 64).toNat / 256 ^ 7 := by
    simp only [i64Octets, beBytes, List.headD_cons, toNat_ofNat8]
    omega
  have hlen : (i64Octets v).length = 8 := beBytes_length 8 _
  have hvalue : beNat (i64Octets v) = (v % 2 ^ 64).toNat := beNat_beBytes_of_lt hlt
  rw [signedValue, hhead, hlen, hvalue]
  split <;> omega

theorem integerI64_minimalSigned (hlow : -2 ^ 63 ≤ v) (hhigh : v < 2 ^ 63) (offset : Nat)
    (tag : Tag) : (tlvAt offset tag (minimalSigned (i64Octets v))).integerI64 = .ok v := by
  have hlen : (i64Octets v).length = 8 := beBytes_length 8 _
  have hle := minimalSigned_length_le (i64Octets v)
  rw [integerI64_eq, tlvAt_value, signedValue_minimalSigned, signedValue_i64Octets hlow hhigh]
  · exact minimalSigned_ne_nil (by
      rw [← List.length_pos_iff, hlen]
      omega)
  · rw [tlvAt_value]
    omega

theorem beNat_zero_cons (bs : Bytes) : beNat (0 :: bs) = beNat bs := by
  rw [beNat_cons]
  simp

theorem beNat_minimalUnsigned (bs : Bytes) : beNat (minimalUnsigned bs) = beNat bs := by
  fun_induction minimalUnsigned bs with
  | case1 a b rest h ih => rw [ih, h.1, beNat_zero_cons]
  | case2 => rfl
  | case3 => rfl

theorem minimalUnsigned_length_le (bs : Bytes) : (minimalUnsigned bs).length ≤ bs.length := by
  fun_induction minimalUnsigned bs with
  | case1 a b rest h ih =>
    simp only [List.length_cons] at ih ⊢
    omega
  | case2 => exact Nat.le_refl _
  | case3 => exact Nat.le_refl _

theorem minimalUnsigned_ne_nil (h : bs ≠ []) : minimalUnsigned bs ≠ [] := by
  fun_induction minimalUnsigned bs with
  | case1 a b rest hcond ih => exact ih (by simp)
  | case2 => simp
  | case3 => exact h

/-- The contents of an unsigned number. -/
def unsignedContents (value : Nat) : Bytes :=
  if ((minimalUnsigned (beBytes 8 value)).headD 0).toNat ≥ 128 then
    0 :: minimalUnsigned (beBytes 8 value)
  else minimalUnsigned (beBytes 8 value)

theorem unsigned_eq (tag : Tag) (value : Nat) :
    unsigned tag value = primitive tag (unsignedContents value) := rfl

theorem unsignedContents_length_le (value : Nat) : (unsignedContents value).length ≤ 9 := by
  have hle := minimalUnsigned_length_le (beBytes 8 value)
  rw [beBytes_length] at hle
  unfold unsignedContents
  split
  · rw [List.length_cons]
    omega
  · omega

theorem fits_unsigned (tag : Tag) (value : Nat) : Fits (unsigned tag value) 20 :=
  fits_primitive (unsignedContents_length_le value) (by decide)

theorem fits_boolean (tag : Tag) (value : Bool) : Fits (boolean tag value) 12 :=
  fits_primitive (Nat.le_refl 1) (by decide)

theorem fits_visibleString {tag : Tag} {s : Bytes} {n : Nat} (hascii : isAscii s = true)
    (hlen : s.length ≤ n) (hn : n ≤ u32Max) : Fits (visibleString tag s) (n + 11) := by
  rw [visibleString, if_pos hascii]
  exact fits_primitive hlen hn

theorem fits_bitString (hunused : unused.toNat ≤ 7) (hempty : contents = [] → unused = 0)
    (hlen : contents.length + 1 ≤ u32Max) :
    Fits (bitString tag unused contents) (contents.length + 12) := by
  have hgood : ¬ (unused.toNat > 7 ∨ (contents.isEmpty ∧ unused ≠ 0)) := by
    rintro (hmany | ⟨hnil, hne⟩)
    · omega
    · exact hne (hempty (List.isEmpty_iff.mp hnil))
  have hfits := @fits_primitive tag (unused :: contents) _ (Nat.le_refl _) hlen
  unfold bitString
  rw [if_neg hgood]
  exact hfits

theorem unsignedLenientU64_eq (hne : t.value ≠ []) (hle : t.value.length ≤ 8) :
    t.unsignedLenientU64 = .ok (beNat t.value) := by
  unfold Tlv.unsignedLenientU64
  split
  · rename_i rest hvalue
    rw [hvalue, List.length_cons] at hle
    rw [if_neg (by omega), if_pos hle]
  · rename_i hvalue
    exact absurd hvalue hne
  · rw [if_pos hle]

theorem unsignedLenientU64_contents (h : value < 2 ^ 64) (offset : Nat) (tag : Tag) :
    (tlvAt offset tag (unsignedContents value)).unsignedLenientU64 = .ok value := by
  have hlen := minimalUnsigned_length_le (beBytes 8 value)
  have hvalue : beNat (minimalUnsigned (beBytes 8 value)) = value := by
    rw [beNat_minimalUnsigned, beNat_beBytes_of_lt h]
  have hne : minimalUnsigned (beBytes 8 value) ≠ [] := minimalUnsigned_ne_nil (by simp [beBytes])
  rw [beBytes_length] at hlen
  unfold unsignedContents
  split
  · by_cases hfull : (minimalUnsigned (beBytes 8 value)).length = 8
    · rw [Tlv.unsignedLenientU64, tlvAt_value]
      simp only [if_pos hfull, hvalue]
    · rw [unsignedLenientU64_eq (by simp), tlvAt_value, beNat_zero_cons, hvalue]
      rw [tlvAt_value, List.length_cons]
      omega
  · rw [unsignedLenientU64_eq hne hlen, tlvAt_value, hvalue]

theorem unsignedLenientU32_contents (h : value ≤ u32Max) (offset : Nat) (tag : Tag) :
    (tlvAt offset tag (unsignedContents value)).unsignedLenientU32 = .ok value := by
  rw [Tlv.unsignedLenientU32, unsignedLenientU64_contents (by
    rw [u32Max] at h
    omega)]
  exact if_pos h

theorem integerI64_unsignedContents (h : value < 2 ^ 63) (offset : Nat) (tag : Tag) :
    (tlvAt offset tag (unsignedContents value)).integerI64 = .ok (value : Int) := by
  have hlen := minimalUnsigned_length_le (beBytes 8 value)
  have hvalue : beNat (minimalUnsigned (beBytes 8 value)) = value := by
    rw [beNat_minimalUnsigned, beNat_beBytes_of_lt (by omega)]
  have hne : minimalUnsigned (beBytes 8 value) ≠ [] := minimalUnsigned_ne_nil (by simp [beBytes])
  rw [beBytes_length] at hlen
  unfold unsignedContents
  generalize minimalUnsigned (beBytes 8 value) = octets at hlen hvalue hne
  cases octets with
  | nil => exact absurd rfl hne
  | cons b bs =>
    rw [List.length_cons] at hlen
    split
    · rename_i hhead
      have hshort : bs.length ≤ 6 := by
        by_contra hlong
        have hseven : bs.length = 7 := by omega
        have hhigh : 128 * 256 ^ 7 ≤ b.toNat * 256 ^ 7 := Nat.mul_le_mul_right _ hhead
        rw [beNat_cons, hseven] at hvalue
        omega
      rw [integerI64_eq (by simp) (by simp only [tlvAt_value, List.length_cons]; omega),
        tlvAt_value, signedValue_cons, beNat_zero_cons, hvalue]
      simp
    · rename_i hhead
      rw [List.headD_cons] at hhead
      rw [integerI64_eq (by simp) (by simpa using hlen), tlvAt_value, signedValue_cons,
        if_neg hhead, hvalue]
      simp

/-- A bit string is read back. -/
theorem bitString_tlvAt (h : ¬ (unused.toNat > 7 ∨ (contents.isEmpty ∧ unused ≠ 0))) (offset : Nat)
    (tag : Tag) : (tlvAt offset tag (unused :: contents)).bitString = .ok (unused, contents) := by
  rw [Tlv.bitString, tlvAt_value]
  simp only
  rw [if_pos]
  rw [not_or] at h
  refine ⟨by omega, ?_⟩
  by_cases hempty : contents.isEmpty
  · exact Or.inr (by_contra fun hne => h.2 ⟨hempty, hne⟩)
  · exact Or.inl hempty

theorem integerI64_range (h : t.integerI64 = .ok v) : -2 ^ 63 ≤ v ∧ v < 2 ^ 63 := by
  by_cases hlen : t.value.isEmpty ∨ t.value.length > 8
  · rw [Tlv.integerI64, if_pos hlen] at h
    cases h
  rw [not_or] at hlen
  have hne : t.value ≠ [] := fun hnil => hlen.1 (by rw [hnil]; rfl)
  rw [integerI64_eq hne (by omega)] at h
  cases h
  cases hvalue : t.value with
  | nil => exact absurd hvalue hne
  | cons b bs =>
    rw [hvalue, List.length_cons] at hlen
    have hb : b.toNat < 256 := b.toNat_lt
    have hbs := beNat_lt bs
    have hpow : 256 ^ bs.length ≤ 256 ^ 7 := Nat.pow_le_pow_right (by decide) (by omega)
    have hsucc : (256 : Int) ^ (bs.length + 1) = (256 ^ bs.length : Nat) * 256 := by
      rw [pow_succ]
      push_cast
      rfl
    rw [signedValue_cons, beNat_cons, hsucc]
    generalize 256 ^ bs.length = p at hbs hpow
    split
    · rename_i hsign
      have hhigh : 128 * p ≤ b.toNat * p := Nat.mul_le_mul_right p hsign
      have hlow : b.toNat * p ≤ 255 * p := Nat.mul_le_mul_right p (by omega)
      push_cast
      omega
    · rename_i hsign
      have hlow : b.toNat * p ≤ 127 * p := Nat.mul_le_mul_right p (by omega)
      push_cast
      omega

theorem unsignedLenientU64_range {v : Nat} (h : t.unsignedLenientU64 = .ok v) : v < 2 ^ 64 := by
  have hwidth : (256 : Nat) ^ 8 = 2 ^ 64 := by decide
  unfold Tlv.unsignedLenientU64 at h
  rw [← hwidth]
  split at h
  · rename_i rest hvalue
    split at h
    · cases h
      exact beNat_lt_of_length (by omega)
    · split at h
      · cases h
        rw [hvalue]
        exact beNat_lt_of_length (by
          rw [List.length_cons]
          omega)
      · cases h
  · cases h
  · split at h
    · cases h
      exact beNat_lt_of_length (by omega)
    · cases h

theorem bitString_reads {bytes : Bytes} (h : t.bitString = .ok (unused, bytes)) :
    unused.toNat ≤ 7 ∧ (bytes = [] → unused = 0) := by
  unfold Tlv.bitString at h
  split at h
  · split at h
    · rename_i hcond
      cases h
      exact ⟨hcond.1, fun hnil => hcond.2.resolve_left (by simp [hnil])⟩
    · cases h
  · cases h

/-! ### Sequences of fields -/

/-- The octets are these elements, and each of them fits its length field. -/
def Spells (bs : Bytes) (es : List (Tag × Bytes)) : Prop := bs = elements es ∧ ∀ e ∈ es, Fitting e

theorem spells_nil : Spells [] [] := ⟨rfl, by simp⟩

theorem spells_element {value : Bytes} (htag : tag.number ≤ u32Max) (hlen : value.length ≤ u32Max) :
    Spells (element tag value) [(tag, value)] := by
  refine ⟨by simp [elements], fun e he => ?_⟩
  rw [List.mem_singleton] at he
  subst he
  exact ⟨htag, hlen⟩

theorem Spells.append {cs : Bytes} {es fs : List (Tag × Bytes)} (h : Spells bs es)
    (h' : Spells cs fs) : Spells (bs ++ cs) (es ++ fs) := by
  obtain ⟨rfl, hes⟩ := h
  obtain ⟨rfl, hfs⟩ := h'
  refine ⟨(elements_append es fs).symm, fun e he => ?_⟩
  rcases List.mem_append.mp he with he | he
  · exact hes e he
  · exact hfs e he

theorem tlvsAt_append (es fs : List (Tag × Bytes)) (offset : Nat) :
    tlvsAt offset (es ++ fs) = tlvsAt offset es ++ tlvsAt (offset + (elements es).length) fs := by
  induction es generalizing offset with
  | nil => rfl
  | cons e es ih =>
    rw [List.cons_append, tlvsAt, tlvsAt, ih, elements_cons, List.length_append, Nat.add_assoc]
    rfl

/-- What the write produces takes a loop with this body from one state to the other. -/
def Conveys {σ : Type} (w : Except Error Bytes) (f : σ → Tlv → Except Error σ) (s s' : σ) : Prop :=
  ∀ bs, w = .ok bs → ∃ es, Spells bs es ∧ ∀ offset, (tlvsAt offset es).foldlM f s = .ok s'

section Conveys

variable {σ : Type} {w : Except Error Bytes} {ws : List (Except Error Bytes)}
  {f : σ → Tlv → Except Error σ} {s t s' : σ} {tag : Tag}

theorem conveys_nothing : Conveys (.ok []) f s s := by
  intro bs hbs
  rw [Except.ok.injEq] at hbs
  subst hbs
  exact ⟨[], spells_nil, fun _ => rfl⟩

theorem conveys_concatM_nil : Conveys (concatM []) f s s := conveys_nothing

theorem conveys_concatM_cons (h : Conveys w f s t) (h' : Conveys (concatM ws) f t s') :
    Conveys (concatM (w :: ws)) f s s' := by
  intro bs hbs
  obtain ⟨here, rest, hhere, hrest, rfl⟩ := concatM_cons_ok hbs
  obtain ⟨es, hspells, hfold⟩ := h here hhere
  obtain ⟨fs, hspells', hfold'⟩ := h' rest hrest
  refine ⟨es ++ fs, hspells.append hspells', fun offset => ?_⟩
  rw [tlvsAt_append, List.foldlM_append, hfold]
  exact hfold' _

theorem conveys_element (value : Bytes) (hw : ∀ bs, w = .ok bs → bs = element tag value ∧
      value.length ≤ u32Max ∧ ∀ offset, f s (tlvAt offset tag value) = .ok s')
    (htag : tag.number ≤ u32Max) : Conveys w f s s' := by
  intro bs hbs
  obtain ⟨rfl, hlen, hstep⟩ := hw bs hbs
  refine ⟨[(tag, value)], spells_element htag hlen, fun offset => ?_⟩
  rw [tlvsAt, tlvsAt, List.foldlM_cons, hstep]
  rfl

theorem conveys_primitive {value : Bytes} (htag : tag.number ≤ u32Max)
    (h : ∀ offset, f s (tlvAt offset tag value) = .ok s') : Conveys (primitive tag value) f s s' := by
  refine conveys_element value (fun bs hbs => ?_) htag
  obtain ⟨hlen, rfl⟩ := primitive_ok hbs
  exact ⟨rfl, hlen, h⟩

theorem conveys_bitString {unused : UInt8} {contents : Bytes} (htag : tag.number ≤ u32Max)
    (h : ∀ tlv : Tlv, tlv.tag = tag → tlv.bitString = .ok (unused, contents) → f s tlv = .ok s') :
    Conveys (bitString tag unused contents) f s s' := by
  refine conveys_element (unused :: contents) (fun bs hbs => ?_) htag
  obtain ⟨hunused, hlen, rfl⟩ := bitString_ok hbs
  exact ⟨rfl, hlen, fun offset => h _ rfl (bitString_tlvAt hunused offset tag)⟩

theorem conveys_integer {v : Int} (hlow : -2 ^ 63 ≤ v) (hhigh : v < 2 ^ 63)
    (htag : tag.number ≤ u32Max)
    (h : ∀ tlv : Tlv, tlv.tag = tag → tlv.integerI64 = .ok v → f s tlv = .ok s') :
    Conveys (integer tag v) f s s' :=
  conveys_primitive htag fun offset => h _ rfl (integerI64_minimalSigned hlow hhigh offset tag)

theorem conveys_constructed {children : Except Error Bytes} (htag : tag.number ≤ u32Max)
    (h : ∀ contents offset, children = .ok contents →
      f s (tlvAt offset tag contents) = .ok s') : Conveys (constructed tag children) f s s' := by
  intro bs hbs
  obtain ⟨contents, hcontents, hlen, rfl⟩ := constructed_ok hbs
  refine ⟨[(tag, contents)], spells_element htag hlen, fun offset => ?_⟩
  rw [tlvsAt, tlvsAt, List.foldlM_cons, h contents offset hcontents]
  rfl

theorem conveys_optM {α : Type} {field : Option α} {write : α → Except Error Bytes}
    (hnone : field = none → s = s') (hsome : ∀ a, field = some a → Conveys (write a) f s s') :
    Conveys (optM field write) f s s' := by
  cases field with
  | none =>
    rw [hnone rfl]
    exact conveys_nothing
  | some a => exact hsome a rfl

theorem Conveys.forItems (h : Conveys w f s s') {bs : Bytes} (hw : w = .ok bs) (offset : Nat) :
    Ber.forItems ⟨bs, offset⟩ s f = .ok s' := by
  obtain ⟨es, ⟨rfl, hfit⟩, hfold⟩ := h bs hw
  rw [forItems_elements hfit]
  exact hfold offset

/-- Repeated items: each appends the value it was written from. -/
theorem conveys_items {α : Type} {items : List α} (write : α → Except Error Bytes)
    {g : List α → Tlv → Except Error (List α)}
    (h : ∀ a ∈ items, ∀ out, Conveys (write a) g out (out ++ [a])) :
    ∀ out, Conveys (concatM (items.map write)) g out (out ++ items) := by
  induction items with
  | nil =>
    intro out
    rw [List.append_nil]
    exact conveys_concatM_nil
  | cons a items ih =>
    intro out
    rw [List.map_cons]
    refine conveys_concatM_cons (h a List.mem_cons_self out) ?_
    have hrest := ih (fun b hb => h b (List.mem_cons_of_mem a hb)) (out ++ [a])
    rwa [List.append_assoc] at hrest

/-- An optional field sent as one primitive element. -/
theorem conveys_field {field : Option Bytes} (htag : tag.number ≤ u32Max)
    (hnone : field = none → s = s')
    (h : ∀ v offset, field = some v → f s (tlvAt offset tag v) = .ok s') :
    Conveys (optM field (primitive tag)) f s s' :=
  conveys_optM hnone fun v hv => conveys_primitive htag fun offset => h v offset hv

/-- An optional BIT STRING. -/
theorem conveys_bits {field : Option (UInt8 × Bytes)} (htag : tag.number ≤ u32Max)
    (hnone : field = none → s = s')
    (h : ∀ v, ∀ tlv : Tlv, field = some v → tlv.tag = tag → tlv.bitString = .ok v →
      f s tlv = .ok s') : Conveys (optM field fun v => bitString tag v.1 v.2) f s s' :=
  conveys_optM hnone fun v hv => conveys_bitString htag fun tlv => h v tlv hv

/-- A list of items in one element, which is left out when there are none. -/
theorem conveys_list {α : Type} {items : List α} (write : α → Except Error Bytes)
    (g : Nat → List α → Tlv → Except Error (List α)) (htag : tag.number ≤ u32Max)
    (hnone : items = [] → s = s')
    (hitem : ∀ a ∈ items, ∀ offset out, Conveys (write a) (g offset) out (out ++ [a]))
    (h : items ≠ [] → ∀ offset contents,
      Ber.forItems (tlvAt offset tag contents).children [] (g offset) = .ok items →
        f s (tlvAt offset tag contents) = .ok s') :
    Conveys (if items.isEmpty then .ok [] else constructed tag (concatM (items.map write)))
      f s s' := by
  split
  · rename_i hempty
    rw [hnone (List.isEmpty_iff.mp hempty)]
    exact conveys_nothing
  · rename_i hempty
    refine conveys_constructed htag fun contents offset hcontents => ?_
    refine h (fun hnil => hempty (List.isEmpty_iff.mpr hnil)) offset contents ?_
    exact (conveys_items write (fun a ha => hitem a ha offset) []).forItems hcontents _

end Conveys

/-! ### Fields read one by one -/

/-- The write produces exactly these elements. -/
def Lists (w : Except Error Bytes) (es : List (Tag × Bytes)) : Prop :=
  ∀ bs, w = .ok bs → Spells bs es

section Lists

variable {w : Except Error Bytes} {ws : List (Except Error Bytes)} {es fs : List (Tag × Bytes)}

theorem lists_concatM_nil : Lists (concatM []) [] := by
  intro bs hbs
  rw [concatM_nil_ok hbs]
  exact spells_nil

theorem lists_concatM_cons (h : Lists w es) (h' : Lists (concatM ws) fs) :
    Lists (concatM (w :: ws)) (es ++ fs) := by
  intro bs hbs
  obtain ⟨here, rest, hhere, hrest, rfl⟩ := concatM_cons_ok hbs
  exact (h here hhere).append (h' rest hrest)

theorem lists_primitive {tag : Tag} {value : Bytes} (htag : tag.number ≤ u32Max) :
    Lists (primitive tag value) [(tag, value)] := by
  intro bs hbs
  obtain ⟨hlen, rfl⟩ := primitive_ok hbs
  exact spells_element htag hlen

theorem lists_constructed {tag : Tag} {contents : Bytes} (htag : tag.number ≤ u32Max) :
    Lists (constructed tag (.ok contents)) [(tag, contents)] :=
  lists_primitive htag

end Lists

/-! ### A field under its tag -/

section Pair

variable {tag : Tag} {value bs : Bytes} {es : List (Tag × Bytes)} (offset : Nat)

theorem fitting_pair (htag : tag.number ≤ u32Max) (hlen : value.length ≤ u32Max) :
    Fitting (tag, value) := ⟨htag, hlen⟩

theorem elements_pair : element tag value ++ elements es = elements ((tag, value) :: es) := rfl

theorem elements_alone : element tag value = elements [(tag, value)] := by
  rw [← elements_pair, elements_nil, List.append_nil]

theorem nextRequired_pair (h : Fitting (tag, value)) :
    Cursor.nextRequired ⟨elements ((tag, value) :: es), offset⟩ =
      .ok (tlvAt offset tag value, ⟨elements es, offset + (element tag value).length⟩) :=
  nextRequired_elements offset h

theorem nextTag_pair (h : Fitting (tag, value)) :
    Cursor.nextTag ⟨elements ((tag, value) :: es), offset⟩ tag =
      .ok (tlvAt offset tag value, ⟨elements es, offset + (element tag value).length⟩) :=
  nextTag_elements offset h

theorem nextIfTag_pair (h : Fitting (tag, value)) :
    Cursor.nextIfTag ⟨elements ((tag, value) :: es), offset⟩ tag =
      .ok (some (tlvAt offset tag value), ⟨elements es, offset + (element tag value).length⟩) :=
  nextIfTag_elements offset h

theorem nextRequired_primitive (htag : tag.number ≤ u32Max) (h : primitive tag value = .ok bs) :
    ∃ c, Cursor.nextRequired ⟨bs, offset⟩ = .ok (tlvAt offset tag value, c) := by
  obtain ⟨hlen, rfl⟩ := primitive_ok h
  rw [elements_alone, nextRequired_pair offset (fitting_pair htag hlen)]
  exact ⟨_, rfl⟩

theorem nextRequired_constructed {children : Except Error Bytes} (htag : tag.number ≤ u32Max)
    (h : constructed tag children = .ok bs) : ∃ contents, children = .ok contents ∧
      ∀ offset, ∃ c, Cursor.nextRequired ⟨bs, offset⟩ = .ok (tlvAt offset tag contents, c) := by
  obtain ⟨contents, rfl, hlen, rfl⟩ := constructed_ok h
  exact ⟨contents, rfl, fun offset => nextRequired_primitive offset htag h⟩

end Pair

end Iec61850.Ber
