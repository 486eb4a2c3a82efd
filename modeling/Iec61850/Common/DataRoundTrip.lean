import Iec61850.Ber.Collect
import Iec61850.Common.Data

/-!
# Data values there and back

A list of values within the limits is decoded from its own encoding, value by value
(`Value.encodeAll_renders`), and a decoder that accepts a list of values has only ever
accepted values within the limits (`collectDepth_within`).
-/

namespace Iec61850

open Theory Ber

/-! ### Values within the limits -/

/-- The tags that `DataView::from_tlv` reads as a type of its own. -/
def modelled : Nat → Bool → Bool
  | 1, true | 2, true => true
  | 3, false | 4, false | 5, false | 6, false | 7, false | 9, false => true
  | 10, false | 12, false | 16, false | 17, false => true
  | _, _ => false

/-- A time that its eight octets hold: the fraction has 24 bits on the wire and the accuracy
five, though the fields are wider. -/
structure UtcTime.Exact (t : UtcTime) : Prop where
  seconds : t.seconds < 2 ^ 32
  fraction : t.fraction < 2 ^ 24
  accuracy : t.quality.accuracy < 32

mutual

/-- A value whose members, if it has any, may be `left` levels deep. Numbers are in the range
of their Rust type, strings are ASCII or UTF-8, and lengths and counts within the limits. -/
def Value.Within (limits : Limits) : Nat → Value → Prop
  | left, .array m => m.length ≤ limits.maxDatasetMembers ∧ Value.AllWithin limits left m
  | left, .structure m => m.length ≤ limits.maxDatasetMembers ∧ Value.AllWithin limits left m
  | _, .boolean _ => True
  | _, .bitString unused bytes =>
    (unused.toNat ≤ 7 ∧ (bytes = [] → unused = 0)) ∧ bytes.length ≤ limits.maxPrimitiveLen
  | _, .integer i => -2 ^ 63 ≤ i ∧ i < 2 ^ 63
  | _, .unsigned u => u < 2 ^ 64
  | _, .float32 bits => bits < 2 ^ 32
  | _, .float64 bits => bits < 2 ^ 64
  | _, .octetString b => b.length ≤ limits.maxPrimitiveLen
  | _, .visibleString s => isAscii s = true ∧ s.length ≤ limits.maxPrimitiveLen
  | _, .mmsString s => validUtf8 s = true ∧ s.length ≤ limits.maxPrimitiveLen
  | _, .utcTime t => t.Exact
  | _, .binaryTime b => b.length ≤ limits.maxPrimitiveLen
  | _, .other n isConstructed bytes =>
    (n ≤ u32Max ∧ modelled n isConstructed = false) ∧ bytes.length ≤ limits.maxPrimitiveLen

/-- A list of values that may be `left` levels deep. -/
def Value.AllWithin (limits : Limits) : Nat → List Value → Prop
  | _, [] => True
  | left, v :: vs => 0 < left ∧ v.Within limits (left - 1) ∧ Value.AllWithin limits left vs

end

/-! ### One element -/

/-- `to_owned_depth` where members may be `left` levels deep. -/
def DataView.ownedAt (limits : Limits) (left : Nat) : DataView → Except Error Value
  | .array m => .array <$> collectDepth limits left m
  | .structure m => .structure <$> collectDepth limits left m
  | view => view.leafToOwned limits

/-- The body of the loop of `collect_depth`. -/
def readMember (limits : Limits) (left : Nat) (t : Tlv) : Except Error Value := do
  let view ← DataView.fromTlv t
  match left with
  | 0 => .error (.limitExceeded "max_depth" (limits.maxDepth + 1))
  | left + 1 => view.ownedAt limits left

theorem collectDepth_eq (limits : Limits) (left : Nat) (c : Cursor) : collectDepth limits left c =
      collectItems "max_dataset_members" limits.maxDatasetMembers c (readMember limits left) := by
  cases left with
  | zero => rw [collectDepth]; rfl
  | succ left => rw [collectDepth]; rfl

variable {len left : Nat} {limits : Limits}

theorem checkLen_ok (h : len ≤ limits.maxPrimitiveLen) : checkLen len limits = .ok () := by
  rw [checkLen, if_neg (by omega)]

theorem checkLen_le (h : checkLen len limits = .ok ()) : len ≤ limits.maxPrimitiveLen := by
  unfold checkLen at h
  split at h
  · cases h
  · omega

/-- A quality as far as its octet carries it. -/
def TimeQuality.onWire (q : TimeQuality) : TimeQuality := { q with accuracy := q.accuracy % 32 }

theorem TimeQuality.fromOctet_toOctet (q : TimeQuality) :
    TimeQuality.fromOctet q.toOctet = q.onWire := by
  obtain ⟨leap, failure, unsynchronized, accuracy⟩ := q
  rw [TimeQuality.toOctet, TimeQuality.fromOctet, toNat_ofNat8, TimeQuality.onWire]
  have hlt := Nat.mod_lt accuracy (show 32 > 0 by decide)
  generalize accuracy % 32 = accuracy at hlt
  cases leap <;> cases failure <;> cases unsynchronized <;>
    simp only [TimeQuality.mk.injEq, decide_eq_true_eq, decide_eq_false_iff_not, if_true, if_false,
      Bool.false_eq_true] <;> omega

/-- A time as far as its eight octets carry it. -/
def UtcTime.onWire (t : UtcTime) : UtcTime :=
  ⟨t.seconds % 2 ^ 32, t.fraction % 2 ^ 24, t.quality.onWire⟩

theorem UtcTime.fromOctets_toOctets (t : UtcTime) :
    UtcTime.fromOctets t.toOctets = some t.onWire := by
  have hs : beNat (beBytes 4 t.seconds) = t.seconds % 2 ^ 32 := beNat_beBytes 4 t.seconds
  have hlt : t.fraction % 2 ^ 24 < 256 ^ 3 := Nat.mod_lt _ (by decide)
  have hf : beNat (beBytes 3 (t.fraction % 2 ^ 24)) = t.fraction % 2 ^ 24 :=
    beNat_beBytes_of_lt hlt
  rw [UtcTime.toOctets, UtcTime.onWire]
  simp only [beBytes] at hs hf
  simp only [beBytes, List.cons_append, List.nil_append, UtcTime.fromOctets, hs, hf,
    TimeQuality.fromOctet_toOctet]

theorem utcTime_toOctets (t : UtcTime) (offset : Nat) (tag : Tag) :
    utcTime (tlvAt offset tag t.toOctets) = .ok t.onWire := by
  rw [utcTime, tlvAt_value, UtcTime.fromOctets_toOctets]

theorem UtcTime.Exact.onWire_eq {t : UtcTime} (h : t.Exact) : t.onWire = t := by
  obtain ⟨hseconds, hfraction, haccuracy⟩ := h
  rw [UtcTime.onWire, TimeQuality.onWire, Nat.mod_eq_of_lt hseconds, Nat.mod_eq_of_lt hfraction,
    Nat.mod_eq_of_lt haccuracy]

theorem DataView.fromTlv_other {t : Tlv} (hclass : t.tag.cls = .context)
    (h : modelled t.tag.number t.tag.constructed = false) :
    DataView.fromTlv t = .ok (.other t) := by
  rw [DataView.fromTlv, if_neg (by simp [hclass])]
  split
  all_goals first
    | rfl
    | rename_i hnumber hform
      rw [hnumber, hform] at h
      cases h

theorem readMember_of_view {t : Tlv} (view : DataView) (h : DataView.fromTlv t = .ok view) :
    readMember limits (left + 1) t = view.ownedAt limits left := by
  rw [readMember, h]
  rfl

theorem ownedAt_checked (h : len ≤ limits.maxPrimitiveLen) (v : Value) :
    (do checkLen len limits; Except.ok v) = Except.ok v := by
  rw [checkLen_ok h]
  rfl

/-! ### One element for each value -/

/-- The tag number of a raw value is a `u32`. -/
def Value.TagFits : Value → Prop
  | .other n _ _ => n ≤ u32Max
  | _ => True

theorem spells_primitive {tag : Tag} {contents bs : Bytes} (htag : tag.number ≤ u32Max)
    (h : primitive tag contents = .ok bs) : ∃ e, Spells bs [e] := by
  obtain ⟨hlen, rfl⟩ := primitive_ok h
  exact ⟨_, spells_element htag hlen⟩

theorem Value.encode_spells {v : Value} {bs : Bytes} (hfits : v.TagFits) (h : v.encode = .ok bs) :
    ∃ e, Spells bs [e] := by
  cases v with
  | array m =>
    rw [Value.encode] at h
    obtain ⟨contents, -, hlen, rfl⟩ := constructed_ok h
    exact ⟨_, spells_element (by decide) hlen⟩
  | «structure» m =>
    rw [Value.encode] at h
    obtain ⟨contents, -, hlen, rfl⟩ := constructed_ok h
    exact ⟨_, spells_element (by decide) hlen⟩
  | bitString unused bytes =>
    obtain ⟨-, hlen, rfl⟩ := bitString_ok h
    exact ⟨_, spells_element (by decide) hlen⟩
  | visibleString s =>
    rw [Value.encode, Ber.visibleString] at h
    split at h
    · exact spells_primitive (by decide) h
    · cases h
  | other n isConstructed bytes =>
    rw [Value.encode] at h
    refine spells_primitive ?_ h
    cases isConstructed <;> exact hfits
  | _ => exact spells_primitive (by decide) h

theorem Value.encodeAll_spells : ∀ (vs : List Value) (bs : Bytes), (∀ v ∈ vs, v.TagFits) →
    Value.encodeAll vs = .ok bs → ∃ es, Spells bs es ∧ es.length = vs.length := by
  intro vs
  induction vs with
  | nil =>
    intro bs _ h
    cases h
    exact ⟨[], spells_nil, rfl⟩
  | cons v vs ih =>
    intro bs hfits h
    rw [Value.encodeAll] at h
    cases hv : v.encode with
    | error e =>
      rw [hv] at h
      cases h
    | ok here =>
      cases hvs : Value.encodeAll vs with
      | error e =>
        rw [hv, hvs] at h
        cases h
      | ok rest =>
        rw [hv, hvs] at h
        cases h
        obtain ⟨e, he⟩ := Value.encode_spells (hfits v List.mem_cons_self) hv
        obtain ⟨es, hes, hlen⟩ := ih rest (fun u hu => hfits u (List.mem_cons_of_mem v hu)) hvs
        exact ⟨[e] ++ es, he.append hes, by simp [hlen]⟩

theorem Value.Within.tagFits {v : Value} (h : v.Within limits left) : v.TagFits := by
  cases v with
  | other n isConstructed bytes =>
    rw [Value.Within] at h
    exact h.1.1
  | _ => trivial

theorem Value.AllWithin.tagFits {values : List Value} (h : Value.AllWithin limits left values) :
    ∀ v ∈ values, v.TagFits := by
  induction values with
  | nil => simp
  | cons v vs ih =>
    rw [Value.AllWithin] at h
    intro u hu
    rcases List.mem_cons.mp hu with rfl | hu
    · exact h.2.1.tagFits
    · exact ih h.2.2 u hu

/-! ### What is encoded is decoded -/

section Encode

variable {limits : Limits}

mutual

/-- The encoding of a value within the limits is one element, which is read as the value. -/
theorem Value.encode_renders : ∀ (v : Value) (left : Nat), v.Within limits left →
    Renders (readMember limits (left + 1)) v.encode [v]
  | .array m, left, h => by
      rw [Value.Within] at h
      have hm := Value.encodeAll_renders m left h.2
      rw [Value.encode]
      refine renders_constructed (by decide) (fun e he => hm.error he) fun contents offset hw => ?_
      rw [readMember_of_view (.array (tlvAt offset _ contents).children) rfl,
        DataView.ownedAt, collectDepth_eq, Tlv.children, tlvAt_value, hm.collects hw _ _ h.1]
      rfl
  | .structure m, left, h => by
      rw [Value.Within] at h
      have hm := Value.encodeAll_renders m left h.2
      rw [Value.encode]
      refine renders_constructed (by decide) (fun e he => hm.error he) fun contents offset hw => ?_
      rw [readMember_of_view (.structure (tlvAt offset _ contents).children) rfl,
        DataView.ownedAt, collectDepth_eq, Tlv.children, tlvAt_value, hm.collects hw _ _ h.1]
      rfl
  | .boolean b, left, h => by
      refine renders_primitive (by decide) fun offset => ?_
      cases b <;> rfl
  | .bitString unused bytes, left, h => by
      rw [Value.Within] at h
      have hunused : ¬ (unused.toNat > 7 ∨ (bytes.isEmpty ∧ unused ≠ 0)) := by
        rintro (hmany | ⟨hempty, hne⟩)
        · exact absurd h.1.1 (by omega)
        · exact hne (h.1.2 (List.isEmpty_iff.mp hempty))
      rw [Value.encode, Ber.bitString, if_neg hunused]
      change Renders _ (primitive _ (unused :: bytes)) _
      refine renders_primitive (by decide) fun offset => ?_
      rw [readMember_of_view (.bitString unused bytes)]
      · exact ownedAt_checked h.2 _
      · change (do let (unused, bytes) ← Tlv.bitString _; Except.ok (DataView.bitString unused bytes)) = _
        rw [bitString_tlvAt hunused]
        rfl
  | .integer i, left, h => by
      rw [Value.Within] at h
      refine renders_primitive (by decide) fun offset => ?_
      rw [readMember_of_view (.integer i)]
      · rfl
      · change DataView.integer <$> Tlv.integerI64 _ = _
        rw [integerI64_minimalSigned h.1 h.2]
        rfl
  | .unsigned u, left, h => by
      rw [Value.Within] at h
      rw [Value.encode, unsigned_eq]
      refine renders_primitive (by decide) fun offset => ?_
      rw [readMember_of_view (.unsigned u)]
      · rfl
      · change DataView.unsigned <$> Tlv.unsignedLenientU64 _ = _
        rw [unsignedLenientU64_contents h]
        rfl
  | .float32 bits, left, h => by
      rw [Value.Within] at h
      refine renders_primitive (by decide) fun offset => ?_
      rw [readMember_of_view (.float32 bits)]
      · rfl
      · change (do
          let (double, bits) ← floatingPoint (tlvAt offset _ (8 :: beBytes 4 bits))
          Except.ok (if double then DataView.float64 bits else .float32 bits)) = _
        rw [floatingPoint, tlvAt_value]
        have hbits : beNat (beBytes 4 bits) = bits := beNat_beBytes_of_lt h
        simp only [beBytes_length, if_true, hbits]
        rfl
  | .float64 bits, left, h => by
      rw [Value.Within] at h
      refine renders_primitive (by decide) fun offset => ?_
      rw [readMember_of_view (.float64 bits)]
      · rfl
      · change (do
          let (double, bits) ← floatingPoint (tlvAt offset _ (11 :: beBytes 8 bits))
          Except.ok (if double then DataView.float64 bits else .float32 bits)) = _
        rw [floatingPoint, tlvAt_value]
        have hbits : beNat (beBytes 8 bits) = bits := beNat_beBytes_of_lt h
        simp only [beBytes_length, if_true, hbits]
        rfl
  | .octetString b, left, h => by
      rw [Value.Within] at h
      refine renders_primitive (by decide) fun offset => ?_
      rw [readMember_of_view (.octetString b) rfl]
      exact ownedAt_checked h _
  | .visibleString s, left, h => by
      rw [Value.Within] at h
      rw [Value.encode, Ber.visibleString, if_pos h.1]
      refine renders_primitive (by decide) fun offset => ?_
      rw [readMember_of_view (.visibleString s)]
      · exact ownedAt_checked h.2 _
      · change DataView.visibleString <$> Tlv.visibleString _ = _
        rw [Tlv.visibleString, tlvAt_value, if_pos h.1]
        rfl
  | .mmsString s, left, h => by
      rw [Value.Within] at h
      refine renders_primitive (by decide) fun offset => ?_
      rw [readMember_of_view (.mmsString s)]
      · exact ownedAt_checked h.2 _
      · change DataView.mmsString <$> utf8String _ = _
        rw [utf8String, tlvAt_value, if_pos h.1]
        rfl
  | .utcTime t, left, h => by
      rw [Value.Within] at h
      refine renders_primitive (by decide) fun offset => ?_
      rw [readMember_of_view (.utcTime t)]
      · rfl
      · change DataView.utcTime <$> Iec61850.utcTime _ = _
        rw [Iec61850.utcTime, tlvAt_value, UtcTime.fromOctets_toOctets, h.onWire_eq]
        rfl
  | .binaryTime b, left, h => by
      rw [Value.Within] at h
      refine renders_primitive (by decide) fun offset => ?_
      rw [readMember_of_view (.binaryTime b) rfl]
      exact ownedAt_checked h _
  | .other n isConstructed bytes, left, h => by
      rw [Value.Within] at h
      cases isConstructed with
      | false =>
        change Renders _ (primitive (Tag.context n) bytes) _
        refine renders_primitive h.1.1 fun offset => ?_
        rw [readMember_of_view _ (DataView.fromTlv_other rfl h.1.2)]
        exact ownedAt_checked h.2 _
      | true =>
        change Renders _ (primitive (Tag.contextConstructed n) bytes) _
        refine renders_primitive h.1.1 fun offset => ?_
        rw [readMember_of_view _ (DataView.fromTlv_other rfl h.1.2)]
        exact ownedAt_checked h.2 _

/-- The encodings of values within the limits, one after the other. -/
theorem Value.encodeAll_renders : ∀ (vs : List Value) (left : Nat), Value.AllWithin limits left vs →
    Renders (readMember limits left) (Value.encodeAll vs) vs
  | [], left, _ => renders_nothing
  | v :: vs, left, h => by
      rw [Value.AllWithin] at h
      obtain ⟨hpos, hv, hvs⟩ := h
      have hhere := Value.encode_renders v (left - 1) hv
      rw [Nat.sub_add_cancel hpos] at hhere
      exact hhere.append (Value.encodeAll_renders vs left hvs)

end

end Encode

/-! ### What is decoded is within the limits -/

theorem UtcTime.exact_of_fromOctets {bs : Bytes} {t : UtcTime} (h : UtcTime.fromOctets bs = some t) :
    t.Exact := by
  unfold UtcTime.fromOctets at h
  split at h
  · rename_i a b c d e f g q
    have hseconds := beNat_lt [a, b, c, d]
    have hfraction := beNat_lt [e, f, g]
    simp only [List.length_cons, List.length_nil] at hseconds hfraction
    rw [Option.some.injEq] at h
    subst h
    refine ⟨?_, ?_, Nat.mod_lt _ (by decide)⟩
    · change beNat [a, b, c, d] < 2 ^ 32
      omega
    · change beNat [e, f, g] < 2 ^ 24
      omega
  · cases h

theorem floatingPoint_range {t : Tlv} {double : Bool} {bits : Nat}
    (h : floatingPoint t = .ok (double, bits)) : bits < 2 ^ (if double then 64 else 32) := by
  unfold floatingPoint at h
  split at h
  · split at h
    · rename_i hlen
      cases h
      have hlt := beNat_lt_of_length (Nat.le_of_eq hlen)
      simpa using hlt
    · cases h
  · split at h
    · rename_i hlen
      cases h
      have hlt := beNat_lt_of_length (Nat.le_of_eq hlen)
      simpa using hlt
    · cases h
  · cases h

/-- What a view shows is in the range of its type. -/
def DataView.InRange : DataView → Prop
  | .bitString unused bytes => unused.toNat ≤ 7 ∧ (bytes = [] → unused = 0)
  | .integer i => -2 ^ 63 ≤ i ∧ i < 2 ^ 63
  | .unsigned u => u < 2 ^ 64
  | .float32 bits => bits < 2 ^ 32
  | .float64 bits => bits < 2 ^ 64
  | .visibleString s => isAscii s = true
  | .mmsString s => validUtf8 s = true
  | .utcTime t => t.Exact
  | .other t => t.tag.number ≤ u32Max ∧ modelled t.tag.number t.tag.constructed = false
  | _ => True

theorem DataView.fromTlv_inRange {t : Tlv} {view : DataView} (h : DataView.fromTlv t = .ok view)
    (htag : t.tag.number ≤ u32Max) : view.InRange := by
  unfold DataView.fromTlv at h
  split at h
  · cases h
  split at h
  · cases h
    trivial
  · cases h
    trivial
  · obtain ⟨b, -, rfl⟩ := map_ok h
    trivial
  · cases hbits : t.bitString with
    | error e =>
      rw [hbits] at h
      cases h
    | ok read =>
      obtain ⟨unused, bytes⟩ := read
      rw [hbits] at h
      cases h
      exact bitString_reads hbits
  · obtain ⟨i, hi, rfl⟩ := map_ok h
    exact integerI64_range hi
  · obtain ⟨u, hu, rfl⟩ := map_ok h
    exact unsignedLenientU64_range hu
  · cases hfloat : floatingPoint t with
    | error e =>
      rw [hfloat] at h
      cases h
    | ok read =>
      obtain ⟨double, bits⟩ := read
      have hrange := floatingPoint_range hfloat
      rw [hfloat] at h
      cases h
      cases double
      · exact hrange
      · exact hrange
  · cases h
    trivial
  · obtain ⟨s, hs, rfl⟩ := map_ok h
    unfold Tlv.visibleString at hs
    split at hs
    · rename_i hascii
      cases hs
      exact hascii
    · cases hs
  · obtain ⟨s, hs, rfl⟩ := map_ok h
    unfold utf8String at hs
    split at hs
    · rename_i hutf8
      cases hs
      exact hutf8
    · cases hs
  · obtain ⟨u, hu, rfl⟩ := map_ok h
    unfold Iec61850.utcTime at hu
    split at hu
    · rename_i hoctets
      cases hu
      exact UtcTime.exact_of_fromOctets hoctets
    · cases hu
  · cases h
    trivial
  · cases h
    refine ⟨htag, ?_⟩
    unfold modelled
    split
    all_goals simp_all

section Decode

variable {limits : Limits}

theorem checked_ok {len : Nat} {v v' : Value}
    (h : (do checkLen len limits; Except.ok v) = Except.ok v') :
    len ≤ limits.maxPrimitiveLen ∧ v = v' := by
  cases hlen : checkLen len limits with
  | error e =>
    rw [hlen] at h
    cases h
  | ok =>
    rw [hlen] at h
    cases h
    exact ⟨checkLen_le hlen, rfl⟩

theorem DataView.leafToOwned_within {view : DataView} {v : Value} (hrange : view.InRange)
    (h : view.leafToOwned limits = .ok v) (left : Nat) : v.Within limits left := by
  cases view with
  | array m =>
    cases h
    rw [Value.Within]
    exact ⟨Nat.zero_le _, by rw [Value.AllWithin]; trivial⟩
  | «structure» m =>
    cases h
    rw [Value.Within]
    exact ⟨Nat.zero_le _, by rw [Value.AllWithin]; trivial⟩
  | boolean b =>
    cases h
    rw [Value.Within]
    trivial
  | bitString unused bytes =>
    obtain ⟨hlen, rfl⟩ := checked_ok h
    rw [Value.Within]
    exact ⟨hrange, hlen⟩
  | integer i =>
    cases h
    rw [Value.Within]
    exact hrange
  | unsigned u =>
    cases h
    rw [Value.Within]
    exact hrange
  | float32 bits =>
    cases h
    rw [Value.Within]
    exact hrange
  | float64 bits =>
    cases h
    rw [Value.Within]
    exact hrange
  | octetString b =>
    obtain ⟨hlen, rfl⟩ := checked_ok h
    rw [Value.Within]
    exact hlen
  | visibleString s =>
    obtain ⟨hlen, rfl⟩ := checked_ok h
    rw [Value.Within]
    exact ⟨hrange, hlen⟩
  | mmsString s =>
    obtain ⟨hlen, rfl⟩ := checked_ok h
    rw [Value.Within]
    exact ⟨hrange, hlen⟩
  | utcTime t =>
    cases h
    rw [Value.Within]
    exact hrange
  | binaryTime b =>
    obtain ⟨hlen, rfl⟩ := checked_ok h
    rw [Value.Within]
    exact hlen
  | other t =>
    obtain ⟨hlen, rfl⟩ := checked_ok h
    rw [Value.Within]
    exact ⟨hrange, hlen⟩

theorem allWithin_of_items {left : Nat} {items : List (Except Error Tlv)} {vs : List Value}
    (h : List.Forall₂ (fun item v => ∃ t, item = .ok t ∧ readMember limits left t = .ok v) items vs)
    (hread : ∀ t v, .ok t ∈ items → readMember limits left t = .ok v →
      0 < left ∧ v.Within limits (left - 1)) : Value.AllWithin limits left vs := by
  induction h with
  | nil =>
    rw [Value.AllWithin]
    trivial
  | cons hhead htail ih =>
    obtain ⟨t, rfl, hv⟩ := hhead
    obtain ⟨hpos, hwithin⟩ := hread t _ List.mem_cons_self hv
    rw [Value.AllWithin]
    exact ⟨hpos, hwithin, ih fun t' v' ht' => hread t' v' (List.mem_cons_of_mem _ ht')⟩

/-- Every list of values that is accepted is within the limits. -/
theorem collectDepth_within : ∀ (left : Nat) (c : Cursor) (vs : List Value),
    collectDepth limits left c = .ok vs →
      vs.length ≤ limits.maxDatasetMembers ∧ Value.AllWithin limits left vs := by
  intro left
  induction left with
  | zero =>
    intro c vs h
    rw [collectDepth_eq] at h
    obtain ⟨hlen, hall⟩ := collectItems_ok h
    refine ⟨hlen, allWithin_of_items hall fun t v _ hv => ?_⟩
    unfold readMember at hv
    cases hview : DataView.fromTlv t with
    | error e =>
      rw [hview] at hv
      cases hv
    | ok view =>
      rw [hview] at hv
      cases hv
  | succ left ih =>
    intro c vs h
    rw [collectDepth_eq] at h
    obtain ⟨hlen, hall⟩ := collectItems_ok h
    refine ⟨hlen, allWithin_of_items hall fun t v ht hv => ⟨Nat.succ_pos left, ?_⟩⟩
    cases hview : DataView.fromTlv t with
    | error e =>
      rw [readMember, hview] at hv
      cases hv
    | ok view =>
      have hrange := DataView.fromTlv_inRange hview (items_number_le ht)
      rw [readMember_of_view view hview] at hv
      rw [Nat.add_sub_cancel]
      unfold DataView.ownedAt at hv
      split at hv
      · obtain ⟨m, hm, rfl⟩ := map_ok hv
        rw [Value.Within]
        exact ih _ _ hm
      · obtain ⟨m, hm, rfl⟩ := map_ok hv
        rw [Value.Within]
        exact ih _ _ hm
      · exact DataView.leafToOwned_within hrange hv left

end Decode

/-! ### Lists of values -/

/-- The encoding of the values, unless it outgrows a length field, is decoded as them. -/
def RoundTrips (limits : Limits) (vs : List Value) : Prop :=
  match Value.encodeAll vs with
  | .ok bytes => decodeAll bytes limits = .ok vs
  | .error e => e = lengthExceeded

theorem roundTrips_of_within {limits : Limits} {vs : List Value}
    (hcount : vs.length ≤ limits.maxDatasetMembers)
    (h : Value.AllWithin limits (limits.maxDepth + 1) vs) : RoundTrips limits vs := by
  have hrenders := Value.encodeAll_renders vs _ h
  unfold RoundTrips
  cases hencode : Value.encodeAll vs with
  | error e => exact hrenders.error hencode
  | ok bytes =>
    have hcollects := hrenders.collects hencode 0 "max_dataset_members" hcount
    rw [← collectDepth_eq] at hcollects
    exact hcollects

/-- Values within the limits are decoded from their encoding as they were, and so is every
list of values that was decoded from any octets at all. -/
theorem data_round_trip (limits : Limits) :
    (∀ vs : List Value, vs.length ≤ limits.maxDatasetMembers →
      Value.AllWithin limits (limits.maxDepth + 1) vs → RoundTrips limits vs) ∧
    ∀ (octets : Bytes) (vs : List Value), decodeAll octets limits = .ok vs →
      RoundTrips limits vs := by
  refine ⟨fun vs hcount h => roundTrips_of_within hcount h, fun octets vs h => ?_⟩
  obtain ⟨hcount, hwithin⟩ := collectDepth_within _ _ _ h
  exact roundTrips_of_within hcount hwithin

/-- A nested value, and a number that was decoded from a form the encoder does not use. -/
theorem data_round_trip_nested :
    RoundTrips Limits.default [.structure [.boolean true, .bitString 6 [0x80], .array []],
      .utcTime ⟨100, 8388608, .synchronized⟩, .other 8 true [1, 2]] ∧
    RoundTrips Limits.default [.unsigned 255] := by
  refine ⟨(data_round_trip Limits.default).1 _ (by decide) ?_,
    (data_round_trip Limits.default).2 [0x86, 0x01, 0xFF] _ rfl⟩
  simp only [Value.AllWithin, Value.Within]
  refine ⟨by decide, ⟨by decide, by decide, trivial, by decide, by decide, by decide, ?_⟩,
    by decide, ⟨by decide, by decide, by decide⟩, by decide, by decide, trivial⟩
  exact ⟨⟨by decide, trivial⟩, trivial⟩

/-- The fraction of a time is wider than what is sent of it. -/
theorem wide_fraction_is_cut :
    ∃ bytes, Value.encodeAll [.utcTime ⟨100, 2 ^ 24, .synchronized⟩] = .ok bytes ∧
      decodeAll bytes Limits.default = .ok [.utcTime ⟨100, 0, .synchronized⟩] ∧
      ¬ RoundTrips Limits.default [.utcTime ⟨100, 2 ^ 24, .synchronized⟩] := by
  refine ⟨[0x91, 8, 0, 0, 0, 100, 0, 0, 0, 0x9F], rfl, rfl, ?_⟩
  intro h
  change Except.ok [Value.utcTime ⟨100, 0, .synchronized⟩] = _ at h
  simp at h

end Iec61850
