import Iec61850.Mms.AlternateReread
import Iec61850.Mms.TypesReread

/-!
# Which type specifications come back

`TypeSpec::write` and `TypeSpec::parse` of `proto/mms/typespec.rs` over all trees. The writer
counts nothing and the reader counts levels and components: a tree is read back exactly if it is
within both limits and no leaf is an `Other` with the number of a choice that is modelled.
-/

namespace Iec61850.Mms.TypeSpec

open Theory Ber

/-! ### Trees -/

mutual

/-- Something that holds at every node of a tree. -/
def Everywhere (p : TypeSpec → Prop) : TypeSpec → Prop
  | .array packed elements elementType =>
    p (.array packed elements elementType) ∧ elementType.Everywhere p
  | .structure packed components =>
    p (.structure packed components) ∧ EverywhereIn p components
  | x => p x

/-- … and at every node of the components. -/
def EverywhereIn (p : TypeSpec → Prop) : List (Option Bytes × TypeSpec) → Prop
  | [] => True
  | (_, type) :: rest => type.Everywhere p ∧ EverywhereIn p rest

end

mutual

/-- How many levels there are below the topmost one. -/
def height : TypeSpec → Nat
  | .array _ _ elementType => elementType.height + 1
  | .structure _ components => heightIn components
  | _ => 0

/-- The levels of the components. -/
def heightIn : List (Option Bytes × TypeSpec) → Nat
  | [] => 0
  | (_, type) :: rest => max (type.height + 1) (heightIn rest)

end

theorem everywhereIn_iff {p : TypeSpec → Prop} {cs : List (Option Bytes × TypeSpec)} :
    EverywhereIn p cs ↔ ∀ c ∈ cs, c.2.Everywhere p := by
  induction cs with
  | nil => simp [EverywhereIn]
  | cons c cs ih =>
    obtain ⟨name, type⟩ := c
    simp [EverywhereIn, ih]

theorem heightIn_le_iff {cs : List (Option Bytes × TypeSpec)} {n : Nat} :
    heightIn cs ≤ n ↔ ∀ c ∈ cs, c.2.height < n := by
  induction cs with
  | nil => simp [heightIn]
  | cons c cs ih =>
    obtain ⟨name, type⟩ := c
    simp [heightIn, ih, Nat.succ_le_iff]

/-- The numbers of the choices that are modelled. -/
def modelled : List Nat := [0, 1, 2, 3, 4, 5, 6, 7, 9, 10, 11, 12, 13, 16, 17]

/-- What the types of the fields allow: `i32` sizes, `u8` widths, `u32` counts and tags. -/
def InRange : TypeSpec → Prop
  | .array _ elements _ => elements ≤ u32Max
  | .bitString n | .octetString n | .visibleString n | .mmsString n => -2 ^ 31 ≤ n ∧ n < 2 ^ 31
  | .integer w | .unsigned w | .bcd w => w ≤ 255
  | .floatingPoint f e => f ≤ 255 ∧ e ≤ 255
  | .other n => n ≤ u32Max
  | _ => True

/-- What the reader lets through at one node. -/
def Admitted (limits : Limits) : TypeSpec → Prop
  | .structure _ components => components.length ≤ limits.maxDatasetMembers
  | .other n => n ∉ modelled
  | _ => True

/-! ### What is read -/

section Read

variable {limits : Limits}

theorem parseDepth_admitted {left : Nat} {t : Tlv} {x : TypeSpec}
    (h : parseDepth limits left t = .ok x) : x.height < left ∧ x.Everywhere (Admitted limits) := by
  induction left generalizing t x with
  | zero => cases h
  | succ left ih =>
    unfold parseDepth at h
    split at h
    · cases h
    split at h
    · obtain ⟨child, -, h⟩ := bind_ok h
      obtain ⟨name, -, h⟩ := bind_ok h
      cases name <;> cases h <;> simp [height, Everywhere, Admitted]
    · obtain ⟨⟨packed, c⟩, -, h⟩ := bind_ok h
      dsimp only at h
      obtain ⟨⟨elements, c'⟩, -, h⟩ := bind_ok h
      dsimp only at h
      obtain ⟨⟨e, c''⟩, -, h⟩ := bind_ok h
      dsimp only at h
      obtain ⟨elementType, htype, h⟩ := bind_ok h
      obtain rfl := Except.ok.inj h
      obtain ⟨hheight, hadmitted⟩ := ih htype
      exact ⟨Nat.succ_lt_succ hheight, trivial, hadmitted⟩
    · obtain ⟨⟨packed, c⟩, -, h⟩ := bind_ok h
      dsimp only at h
      obtain ⟨⟨list, c'⟩, -, h⟩ := bind_ok h
      dsimp only at h
      obtain ⟨components, hcomponents, h⟩ := bind_ok h
      obtain rfl := Except.ok.inj h
      obtain ⟨hmax, hall⟩ := collectItems_reads hcomponents
      have hbelow : ∀ c ∈ components, c.2.height < left ∧ c.2.Everywhere (Admitted limits) := by
        intro c hc
        obtain ⟨e, -, hread⟩ := parseComponent_reads (hall c hc)
        exact ih hread
      refine ⟨Nat.lt_succ_iff.mpr (heightIn_le_iff.mpr fun c hc => (hbelow c hc).1), hmax, ?_⟩
      exact everywhereIn_iff.mpr fun c hc => (hbelow c hc).2
    all_goals
      repeat first
        | (obtain ⟨_, -, h⟩ := map_ok h)
        | (obtain ⟨⟨_, _⟩, -, h⟩ := bind_ok h; dsimp only at h)
        | (obtain ⟨_, -, h⟩ := bind_ok h)
      cases h
      simp_all [height, Everywhere, Admitted, modelled]

end Read

/-! ### What is written -/

section Written

variable {limits : Limits} {left : Nat}

theorem reads_width {w : Nat} (h : w ≤ 255) : Reads width w := by
  obtain ⟨t, htag, hread⟩ := Alternate.reads_unsigned (v := w) (by unfold u32Max; omega)
  refine ⟨t, htag, ?_⟩
  unfold width
  rw [hread]
  exact if_pos h

theorem reads_integerI32 {n : Int} (h : -2 ^ 31 ≤ n ∧ n < 2 ^ 31) : Reads Tlv.integerI32 n := by
  obtain ⟨hlow, hhigh⟩ := h
  have hread := integerI64_minimalSigned (v := n) (by omega) (by omega) 0 (Tag.context 0)
  refine ⟨tlvAt 0 (Tag.context 0) (minimalSigned (i64Octets n)), by simp [Tag.context], ?_⟩
  unfold Tlv.integerI32
  rw [hread]
  exact if_pos ⟨hlow, by omega⟩

theorem other_rereads {n : Nat} (hn : n ≤ u32Max) (h : n ∉ modelled) :
    Rereads (other n).write (other n).tag (parseDepth limits (left + 1)) (· = other n) := by
  refine rereads_primitive hn fun offset => ?_
  unfold parseDepth
  rw [tlvAt_tag, if_neg (by simp [Tag.context])]
  simp only [Tag.context]
  simp only [modelled, List.mem_cons, List.not_mem_nil, or_false, not_or] at h
  split <;> simp_all
  exact gets_ok rfl

theorem parseDepth_written {x : TypeSpec} (hrange : x.Everywhere InRange)
    (hheight : x.height < left) (h : x.Everywhere (Admitted limits)) :
    Rereads x.write x.tag (parseDepth limits left) (· = x) := by
  induction left generalizing x with
  | zero => omega
  | succ left ih =>
    cases x with
    | named domain item => exact named_rereads domain item
    | array packed elements elementType =>
      obtain ⟨hcount, hrange⟩ := hrange
      obtain ⟨-, h⟩ := h
      exact array_rereads (Alternate.reads_unsigned hcount)
        (ih hrange (Nat.lt_of_succ_lt_succ hheight) h)
    | «structure» packed components =>
      obtain ⟨-, hrange⟩ := hrange
      obtain ⟨hmax, h⟩ := h
      rw [everywhereIn_iff] at hrange h
      have hbelow := heightIn_le_iff.mp (Nat.lt_succ_iff.mp hheight)
      exact structure_rereads hmax fun c hc => ih (hrange c hc) (hbelow c hc) (h c hc)
    | floatingPoint f e =>
      obtain ⟨hf, he⟩ := hrange
      exact floatingPoint_rereads (reads_width hf) (reads_width he)
    | boolean => exact rereads_primitive (by decide) fun offset => gets_ok rfl
    | generalizedTime => exact rereads_primitive (by decide) fun offset => gets_ok rfl
    | utcTime => exact rereads_primitive (by decide) fun offset => gets_ok rfl
    | binaryTime dated =>
      have hdated : Rereads (Ber.boolean (Tag.context 12) dated) _ _ _ :=
        rereads_boolean (by decide)
      exact hdated.map (fun _ _ => rfl) (by rintro _ rfl; rfl)
    | bitString n =>
      have hn : Rereads (Ber.integer (Tag.context 4) n) _ _ _ :=
        rereads_integerI32 (reads_integerI32 hrange) (by decide)
      exact hn.map (fun _ _ => rfl) (by rintro _ rfl; rfl)
    | octetString n =>
      have hn : Rereads (Ber.integer (Tag.context 9) n) _ _ _ :=
        rereads_integerI32 (reads_integerI32 hrange) (by decide)
      exact hn.map (fun _ _ => rfl) (by rintro _ rfl; rfl)
    | visibleString n =>
      have hn : Rereads (Ber.integer (Tag.context 10) n) _ _ _ :=
        rereads_integerI32 (reads_integerI32 hrange) (by decide)
      exact hn.map (fun _ _ => rfl) (by rintro _ rfl; rfl)
    | mmsString n =>
      have hn : Rereads (Ber.integer (Tag.context 16) n) _ _ _ :=
        rereads_integerI32 (reads_integerI32 hrange) (by decide)
      exact hn.map (fun _ _ => rfl) (by rintro _ rfl; rfl)
    | integer w =>
      have hw : Rereads (Ber.unsigned (Tag.context 5) w) _ _ _ :=
        rereads_width (reads_width hrange) (by decide)
      exact hw.map (fun _ _ => rfl) (by rintro _ rfl; rfl)
    | unsigned w =>
      have hw : Rereads (Ber.unsigned (Tag.context 6) w) _ _ _ :=
        rereads_width (reads_width hrange) (by decide)
      exact hw.map (fun _ _ => rfl) (by rintro _ rfl; rfl)
    | bcd n =>
      have hw : Rereads (Ber.unsigned (Tag.context 13) n) _ _ _ :=
        rereads_width (reads_width hrange) (by decide)
      exact hw.map (fun _ _ => rfl) (by rintro _ rfl; rfl)
    | other n => exact other_rereads hrange h

end Written

/-! ### A whole tree -/

/-- What is written is read back from wherever it stands, exactly if it is within the depth and
member limits and every `Other` in it is a choice that is not modelled. -/
theorem parse_write_iff {limits : Limits} {x : TypeSpec} (hrange : x.Everywhere InRange)
    {bs : Bytes} (h : x.write = .ok bs) (rest : Bytes) (offset : Nat) :
    (do
      let (t, _) ← Cursor.nextRequired ⟨bs ++ rest, offset⟩
      parse t limits) = .ok x ↔
      x.height ≤ limits.maxDepth ∧ x.Everywhere (Admitted limits) := by
  constructor
  · intro hread
    obtain ⟨⟨t, c⟩, -, hparse⟩ := bind_ok hread
    obtain ⟨hheight, hadmitted⟩ := parseDepth_admitted hparse
    exact ⟨Nat.lt_succ_iff.mp hheight, hadmitted⟩
  · rintro ⟨hheight, hadmitted⟩
    obtain ⟨value, rfl, hfits, hread⟩ :=
      parseDepth_written hrange (Nat.lt_succ_iff.mpr hheight) hadmitted bs h
    obtain ⟨_, hparse, rfl⟩ := hread offset
    rw [nextRequired_element hfits]
    exact hparse

/-- A structure of an array of a floating point and a time. -/
theorem parse_write_iff_structure :
    ∃ bs, (TypeSpec.structure false [(some [0x66], .array true 3 (.floatingPoint 32 8)),
        (none, .utcTime)]).write = .ok bs ∧
      (do
        let (t, _) ← Cursor.nextRequired ⟨bs ++ [], 0⟩
        parse t {}) = .ok (.structure false [(some [0x66], .array true 3 (.floatingPoint 32 8)),
          (none, .utcTime)]) :=
  ⟨_, rfl, (parse_write_iff (by simp [Everywhere, EverywhereIn, InRange, u32Max]) rfl [] 0).2
    ⟨by decide, by simp [Everywhere, EverywhereIn, Admitted]⟩⟩

/-- An `Other` with the number of a boolean is written, and read as a boolean. -/
theorem other_read_as_boolean :
    (other 3).write = .ok [0x83, 0] ∧
      (do
        let (t, _) ← Cursor.nextRequired ⟨[0x83, 0], 0⟩
        parse t {}) = .ok .boolean :=
  ⟨rfl, rfl⟩

end Iec61850.Mms.TypeSpec
