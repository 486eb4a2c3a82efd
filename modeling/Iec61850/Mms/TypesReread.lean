import Iec61850.Mms.Reread
import Iec61850.Mms.Types

/-!
# Type specifications, journals, files and rejects, read again

Everything but a journal entry is read again as it was. An entry without an originating
application gets the empty one when it is written (`JournalEntry.named`), and that is what is
read.
-/

namespace Iec61850.Mms

open Theory Ber

/-! ### Type specifications -/

namespace TypeSpec

/-- The tag of a type specification. -/
def tag : TypeSpec → Tag
  | .named _ _ => Tag.contextConstructed 0
  | .array _ _ _ => Tag.contextConstructed 1
  | .structure _ _ => Tag.contextConstructed 2
  | .boolean => Tag.context 3
  | .bitString _ => Tag.context 4
  | .integer _ => Tag.context 5
  | .unsigned _ => Tag.context 6
  | .floatingPoint _ _ => Tag.contextConstructed 7
  | .octetString _ => Tag.context 9
  | .visibleString _ => Tag.context 10
  | .generalizedTime => Tag.context 11
  | .binaryTime _ => Tag.context 12
  | .bcd _ => Tag.context 13
  | .mmsString _ => Tag.context 16
  | .utcTime => Tag.context 17
  | .other n => Tag.context n

section Fields

variable {β : Type} {P : β → Prop} {ws : List (Except Error Bytes)} {c : Cursor}

theorem rereads_width {v : Nat} {tag : Tag} (h : Reads width v) (htag : tag.number ≤ u32Max) :
    Rereads (Ber.unsigned tag v) tag width (· = v) := by
  obtain ⟨t, hnumber, hread⟩ := h
  obtain ⟨v', hv', hrange⟩ := bind_ok hread
  split at hrange
  · rename_i hfits
    cases hrange
    have hle := unsignedLenientU32_le ⟨t, hnumber, hv'⟩
    refine rereads_primitive htag fun offset => ?_
    refine gets_bind ⟨v, unsignedLenientU32_contents hle offset tag, rfl⟩ ?_
    rintro _ rfl
    rw [if_pos hfits]
    exact gets_ok rfl
  · cases hrange

theorem gets_nextWidth {v n : Nat} {k : Tlv × Cursor → Except Error β}
    (hc : concatM (Ber.unsigned tagInteger v :: ws) = .ok c.rest) (h : Reads width v)
    (hk : ∀ t c', concatM ws = .ok c'.rest → Gets (width t) (· = v) → Gets (k (t, c')) P) :
    Gets (nextWidth c n >>= k) P := by
  have hnext : Gets (nextWidth c n) (fun x => concatM ws = .ok x.2.rest ∧ Gets (width x.1) (· = v)) := by
    refine gets_nextRequired hc (rereads_width h (by decide)) fun t c' hrest htag hgets => ?_
    dsimp only
    rw [if_pos (Or.inl htag)]
    exact gets_ok ⟨hrest, hgets⟩
  exact gets_bind hnext fun x hx => hk x.1 x.2 hx.1 hx.2

theorem nextWidth_number_le {n : Nat} {t : Tlv} {c' : Cursor} (h : nextWidth c n = .ok (t, c')) :
    t.tag.number ≤ u32Max := by
  obtain ⟨⟨t', c''⟩, hnext, hok⟩ := bind_ok h
  dsimp only at hok
  split at hok
  · cases hok
    exact nextRequired_number_le hnext
  · cases hok

theorem gets_packedField {packed : Bool} {k : Bool × Cursor → Except Error β}
    (hc : concatM ((if packed then Ber.boolean (Tag.context 0) true else .ok []) :: ws) = .ok c.rest)
    (hlacks : Lacks (concatM ws) (Tag.context 0))
    (hk : ∀ c', concatM ws = .ok c'.rest → Gets (k (packed, c')) P) :
    Gets (packedField c >>= k) P := by
  have hfield : Gets (packedField c) (fun x => concatM ws = .ok x.2.rest ∧ x.1 = packed) := by
    refine gets_default (a := packed) false hc (fun hpacked => ?_) (fun hpacked => ?_) hlacks
      fun b c' hrest hb => gets_ok ⟨hrest, hb⟩
    · rw [hpacked]
      exact rereads_boolean (by decide)
    · simpa using hpacked
  refine gets_bind hfield ?_
  rintro ⟨_, c'⟩ ⟨hrest, rfl⟩
  exact hk c' hrest

end Fields

/-! ### Components -/

/-- One component of a structure type. -/
def writeComponent (c : Option Bytes × TypeSpec) : Except Error Bytes :=
  constructed tagSequence (concatM [
    optM c.1 (Ber.visibleString (Tag.context 0)), constructed (Tag.contextConstructed 1) c.2.write])

theorem writeComponents_eq (cs : List (Option Bytes × TypeSpec)) :
    writeComponents cs = concatM (cs.map writeComponent) := by
  induction cs with
  | nil => rfl
  | cons c cs ih =>
    obtain ⟨name, type⟩ := c
    rw [writeComponents, ih]
    rfl

/-- The reader of one component, whose type is read with `f`. -/
def parseComponent (f : Tlv → Except Error TypeSpec) (item : Tlv) :
    Except Error (Option Bytes × TypeSpec) := do
  let item ← item.expect tagSequence
  let (name, m) ← optional item.children (Tag.context 0) Tlv.visibleString
  let (e, _) ← required m (Tag.contextConstructed 1) firstChild
  let type ← f e
  .ok (name, type)

theorem component_rereads {f : Tlv → Except Error TypeSpec} {c : Option Bytes × TypeSpec}
    {tag : Tag} (h : Rereads c.2.write tag f (· = c.2)) :
    Rereads (writeComponent c) tagSequence (parseComponent f) (· = c) := by
  refine rereads_constructed (by decide) fun value offset hvalue => gets_expect rfl ?_
  have htype : Rereads (constructed (Tag.contextConstructed 1) c.2.write) _ _ _ :=
    rereads_firstChild h (by decide)
  refine gets_optional (c := (tlvAt offset _ value).children) hvalue
    (fun s _ => rereads_visibleString (by decide)) (lacks_cons htype (by decide)) ?_
  intro name m hm hname
  refine gets_required hm htype fun e m hm he => gets_bind he.2 ?_
  rintro _ htype
  exact gets_ok (Prod.ext (eq_of_rel hname) htype)

theorem parseComponent_reads {f : Tlv → Except Error TypeSpec} {c : Option Bytes × TypeSpec}
    (h : Reads (parseComponent f) c) : Reads f c.2 := by
  obtain ⟨item, -, hread⟩ := h
  obtain ⟨item', -, hrest⟩ := bind_ok hread
  obtain ⟨⟨name, m⟩, -, hrest⟩ := bind_ok hrest
  dsimp only at hrest
  obtain ⟨⟨e, m'⟩, he, hrest⟩ := bind_ok hrest
  dsimp only at hrest
  obtain ⟨type, htype, hok⟩ := bind_ok hrest
  cases hok
  obtain ⟨t, -, hchild⟩ := required_reads he
  exact ⟨e, firstChild_number_le hchild, htype⟩

/-! ### One level -/

section Level

variable {limits : Limits} {left : Nat}

theorem named_rereads (domain : Option Bytes) (item : Bytes) :
    Rereads (named domain item).write (named domain item).tag (parseDepth limits (left + 1))
      (· = named domain item) := by
  cases domain with
  | none =>
    have hname : Rereads (constructed (Tag.contextConstructed 0)
      (ObjectName.vmdSpecific item).write) _ _ _ :=
        rereads_firstChild (ObjectName.rereads _) (by decide)
    refine hname.bind (fun _ _ => rfl) fun child hchild => gets_bind hchild.2 ?_
    rintro _ rfl
    exact gets_ok rfl
  | some domain =>
    have hname : Rereads (constructed (Tag.contextConstructed 0)
      (ObjectName.domainSpecific domain item).write) _ _ _ :=
        rereads_firstChild (ObjectName.rereads _) (by decide)
    refine hname.bind (fun _ _ => rfl) fun child hchild => gets_bind hchild.2 ?_
    rintro _ rfl
    exact gets_ok rfl

theorem array_rereads {packed : Bool} {elements : Nat} {elementType : TypeSpec} {tag : Tag}
    (helements : Reads Tlv.unsignedLenientU32 elements)
    (htype : Rereads elementType.write tag (parseDepth limits left) (· = elementType)) :
    Rereads (array packed elements elementType).write (array packed elements elementType).tag
      (parseDepth limits (left + 1)) (· = array packed elements elementType) := by
  refine rereads_constructed (by decide) fun value offset hvalue => ?_
  refine gets_packedField (c := (tlvAt offset _ value).children) hvalue
    (lacks_cons (rereads_unsigned helements (by decide)) (by decide)) ?_
  intro c hc
  refine gets_required hc (rereads_unsigned helements (by decide)) ?_
  rintro _ c' hc' rfl
  refine gets_required hc' (rereads_firstChild htype (by decide)) ?_
  intro e _ _ he
  refine gets_bind he.2 ?_
  rintro _ rfl
  exact gets_ok rfl

theorem structure_rereads {packed : Bool} {components : List (Option Bytes × TypeSpec)}
    (hmax : components.length ≤ limits.maxDatasetMembers) (hcomponents : ∀ c ∈ components,
      Rereads c.2.write c.2.tag (parseDepth limits left) (· = c.2)) :
    Rereads (TypeSpec.structure packed components).write (TypeSpec.structure packed components).tag
      (parseDepth limits (left + 1)) (· = TypeSpec.structure packed components) := by
  have hlist : Rereads (constructed (Tag.contextConstructed 1) (writeComponents components))
      _ _ _ := rereads_contents (by decide)
  refine rereads_constructed (by decide) fun value offset hvalue => ?_
  refine gets_packedField (c := (tlvAt offset _ value).children) hvalue
    (lacks_cons hlist (by decide)) ?_
  intro c hc
  refine gets_nextTag hc hlist fun list c hc hgets => ?_
  have hcontents := of_gets_ok hgets
  rw [writeComponents_eq] at hcontents
  refine gets_bind (gets_collectItems hcontents
    (fun c hc => ⟨_, component_rereads (hcomponents c hc)⟩) hmax) ?_
  intro components' hall
  rw [eq_of_forall₂ hall]
  exact gets_ok rfl

theorem floatingPoint_rereads {f e : Nat} (hf : Reads width f) (he : Reads width e) :
    Rereads (floatingPoint f e).write (floatingPoint f e).tag (parseDepth limits (left + 1))
      (· = floatingPoint f e) := by
  refine rereads_constructed (by decide) fun value offset hvalue => ?_
  refine gets_nextWidth (c := (tlvAt offset _ value).children) hvalue hf ?_
  intro t c hc hgets
  refine gets_bind hgets ?_
  rintro _ rfl
  refine gets_nextWidth hc he ?_
  intro t c hc hgets
  refine gets_bind hgets ?_
  rintro _ rfl
  exact gets_ok rfl

end Level

/-- By induction on the levels still allowed: a type is read again on the level on which it
was read. -/
theorem parseDepth_rereads {limits : Limits} {left : Nat} {x : TypeSpec}
    (h : Reads (parseDepth limits left) x) :
    Rereads x.write x.tag (parseDepth limits left) (· = x) := by
  induction left generalizing x with
  | zero =>
    obtain ⟨t, -, hread⟩ := h
    cases hread
  | succ left ih =>
    obtain ⟨t, hnumber, hread⟩ := h
    unfold parseDepth at hread
    split at hread
    · cases hread
    rename_i hcls
    have hi32 : ∀ {tag : Tag} {n : Int}, t.integerI32 = .ok n → tag.number ≤ u32Max →
        Rereads (Ber.integer tag n) tag Tlv.integerI32 (· = n) :=
      fun hn htag => rereads_integerI32 ⟨t, hnumber, hn⟩ htag
    have hwidth : ∀ {tag : Tag} {n : Nat}, width t = .ok n → tag.number ≤ u32Max →
        Rereads (Ber.unsigned tag n) tag width (· = n) :=
      fun hn htag => rereads_width ⟨t, hnumber, hn⟩ htag
    split at hread
    · obtain ⟨child, -, hrest⟩ := bind_ok hread
      obtain ⟨name, -, hok⟩ := bind_ok hrest
      cases name <;> cases hok <;> exact named_rereads _ _
    · obtain ⟨⟨packed, c⟩, -, hrest⟩ := bind_ok hread
      dsimp only at hrest
      obtain ⟨⟨elements, c'⟩, helements, hrest⟩ := bind_ok hrest
      dsimp only at hrest
      obtain ⟨⟨e, c''⟩, he, hrest⟩ := bind_ok hrest
      dsimp only at hrest
      obtain ⟨elementType, htype, hok⟩ := bind_ok hrest
      cases hok
      obtain ⟨_, -, hchild⟩ := required_reads he
      exact array_rereads (required_reads helements)
        (ih ⟨e, firstChild_number_le hchild, htype⟩)
    · obtain ⟨⟨packed, c⟩, -, hrest⟩ := bind_ok hread
      dsimp only at hrest
      obtain ⟨⟨list, c'⟩, -, hrest⟩ := bind_ok hrest
      dsimp only at hrest
      obtain ⟨components, hcomponents, hok⟩ := bind_ok hrest
      cases hok
      obtain ⟨hmax, hall⟩ := collectItems_reads hcomponents
      exact structure_rereads hmax fun c hc => ih (parseComponent_reads (hall c hc))
    · cases hread
      exact rereads_primitive (by decide) fun offset => gets_ok rfl
    · obtain ⟨n, hn, rfl⟩ := map_ok hread
      exact (hi32 hn (by decide : (Tag.context 4).number ≤ _)).map (fun _ _ => rfl)
        (by rintro _ rfl; rfl)
    · obtain ⟨n, hn, rfl⟩ := map_ok hread
      exact (hwidth hn (by decide : (Tag.context 5).number ≤ _)).map (fun _ _ => rfl)
        (by rintro _ rfl; rfl)
    · obtain ⟨n, hn, rfl⟩ := map_ok hread
      exact (hwidth hn (by decide : (Tag.context 6).number ≤ _)).map (fun _ _ => rfl)
        (by rintro _ rfl; rfl)
    · obtain ⟨⟨f, c⟩, hf, hrest⟩ := bind_ok hread
      dsimp only at hrest
      obtain ⟨formatWidth, hformat, hrest⟩ := bind_ok hrest
      obtain ⟨⟨e, c'⟩, he, hrest⟩ := bind_ok hrest
      dsimp only at hrest
      obtain ⟨exponentWidth, hexponent, hok⟩ := bind_ok hrest
      cases hok
      exact floatingPoint_rereads ⟨f, nextWidth_number_le hf, hformat⟩
        ⟨e, nextWidth_number_le he, hexponent⟩
    · obtain ⟨n, hn, rfl⟩ := map_ok hread
      exact (hi32 hn (by decide : (Tag.context 9).number ≤ _)).map (fun _ _ => rfl)
        (by rintro _ rfl; rfl)
    · obtain ⟨n, hn, rfl⟩ := map_ok hread
      exact (hi32 hn (by decide : (Tag.context 10).number ≤ _)).map (fun _ _ => rfl)
        (by rintro _ rfl; rfl)
    · cases hread
      exact rereads_primitive (by decide) fun offset => gets_ok rfl
    · obtain ⟨dated, -, rfl⟩ := map_ok hread
      have hdated : Rereads (Ber.boolean (Tag.context 12) dated) _ _ _ :=
        rereads_boolean (by decide)
      exact hdated.map (fun _ _ => rfl) (by rintro _ rfl; rfl)
    · obtain ⟨n, hn, rfl⟩ := map_ok hread
      exact (hwidth hn (by decide : (Tag.context 13).number ≤ _)).map (fun _ _ => rfl)
        (by rintro _ rfl; rfl)
    · obtain ⟨n, hn, rfl⟩ := map_ok hread
      exact (hi32 hn (by decide : (Tag.context 16).number ≤ _)).map (fun _ _ => rfl)
        (by rintro _ rfl; rfl)
    · cases hread
      exact rereads_primitive (by decide) fun offset => gets_ok rfl
    · cases hread
      refine rereads_primitive hnumber fun offset => ?_
      unfold parseDepth
      rw [tlvAt_tag, if_neg (by simp [Tag.context])]
      -- the number is none of those above, so the last arm is taken again
      simp only [Tag.context]
      exact gets_ok rfl

end TypeSpec

/-! ### Times and files -/

theorem timeOfDay_toOctets {bs : Bytes} {t : TimeOfDay} (h : TimeOfDay.fromOctets bs = .ok t) :
    TimeOfDay.fromOctets t.toOctets = .ok t := by
  unfold TimeOfDay.fromOctets at h
  split at h
  · rename_i a b c d
    cases h
    have hmillis : beNat (beBytes 4 (beNat [a, b, c, d])) = beNat [a, b, c, d] :=
      beNat_beBytes_of_lt (beNat_lt _)
    change Except.ok (⟨⟨beNat (beBytes 4 (beNat [a, b, c, d])), 0⟩, false⟩ : TimeOfDay) = _
    rw [hmillis]
  · unfold EntryTime.fromOctets at h
    split at h
    · rename_i hsome
      split at hsome
      · rename_i a b c d e f _
        cases hsome
        cases h
        have hmillis : beNat (beBytes 4 (beNat [a, b, c, d])) = beNat [a, b, c, d] :=
          beNat_beBytes_of_lt (beNat_lt _)
        have hdays : beNat (beBytes 2 (beNat [e, f])) = beNat [e, f] :=
          beNat_beBytes_of_lt (beNat_lt _)
        change Except.ok (⟨⟨beNat (beBytes 4 (beNat [a, b, c, d])), beNat (beBytes 2 (beNat [e, f]))⟩,
          true⟩ : TimeOfDay) = _
        rw [hmillis, hdays]
      · cases hsome
    · cases h

theorem rereads_time {time : TimeOfDay} {tag : Tag}
    (h : Reads (fun t => TimeOfDay.fromOctets t.value) time) (htag : tag.number ≤ u32Max) :
    Rereads (primitive tag time.toOctets) tag (fun t => TimeOfDay.fromOctets t.value)
      (· = time) := by
  obtain ⟨t, -, hread⟩ := h
  exact rereads_primitive htag fun offset => ⟨time, timeOfDay_toOctets hread, rfl⟩

theorem rereads_octets {value : Bytes} {tag : Tag} (htag : tag.number ≤ u32Max) :
    Rereads (primitive tag value) tag Except.ok (fun t => t.value = value) :=
  rereads_primitive htag fun _ => gets_ok rfl

/-- The components of a name are copied, and counted again. -/
theorem fileName_rereads {limits : Limits} {name : FileName} {tag : Tag}
    (h : Reads (fun t => FileName.parse t limits) name) (htag : tag.number ≤ u32Max) :
    Rereads (constructed tag (.ok name)) tag (fun t => FileName.parse t limits) (· = name) := by
  obtain ⟨t, -, hread⟩ := h
  change FileName.parse t limits = .ok name at hread
  unfold FileName.parse at hread
  obtain ⟨count, hcount, hok⟩ := bind_ok hread
  cases hok
  refine rereads_constructed htag fun value offset hvalue => ?_
  cases hvalue
  have hagain := forItems_placeless (d := (tlvAt offset tag t.value).children) ?_ hcount rfl
  · refine gets_bind ⟨count, hagain, rfl⟩ ?_
    rintro _ rfl
    exact gets_ok rfl
  · intro n part part' n' htag hvalue hstep
    rw [hvalue]
    split at hstep
    · cases hstep
    · rename_i hlen
      rw [if_neg hlen]
      obtain ⟨s, hs, hrest⟩ := bind_ok hstep
      rw [placeless_visibleString part part' s hvalue hs]
      exact hrest

theorem fileAttributes_rereads {a : FileAttributes} {tag : Tag} (h : Reads FileAttributes.parse a)
    (htag : tag.number ≤ u32Max) : Rereads (a.write tag) tag FileAttributes.parse (· = a) := by
  obtain ⟨t, -, hread⟩ := h
  unfold FileAttributes.parse at hread
  obtain ⟨⟨size, c⟩, hsize, hrest⟩ := bind_ok hread
  dsimp only at hrest
  obtain ⟨⟨lastModified, c'⟩, -, hok⟩ := bind_ok hrest
  cases hok
  refine rereads_constructed htag fun value offset hvalue => ?_
  refine gets_required (c := (tlvAt offset _ value).children) hvalue
    (rereads_unsigned (required_reads hsize) (by decide)) ?_
  rintro _ c₁ hc₁ rfl
  refine gets_optional hc₁ (fun s _ => rereads_visibleString (by decide)) lacks_nil ?_
  intro modified c₂ _ hmodified
  rw [eq_of_rel hmodified]
  exact gets_ok rfl

theorem directoryEntry_rereads {limits : Limits} {d : DirectoryEntry}
    (h : Reads (fun t => DirectoryEntry.parse t limits) d) :
    Rereads d.write tagSequence (fun t => DirectoryEntry.parse t limits) (· = d) := by
  obtain ⟨t, -, hread⟩ := h
  change DirectoryEntry.parse t limits = .ok d at hread
  unfold DirectoryEntry.parse at hread
  obtain ⟨t', -, hrest⟩ := bind_ok hread
  obtain ⟨⟨name, c⟩, hname, hrest⟩ := bind_ok hrest
  dsimp only at hrest
  obtain ⟨⟨attributes, c'⟩, hattributes, hok⟩ := bind_ok hrest
  cases hok
  refine rereads_constructed (by decide) fun value offset hvalue => gets_expect rfl ?_
  refine gets_required (c := (tlvAt offset _ value).children) hvalue
    (fileName_rereads (required_reads hname) (by decide)) ?_
  rintro _ c₁ hc₁ rfl
  refine gets_required hc₁ (fileAttributes_rereads (required_reads hattributes) (by decide)) ?_
  rintro _ c₂ _ rfl
  exact gets_ok rfl

/-! ### Journals -/

namespace JournalEntry

/-- The originating application that is written where an entry names nobody. -/
def emptyOrigin : Tlv := ⟨Tag.contextConstructed 1, [48, 0], 0, 0⟩

/-- The entry as its receiver reads it: it always names an originating application. -/
def named (j : JournalEntry) : JournalEntry := { j with origin := some (j.origin.getD emptyOrigin) }

/-- The entry without the places of what is kept whole. -/
def unplaced (j : JournalEntry) : JournalEntry :=
  { j with
    vars := j.vars.map fun v => { v with value := v.value.unplaced }
    origin := j.origin.map Tlv.unplaced }

theorem variable_rereads {v : JournalVariable} (h : Reads parseVariable v) :
    Rereads (writeVariable v) tagSequence parseVariable
      (fun v' => ({ v' with value := v'.value.unplaced } : JournalVariable) =
        { v with value := v.value.unplaced }) := by
  obtain ⟨t, -, hread⟩ := h
  unfold parseVariable at hread
  obtain ⟨t', -, hrest⟩ := bind_ok hread
  obtain ⟨⟨name, m⟩, -, hrest⟩ := bind_ok hrest
  dsimp only at hrest
  obtain ⟨⟨value, m'⟩, hvalue, hrest⟩ := bind_ok hrest
  dsimp only at hrest
  obtain ⟨view, hview, hok⟩ := bind_ok hrest
  cases hok
  obtain ⟨_, -, hchild⟩ := required_reads hvalue
  have hinner := value_rereads (firstChild_number_le hchild) hview
  refine rereads_constructed (by decide) fun contents offset hcontents => gets_expect rfl ?_
  refine gets_required (c := (tlvAt offset _ contents).children) hcontents
    (rereads_visibleString (by decide)) ?_
  rintro name c₁ hc₁ rfl
  refine gets_required hc₁ (rereads_firstChild hinner (by decide)) ?_
  intro value' c₂ _ hvalue'
  obtain ⟨hsame, view', hview'⟩ := of_gets_ok hvalue'.2
  refine gets_bind (P := (· = view')) ⟨view', hview', rfl⟩ fun _ _ => gets_ok ?_
  exact congrArg (JournalVariable.mk name) hsame

/-- The originating application of an entry as it is written. -/
def writeOrigin (origin : Option Tlv) : Except Error Bytes :=
  match origin with
  | some o => primitive o.tag o.value
  | none => constructed (Tag.contextConstructed 1) (constructed tagSequence (.ok []))

theorem origin_rereads {origin : Option Tlv}
    (h : ∀ o, origin = some o → o.tag = Tag.contextConstructed 1) :
    Rereads (writeOrigin origin) (Tag.contextConstructed 1) Except.ok
      (fun o' => o'.unplaced = (origin.getD emptyOrigin).unplaced) := by
  have hnumber : (Tag.contextConstructed 1).number ≤ u32Max := by decide
  cases origin with
  | none =>
    refine rereads_constructed hnumber fun value offset hvalue => gets_ok ?_
    have hempty : value = [48, 0] := (Except.ok.inj hvalue).symm
    rw [hempty]
    rfl
  | some o =>
    have htag := h o rfl
    rw [← htag] at hnumber ⊢
    exact rereads_whole hnumber

/-- What reading an entry says about it: an annotation excludes values. -/
structure WasRead (limits : Limits) (j : JournalEntry) : Prop where
  entryId : j.entryId.length ≤ limits.maxPrimitiveLen
  occurred : Reads (fun t => TimeOfDay.fromOctets t.value) j.occurred
  origin : ∀ o, j.origin = some o → o.tag = Tag.contextConstructed 1
  count : j.vars.length ≤ limits.maxDatasetMembers
  vars : ∀ v ∈ j.vars, Reads parseVariable v
  annotation : j.annotation ≠ none → j.vars = []

theorem wasRead {limits : Limits} {j : JournalEntry}
    (h : Reads (fun t => JournalEntry.parse t limits) j) : j.WasRead limits := by
  obtain ⟨t, -, hread⟩ := h
  change JournalEntry.parse t limits = .ok j at hread
  unfold JournalEntry.parse at hread
  obtain ⟨t', -, hrest⟩ := bind_ok hread
  obtain ⟨⟨id, c⟩, -, hrest⟩ := bind_ok hrest
  dsimp only at hrest
  split at hrest
  · cases hrest
  rename_i hid
  obtain ⟨⟨origin, c'⟩, horigin, hrest⟩ := bind_ok hrest
  dsimp only at hrest
  obtain ⟨⟨content, c''⟩, -, hrest⟩ := bind_ok hrest
  dsimp only at hrest
  obtain ⟨⟨occurred, cc⟩, hoccurred, hrest⟩ := bind_ok hrest
  dsimp only at hrest
  obtain ⟨⟨detail, cc'⟩, -, hrest⟩ := bind_ok hrest
  dsimp only at hrest
  obtain ⟨⟨form, cc''⟩, -, hrest⟩ := bind_ok hrest
  dsimp only at hrest
  have horiginTag : ∀ o, origin = some o → o.tag = Tag.contextConstructed 1 := by
    rintro o rfl
    exact (nextIfTag_some horigin).1
  split at hrest
  · obtain ⟨⟨event, f⟩, -, hrest⟩ := bind_ok hrest
    dsimp only at hrest
    obtain ⟨⟨vars, f'⟩, hvars, hok⟩ := bind_ok hrest
    cases hok
    cases vars with
    | none =>
      exact ⟨Nat.le_of_not_lt hid, required_reads hoccurred, horiginTag, Nat.zero_le _, by simp,
        fun _ => rfl⟩
    | some vars =>
      obtain ⟨list, -, hlist⟩ := optional_reads hvars vars rfl
      obtain ⟨hmax, hall⟩ := collectItems_reads hlist
      exact ⟨Nat.le_of_not_lt hid, required_reads hoccurred, horiginTag, hmax, hall, by simp⟩
  · split at hrest
    · obtain ⟨a, -, hok⟩ := bind_ok hrest
      cases hok
      exact ⟨Nat.le_of_not_lt hid, required_reads hoccurred, horiginTag, Nat.zero_le _, by simp,
        fun _ => rfl⟩
    · cases hrest

/-- The variables of an entry, under the tag of their list. -/
theorem variables_rereads {limits : Limits} {vars : List JournalVariable}
    (hmax : vars.length ≤ limits.maxDatasetMembers) (h : ∀ v ∈ vars, Reads parseVariable v) :
    Rereads (constructed (Tag.contextConstructed 1) (concatM (vars.map writeVariable)))
      (Tag.contextConstructed 1)
      (fun list => collectItems "max_dataset_members" limits.maxDatasetMembers list.children
        parseVariable)
      (fun vars' => (vars'.map fun v => ({ v with value := v.value.unplaced } : JournalVariable)) =
        vars.map fun v => { v with value := v.value.unplaced }) := by
  have hlist := rereads_list "max_dataset_members" (by decide : (Tag.contextConstructed 1).number ≤ _)
    (fun v hv => ⟨_, variable_rereads (h v hv)⟩) hmax
  exact hlist.mono fun _ hall => map_eq_of_forall₂ hall

theorem rereads {limits : Limits} {j : JournalEntry} (h : j.WasRead limits) :
    Rereads j.write tagSequence (fun t => JournalEntry.parse t limits)
      (fun j' => j'.unplaced = j.named.unplaced) := by
  obtain ⟨entryId, occurred, vars, annotation, origin⟩ := j
  obtain ⟨hid, hoccurred, horigin, hmax, hvars, hannotation⟩ := h
  refine rereads_constructed (by decide) fun value offset hvalue => gets_expect rfl ?_
  refine gets_nextTag (c := (tlvAt offset _ value).children) hvalue
    (rereads_octets (by decide)) fun id c hc hgets => ?_
  have hid' := of_gets_ok hgets
  dsimp only at hid' ⊢
  rw [hid', if_neg (Nat.not_lt.mpr hid)]
  refine gets_nextIfTag hc (origin_rereads horigin) fun o c hc _ hgets => ?_
  have horigin' := of_gets_ok hgets
  refine gets_nextTag hc (rereads_contents (by decide)) fun content c hc hgets => ?_
  have hcontent := of_gets_ok hgets
  refine gets_required hcontent (rereads_time hoccurred (by decide)) ?_
  rintro _ cc hcc rfl
  cases annotation with
  | some a =>
    cases hannotation (by simp)
    refine gets_skip hcc (lacks_cons (rereads_visibleString (by decide)) (by decide)) ?_
    refine gets_nextRequired hcc (rereads_visibleString (by decide)) fun form _ _ htag hgets => ?_
    dsimp only
    rw [htag, if_neg (by decide), if_pos rfl]
    refine gets_bind hgets ?_
    rintro _ rfl
    refine gets_ok ?_
    simp only [unplaced, named, Option.map_some, horigin']
  | none =>
    have hform := variables_rereads hmax hvars
    refine gets_skip hcc (lacks_cons (rereads_contents (by decide)) (by decide)) ?_
    refine gets_nextRequired hcc (rereads_contents (by decide)) fun form _ _ htag hgets => ?_
    have hcontents := of_gets_ok hgets
    have hlist := concatM_single.mpr hcontents
    dsimp only
    rw [if_pos htag]
    refine gets_skip hlist (lacks_cons hform (by decide)) ?_
    refine gets_present hlist hform fun vars' _ _ hvars' => gets_ok ?_
    simp only [unplaced, named, Option.map_some, Option.getD_some, horigin', hvars']

end JournalEntry

/-! ### Rejects -/

theorem rereads_invokeId {id : Int} {tag : Tag} (h : Reads invokeIdOf id)
    (htag : tag.number ≤ u32Max) : Rereads (integer tag id) tag invokeIdOf (· = id) := by
  obtain ⟨t, hnumber, hread⟩ := h
  obtain ⟨v, hv, hrange⟩ := bind_ok hread
  split at hrange
  · rename_i hfits
    cases hrange
    refine rereads_primitive htag fun offset => ?_
    refine gets_bind ⟨id, integerI64_minimal ⟨t, hnumber, hv⟩ offset tag, rfl⟩ ?_
    rintro _ rfl
    rw [if_pos hfits]
    exact gets_ok rfl
  · cases hrange

theorem invokeId_range {id : Int} (h : Reads invokeIdOf id) : 0 ≤ id ∧ id ≤ (u32Max : Int) := by
  obtain ⟨t, -, hread⟩ := h
  obtain ⟨v, -, hrange⟩ := bind_ok hread
  split at hrange
  · cases hrange
    assumption
  · cases hrange

theorem rereads_unsignedId {id : Int} {tag : Tag} (h : Reads invokeIdOf id)
    (htag : tag.number ≤ u32Max) : Rereads (Ber.unsigned tag id.toNat) tag invokeIdOf (· = id) := by
  obtain ⟨hlow, hhigh⟩ := invokeId_range h
  refine rereads_primitive htag fun offset => ?_
  have hread : (tlvAt offset tag (unsignedContents id.toNat)).integerI64 = .ok id := by
    have hlt : id.toNat < 2 ^ 63 := by
      unfold u32Max at hhigh
      omega
    rw [integerI64_unsignedContents hlt, Int.toNat_of_nonneg hlow]
  refine gets_bind ⟨id, hread, rfl⟩ ?_
  rintro _ rfl
  rw [if_pos ⟨hlow, hhigh⟩]
  exact gets_ok rfl

theorem rereads_originalInvokeId {id : Int} (h : Reads invokeIdOf id) :
    Rereads (writeOriginalInvokeId id) (Tag.context 0) invokeIdOf (· = id) := by
  rw [writeOriginalInvokeId, if_pos (invokeId_range h)]
  exact rereads_unsignedId h (by decide)

theorem fromParts_parts (r : RejectReason) (tag : Nat) (code : Int)
    (h : r = RejectReason.fromParts tag code) : r.parts = (tag, code) := by
  subst h
  unfold RejectReason.fromParts
  split <;> rfl

theorem reject_rereads {r : Reject} (h : Reads Reject.parse r) :
    Rereads r.write (Tag.contextConstructed 4) Reject.parse (· = r) := by
  obtain ⟨t, -, hread⟩ := h
  unfold Reject.parse at hread
  obtain ⟨⟨id, c⟩, hid, hrest⟩ := bind_ok hread
  dsimp only at hrest
  obtain ⟨⟨reason, c'⟩, hreason, hrest⟩ := bind_ok hrest
  dsimp only at hrest
  split at hrest
  · cases hrest
  rename_i htag
  obtain ⟨-, -, hrest⟩ := bind_ok hrest
  obtain ⟨code, hcode, hok⟩ := bind_ok hrest
  cases hok
  rw [not_or, not_or] at htag
  obtain ⟨hcls, hprimitive, hnumber⟩ := htag
  have hle := nextRequired_number_le hreason
  have hparts := fromParts_parts _ reason.tag.number code rfl
  have hcodeWrite : Rereads (integer (Tag.context reason.tag.number) code) _ _ _ :=
    rereads_integer ⟨reason, hle, hcode⟩ hle
  refine rereads_constructed (by decide) fun value offset hvalue => ?_
  dsimp only at hvalue
  rw [hparts] at hvalue
  have hne : Tag.context reason.tag.number ≠ Tag.context 0 :=
    fun heq => hnumber (congrArg Tag.number heq)
  refine gets_optional (c := (tlvAt offset _ value).children) hvalue
    (fun a ha => rereads_originalInvokeId (optional_reads hid a ha)) (lacks_cons hcodeWrite hne) ?_
  intro id' c₁ hc₁ hid'
  refine gets_nextRequired hc₁ hcodeWrite fun reason' c₂ hc₂ htag' hgets => ?_
  dsimp only
  rw [htag', if_neg (by simp [Tag.context, hnumber])]
  refine gets_finish hc₂ (gets_bind hgets ?_)
  rintro _ rfl
  rw [eq_of_rel hid']
  exact gets_ok rfl

end Iec61850.Mms
