import Iec61850.Ber.Integers
import Iec61850.Link.RoundTrip
import Iec61850.Sv.Publisher
import Iec61850.Sv.RoundTrip

/-!
# What a sampled-value publisher sends

A publisher that keeps the ASDUs of its frame, and encodes the frame when it is asked for it
(`Plain`), sends the same octets as the one that overwrites fields of a frame it has encoded once
(`frame_fresh`). A subscriber reads such a frame as the samples that were published
(`published_frame`).
-/

namespace Iec61850.Sv

open Theory Ber Link

variable {cfg : PublisherConfig} {w : Widths} {a a' : Asdu} {asdus asdus' : List Asdu}

/-! ### The ASDUs of a publisher -/

/-- A value that the octets of a field have room for. -/
def Fills (width value : Nat) : Prop := unsignedWidth value width = width

/-- Widths that a field can have octets for. -/
structure Widths.Usable (w : Widths) : Prop extends w.Proper where
  smpCnt_pos : 0 < w.smpCnt
  smpSynch_pos : 0 < w.smpSynch

/-- An ASDU that a publisher of this configuration can send in fields of these widths. -/
structure Asdu.Suits (cfg : PublisherConfig) (w : Widths) (a : Asdu) : Prop where
  named : a.svId = cfg.svId ∧ a.datSet = cfg.datSet
  configured : a.confRev = cfg.confRev ∧ a.smpRate = cfg.profile.smpRate ∧
    a.smpMod = cfg.profile.smpMod.map SmpMod.toU8
  sample : a.sample.length = cfg.sampleLen
  below : a.smpCnt.toNat < cfg.profile.wrap
  count : Fills w.smpCnt a.smpCnt.toNat
  synch : ∃ s, a.smpSynch = some s ∧ Fills w.smpSynch s.toU8.toNat
  timed : a.refrTm.isSome = cfg.refrTm
  clocked : a.gmIdentity.isSome = cfg.gmIdentity

theorem fixedContents_fills {width value : Nat} (h : Fills width value) :
    (fixedContents width value).length = width := by rw [fixedContents, beBytes_length, h]

theorem Asdu.Suits.shape_eq (h : a.Suits cfg w) (h' : a'.Suits cfg w) :
    shape (a'.elements w) = shape (a.elements w) := by
  obtain ⟨s, hs, hfills⟩ := h.synch
  obtain ⟨s', hs', hfills'⟩ := h'.synch
  have hoption : ∀ {α : Type} {x y : Option α} {b : Bool} (f : α → Bytes),
      (∀ z, (f z).length = 8) → x.isSome = b → y.isSome = b →
        (x.map f).map List.length = (y.map f).map List.length := by
    intro α x y b f hf hx hy
    cases x <;> cases y <;> simp_all
  have htimes := hoption UtcTime.toOctets toOctets_length h.timed h'.timed
  have hclocks := hoption GmIdentity.octets GmIdentity.length_eq h.clocked h'.clocked
  have hshape : ∀ (tag : Tag) (field : Option Bytes) (es : List (Tag × Bytes)),
      shape (optionally tag field es) =
        ((field.map List.length).toList.map fun len => (tag, len)) ++ shape es := by
    intro tag field es
    cases field <;> rfl
  have hcons : ∀ (e : Tag × Bytes) (es : List (Tag × Bytes)),
      shape (e :: es) = (e.1, e.2.length) :: shape es := fun _ _ => rfl
  simp only [Asdu.elements, hshape, hcons, htimes, hclocks, h.named, h'.named, h.configured,
    h'.configured, h.sample, h'.sample, hs, hs', Option.map_some, fixedContents_fills h.count,
    fixedContents_fills h'.count, fixedContents_fills hfills, fixedContents_fills hfills']

theorem primitive_eq {tag : Tag} {value : Bytes} (h : value.length ≤ u32Max) :
    primitive tag value = .ok (element tag value) := by
  rw [primitive, encodeLength_eq h]
  rfl

theorem fixedMin_eq {tag : Tag} {value minWidth : Nat} (hvalue : value < 2 ^ 64)
    (hmin : minWidth ≤ 8) :
    unsignedFixedMin tag value minWidth = .ok (element tag (fixedContents minWidth value)) := by
  obtain ⟨hpos, hle, -, hlt⟩ := unsignedWidth_spec hvalue hmin
  rw [unsignedFixedMin, unsignedFixed_eq hpos hle hlt, primitive_eq, fixedContents]
  rw [beBytes_length]
  exact Nat.le_trans hle (by decide)

theorem optM_eq {α : Type} {field : Option α} {write : α → Except Error Bytes}
    (h : ∀ x, ∃ bs, write x = .ok bs) : ∃ bs, optM field write = .ok bs := by
  cases field with
  | none => exact ⟨[], rfl⟩
  | some x => exact h x

/-- A sequence of writes succeeds when each of them does. -/
theorem concatM_isOk {ws : List (Except Error Bytes)} :
    (∃ bs, concatM ws = .ok bs) ↔ ∀ w ∈ ws, ∃ bs, w = .ok bs := by
  induction ws with
  | nil => exact ⟨fun _ _ h => absurd h List.not_mem_nil, fun _ => ⟨[], rfl⟩⟩
  | cons w ws ih =>
    rw [List.forall_mem_cons, ← ih]
    constructor
    · rintro ⟨bs, h⟩
      obtain ⟨here, rest, hhere, hrest, -⟩ := concatM_cons_ok h
      exact ⟨⟨here, hhere⟩, rest, hrest⟩
    · rintro ⟨⟨here, rfl⟩, rest, hrest⟩
      rw [concatM, hrest]
      exact ⟨_, rfl⟩

/-- What can be encoded for one ASDU can be for the other. -/
theorem Asdu.Suits.fieldsAt (hw : w.Proper) (h : a.Suits cfg w) (h' : a'.Suits cfg w) {bs : Bytes}
    (hok : concatM (a.fieldsAt w) = .ok bs) :
    concatM (a'.fieldsAt w) = .ok (Ber.elements (a'.elements w)) := by
  obtain ⟨bs', hbs'⟩ : ∃ bs, concatM (a'.fieldsAt w) = .ok bs := by
    have hall := concatM_isOk.mp ⟨bs, hok⟩
    rw [concatM_isOk]
    simp only [Asdu.fieldsAt, List.forall_mem_cons, h.named, h'.named, h.configured,
      h'.configured] at hall ⊢
    obtain ⟨h0, h1, -, h3, -, -, h6, ⟨_, h7⟩, h8, -, hnil⟩ := hall
    have height : ∀ (tag : Tag) (value : Bytes), value.length = 8 →
        ∃ bs, primitive tag value = .ok bs := fun tag value hlen =>
      ⟨_, primitive_eq (hlen ▸ by decide)⟩
    exact ⟨h0, h1, ⟨_, fixedMin_eq (lt_of_toNat16 _) hw.smpCnt⟩, h3,
      optM_eq fun t => height _ _ (toOctets_length t),
      optM_eq fun s => ⟨_, fixedMin_eq (lt_of_toNat8 _) hw.smpSynch⟩, h6,
      ⟨_, primitive_eq (by rw [h'.sample, ← h.sample]; exact (primitive_ok h7).1)⟩, h8,
      optM_eq fun g => height _ _ g.length_eq, hnil⟩
  obtain ⟨rfl, -⟩ := Asdu.lists_fieldsAt hw a' _ hbs'
  exact hbs'

theorem encodeAll_eq (h : ∀ a ∈ asdus, Fitting (a.record w) ∧
      concatM (a.fieldsAt w) = .ok (Ber.elements (a.elements w))) :
    concatM (asdus.map (Asdu.encodeAt w)) = .ok (Ber.elements (asdus.map (Asdu.record w))) := by
  induction asdus with
  | nil => rfl
  | cons a asdus ih =>
    rw [List.forall_mem_cons] at h
    have hhere : a.encodeAt w = .ok (element tagAsdu (Ber.elements (a.elements w))) := by
      rw [Asdu.encodeAt, h.1.2]
      exact primitive_eq h.1.1.2
    rw [List.map_cons, concatM, hhere, ih h.2]
    rfl

/-- The other ASDUs can be encoded as well, and only their own octets differ. -/
theorem encodeAt_of_suits (hw : w.Proper) (hcount : asdus.length ≤ 65535)
    (hn : asdus'.length = asdus.length) (h : ∀ a ∈ asdus, a.Suits cfg w)
    (h' : ∀ a ∈ asdus', a.Suits cfg w) {apdu : Bytes} (hok : SavPdu.encodeAt w ⟨asdus⟩ = .ok apdu) :
    SavPdu.encodeAt w ⟨asdus'⟩ =
      .ok (SavPdu.head w ⟨asdus⟩ ++ Ber.elements (asdus'.map (Asdu.record w))) ∧
    apdu = SavPdu.head w ⟨asdus⟩ ++ Ber.elements (asdus.map (Asdu.record w)) ∧
    (Ber.elements (asdus'.map (Asdu.record w))).length =
      (Ber.elements (asdus.map (Asdu.record w))).length := by
  obtain ⟨rfl, hlen, hfit, hall⟩ := SavPdu.encodeAt_ok hw hcount hok
  have hany : ∀ a' ∈ asdus', ∃ a ∈ asdus, a.Suits cfg w := by
    intro a' ha'
    have hpos : 0 < asdus.length := hn ▸ List.length_pos_of_mem ha'
    exact ⟨_, List.getElem_mem hpos, h _ (List.getElem_mem hpos)⟩
  have hrecords : (Ber.elements (asdus'.map (Asdu.record w))).length =
      (Ber.elements (asdus.map (Asdu.record w))).length := by
    refine (of_shape ?_).1
    refine List.ext_getElem (by simp [shape, hn]) fun i hi hi' => ?_
    simp only [shape, List.getElem_map, Asdu.record]
    rw [(of_shape ((h _ (List.getElem_mem _)).shape_eq (h' _ (List.getElem_mem _)))).1]
  have helements : (Ber.elements (SavPdu.elements w ⟨asdus'⟩)).length =
      (Ber.elements (SavPdu.elements w ⟨asdus⟩)).length := by
    refine (of_shape ?_).1
    simp only [SavPdu.elements, shape, List.map_cons, List.map_nil, hn, hrecords]
  refine ⟨?_, SavPdu.element_eq w ⟨asdus⟩, hrecords⟩
  have hall' : ∀ a ∈ asdus', Fitting (a.record w) ∧
      concatM (a.fieldsAt w) = .ok (Ber.elements (a.elements w)) := by
    intro a' ha'
    obtain ⟨a, ha, hsuits⟩ := hany a' ha'
    have hfits := hall a ha
    exact ⟨⟨hfits.1.1, (of_shape (hsuits.shape_eq (h' a' ha'))).1 ▸ hfits.1.2⟩,
      hsuits.fieldsAt hw (h' a' ha') hfits.2⟩
  have hlist : (Ber.elements (asdus'.map (Asdu.record w))).length ≤ u32Max := by
    rw [hrecords]
    exact (hfit _ (List.mem_cons_of_mem _ List.mem_cons_self)).2
  have hfields : concatM [unsignedFixedMin (Tag.context 0) asdus'.length 1,
      constructed (Tag.contextConstructed 2) (concatM (asdus'.map (Asdu.encodeAt w)))] =
        .ok (Ber.elements (SavPdu.elements w ⟨asdus'⟩)) := by
    have hconstructed : constructed (Tag.contextConstructed 2)
        (concatM (asdus'.map (Asdu.encodeAt w))) = .ok (element (Tag.contextConstructed 2)
          (Ber.elements (asdus'.map (Asdu.record w)))) := by
      rw [encodeAll_eq hall']
      exact primitive_eq hlist
    rw [concatM, concatM, fixedMin_eq (by omega) (by decide), hconstructed]
    rfl
  have hhead : SavPdu.head w ⟨asdus'⟩ = SavPdu.head w ⟨asdus⟩ := by
    simp only [SavPdu.head, helements, hrecords, hn]
  rw [SavPdu.encodeAt, hfields, ← hhead, ← SavPdu.element_eq]
  exact primitive_eq (helements ▸ hlen)

/-! ### A frame with ASDUs at its end -/

variable {frame pre new octets : Bytes} {located rest : List AsduOffsets} {o : AsduOffsets}

/-- What stands in front of the contents of an ASDU. -/
def Asdu.front (w : Widths) (pre : Bytes) (a : Asdu) : Bytes :=
  pre ++ writeTag tagAsdu ++ lengthField (Ber.elements (a.elements w)).length

/-- A frame ends with these ASDUs, and these are the places of their fields. -/
structure Lays (w : Widths) (frame : Bytes) (located : List AsduOffsets) (pre : Bytes)
    (asdus : List Asdu) : Prop where
  octets : frame = pre ++ Ber.elements (asdus.map (Asdu.record w))
  places : located = (viewsFrom w pre.length asdus).map AsduView.offsets

theorem front_append (pre rest : Bytes) : a.front w pre ++ (Ber.elements (a.elements w) ++ rest) =
    pre ++ element tagAsdu (Ber.elements (a.elements w)) ++ rest := by
  simp only [Asdu.front, element, List.append_assoc]

theorem front_length (pre : Bytes) : (tlvAt pre.length tagAsdu
    (Ber.elements (a.elements w))).valueOffset = (a.front w pre).length := by
  simp only [tlvAt, Asdu.front, List.length_append]

theorem lays_nil : Lays w frame located pre [] ↔ frame = pre ∧ located = [] := by
  constructor
  · rintro ⟨rfl, rfl⟩
    exact ⟨List.append_nil pre, rfl⟩
  · rintro ⟨rfl, rfl⟩
    exact ⟨(List.append_nil frame).symm, rfl⟩

theorem lays_cons : Lays w frame located pre (a :: asdus) ↔
    ∃ rest, located = placesIn (a.front w pre).length (a.elements w) :: rest ∧
      Lays w frame rest (pre ++ element tagAsdu (Ber.elements (a.elements w))) asdus := by
  have hviews : (viewsFrom w pre.length (a :: asdus)).map AsduView.offsets =
      placesIn (a.front w pre).length (a.elements w) ::
        (viewsFrom w (pre ++ element tagAsdu (Ber.elements (a.elements w))).length asdus).map
          AsduView.offsets := by
    rw [viewsFrom, List.map_cons, Asdu.view, front_length, List.length_append]
  have hoctets : pre ++ Ber.elements ((a :: asdus).map (Asdu.record w)) =
      pre ++ element tagAsdu (Ber.elements (a.elements w)) ++
        Ber.elements (asdus.map (Asdu.record w)) := by
    rw [List.map_cons, Ber.elements_cons, Asdu.record, List.append_assoc]
  constructor
  · rintro ⟨hframe, hlocated⟩
    exact ⟨_, hlocated.trans hviews, hframe.trans hoctets, rfl⟩
  · rintro ⟨rest, rfl, hframe, rfl⟩
    exact ⟨hframe.trans hoctets.symm, hviews.symm⟩

theorem placesIn_of_shape (h : shape (a'.elements w) = shape (a.elements w)) (start : Nat) :
    placesIn start (a'.elements w) = placesIn start (a.elements w) := by
  simp only [placesIn, fieldIn, (of_shape h).2]

/-- The contents of a field of the first ASDU are overwritten by others of their length. -/
theorem Lays.patch {tag : Tag} {f : Field} (h : Lays w frame located pre (a :: asdus))
    (hplace : fieldIn tag (a.front w pre).length (a.elements w) = some f)
    (hlen : new.length = f.len) (hnew : replaceIn tag new (a.elements w) = a'.elements w) :
    f.start + new.length ≤ frame.length ∧
      Lays w (splice frame f.start new) located pre (a' :: asdus) := by
  rw [fieldIn, Option.map_eq_some_iff] at hplace
  obtain ⟨⟨start, len⟩, hplace, rfl⟩ := hplace
  simp only at hlen
  obtain ⟨rest, hlocated, hframe, hrest⟩ := lays_cons.mp h
  rw [← front_append] at hframe
  have hshape : shape (a'.elements w) = shape (a.elements w) := by
    rw [← hnew]
    exact shape_replaceIn (hlen ▸ hplace)
  have hfront : a'.front w pre = a.front w pre := by
    simp only [Asdu.front, (of_shape hshape).1]
  refine ⟨?_, lays_cons.mpr ⟨rest, ?_, ?_, ?_⟩⟩
  · obtain ⟨value, -, hvalue, before, after, hoctets, hbefore⟩ :=
      slice_placeOf (a.front w pre) (Ber.elements (asdus.map (Asdu.record w))) hplace
    rw [hframe, hoctets, List.length_append, List.length_append, hbefore, hlen, ← hvalue]
    simp only
    omega
  · rw [hlocated, hfront, placesIn_of_shape hshape]
  · rw [hframe, splice_placeOf _ _ hplace hlen, hnew, ← hfront, front_append]
  · rw [hrest]
    simp only [element, List.length_append, (of_shape hshape).1]

/-! ### The fields that are overwritten -/

theorem writeUnsigned_eq {f : Field} {value : Nat} (hf : f.len = width) (hpos : 0 < width)
    (hle : width ≤ 8) (hin : f.start + (fixedContents width value).length ≤ frame.length)
    (hfills : Fills width value) :
    writeUnsigned frame f value = .ok (splice frame f.start (fixedContents width value)) := by
  rw [fixedContents, beBytes_length, hfills] at hin
  rw [writeUnsigned, if_neg (by omega), if_neg (by omega), fixedContents, hfills, hf]

theorem overwrite_eq {start : Nat} (h : start + new.length ≤ frame.length) :
    overwrite frame start new = splice frame start new := if_neg (Nat.not_lt.mpr h)

namespace Lays

theorem first (h : Lays w frame (o :: located) pre (a :: asdus)) :
    o = placesIn (a.front w pre).length (a.elements w) := by
  obtain ⟨rest, hcons, -⟩ := lays_cons.mp h
  exact (List.cons.inj hcons).1

theorem cons (h : Lays w frame (o :: located) pre (a :: asdus))
    (htail : Lays w new located (pre ++ element tagAsdu (Ber.elements (a.elements w))) asdus') :
    Lays w new (o :: located) pre (a :: asdus') :=
  lays_cons.mpr ⟨located, congrArg (· :: _) h.first, htail⟩

variable (h : Lays w frame (o :: located) pre (a :: asdus))

include h

theorem tail : Lays w frame located (pre ++ element tagAsdu (Ber.elements (a.elements w))) asdus := by
  obtain ⟨rest, hcons, htail⟩ := lays_cons.mp h
  cases hcons
  exact htail

/-- The `smpCnt` of the first ASDU. -/
theorem count (hw : w.Usable) (hold : a.Suits cfg w) {n : UInt16} (hn : Fills w.smpCnt n.toNat) :
    ∃ frame', writeUnsigned frame o.smpCnt n.toNat = .ok frame' ∧
      Lays w frame' (o :: located) pre ({ a with smpCnt := n } :: asdus) := by
  have hplace := fieldIn_smpCnt w a (a.front w pre).length
  have hnew : replaceIn (Tag.context 2) (fixedContents w.smpCnt n.toNat) (a.elements w) =
      Asdu.elements w { a with smpCnt := n } := by
    simp (disch := decide) only [Asdu.elements, replaceIn_cons_ne, replaceIn_optionally_ne,
      replaceIn_self]
  have hlen := (fixedContents_fills hn).trans (fixedContents_fills hold.count).symm
  obtain ⟨hin, hlays⟩ := h.patch hplace hlen hnew
  have ho : o.smpCnt = _ := congrArg AsduOffsets.smpCnt h.first
  rw [placesIn, hplace] at ho
  rw [ho]
  exact ⟨_, writeUnsigned_eq (fixedContents_fills hold.count) hw.smpCnt_pos hw.smpCnt hin hn, hlays⟩

/-- The sample block of the first ASDU. -/
theorem block {block : Bytes} (hlen : block.length = a.sample.length) :
    o.sample + block.length ≤ frame.length ∧
      Lays w (splice frame o.sample block) (o :: located) pre ({ a with sample := block } :: asdus) := by
  have hplace := fieldIn_sample w a (a.front w pre).length
  have hnew : replaceIn (Tag.context 7) block (a.elements w) =
      Asdu.elements w { a with sample := block } := by
    simp (disch := decide) only [Asdu.elements, replaceIn_cons_ne, replaceIn_optionally_ne,
      replaceIn_self]
  have ho : o.sample = _ := congrArg AsduOffsets.sample h.first
  rw [placesIn, hplace] at ho
  rw [ho]
  exact h.patch hplace hlen hnew

/-- The `smpSynch` of the first ASDU. -/
theorem synch (hw : w.Usable) (hold : a.Suits cfg w) : ∃ f, o.smpSynch = some f ∧ f.len = w.smpSynch ∧
    ∀ s : SmpSynch, Fills w.smpSynch s.toU8.toNat →
      ∃ frame', writeUnsigned frame f s.toU8.toNat = .ok frame' ∧
        Lays w frame' (o :: located) pre ({ a with smpSynch := some s } :: asdus) := by
  obtain ⟨old, hsome, hfills⟩ := hold.synch
  have hplace := fieldIn_smpSynch w a (a.front w pre).length
  rw [hsome] at hplace
  have ho : o.smpSynch = _ := congrArg AsduOffsets.smpSynch h.first
  rw [placesIn, hplace] at ho
  refine ⟨_, ho, fixedContents_fills hfills, ?_⟩
  intro s hs
  have hnew : replaceIn (Tag.context 5) (fixedContents w.smpSynch s.toU8.toNat) (a.elements w) =
      Asdu.elements w { a with smpSynch := some s } := by
    simp (disch := decide) only [Asdu.elements, hsome, Option.map_some, replaceIn_cons_ne,
      replaceIn_optionally_ne, replaceIn_optionally_self]
  have hlen := (fixedContents_fills hs).trans (fixedContents_fills hfills).symm
  obtain ⟨hin, hlays⟩ := h.patch hplace hlen hnew
  exact ⟨_, writeUnsigned_eq (fixedContents_fills hfills) hw.smpSynch_pos hw.smpSynch hin hs, hlays⟩

/-- A field of eight octets of the first ASDU, which it may be without. -/
theorem eight {α : Type} {tag : Tag} {place : Nat} {at? : Option Nat} {field : Option α}
    {contents : α → Bytes} {x : α} (hlen : ∀ x, (contents x).length = 8)
    (hplace : fieldIn tag (a.front w pre).length (a.elements w) =
      ((field.map contents).map (tlvAt place tag)).map fieldOf)
    (hat : at? = (fieldIn tag (a.front w pre).length (a.elements w)).map Field.start)
    (hnone : field = none → a' = a)
    (hnew : ∀ old, field = some old → replaceIn tag (contents x) (a.elements w) = a'.elements w) :
    Lays w (at?.elim frame fun start => overwrite frame start (contents x)) (o :: located) pre
      (a' :: asdus) := by
  rw [hplace] at hat
  cases hold : field with
  | none =>
    rw [hat, hold, hnone hold]
    exact h
  | some old =>
    rw [hold] at hat hplace
    obtain ⟨hin, hlays⟩ := h.patch hplace ((hlen x).trans (hlen old).symm) (hnew old hold)
    rw [hat, ← overwrite_eq hin] at *
    exact hlays

theorem stamp (t : UtcTime) :
    Lays w (o.refrTm.elim frame fun start => overwrite frame start t.toOctets) (o :: located) pre
      ({ a with refrTm := a.refrTm.map fun _ => t } :: asdus) := by
  refine h.eight toOctets_length (fieldIn_refrTm ..) (congrArg AsduOffsets.refrTm h.first) ?_ ?_
  · intro hnone
    rw [hnone, Option.map_none, ← hnone]
  · intro old hold
    simp (disch := decide) only [Asdu.elements, hold, Option.map_some, replaceIn_cons_ne,
      replaceIn_optionally_ne, replaceIn_optionally_self]

theorem identity (id : GmIdentity) :
    Lays w (o.gmIdentity.elim frame fun start => overwrite frame start id.octets) (o :: located) pre
      ({ a with gmIdentity := a.gmIdentity.map fun _ => id } :: asdus) := by
  refine h.eight GmIdentity.length_eq (fieldIn_gmIdentity ..)
    (congrArg AsduOffsets.gmIdentity h.first) ?_ ?_
  · intro hnone
    rw [hnone, Option.map_none, ← hnone]
  · intro old hold
    simp (disch := decide) only [Asdu.elements, hold, Option.map_some, replaceIn_cons_ne,
      replaceIn_optionally_ne, replaceIn_optionally_self]

end Lays

/-! ### The loops over the ASDUs -/

/-- ASDUs with counts from one on, and with these samples. -/
def numbered (wrap : Nat) : Nat → List Asdu → List Bytes → List Asdu
  | cnt, a :: asdus, block :: blocks =>
    { a with smpCnt := UInt16.ofNat cnt, sample := block } ::
      numbered wrap ((cnt + 1) % wrap) asdus blocks
  | _, _, _ => []

/-- Every count of a stream has its octets. -/
structure Widths.Counts (w : Widths) (cfg : PublisherConfig) : Prop extends w.Usable where
  fills : ∀ n < cfg.profile.wrap, Fills w.smpCnt n

variable {cnt : Nat} {blocks : List Bytes} {p : Publisher}

theorem wrap_mod (cfg : PublisherConfig) (n : Nat) : n % cfg.profile.wrap < cfg.profile.wrap :=
  Nat.mod_lt _ (smpCntWrap_bounds _).1

theorem toNat_count (hcnt : cnt < cfg.profile.wrap) : (UInt16.ofNat cnt).toNat = cnt :=
  UInt16.toNat_ofNat_of_lt' (Nat.lt_of_lt_of_le hcnt (smpCntWrap_bounds _).2)

theorem writeCounts_lays (hw : w.Counts cfg) (h : Lays w frame located pre asdus)
    (hsuits : ∀ a ∈ asdus, a.Suits cfg w) (hcnt : cnt < cfg.profile.wrap) :
    Lays w (Publisher.writeCounts cfg.profile.wrap frame cnt located) located pre
      (numbered cfg.profile.wrap cnt asdus (asdus.map Asdu.sample)) := by
  induction asdus generalizing frame located pre cnt with
  | nil =>
    obtain ⟨rfl, rfl⟩ := lays_nil.mp h
    exact h
  | cons a asdus ih =>
    rw [List.forall_mem_cons] at hsuits
    obtain ⟨rest, rfl, -⟩ := lays_cons.mp h
    have hn := toNat_count hcnt
    obtain ⟨frame', hwrite, h'⟩ := h.count hw.toUsable hsuits.1 (hn ▸ hw.fills cnt hcnt)
    rw [hn] at hwrite
    rw [Publisher.writeCounts, hwrite]
    exact h'.cons (ih h'.tail hsuits.2 (wrap_mod cfg _))

theorem patchAll_lays {done : List AsduOffsets} (hw : w.Counts p.cfg)
    (hlocated : p.located = done ++ located) (h : Lays w p.frame located pre asdus)
    (hsuits : ∀ a ∈ asdus, a.Suits p.cfg w) (hcnt : p.smpCnt < p.cfg.profile.wrap)
    (hblocks : blocks.length = asdus.length) (hlen : ∀ b ∈ blocks, b.length = p.cfg.sampleLen) :
    ∃ frame', p.patchAll done.length blocks = ({ p with
        frame := frame', smpCnt := (p.smpCnt + blocks.length) % p.cfg.profile.wrap }, .ok ()) ∧
      Lays w frame' located pre (numbered p.cfg.profile.wrap p.smpCnt asdus blocks) := by
  induction blocks generalizing p done located pre asdus with
  | nil =>
    obtain rfl := List.length_eq_zero_iff.mp hblocks.symm
    refine ⟨p.frame, ?_, h⟩
    rw [Publisher.patchAll, List.length_nil, Nat.add_zero, Nat.mod_eq_of_lt hcnt]
  | cons block blocks ih =>
    cases asdus with
    | nil => cases hblocks
    | cons a asdus =>
      rw [List.forall_mem_cons] at hsuits hlen
      obtain ⟨rest, rfl, -⟩ := lays_cons.mp h
      generalize placesIn (a.front w pre).length (a.elements w) = o at h hlocated
      have hn := toNat_count hcnt
      obtain ⟨frame', hwrite, h'⟩ := h.count hw.toUsable hsuits.1 (hn ▸ hw.fills _ hcnt)
      obtain ⟨hin, h''⟩ := h'.block (hlen.1.trans hsuits.1.sample.symm)
      rw [hn] at hwrite
      have hdone : p.located = done ++ [o] ++ rest := by rw [List.append_assoc]; exact hlocated
      have hpatch : p.patchAsdu done.length block = ({ p with
          frame := splice frame' o.sample block
          smpCnt := (p.smpCnt + 1) % p.cfg.profile.wrap }, .ok ()) := by
        rw [Publisher.patchAsdu, hlocated, List.getElem?_append_right (Nat.le_refl _),
          Nat.sub_self, List.getElem?_cons_zero]
        simp only [hwrite, if_neg (Nat.not_lt.mpr hin)]
      obtain ⟨frame'', hall, hlays⟩ := ih (p := { p with
          frame := splice frame' o.sample block
          smpCnt := (p.smpCnt + 1) % p.cfg.profile.wrap }) hw hdone h''.tail hsuits.2
        (wrap_mod p.cfg _) (Nat.succ.inj hblocks) hlen.2
      refine ⟨frame'', ?_, h''.cons hlays⟩
      rw [Publisher.patchAll, hpatch]
      rw [List.length_append, List.length_singleton] at hall
      simp only [hall, Nat.mod_add_mod, List.length_cons, Nat.add_assoc, Nat.add_comm 1]

theorem writeSynch_lays {s : SmpSynch} (hw : w.Usable) (h : Lays w p.frame located pre asdus)
    (hsuits : ∀ a ∈ asdus, a.Suits cfg w) (hs : Fills w.smpSynch s.toU8.toNat) :
    ∃ frame', Publisher.writeSynch s.toU8.toNat p located = ({ p with frame := frame' }, .ok ()) ∧
      Lays w frame' located pre (asdus.map fun a => { a with smpSynch := some s }) := by
  induction asdus generalizing p located pre with
  | nil =>
    obtain ⟨-, rfl⟩ := lays_nil.mp h
    exact ⟨_, rfl, h⟩
  | cons a asdus ih =>
    rw [List.forall_mem_cons] at hsuits
    obtain ⟨rest, rfl, -⟩ := lays_cons.mp h
    obtain ⟨f, hf, -, hwrite⟩ := h.synch hw hsuits.1
    obtain ⟨frame', hwrite, h'⟩ := hwrite s hs
    obtain ⟨frame'', hall, hlays⟩ := ih (p := { p with frame := frame' }) h'.tail hsuits.2
    refine ⟨frame'', ?_, h'.cons hlays⟩
    simp only [Publisher.writeSynch, hf, hwrite, hall]

theorem writeStamps_lays (rate : Nat) (t : UtcTime) (i : Nat) (h : Lays w frame located pre asdus) :
    Lays w (Publisher.writeStamps rate t frame i located) located pre ((asdus.zipIdx i).map fun x =>
      { x.1 with refrTm := x.1.refrTm.map fun _ => Publisher.stamp rate t x.2 }) := by
  induction asdus generalizing frame located pre i with
  | nil =>
    obtain ⟨-, rfl⟩ := lays_nil.mp h
    exact h
  | cons a asdus ih =>
    obtain ⟨rest, rfl, -⟩ := lays_cons.mp h
    have h' := h.stamp (Publisher.stamp rate t i)
    have hwrite := h'.cons (ih (i + 1) h'.tail)
    rw [Publisher.writeStamps, List.zipIdx_cons, List.map_cons]
    cases ho : (placesIn (a.front w pre).length (a.elements w)).refrTm with
    | none => rwa [ho] at hwrite
    | some start => rwa [ho] at hwrite

theorem writeIdentity_lays (id : GmIdentity) (h : Lays w frame located pre asdus) :
    Lays w (Publisher.writeIdentity id frame located) located pre
      (asdus.map fun a => { a with gmIdentity := a.gmIdentity.map fun _ => id }) := by
  induction asdus generalizing frame located pre with
  | nil =>
    obtain ⟨-, rfl⟩ := lays_nil.mp h
    exact h
  | cons a asdus ih =>
    obtain ⟨rest, rfl, -⟩ := lays_cons.mp h
    have h' := h.identity id
    have hwrite := h'.cons (ih h'.tail)
    rw [Publisher.writeIdentity, List.map_cons]
    cases ho : (placesIn (a.front w pre).length (a.elements w)).gmIdentity with
    | none => rwa [ho] at hwrite
    | some start => rwa [ho] at hwrite

/-! ### A frame encoded again -/

/-- The counts and the blocks are read out of a frame as they were written. -/
theorem held_eq (hw : w.Proper) (h : Lays w p.frame located pre asdus)
    (hsuits : ∀ a ∈ asdus, a.Suits p.cfg w) :
    located.map p.heldAt = asdus.map fun a => (a.smpCnt.toNat, a.sample) := by
  have hslice : ∀ f, (octetsAt p.frame f).length = f.len →
      (slice p.frame f.start (f.start + f.len)).getD [] = octetsAt p.frame f := by
    intro f hlen
    rw [octetsAt, List.length_take, List.length_drop] at hlen
    unfold slice octetsAt
    split
    · rw [Option.getD_some, List.drop_take, Nat.add_sub_cancel_left]
    · have hzero : f.len = 0 := by omega
      rw [hzero, List.take_zero, Option.getD_none]
  have hread : ∀ f, readUnsigned p.frame f =
      beNat ((slice p.frame f.start (f.start + f.len)).getD []) := by
    intro f
    unfold readUnsigned
    cases slice p.frame f.start (f.start + f.len) <;> rfl
  induction asdus generalizing located pre with
  | nil =>
    obtain ⟨-, rfl⟩ := lays_nil.mp h
    rfl
  | cons a asdus ih =>
    rw [List.forall_mem_cons] at hsuits
    obtain ⟨rest, rfl, htail⟩ := lays_cons.mp h
    have hview := located_view w a (a.front w pre) (Ber.elements (asdus.map (Asdu.record w)))
    rw [front_append, ← htail.octets] at hview
    have hcount : (placesIn (a.front w pre).length (a.elements w)).smpCnt.len =
        (fixedContents w.smpCnt a.smpCnt.toNat).length := by
      rw [placesIn, fieldIn_smpCnt]
      rfl
    obtain ⟨-, -, -, hlt⟩ := unsignedWidth_spec (lt_of_toNat16 a.smpCnt) hw.smpCnt
    have hsample := hview.sample
    have hlen := congrArg List.length hsample
    rw [hsuits.1.sample] at hsample hlen
    rw [List.map_cons, List.map_cons, ih htail hsuits.2]
    congr 1
    refine Prod.ext ?_ ((hslice _ hlen).trans hsample)
    rw [Publisher.heldAt, hread, hslice _ (by rw [hview.smpCnt, hcount]), hview.smpCnt]
    exact beNat_beBytes_of_lt hlt

theorem putBack_lays {t : Asdu} (hw : w.Counts cfg) (ht : t.Suits cfg w)
    (hasdus : ∀ a ∈ asdus, a.smpCnt.toNat < cfg.profile.wrap ∧ a.sample.length = cfg.sampleLen)
    (h : Lays w frame located pre (asdus.map fun _ => t)) :
    Lays w (Publisher.putBack cfg.sampleLen frame
        ((asdus.map fun a => (a.smpCnt.toNat, a.sample)).zip located)) located pre
      (asdus.map fun a => { t with smpCnt := a.smpCnt, sample := a.sample }) := by
  induction asdus generalizing frame located pre with
  | nil => exact h
  | cons a asdus ih =>
    rw [List.forall_mem_cons] at hasdus
    obtain ⟨rest, rfl, -⟩ := lays_cons.mp h
    obtain ⟨frame', hwrite, h'⟩ := Lays.count h hw.toUsable ht (hw.fills _ hasdus.1.1)
    obtain ⟨hin, h''⟩ := h'.block (hasdus.1.2.trans ht.sample.symm)
    rw [List.map_cons, List.zip_cons_cons, Publisher.putBack, hwrite]
    simp only [Except.toOption, Option.getD_some, hasdus.1.2, ne_eq, not_true, if_false]
    rw [overwrite_eq hin]
    exact h''.cons (ih hasdus.2 h''.tail)

/-! ### The octets that a stream needs -/

variable {s : SmpSynch} {wide : Bool} {value width : Nat}

theorem fills_iff (hvalue : value < 2 ^ 63) (hpos : 0 < width) (hle : width ≤ 8) :
    Fills width value ↔ value < 128 * 256 ^ (width - 1) := by
  obtain ⟨-, -, hge, -⟩ := unsignedWidth_spec (Nat.lt_trans hvalue (by decide)) hle
  have hiff := @unsignedWidth_le_iff value width width hvalue hpos hle
  constructor
  · intro h
    exact (hiff.mp (Nat.le_of_eq h)).2
  · intro h
    exact Nat.le_antisymm (hiff.mpr ⟨Nat.le_refl _, h⟩) hge

theorem fills_width (hvalue : value < 2 ^ 63) (hle : width ≤ 8) :
    Fills (unsignedWidth value width) value := by
  obtain ⟨hpos, htop, -, -⟩ := unsignedWidth_spec (Nat.lt_trans hvalue (by decide)) hle
  exact (fills_iff hvalue hpos htop).mpr
    ((unsignedWidth_le_iff hvalue hpos htop).mp (Nat.le_refl _)).2

/-- The octets for the greatest count of a stream, and for the narrow or the wide `smpSynch`. -/
def PublisherConfig.widths (cfg : PublisherConfig) (wide : Bool) : Widths :=
  ⟨unsignedWidth cfg.maxSmpCnt.toNat 2, if wide then 2 else 1⟩

theorem maxSmpCnt_toNat (cfg : PublisherConfig) : cfg.maxSmpCnt.toNat + 1 = cfg.profile.wrap := by
  have hbounds : 0 < cfg.profile.wrap ∧ cfg.profile.wrap ≤ 65536 := smpCntWrap_bounds _
  rw [PublisherConfig.maxSmpCnt, UInt16.toNat_ofNat_of_lt' (show _ < 65536 by omega)]
  omega

theorem counts_widths (cfg : PublisherConfig) (wide : Bool) : (cfg.widths wide).Counts cfg := by
  have hmax : cfg.maxSmpCnt.toNat < 2 ^ 63 := Nat.lt_trans cfg.maxSmpCnt.toNat_lt (by decide)
  obtain ⟨hpos, hle, -, -⟩ :=
    unsignedWidth_spec (Nat.lt_trans hmax (by decide)) (by decide : 2 ≤ 8)
  have hsynch : 0 < (if wide then 2 else 1) ∧ (if wide then 2 else 1) ≤ 8 := by
    cases wide <;> decide
  refine ⟨⟨⟨hle, hsynch.2⟩, hpos, hsynch.1⟩, ?_⟩
  intro n hn
  have hfills := (fills_iff hmax hpos hle).mp (fills_width hmax (by decide))
  have htop := maxSmpCnt_toNat cfg
  exact (fills_iff (by omega) hpos hle).mpr (by omega)

theorem fills_synch (h : wide = true ∨ s.toU8.toNat < 128) :
    Fills (cfg.widths wide).smpSynch s.toU8.toNat := by
  have hlt := s.toU8.toNat_lt
  have hw := (counts_widths cfg wide).toUsable
  rw [fills_iff (by omega) hw.smpSynch_pos hw.smpSynch]
  cases wide with
  | true => exact Nat.lt_trans hlt (by decide : 256 < 128 * 256 ^ 1)
  | false => exact h.resolve_left Bool.false_ne_true

/-! ### The template -/

/-- The frame of these ASDUs, encoded from nothing. -/
def PublisherConfig.fresh (cfg : PublisherConfig) (wide : Bool) (asdus : List Asdu) :
    Except Error Bytes := do
  let apdu ← SavPdu.encodeAt (cfg.widths wide) ⟨asdus⟩
  cfg.link.write apdu

/-- Octets laid over a fresh frame make a fresh frame. -/
theorem fresh_of_lays {frame' : Bytes} {located' : List AsduOffsets}
    (hfresh : cfg.fresh wide asdus = .ok frame) (h : Lays (cfg.widths wide) frame located pre asdus)
    (h' : Lays (cfg.widths wide) frame' located' pre asdus') (hcount : asdus.length ≤ 65535)
    (hn : asdus'.length = asdus.length) (hsuits : ∀ a ∈ asdus, a.Suits cfg (cfg.widths wide))
    (hsuits' : ∀ a ∈ asdus', a.Suits cfg (cfg.widths wide)) :
    cfg.fresh wide asdus' = .ok frame' := by
  obtain ⟨apdu, hencode, hwrite⟩ := bind_ok hfresh
  obtain ⟨hencode', rfl, hlen⟩ := encodeAt_of_suits (counts_widths cfg wide).toProper hcount hn
    hsuits hsuits' hencode
  obtain ⟨hle, hframe⟩ := FrameHeader.write_ok hwrite
  have hpre := h.octets.symm.trans hframe
  rw [FrameHeader.tail] at hpre
  rw [PublisherConfig.fresh, hencode', h'.octets]
  simp only [bind, Except.bind]
  rw [List.length_append, ← hlen, ← List.length_append] at hle hpre
  rw [FrameHeader.write, if_neg (by omega)]
  simp only [← List.append_assoc] at hpre ⊢
  rw [List.append_cancel_right hpre]

theorem placesIn_shift (base start : Nat) :
    placesIn (base + start) (a.elements w) = (placesIn start (a.elements w)).shift base := by
  have hfield : ∀ tag, fieldIn tag (base + start) (a.elements w) =
      (fieldIn tag start (a.elements w)).map fun f => ⟨base + f.start, f.len⟩ := by
    intro tag
    rw [fieldIn, fieldIn, placeOf_shift, Option.map_map, Option.map_map]
    rfl
  rw [placesIn, placesIn]
  simp only [hfield, fieldIn_smpCnt, fieldIn_sample, Option.map_some, Option.getD_some,
    Option.map_map, AsduOffsets.shift]
  rfl

theorem viewsFrom_shift (base start : Nat) :
    (viewsFrom w (base + start) asdus).map AsduView.offsets =
      (viewsFrom w start asdus).map fun v => v.offsets.shift base := by
  induction asdus generalizing start with
  | nil => rfl
  | cons a asdus ih =>
    rw [viewsFrom, viewsFrom, List.map_cons, List.map_cons, Nat.add_assoc, ih]
    simp only [Asdu.view, tlvAt, Nat.add_assoc, placesIn_shift]

theorem templateAsdu_suits {r : Option UtcTime} {g : Option GmIdentity}
    (hs : Fills (cfg.widths wide).smpSynch s.toU8.toNat) :
    (templateAsdu cfg s r g).Suits cfg (cfg.widths wide) := by
  have htop := maxSmpCnt_toNat cfg
  have hbelow : cfg.maxSmpCnt.toNat < cfg.profile.wrap := by omega
  refine ⟨⟨rfl, rfl⟩, ⟨rfl, rfl, rfl⟩, List.length_replicate, hbelow,
    (counts_widths cfg wide).fills _ hbelow, ⟨s, rfl, hs⟩, ?_, ?_⟩
  · unfold templateAsdu
    cases cfg.refrTm <;> rfl
  · unfold templateAsdu
    cases cfg.gmIdentity <;> rfl

/-- A template is a fresh frame, and its places are those of its fields. -/
theorem buildTemplate_ok {r : Option UtcTime} {g : Option GmIdentity}
    (hs : unsignedWidth s.toU8.toNat 1 = (cfg.widths wide).smpSynch)
    (h : buildTemplate cfg s r g = .ok (frame, located)) :
    cfg.fresh wide (List.replicate cfg.asdusPerFrame (templateAsdu cfg s r g)) = .ok frame ∧
      ∃ pre, Lays (cfg.widths wide) frame located pre
        (List.replicate cfg.asdusPerFrame (templateAsdu cfg s r g)) := by
  obtain ⟨apdu, hencode, h⟩ := bind_ok h
  obtain ⟨frame', hwrite, h⟩ := bind_ok h
  obtain ⟨located', hlocate, h⟩ := bind_ok h
  cases h
  have hsynch : Fills (cfg.widths wide).smpSynch s.toU8.toNat := by
    rw [← hs]
    exact fills_width (Nat.lt_trans s.toU8.toNat_lt (by decide)) (by decide)
  have hcounts : Fills (cfg.widths wide).smpCnt cfg.maxSmpCnt.toNat :=
    (templateAsdu_suits (r := r) (g := g) hsynch).count
  have hsame : (templateAsdu cfg s r g).encodeAt (cfg.widths wide) =
      (templateAsdu cfg s r g).encode := by
    have hone : ∀ tag, unsignedFixedMin tag cfg.maxSmpCnt.toNat (cfg.widths wide).smpCnt =
        unsignedFixedMin tag cfg.maxSmpCnt.toNat 2 := fun tag => by
      rw [unsignedFixedMin, hcounts]
      rfl
    have htwo : ∀ tag, unsignedFixedMin tag s.toU8.toNat (cfg.widths wide).smpSynch =
        unsignedFixedMin tag s.toU8.toNat 1 := fun tag => by
      rw [unsignedFixedMin, hsynch, unsignedFixedMin, hs]
    simp only [Asdu.encodeAt, Asdu.encode, Asdu.fieldsAt, Asdu.fields, templateAsdu, hone, htwo,
      optM]
  have hencode' : SavPdu.encodeAt (cfg.widths wide)
      ⟨List.replicate cfg.asdusPerFrame (templateAsdu cfg s r g)⟩ = .ok apdu := by
    rw [← hencode, SavPdu.encodeAt, SavPdu.encode, List.map_replicate, List.map_replicate, hsame]
  have hn : (List.replicate cfg.asdusPerFrame (templateAsdu cfg s r g)).length =
      cfg.asdusPerFrame := List.length_replicate
  clear hencode
  generalize List.replicate cfg.asdusPerFrame (templateAsdu cfg s r g) = asdus at hencode' hn ⊢
  have hfew : asdus.length ≤ 255 := hn ▸ Nat.le_of_lt_succ cfg.profile.asdusPerFrame.toNat_lt
  have hfresh : cfg.fresh wide asdus = .ok frame := by
    rw [PublisherConfig.fresh, hencode']
    exact hwrite
  rw [locateFields] at hlocate
  simp only at hlocate
  generalize hlimits : ({ Limits.default with maxAsdus := max cfg.asdusPerFrame 1 } : Limits) =
    limits at hlocate
  have hcount : (SavPdu.mk asdus).asdus.length ≤ 65535 := Nat.le_trans hfew (by decide)
  have hmax : (SavPdu.mk asdus).asdus.length ≤ limits.maxAsdus := by
    rw [← hlimits, hn]
    exact Nat.le_max_left _ _
  obtain ⟨happdu, v, hv, -, -, hasdus⟩ := SavPduView.parse_encodeAt
    (counts_widths cfg wide).toProper hcount hmax hencode'
  obtain ⟨-, hframe⟩ := FrameHeader.write_ok hwrite
  obtain ⟨front, hfront, rfl⟩ : ∃ front : Bytes,
      front.length = cfg.link.len ∧ frame = front ++ apdu := by
    refine ⟨cfg.link.addressing ++ (u16Octets cfg.link.ethertype ++ cfg.link.tail apdu), ?_, ?_⟩
    · simp only [List.length_append, FrameHeader.addressing_length, FrameHeader.tail,
        u16Octets_length, FrameHeader.ethertypeAt, FrameHeader.len]
      split <;> rfl
    · rw [hframe]
      simp only [List.append_assoc]
  rw [if_neg (by rw [List.length_append]; omega), List.drop_left' hfront, hv] at hlocate
  simp only [bind, Except.bind, hasdus, mapM_id_iff.mpr rfl, viewsFrom_length] at hlocate
  rw [if_neg (not_not.mpr hn)] at hlocate
  cases hlocate
  refine ⟨hfresh, front ++ SavPdu.head (cfg.widths wide) ⟨asdus⟩, ?_, ?_⟩
  · rw [happdu, List.append_assoc]
  · rw [List.length_append, viewsFrom_shift, hfront]

/-! ### A publisher that keeps its ASDUs -/

/-- A call of a publisher. -/
inductive Call where
  | publish (now : Instant) (blocks : List Bytes)
  | publishRepeating (now : Instant) (block : Bytes)
  | setSmpSynch (synch : SmpSynch)
  | setRefrTm (t : UtcTime)
  | setGmIdentity (id : GmIdentity)
  | setSmpCnt (smpCnt : UInt16)
  | pollTransmit

/-- The publisher after a call, whether the call failed or not. -/
def Publisher.call (p : Publisher) : Call → Publisher
  | .publish now blocks => (p.publish now blocks).1
  | .publishRepeating now block => (p.publishRepeating now block).1
  | .setSmpSynch synch => (p.setSmpSynch synch).1
  | .setRefrTm t => p.setRefrTm t
  | .setGmIdentity id => p.setGmIdentity id
  | .setSmpCnt smpCnt => p.setSmpCnt smpCnt
  | .pollTransmit => p.pollTransmit.1

/-- The ASDUs of a frame instead of the frame. -/
structure Plain where
  asdus : List Asdu
  smpCnt : Nat
  refrTm : Option UtcTime
  gmIdentity : Option GmIdentity
  wide : Bool

namespace Plain

variable (cfg : PublisherConfig) (q : Plain)

def initial : Plain where
  asdus := numbered cfg.profile.wrap 0
    (List.replicate cfg.asdusPerFrame (templateAsdu cfg .none none none))
    (List.replicate cfg.asdusPerFrame (List.replicate cfg.sampleLen 0))
  smpCnt := 0
  refrTm := none
  gmIdentity := none
  wide := false

/-- Samples that are not the ones of a frame are left. -/
def publish (blocks : List Bytes) : Plain :=
  if blocks.length = cfg.asdusPerFrame ∧ ∀ b ∈ blocks, b.length = cfg.sampleLen then
    { q with
      asdus := numbered cfg.profile.wrap q.smpCnt q.asdus blocks
      smpCnt := (q.smpCnt + cfg.asdusPerFrame) % cfg.profile.wrap }
  else q

/-- A clock that takes the second octet has the ASDUs made anew, if they fit a frame: all of them
have the time of the first sample then. -/
def setSmpSynch (synch : SmpSynch) : Plain :=
  if q.wide = true ∨ synch.toU8.toNat < 128 then
    { q with asdus := q.asdus.map fun a => { a with smpSynch := some synch } }
  else if (buildTemplate cfg synch q.refrTm q.gmIdentity).isOk then
    { q with
      asdus := q.asdus.map fun a =>
        { templateAsdu cfg synch q.refrTm q.gmIdentity with smpCnt := a.smpCnt, sample := a.sample }
      wide := true }
  else q

def call : Call → Plain
  | .publish _ blocks => q.publish cfg blocks
  | .publishRepeating _ block => q.publish cfg (List.replicate cfg.asdusPerFrame block)
  | .setSmpSynch synch => q.setSmpSynch cfg synch
  | .setRefrTm t =>
    { q with
      asdus := (q.asdus.zipIdx 0).map fun x => { x.1 with
        refrTm := x.1.refrTm.map fun _ =>
          Publisher.stamp (max cfg.profile.samplesPerSecond.toNat 1) t x.2 }
      refrTm := some t }
  | .setGmIdentity id =>
    { q with
      asdus := q.asdus.map fun a => { a with gmIdentity := a.gmIdentity.map fun _ => id }
      gmIdentity := some id }
  | .setSmpCnt smpCnt => { q with smpCnt := smpCnt.toNat % cfg.profile.wrap }
  | .pollTransmit => q

end Plain

/-- The frame is the one of these ASDUs, and the places are those of their fields. -/
structure Holds (cfg : PublisherConfig) (p : Publisher) (q : Plain) : Prop where
  configured : p.cfg = cfg
  count : p.smpCnt = q.smpCnt
  below : q.smpCnt < cfg.profile.wrap
  times : p.refrTm = q.refrTm
  clocks : p.gmIdentity = q.gmIdentity
  length : q.asdus.length = cfg.asdusPerFrame
  suits : ∀ a ∈ q.asdus, a.Suits cfg (cfg.widths q.wide)
  fresh : cfg.fresh q.wide q.asdus = .ok p.frame
  lays : ∃ pre, Lays (cfg.widths q.wide) p.frame p.located pre q.asdus

theorem few_asdus (cfg : PublisherConfig) : cfg.asdusPerFrame ≤ 65535 :=
  Nat.le_trans (Nat.le_of_lt_succ cfg.profile.asdusPerFrame.toNat_lt) (by decide)

theorem numbered_suits (hw : w.Counts cfg) (hsuits : ∀ a ∈ asdus, a.Suits cfg w)
    (hcnt : cnt < cfg.profile.wrap) (hblocks : blocks.length = asdus.length)
    (hlen : ∀ b ∈ blocks, b.length = cfg.sampleLen) :
    (numbered cfg.profile.wrap cnt asdus blocks).length = asdus.length ∧
      ∀ a ∈ numbered cfg.profile.wrap cnt asdus blocks, a.Suits cfg w := by
  induction asdus generalizing cnt blocks with
  | nil => exact ⟨rfl, fun a ha => absurd ha List.not_mem_nil⟩
  | cons a asdus ih =>
    cases blocks with
    | nil => cases hblocks
    | cons block blocks =>
      rw [List.forall_mem_cons] at hsuits hlen
      obtain ⟨hn, hrest⟩ := ih hsuits.2 (wrap_mod cfg (cnt + 1)) (Nat.succ.inj hblocks) hlen.2
      have htoNat := toNat_count hcnt
      rw [numbered, List.forall_mem_cons, List.length_cons, hn]
      exact ⟨rfl, { hsuits.1 with
        sample := hlen.1
        below := Nat.lt_of_le_of_lt (Nat.le_of_eq htoNat) hcnt
        count := (congrArg (Fills w.smpCnt) htoNat).mpr (hw.fills cnt hcnt) }, hrest⟩

/-- The places of `smpSynch` are all of one length. -/
theorem synch_lengths (hw : w.Usable) (h : Lays w frame located pre asdus)
    (hsuits : ∀ a ∈ asdus, a.Suits cfg w) :
    (located.map fun o => o.smpSynch.map Field.len) = asdus.map fun _ => some w.smpSynch := by
  induction asdus generalizing located pre with
  | nil =>
    obtain ⟨-, rfl⟩ := lays_nil.mp h
    rfl
  | cons a asdus ih =>
    rw [List.forall_mem_cons] at hsuits
    obtain ⟨rest, rfl, htail⟩ := lays_cons.mp h
    obtain ⟨f, hf, hlen, -⟩ := h.synch hw hsuits.1
    rw [List.map_cons, List.map_cons, ih htail hsuits.2, hf, Option.map_some, hlen]

namespace Holds

variable {q : Plain} (h : Holds cfg p q)

include h

/-- The frame after the fields of its ASDUs were overwritten. -/
theorem relaid {frame' : Bytes} (hlays : Lays (cfg.widths q.wide) p.frame p.located pre q.asdus)
    (hlays' : Lays (cfg.widths q.wide) frame' p.located pre asdus')
    (hn : asdus'.length = q.asdus.length) (hsuits : ∀ a ∈ asdus', a.Suits cfg (cfg.widths q.wide)) :
    cfg.fresh q.wide asdus' = .ok frame' ∧
      ∃ pre, Lays (cfg.widths q.wide) frame' p.located pre asdus' :=
  ⟨fresh_of_lays h.fresh hlays hlays' (h.length ▸ few_asdus cfg) hn h.suits hsuits, pre, hlays'⟩

/-- A frame of samples is sent, and no place is missed. -/
theorem published (now : Instant) (hcount : blocks.length = cfg.asdusPerFrame)
    (hlen : ∀ b ∈ blocks, b.length = cfg.sampleLen) :
    ∃ frame', p.publish now blocks =
        (Publisher.queue { p with
          frame := frame', smpCnt := (q.smpCnt + cfg.asdusPerFrame) % cfg.profile.wrap } now, .ok ()) ∧
      ∃ pre, Lays (cfg.widths q.wide) p.frame p.located pre q.asdus ∧
        Lays (cfg.widths q.wide) frame' p.located pre
          (numbered cfg.profile.wrap q.smpCnt q.asdus blocks) := by
  obtain rfl := h.configured
  obtain ⟨pre, hlays⟩ := h.lays
  obtain ⟨frame', hall, hlays'⟩ := patchAll_lays (counts_widths p.cfg q.wide)
    (List.nil_append _).symm hlays h.suits (h.count ▸ h.below) (hcount.trans h.length.symm) hlen
  have hany : ¬ blocks.any (fun b => b.length ≠ p.cfg.sampleLen) = true := by
    simpa using hlen
  rw [List.length_nil, hcount, h.count] at hall
  rw [h.count] at hlays'
  refine ⟨frame', ?_, pre, hlays, hlays'⟩
  rw [Publisher.publish, if_neg (not_not.mpr hcount), if_neg hany, Publisher.send, hall]

theorem publish (now : Instant) (blocks : List Bytes) :
    Holds cfg (p.publish now blocks).1 (q.publish cfg blocks) := by
  by_cases hfit : blocks.length = cfg.asdusPerFrame ∧ ∀ b ∈ blocks, b.length = cfg.sampleLen
  · obtain ⟨frame', hcall, pre, hlays, hlays'⟩ := h.published now hfit.1 hfit.2
    obtain ⟨hlength, hsuits⟩ := numbered_suits (counts_widths cfg q.wide) h.suits h.below
      (hfit.1.trans h.length.symm) hfit.2
    obtain ⟨hfresh, hlays''⟩ := h.relaid hlays hlays' hlength hsuits
    rw [hcall, Plain.publish, if_pos hfit]
    exact ⟨h.configured, rfl, wrap_mod cfg _, h.times, h.clocks, hlength.trans h.length, hsuits,
      hfresh, hlays''⟩
  · have hsame : (p.publish now blocks).1 = p := by
      obtain rfl := h.configured
      unfold Publisher.publish
      split
      · rfl
      · rename_i hn
        split
        · rfl
        · rename_i hany
          exact absurd ⟨not_not.mp hn, by simpa using hany⟩ hfit
    rw [hsame, Plain.publish, if_neg hfit]
    exact h

theorem publishRepeating (hpos : 0 < cfg.asdusPerFrame) (now : Instant) (block : Bytes) :
    Holds cfg (p.publishRepeating now block).1
      (q.publish cfg (List.replicate cfg.asdusPerFrame block)) := by
  obtain rfl := h.configured
  have hsame : p.publishRepeating now block =
      p.publish now (List.replicate p.cfg.asdusPerFrame block) := by
    rw [Publisher.publish, if_neg (not_not.mpr List.length_replicate), List.any_replicate,
      Publisher.publishRepeating, if_neg (Nat.pos_iff_ne_zero.mp hpos)]
    simp only [decide_eq_true_eq]
  rw [hsame]
  exact h.publish now _

theorem synchFits_iff (hpos : 0 < cfg.asdusPerFrame) (s : SmpSynch) :
    p.synchFits s.toU8.toNat = true ↔ q.wide = true ∨ s.toU8.toNat < 128 := by
  obtain ⟨pre, hlays⟩ := h.lays
  have hw := (counts_widths cfg q.wide).toUsable
  have hlt := s.toU8.toNat_lt
  have hfits : p.synchFits s.toU8.toNat = (p.located.map fun o => o.smpSynch.map Field.len).all
      fun len? => len?.all fun len => decide (unsignedWidth s.toU8.toNat 1 ≤ len) := by
    rw [Publisher.synchFits, List.all_map]
    simp only [Function.comp_def, Option.all_map]
  have hone : p.synchFits s.toU8.toNat = true ↔
      unsignedWidth s.toU8.toNat 1 ≤ (cfg.widths q.wide).smpSynch := by
    rw [hfits, synch_lengths hw hlays h.suits, List.all_map, List.all_eq_true]
    rw [← h.length] at hpos
    constructor
    · intro hall
      exact of_decide_eq_true (hall _ (List.getElem_mem hpos))
    · intro hle a _
      exact decide_eq_true hle
  rw [hone, unsignedWidth_le_iff (by omega) hw.smpSynch_pos hw.smpSynch]
  cases q.wide with
  | true =>
    have hroom : s.toU8.toNat < 128 * 256 ^ 1 := Nat.lt_trans hlt (by decide)
    exact iff_of_true ⟨(by decide : 1 ≤ 2), hroom⟩ (Or.inl rfl)
  | false =>
    constructor
    · rintro ⟨-, hfits⟩
      exact Or.inr hfits
    · intro hfits
      exact ⟨Nat.le_refl 1, hfits.resolve_left Bool.false_ne_true⟩

theorem setSmpSynch (hpos : 0 < cfg.asdusPerFrame) (s : SmpSynch) :
    Holds cfg (p.setSmpSynch s).1 (q.setSmpSynch cfg s) := by
  obtain rfl := h.configured
  have hfits := h.synchFits_iff hpos s
  obtain ⟨pre, hlays⟩ := h.lays
  by_cases hfit : q.wide = true ∨ s.toU8.toNat < 128
  · obtain ⟨frame', hwrite, hlays'⟩ := writeSynch_lays (p := { p with smpSynch := s })
      (counts_widths p.cfg q.wide).toUsable hlays h.suits (fills_synch hfit)
    have hsuits : ∀ a ∈ q.asdus.map fun a => { a with smpSynch := some s },
        a.Suits p.cfg (p.cfg.widths q.wide) := by
      intro a ha
      obtain ⟨b, hb, rfl⟩ := List.mem_map.mp ha
      exact { h.suits b hb with synch := ⟨s, rfl, fills_synch hfit⟩ }
    obtain ⟨hfresh, hlays''⟩ := h.relaid hlays hlays' (List.length_map _) hsuits
    have hcall : p.setSmpSynch s = ({ p with smpSynch := s, frame := frame' }, .ok ()) :=
      (if_pos (hfits.mpr hfit)).trans hwrite
    rw [hcall, Plain.setSmpSynch, if_pos hfit]
    exact ⟨rfl, h.count, h.below, h.times, h.clocks, (List.length_map _).trans h.length, hsuits, hfresh,
      hlays''⟩
  · have hcall : p.setSmpSynch s = Publisher.rebuild { p with smpSynch := s } :=
      if_neg (mt hfits.mp hfit)
    have hheld := held_eq (p := { p with smpSynch := s }) (counts_widths p.cfg q.wide).toProper hlays
      h.suits
    rw [hcall, Publisher.rebuild, hheld, Plain.setSmpSynch, if_neg hfit, ← h.times, ← h.clocks]
    cases hbuild : buildTemplate p.cfg s p.refrTm p.gmIdentity with
    | error e =>
      dsimp only
      rw [if_neg (show ¬ (Except.error e : Except Error (Bytes × List AsduOffsets)).isOk = true from
        Bool.false_ne_true)]
      exact { h with }
    | ok built =>
      obtain ⟨frame, located⟩ := built
      have hwide : unsignedWidth s.toU8.toNat 1 = (p.cfg.widths true).smpSynch := by
        have hlt := s.toU8.toNat_lt
        have hnarrow : ¬ s.toU8.toNat < 128 := fun hlt => hfit (Or.inr hlt)
        have hone : unsignedWidth s.toU8.toNat 1 ≤ 1 ↔ 1 ≤ 1 ∧ s.toU8.toNat < 128 :=
          unsignedWidth_le_iff (by omega) (by decide) (by decide)
        have htwo : unsignedWidth s.toU8.toNat 1 ≤ 2 ↔ 1 ≤ 2 ∧ s.toU8.toNat < 32768 :=
          unsignedWidth_le_iff (by omega) (by decide) (by decide)
        have htwoOctets : unsignedWidth s.toU8.toNat 1 = 2 := by omega
        exact htwoOctets
      obtain ⟨hfresh, pre', hlays'⟩ := buildTemplate_ok hwide hbuild
      have hts : List.replicate p.cfg.asdusPerFrame (templateAsdu p.cfg s p.refrTm p.gmIdentity) =
          q.asdus.map fun _ => templateAsdu p.cfg s p.refrTm p.gmIdentity := by
        rw [List.map_const', h.length]
      have hw := counts_widths p.cfg true
      have ht := templateAsdu_suits (r := p.refrTm) (g := p.gmIdentity)
        (show Fills (p.cfg.widths true).smpSynch s.toU8.toNat from fills_synch (Or.inl rfl))
      have hsuits : ∀ a ∈ q.asdus.map fun a =>
          { templateAsdu p.cfg s p.refrTm p.gmIdentity with smpCnt := a.smpCnt, sample := a.sample },
          a.Suits p.cfg (p.cfg.widths true) := by
        intro a ha
        obtain ⟨b, hb, rfl⟩ := List.mem_map.mp ha
        have hold := h.suits b hb
        exact { ht with sample := hold.sample, below := hold.below, count := hw.fills _ hold.below }
      rw [hts] at hfresh hlays'
      have hput := putBack_lays hw ht
        (fun a ha => ⟨(h.suits a ha).below, (h.suits a ha).sample⟩) hlays'
      dsimp only
      rw [if_pos (show (Except.ok (frame, located) : Except Error _).isOk = true from rfl)]
      refine ⟨rfl, h.count, h.below, rfl, rfl, (List.length_map _).trans h.length, hsuits,
        fresh_of_lays hfresh hlays' hput ?_ ?_ ?_ hsuits, pre', hput⟩
      · rw [List.length_map, h.length]
        exact few_asdus p.cfg
      · rw [List.length_map, List.length_map]
      · intro a ha
        obtain ⟨-, -, rfl⟩ := List.mem_map.mp ha
        exact ht

theorem setRefrTm (t : UtcTime) : Holds cfg (p.setRefrTm t) (q.call cfg (.setRefrTm t)) := by
  obtain rfl := h.configured
  obtain ⟨pre, hlays⟩ := h.lays
  have hlays' := writeStamps_lays (max p.cfg.profile.samplesPerSecond.toNat 1) t 0 hlays
  have hsuits : ∀ a ∈ (q.call p.cfg (.setRefrTm t)).asdus, a.Suits p.cfg (p.cfg.widths q.wide) := by
    intro a ha
    obtain ⟨x, hx, rfl⟩ := List.mem_map.mp ha
    have hold := h.suits x.1 (List.fst_mem_of_mem_zipIdx hx)
    exact { hold with timed := Option.isSome_map.trans hold.timed }
  have hn : (q.call p.cfg (.setRefrTm t)).asdus.length = q.asdus.length := by simp [Plain.call]
  obtain ⟨hfresh, hlays''⟩ := h.relaid hlays hlays' hn hsuits
  exact ⟨rfl, h.count, h.below, rfl, h.clocks, hn.trans h.length, hsuits, hfresh, hlays''⟩

theorem setGmIdentity (id : GmIdentity) :
    Holds cfg (p.setGmIdentity id) (q.call cfg (.setGmIdentity id)) := by
  obtain ⟨pre, hlays⟩ := h.lays
  have hlays' := writeIdentity_lays id hlays
  have hsuits : ∀ a ∈ (q.call cfg (.setGmIdentity id)).asdus, a.Suits cfg (cfg.widths q.wide) := by
    intro a ha
    obtain ⟨b, hb, rfl⟩ := List.mem_map.mp ha
    have hold := h.suits b hb
    exact { hold with clocked := Option.isSome_map.trans hold.clocked }
  obtain ⟨hfresh, hlays''⟩ := h.relaid hlays hlays' (List.length_map _) hsuits
  exact ⟨h.configured, h.count, h.below, h.times, rfl, (List.length_map _).trans h.length, hsuits,
    hfresh, hlays''⟩

theorem call (hpos : 0 < cfg.asdusPerFrame) (c : Call) : Holds cfg (p.call c) (q.call cfg c) := by
  cases c with
  | publish now blocks => exact h.publish now blocks
  | publishRepeating now block => exact h.publishRepeating hpos now block
  | setSmpSynch s => exact h.setSmpSynch hpos s
  | setRefrTm t => exact h.setRefrTm t
  | setGmIdentity id => exact h.setGmIdentity id
  | setSmpCnt n =>
    obtain rfl := h.configured
    exact { h with count := rfl, below := wrap_mod p.cfg _ }
  | pollTransmit => exact { h with }

theorem run (hpos : 0 < cfg.asdusPerFrame) (calls : List Call) :
    Holds cfg (calls.foldl Publisher.call p) (calls.foldl (Plain.call cfg) q) := by
  induction calls generalizing p q with
  | nil => exact h
  | cons c calls ih => exact ih (h.call hpos c)

end Holds

theorem holds_new (hnew : Publisher.new cfg = .ok p) :
    0 < cfg.asdusPerFrame ∧ Holds cfg p (Plain.initial cfg) := by
  unfold Publisher.new at hnew
  split at hnew
  · cases hnew
  split at hnew
  · cases hnew
  rename_i hzero
  split at hnew
  · cases hnew
  obtain ⟨⟨frame, located⟩, hbuild, hnew⟩ := bind_ok hnew
  cases hnew
  have hpos : 0 < cfg.asdusPerFrame := Nat.pos_iff_ne_zero.mpr fun hnone =>
    hzero (UInt8.toNat_inj.mp hnone)
  refine ⟨hpos, ?_⟩
  have hw := counts_widths cfg false
  have hzeroWrap : 0 < cfg.profile.wrap := (smpCntWrap_bounds _).1
  have hnarrow : unsignedWidth SmpSynch.none.toU8.toNat 1 = (cfg.widths false).smpSynch := rfl
  obtain ⟨hfresh, pre, hlays⟩ := buildTemplate_ok hnarrow hbuild
  have hts : ∀ a ∈ List.replicate cfg.asdusPerFrame (templateAsdu cfg .none none none),
      a.Suits cfg (cfg.widths false) := by
    intro a ha
    rw [List.eq_of_mem_replicate ha]
    exact templateAsdu_suits (fills_synch (Or.inr (by decide)))
  have hwrite := writeCounts_lays hw hlays hts hzeroWrap
  rw [List.map_replicate] at hwrite
  have hcount : (List.replicate cfg.asdusPerFrame
      (List.replicate cfg.sampleLen (0 : UInt8))).length =
        (List.replicate cfg.asdusPerFrame (templateAsdu cfg .none none none)).length := by simp
  have hblocks : ∀ b ∈ List.replicate cfg.asdusPerFrame (List.replicate cfg.sampleLen (0 : UInt8)),
      b.length = cfg.sampleLen := by
    intro b hb
    rw [List.eq_of_mem_replicate hb, List.length_replicate]
  obtain ⟨hn, hsuits⟩ := numbered_suits hw hts hzeroWrap hcount hblocks
  refine ⟨rfl, rfl, hzeroWrap, rfl, rfl, hn.trans List.length_replicate, hsuits,
    fresh_of_lays hfresh hlays hwrite ?_ hn hts hsuits, pre, hwrite⟩
  rw [List.length_replicate]
  exact few_asdus cfg

/-- Two samples in a frame, with their time and the clock of it. -/
def twoSamples : PublisherConfig where
  header :=
    { dst := ⟨[0x01, 0x0C, 0xCD, 0x04, 0x00, 0x07], rfl⟩
      src := ⟨[0x02, 0x00, 0x00, 0x00, 0x00, 0x07], rfl⟩
      vlan := none
      ethertype := ethertypeSv
      appid := 0x4000
      reserved1 := 0
      reserved2 := 0 }
  svId := ascii "MU01"
  datSet := none
  confRev := 1
  profile :=
    { samplesPerSecond := 4000
      asdusPerFrame := 2
      smpMod := none
      smpRate := none
      sampleLen := 2 }
  simulation := false
  refrTm := true
  gmIdentity := true

/-- Whatever is called, the frame of a publisher is the octets that encoding its ASDUs anew gives. -/
theorem frame_fresh (cfg : PublisherConfig) (p : Publisher) (hnew : Publisher.new cfg = .ok p)
    (calls : List Call) : cfg.fresh (calls.foldl (Plain.call cfg) (Plain.initial cfg)).wide
        (calls.foldl (Plain.call cfg) (Plain.initial cfg)).asdus =
      .ok (calls.foldl Publisher.call p).frame := by
  obtain ⟨hpos, h⟩ := holds_new hnew
  exact (h.run hpos calls).fresh

theorem frame_fresh_wide : ∃ p, Publisher.new twoSamples = .ok p ∧
      twoSamples.fresh true ((Plain.initial twoSamples).setSmpSynch twoSamples (.localClock 200)).asdus =
        .ok (p.setSmpSynch (.localClock 200)).1.frame := by
  obtain ⟨p, hnew⟩ : ∃ p, Publisher.new twoSamples = .ok p := ⟨_, rfl⟩
  exact ⟨p, hnew, frame_fresh twoSamples p hnew [.setSmpSynch (.localClock 200)]⟩

theorem numbered_get {i : Nat} (hcnt : cnt < cfg.profile.wrap) (hi : i < asdus.length)
    (hblocks : blocks.length = asdus.length) : ∃ a ∈ asdus, ∃ block, blocks[i]? = some block ∧
      (numbered cfg.profile.wrap cnt asdus blocks)[i]? =
        some { a with smpCnt := UInt16.ofNat ((cnt + i) % cfg.profile.wrap), sample := block } := by
  induction asdus generalizing cnt blocks i with
  | nil => cases hi
  | cons a asdus ih =>
    cases blocks with
    | nil => cases hblocks
    | cons block blocks =>
      cases i with
      | zero =>
        refine ⟨a, List.mem_cons_self, block, rfl, ?_⟩
        rw [numbered, List.getElem?_cons_zero]
        simp only [Nat.add_zero, Nat.mod_eq_of_lt hcnt]
      | succ i =>
        obtain ⟨a', ha, block', hblock, hget⟩ := ih (wrap_mod cfg (cnt + 1))
          (Nat.lt_of_succ_lt_succ hi) (Nat.succ.inj hblocks)
        refine ⟨a', List.mem_cons_of_mem _ ha, block', hblock, ?_⟩
        rw [numbered, List.getElem?_cons_succ, hget, Nat.mod_add_mod, Nat.add_assoc, Nat.add_comm 1]

theorem link_simulation (cfg : PublisherConfig) :
    (cfg.link.reserved1 &&& reserved1Simulation != 0) = cfg.simulation := by
  unfold PublisherConfig.link
  cases cfg.simulation
  · exact simulation_cleared _
  · exact simulation_set _

/-- The frame that is polled after `publish` is read as the blocks given, each with the next count
of the stream. -/
theorem Holds.reads {q : Plain} {limits : Limits} (h : Holds cfg p q)
    (hbus : isProcessBus cfg.header.ethertype = true) (hmax : cfg.asdusPerFrame ≤ limits.maxAsdus)
    (now : Instant) (hcount : blocks.length = cfg.asdusPerFrame)
    (hlen : ∀ b ∈ blocks, b.length = cfg.sampleLen) : ∃ octets f v, ∃ views : List AsduView,
      (p.publish now blocks).1.pollTransmit.2 = some octets ∧ Frame.parse octets = .ok f ∧
      f.dst = cfg.header.dst ∧ f.ethertype = cfg.header.ethertype ∧
      f.appid = cfg.header.appid ∧ f.simulation = cfg.simulation ∧
      SavPduView.parse f.apdu limits = .ok v ∧ v.asdus = views.map .ok ∧
      views.length = cfg.asdusPerFrame ∧ ∀ i u, views[i]? = some u →
        u.svId = cfg.svId ∧ u.datSet = cfg.datSet ∧ u.confRev = cfg.confRev.toNat ∧
        u.smpCnt = (p.smpCnt + i) % cfg.profile.wrap ∧ blocks[i]? = some u.sample := by
  obtain rfl := h.configured
  have hplain : q.publish p.cfg blocks =
      { q with
        asdus := numbered p.cfg.profile.wrap q.smpCnt q.asdus blocks
        smpCnt := (q.smpCnt + p.cfg.asdusPerFrame) % p.cfg.profile.wrap } :=
    if_pos ⟨hcount, hlen⟩
  have hsent := h.publish now blocks
  rw [hplain] at hsent
  have hpending : (p.publish now blocks).1.pending = true := by
    obtain ⟨frame', hcall, -⟩ := h.published now hcount hlen
    rw [hcall]
    rfl
  obtain ⟨apdu, hencode, hwrite⟩ := bind_ok hsent.fresh
  have hfew : (SavPdu.mk (numbered p.cfg.profile.wrap q.smpCnt q.asdus blocks)).asdus.length =
      p.cfg.asdusPerFrame := hsent.length
  obtain ⟨-, v, hv, -, -, hasdus⟩ := SavPduView.parse_encodeAt (counts_widths p.cfg q.wide).toProper
    (hfew ▸ few_asdus p.cfg) (hfew ▸ hmax) hencode
  refine ⟨_, _, v, _, if_pos hpending, Frame.parse_write (h := p.cfg.link) hbus hwrite, rfl, rfl,
    rfl, link_simulation p.cfg, hv, hasdus, (viewsFrom_length _ _ _).trans hfew, ?_⟩
  intro i u hu
  have hi : i < q.asdus.length := by
    rw [h.length, ← hfew, ← viewsFrom_length (p.cfg.widths q.wide)]
    exact (List.getElem?_eq_some_iff.mp hu).1
  obtain ⟨a, ha, block, hblock, hget⟩ := numbered_get h.below hi (hcount.trans h.length.symm)
  rw [getElem?_viewsFrom hget] at hu
  cases hu
  have hsuits := h.suits a ha
  refine ⟨hsuits.named.1, hsuits.named.2, congrArg UInt32.toNat hsuits.configured.1, ?_, hblock⟩
  rw [h.count]
  exact toNat_count (wrap_mod p.cfg _)

/-- Whatever was called before, a subscriber reads what is published next. -/
theorem published_frame (cfg : PublisherConfig) (p : Publisher) (hnew : Publisher.new cfg = .ok p)
    (hbus : isProcessBus cfg.header.ethertype = true) (limits : Limits)
    (hmax : cfg.asdusPerFrame ≤ limits.maxAsdus) (calls : List Call) (now : Instant)
    (blocks : List Bytes) (hcount : blocks.length = cfg.asdusPerFrame)
    (hlen : ∀ b ∈ blocks, b.length = cfg.sampleLen) : ∃ octets f v, ∃ views : List AsduView,
      ((calls.foldl Publisher.call p).publish now blocks).1.pollTransmit.2 = some octets ∧
      Frame.parse octets = .ok f ∧ f.dst = cfg.header.dst ∧
      f.ethertype = cfg.header.ethertype ∧ f.appid = cfg.header.appid ∧
      f.simulation = cfg.simulation ∧
      SavPduView.parse f.apdu limits = .ok v ∧ v.asdus = views.map .ok ∧
      views.length = cfg.asdusPerFrame ∧ ∀ i u, views[i]? = some u →
        u.svId = cfg.svId ∧ u.datSet = cfg.datSet ∧ u.confRev = cfg.confRev.toNat ∧
        u.smpCnt = ((calls.foldl Publisher.call p).smpCnt + i) % cfg.profile.wrap ∧
        blocks[i]? = some u.sample := by
  obtain ⟨hpos, h⟩ := holds_new hnew
  exact (h.run hpos calls).reads hbus hmax now hcount hlen

theorem published_frame_wide : ∃ p octets f, Publisher.new twoSamples = .ok p ∧
      ((p.setSmpCnt 3999).publish 0 [[1, 2], [3, 4]]).1.pollTransmit.2 = some octets ∧
      Frame.parse octets = .ok f ∧ ∃ v, SavPduView.parse f.apdu Limits.default = .ok v := by
  obtain ⟨p, hnew⟩ : ∃ p, Publisher.new twoSamples = .ok p := ⟨_, rfl⟩
  obtain ⟨octets, f, v, -, hsent, hf, -, -, -, -, hv, -⟩ := published_frame twoSamples p hnew rfl
    Limits.default (by decide) [.setSmpCnt 3999] 0 [[1, 2], [3, 4]] rfl (by decide)
  exact ⟨p, octets, f, hnew, hsent, hf, v, hv⟩

end Iec61850.Sv
