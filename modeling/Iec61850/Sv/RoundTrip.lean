import Iec61850.Ber.Reread
import Iec61850.Sv.Codec

/-!
# A sampled-value PDU there and back

An encoded `savPdu` is decoded to the ASDUs that were encoded, and the places that the decoder gives
for the fields a publisher overwrites are where the contents of these fields are in the encoded
octets (`sav_round_trip`).
-/

namespace Iec61850.Sv

open Theory Ber

/-! ### One ASDU -/

theorem Asdu.fieldsAt_ascii {w : Widths} {a : Asdu} {bs : Bytes}
    (hok : concatM (a.fieldsAt w) = .ok bs) :
    isAscii a.svId = true ∧ ∀ s, a.datSet = some s → isAscii s = true := by
  obtain ⟨_, _, hsvId, hok, -⟩ := concatM_cons_ok hok
  obtain ⟨_, _, hdatSet, -, -⟩ := concatM_cons_ok hok
  refine ⟨visibleString_ascii hsvId, ?_⟩
  intro s hs
  rw [hs] at hdatSet
  exact visibleString_ascii hdatSet

theorem mapM_visibleString {tag : Tag} {field : Option Bytes} (offset : Nat)
    (hascii : ∀ s, field = some s → isAscii s = true) :
    (field.map (tlvAt offset tag)).mapM Tlv.visibleString = .ok field := by
  cases field with
  | none => rfl
  | some s =>
    rw [Option.map_some, Option.mapM_some, visibleString_tlvAt offset (hascii s rfl)]
    rfl

theorem toNat16_le (n : UInt16) : n.toNat ≤ 65535 := Nat.le_of_lt_succ n.toNat_lt

theorem toNat8_le (n : UInt8) : n.toNat ≤ 255 := Nat.le_of_lt_succ n.toNat_lt

section Places

variable (w : Widths) (a : Asdu) (start : Nat)

theorem context_ne {m n : Nat} (h : m ≠ n) : Tag.context m ≠ Tag.context n := by
  intro heq
  cases heq
  exact h rfl

/-- Where each of the elements begins of which a place is kept. -/
def smpCntAt : Nat :=
  start + (element (Tag.context 0) a.svId).length +
    (Ber.elements (optionally (Tag.context 1) a.datSet [])).length

def refrTmAt : Nat :=
  smpCntAt a start + (element (Tag.context 2) (fixedContents w.smpCnt a.smpCnt.toNat)).length +
    (element (Tag.context 3) (fixedContents 4 a.confRev.toNat)).length

def smpSynchAt : Nat :=
  refrTmAt w a start +
    (Ber.elements (optionally (Tag.context 4) (a.refrTm.map UtcTime.toOctets) [])).length

def sampleAt : Nat :=
  smpSynchAt w a start +
    (Ber.elements (optionally (Tag.context 5)
      (a.smpSynch.map fun s => fixedContents w.smpSynch s.toU8.toNat) [])).length +
    (Ber.elements (optionally (Tag.context 6)
      (a.smpRate.map fun r => fixedContents 2 r.toNat) [])).length

def gmIdentityAt : Nat :=
  sampleAt w a start + (element (Tag.context 7) a.sample).length +
    (Ber.elements (optionally (Tag.context 8)
      (a.smpMod.map fun m => fixedContents 1 m.toNat) [])).length

theorem fieldIn_smpCnt : fieldIn (Tag.context 2) start (a.elements w) =
      some (fieldOf (tlvAt (smpCntAt a start) (Tag.context 2)
        (fixedContents w.smpCnt a.smpCnt.toNat))) := by
  rw [fieldIn, Asdu.elements, placeOf_cons_ne (context_ne (by decide)),
    placeOf_optionally_ne (context_ne (by decide)), placeOf_self]
  rfl

theorem fieldIn_refrTm : fieldIn (Tag.context 4) start (a.elements w) =
      ((a.refrTm.map UtcTime.toOctets).map (tlvAt (refrTmAt w a start) (Tag.context 4))).map
        fieldOf := by
  rw [fieldIn, Asdu.elements, placeOf_cons_ne (context_ne (by decide)),
    placeOf_optionally_ne (context_ne (by decide)), placeOf_cons_ne (context_ne (by decide)),
    placeOf_cons_ne (context_ne (by decide)), placeOf_optionally_self]
  · simp only [Option.map_map]
    rfl
  · simp only [List.forall_mem_cons, forall_mem_optionally]
    simp [Tag.context]

theorem fieldIn_smpSynch : fieldIn (Tag.context 5) start (a.elements w) =
      ((a.smpSynch.map fun s => fixedContents w.smpSynch s.toU8.toNat).map
        (tlvAt (smpSynchAt w a start) (Tag.context 5))).map fieldOf := by
  rw [fieldIn, Asdu.elements, placeOf_cons_ne (context_ne (by decide)),
    placeOf_optionally_ne (context_ne (by decide)), placeOf_cons_ne (context_ne (by decide)),
    placeOf_cons_ne (context_ne (by decide)), placeOf_optionally_ne (context_ne (by decide)),
    placeOf_optionally_self]
  · simp only [Option.map_map]
    rfl
  · simp only [List.forall_mem_cons, forall_mem_optionally]
    simp [Tag.context]

theorem fieldIn_sample : fieldIn (Tag.context 7) start (a.elements w) =
      some (fieldOf (tlvAt (sampleAt w a start) (Tag.context 7) a.sample)) := by
  rw [fieldIn, Asdu.elements, placeOf_cons_ne (context_ne (by decide)),
    placeOf_optionally_ne (context_ne (by decide)), placeOf_cons_ne (context_ne (by decide)),
    placeOf_cons_ne (context_ne (by decide)), placeOf_optionally_ne (context_ne (by decide)),
    placeOf_optionally_ne (context_ne (by decide)), placeOf_optionally_ne (context_ne (by decide)),
    placeOf_self]
  rfl

theorem fieldIn_gmIdentity : fieldIn (Tag.context 9) start (a.elements w) =
      ((a.gmIdentity.map GmIdentity.octets).map
        (tlvAt (gmIdentityAt w a start) (Tag.context 9))).map fieldOf := by
  rw [fieldIn, Asdu.elements, placeOf_cons_ne (context_ne (by decide)),
    placeOf_optionally_ne (context_ne (by decide)), placeOf_cons_ne (context_ne (by decide)),
    placeOf_cons_ne (context_ne (by decide)), placeOf_optionally_ne (context_ne (by decide)),
    placeOf_optionally_ne (context_ne (by decide)), placeOf_optionally_ne (context_ne (by decide)),
    placeOf_cons_ne (context_ne (by decide)), placeOf_optionally_ne (context_ne (by decide)),
    placeOf_optionally_self]
  · simp only [Option.map_map]
    rfl
  · simp

end Places

variable {w : Widths} {asdus : List Asdu} {tag : Tag} {es : List (Tag × Bytes)}

/-- An encoded ASDU is decoded to what was encoded, with the places of its fields. -/
theorem Asdu.parse_elements (hw : w.Proper) {a : Asdu} {contents : Bytes}
    (hok : concatM (a.fieldsAt w) = .ok contents) (offset : Nat) :
    AsduView.parse (tlvAt offset tagAsdu contents) =
      .ok (a.view w (tlvAt offset tagAsdu contents).valueOffset) := by
  obtain ⟨hsvId, hdatSet⟩ := Asdu.fieldsAt_ascii hok
  obtain ⟨rfl, hfit⟩ := Asdu.lists_fieldsAt hw a contents hok
  generalize hstart : (tlvAt offset tagAsdu (Ber.elements (a.elements w))).valueOffset = start
  have hchildren : (tlvAt offset tagAsdu (Ber.elements (a.elements w))).children =
      ⟨Ber.elements (a.elements w), start⟩ := by
    rw [← hstart]
    rfl
  have hexpect : (tlvAt offset tagAsdu (Ber.elements (a.elements w))).expect tagAsdu =
      .ok (tlvAt offset tagAsdu (Ber.elements (a.elements w))) := if_pos rfl
  unfold AsduView.parse
  simp only [hexpect, bind, Except.bind, hchildren]
  unfold Asdu.elements at hfit ⊢
  rw [List.forall_mem_cons] at hfit
  obtain ⟨h0, hfit⟩ := hfit
  have hfit1 := hfit
  rw [forall_mem_optionally, List.forall_mem_cons, List.forall_mem_cons] at hfit
  obtain ⟨-, h2, h3, hfit4⟩ := hfit
  have hfit5 := (forall_mem_optionally.mp hfit4).2
  have hfit6 := (forall_mem_optionally.mp hfit5).2
  have hfit7 := (forall_mem_optionally.mp hfit6).2
  rw [List.forall_mem_cons] at hfit7
  obtain ⟨h7, hfit8⟩ := hfit7
  have hfit9 := (forall_mem_optionally.mp hfit8).2
  simp only [nextTag_pair _ h0, visibleString_tlvAt _ hsvId]
  rw [nextIfTag_optionally _ hfit1 (by
    simp only [List.forall_mem_cons, forall_mem_optionally]
    simp [Tag.context])]
  simp only [mapM_visibleString _ hdatSet, nextTag_pair _ h2, nextTag_pair _ h3]
  have hsmpCnt : ∀ (c : Cursor) (place : Nat), unsignedUpTo c 65535
      (tlvAt place (Tag.context 2) (fixedContents w.smpCnt a.smpCnt.toNat)) =
        .ok a.smpCnt.toNat := fun c place =>
    unsignedUpTo_fixedContents (toNat16_le _) (by decide) hw.smpCnt c place _
  have hconfRev : ∀ place : Nat,
      (tlvAt place (Tag.context 3) (fixedContents 4 a.confRev.toNat)).unsignedLenientU32 =
        .ok a.confRev.toNat := fun place =>
    unsignedLenientU32_fixedContents (Nat.le_of_lt_succ a.confRev.toNat_lt) (by decide) place _
  have hrefrTm : ∀ place : Nat,
      ((a.refrTm.map UtcTime.toOctets).map (tlvAt place (Tag.context 4))).mapM utcTime =
        .ok (a.refrTm.map UtcTime.onWire) := fun place =>
    mapM_field fun t => utcTime_toOctets t place _
  have hsmpSynch : ∀ (c : Cursor) (place : Nat),
      ((a.smpSynch.map fun s => fixedContents w.smpSynch s.toU8.toNat).map
        (tlvAt place (Tag.context 5))).mapM (unsignedUpTo c 255) =
        .ok (a.smpSynch.map fun s => s.toU8.toNat) := fun c place =>
    mapM_field fun s =>
      unsignedUpTo_fixedContents (toNat8_le _) (by decide) hw.smpSynch c place _
  have hsmpRate : ∀ (c : Cursor) (place : Nat),
      ((a.smpRate.map fun r => fixedContents 2 r.toNat).map
        (tlvAt place (Tag.context 6))).mapM (unsignedUpTo c 65535) =
        .ok (a.smpRate.map UInt16.toNat) := fun c place =>
    mapM_field fun r =>
      unsignedUpTo_fixedContents (toNat16_le r) (by decide) (by decide) c place _
  have hsmpMod : ∀ (c : Cursor) (place : Nat),
      ((a.smpMod.map fun m => fixedContents 1 m.toNat).map
        (tlvAt place (Tag.context 8))).mapM (unsignedUpTo c 255) =
        .ok (a.smpMod.map UInt8.toNat) := fun c place =>
    mapM_field fun m =>
      unsignedUpTo_fixedContents (toNat8_le m) (by decide) (by decide) c place _
  simp only [hsmpCnt, hconfRev]
  rw [nextIfTag_optionally _ hfit4 (by
    simp only [List.forall_mem_cons, forall_mem_optionally]
    simp [Tag.context])]
  simp only [hrefrTm]
  rw [nextIfTag_optionally _ hfit5 (by
    simp only [List.forall_mem_cons, forall_mem_optionally]
    simp [Tag.context])]
  simp only [hsmpSynch]
  rw [nextIfTag_optionally _ hfit6 (by
    simp only [List.forall_mem_cons, forall_mem_optionally]
    simp [Tag.context])]
  simp only [hsmpRate, nextTag_pair _ h7]
  rw [nextIfTag_optionally _ hfit8 (by
    simp only [forall_mem_optionally]
    simp [Tag.context])]
  simp only [hsmpMod]
  rw [nextIfTag_optionally _ hfit9 (by simp)]
  have hview : a.view w start = {
      svId := a.svId
      datSet := a.datSet
      smpCnt := a.smpCnt.toNat
      confRev := a.confRev.toNat
      refrTm := a.refrTm.map UtcTime.onWire
      smpSynch := a.smpSynch.map fun s => SmpSynch.fromU8 s.toU8
      smpRate := a.smpRate.map UInt16.toNat
      sample := a.sample
      smpMod := a.smpMod.map UInt8.toNat
      gmIdentity := a.gmIdentity.map GmIdentity.octets
      offsets := {
        smpCnt := fieldOf (tlvAt (smpCntAt a start) (Tag.context 2)
          (fixedContents w.smpCnt a.smpCnt.toNat))
        smpSynch := ((a.smpSynch.map fun s => fixedContents w.smpSynch s.toU8.toNat).map
          (tlvAt (smpSynchAt w a start) (Tag.context 5))).map fieldOf
        refrTm := ((a.refrTm.map UtcTime.toOctets).map
          (tlvAt (refrTmAt w a start) (Tag.context 4))).map Tlv.valueOffset
        sample := (tlvAt (sampleAt w a start) (Tag.context 7) a.sample).valueOffset
        gmIdentity := ((a.gmIdentity.map GmIdentity.octets).map
          (tlvAt (gmIdentityAt w a start) (Tag.context 9))).map Tlv.valueOffset } } := by
    rw [Asdu.view, placesIn, fieldIn_smpCnt, fieldIn_refrTm, fieldIn_smpSynch, fieldIn_sample,
      fieldIn_gmIdentity]
    simp only [Option.map_map]
    rfl
  rw [hview]
  simp only [Cursor.finish, Cursor.isEmpty, Ber.elements_nil, List.isEmpty_nil, if_true,
    Option.map_map]
  simp only [Function.comp_def, UInt8.ofNat_toNat, tlvAt_value]
  rfl

/-! ### The PDU -/

/-- The element of an ASDU. -/
def Asdu.record (w : Widths) (a : Asdu) : Tag × Bytes := (tagAsdu, Ber.elements (a.elements w))

/-- What a decoder sees of ASDUs whose elements begin at an offset. -/
def viewsFrom (w : Widths) : Nat → List Asdu → List AsduView
  | _, [] => []
  | offset, a :: asdus =>
    a.view w (tlvAt offset tagAsdu (Ber.elements (a.elements w))).valueOffset ::
      viewsFrom w (offset + (element tagAsdu (Ber.elements (a.elements w))).length) asdus

theorem viewsFrom_length (w : Widths) (offset : Nat) (asdus : List Asdu) :
    (viewsFrom w offset asdus).length = asdus.length := by
  induction asdus generalizing offset with
  | nil => rfl
  | cons a asdus ih => rw [viewsFrom, List.length_cons, ih, List.length_cons]

/-- The octets in front of an ASDU are those of the ASDUs before it. -/
theorem getElem?_viewsFrom {i : Nat} {a : Asdu} (h : asdus[i]? = some a) (offset : Nat) :
    (viewsFrom w offset asdus)[i]? = some (a.view w (tlvAt
      (offset + (Ber.elements ((asdus.take i).map (Asdu.record w))).length) tagAsdu
        (Ber.elements (a.elements w))).valueOffset) := by
  induction asdus generalizing i offset with
  | nil => cases h
  | cons first asdus ih =>
    cases i with
    | zero =>
      cases h
      rfl
    | succ i =>
      rw [List.getElem?_cons_succ] at h
      rw [viewsFrom, List.getElem?_cons_succ, ih h, List.take_succ_cons, List.map_cons,
        Ber.elements_cons, List.length_append, Nat.add_assoc]
      rfl

/-- ASDUs are written as their records, each of which can be read. -/
theorem encodeAll_ok (hw : w.Proper) {bs : Bytes}
    (hok : concatM (asdus.map (Asdu.encodeAt w)) = .ok bs) :
    bs = Ber.elements (asdus.map (Asdu.record w)) ∧ ∀ a ∈ asdus, Fitting (a.record w) ∧
      concatM (a.fieldsAt w) = .ok (Ber.elements (a.elements w)) := by
  induction asdus generalizing bs with
  | nil =>
    rw [concatM_nil_ok hok]
    exact ⟨rfl, by simp⟩
  | cons a asdus ih =>
    obtain ⟨here, rest, hhere, hrest, rfl⟩ := concatM_cons_ok hok
    obtain ⟨rfl, hall⟩ := ih hrest
    obtain ⟨contents, hcontents, hlen, rfl⟩ := constructed_ok hhere
    obtain ⟨rfl, -⟩ := Asdu.lists_fieldsAt hw a contents hcontents
    refine ⟨rfl, ?_⟩
    rw [List.forall_mem_cons]
    exact ⟨⟨⟨(by decide : tagAsdu.number ≤ u32Max), hlen⟩, hcontents⟩, hall⟩

/-- The list of the ASDUs yields their views. -/
theorem parse_records (hw : w.Proper) (h : ∀ a ∈ asdus, Fitting (a.record w) ∧
      concatM (a.fieldsAt w) = .ok (Ber.elements (a.elements w))) (offset : Nat) :
    (Cursor.items ⟨Ber.elements (asdus.map (Asdu.record w)), offset⟩).map
        (fun item => item >>= AsduView.parse) = (viewsFrom w offset asdus).map .ok := by
  have hfit : ∀ e ∈ asdus.map (Asdu.record w), Fitting e := by
    intro e he
    obtain ⟨a, ha, rfl⟩ := List.mem_map.mp he
    exact (h a ha).1
  rw [items_elements hfit]
  clear hfit
  induction asdus generalizing offset with
  | nil => rfl
  | cons a asdus ih =>
    rw [List.forall_mem_cons] at h
    rw [List.map_cons, tlvsAt, List.map_cons, List.map_cons, viewsFrom, List.map_cons,
      ih h.2]
    exact congrArg (· :: _) (Asdu.parse_elements hw h.1.2 offset)

/-- The two elements of a PDU. -/
def SavPdu.elements (w : Widths) (pdu : SavPdu) : List (Tag × Bytes) :=
  [ (Tag.context 0, fixedContents 1 pdu.asdus.length)
  , (Tag.contextConstructed 2, Ber.elements (pdu.asdus.map (Asdu.record w))) ]

/-- An encoded PDU is its two elements, and every element in it can be read. -/
theorem SavPdu.encodeAt_ok (hw : w.Proper) {pdu : SavPdu} {apdu : Bytes}
    (hcount : pdu.asdus.length ≤ 65535) (hencode : pdu.encodeAt w = .ok apdu) :
    apdu = element tagSavPdu (Ber.elements (pdu.elements w)) ∧
      (Ber.elements (pdu.elements w)).length ≤ u32Max ∧ (∀ e ∈ pdu.elements w, Fitting e) ∧
      ∀ a ∈ pdu.asdus, Fitting (a.record w) ∧
        concatM (a.fieldsAt w) = .ok (Ber.elements (a.elements w)) := by
  obtain ⟨contents, hcontents, hlen, rfl⟩ := constructed_ok hencode
  obtain ⟨count, rest, hcountOk, hrest, rfl⟩ := concatM_cons_ok hcontents
  obtain ⟨listed, nothing, hlisted, hnothing, rfl⟩ := concatM_cons_ok hrest
  obtain rfl := concatM_nil_ok hnothing
  obtain ⟨records, hrecords, hrecordsLen, rfl⟩ := constructed_ok hlisted
  obtain ⟨rfl, hall⟩ := encodeAll_ok hw hrecords
  have htag : (Tag.context 0).number ≤ u32Max := by decide
  have hlt : pdu.asdus.length < 2 ^ 64 := Nat.lt_of_le_of_lt hcount (by decide)
  obtain ⟨rfl, hfit⟩ := lists_unsignedFixedMin htag hlt (by decide) count hcountOk
  have hes : Ber.elements [(Tag.context 0, beBytes (unsignedWidth pdu.asdus.length 1)
      pdu.asdus.length)] ++ (element (Tag.contextConstructed 2)
        (Ber.elements (pdu.asdus.map (Asdu.record w))) ++ []) = Ber.elements (pdu.elements w) := by
    simp [Ber.elements, SavPdu.elements, fixedContents]
  rw [hes] at hlen ⊢
  refine ⟨rfl, hlen, ?_, hall⟩
  rw [SavPdu.elements, List.forall_mem_cons, List.forall_mem_cons]
  exact ⟨hfit _ List.mem_cons_self,
    ⟨(by decide : (Tag.contextConstructed 2).number ≤ u32Max), hrecordsLen⟩, by simp⟩

/-- What stands in front of the ASDUs. -/
def SavPdu.head (w : Widths) (pdu : SavPdu) : Bytes :=
  writeTag tagSavPdu ++ lengthField (Ber.elements (pdu.elements w)).length ++
    element (Tag.context 0) (fixedContents 1 pdu.asdus.length) ++
    writeTag (Tag.contextConstructed 2) ++
    lengthField (Ber.elements (pdu.asdus.map (Asdu.record w))).length

theorem SavPdu.element_eq (w : Widths) (pdu : SavPdu) :
    element tagSavPdu (Ber.elements (pdu.elements w)) =
      pdu.head w ++ Ber.elements (pdu.asdus.map (Asdu.record w)) := by
  rw [element, SavPdu.head, SavPdu.elements]
  simp only [Ber.elements_cons, Ber.elements_nil, List.append_nil, List.append_assoc]
  rw [element.eq_1 (Tag.contextConstructed 2)]
  simp only [List.append_assoc]

/-- There is no security element in front of the ASDUs. -/
theorem readSecurity_absent {records : Bytes}
    (h : Fitting (Tag.contextConstructed 2, records)) (offset : Nat) :
    readSecurity ⟨Ber.elements [(Tag.contextConstructed 2, records)], offset⟩ =
      .ok (none, ⟨Ber.elements [(Tag.contextConstructed 2, records)], offset⟩) := by
  have hplain : Tag.contextConstructed 2 ≠ Tag.context 1 := by decide
  have hconstructed : Tag.contextConstructed 2 ≠ Tag.contextConstructed 1 := by decide
  rw [readSecurity, nextIfTag_elements_ne offset h hconstructed]
  simp only [bind, Except.bind]
  rw [nextIfTag_elements_ne offset h hplain]
  rfl

/-- An encoded PDU is decoded to the views of its ASDUs, at their places. -/
theorem SavPduView.parse_encodeAt (hw : w.Proper) {pdu : SavPdu} {limits : Limits} {apdu : Bytes}
    (hcount : pdu.asdus.length ≤ 65535) (hmax : pdu.asdus.length ≤ limits.maxAsdus)
    (hencode : pdu.encodeAt w = .ok apdu) :
    apdu = pdu.head w ++ Ber.elements (pdu.asdus.map (Asdu.record w)) ∧
      ∃ v, SavPduView.parse apdu limits = .ok v ∧ v.noAsdu = pdu.asdus.length ∧
        v.security = none ∧ v.asdus = (viewsFrom w (pdu.head w).length pdu.asdus).map .ok := by
  obtain ⟨rfl, hlen, hfit, hall⟩ := SavPdu.encodeAt_ok hw hcount hencode
  refine ⟨SavPdu.element_eq w pdu, ?_⟩
  have hpdu : Fitting (tagSavPdu, Ber.elements (pdu.elements w)) :=
    ⟨(by decide : tagSavPdu.number ≤ u32Max), hlen⟩
  have hapdu : element tagSavPdu (Ber.elements (pdu.elements w)) =
      Ber.elements [(tagSavPdu, Ber.elements (pdu.elements w))] := by simp [Ber.elements]
  have hfits := hfit
  rw [SavPdu.elements, List.forall_mem_cons, List.forall_mem_cons] at hfits
  obtain ⟨h0, h2, -⟩ := hfits
  have hread : ∀ (c : Cursor) (place : Nat), unsignedUpTo c 65535 (tlvAt place (Tag.context 0)
      (fixedContents 1 pdu.asdus.length)) = .ok pdu.asdus.length := fun c place =>
    unsignedUpTo_fixedContents hcount (by decide) (by decide) c place _
  have hstart : (tlvAt ((tlvAt 0 tagSavPdu (Ber.elements (pdu.elements w))).valueOffset +
      (element (Tag.context 0) (fixedContents 1 pdu.asdus.length)).length)
      (Tag.contextConstructed 2) (Ber.elements (pdu.asdus.map (Asdu.record w)))).valueOffset =
        (pdu.head w).length := by
    simp only [tlvAt, SavPdu.head, List.length_append]
    omega
  unfold SavPduView.parse
  rw [hapdu, Cursor.new, nextTag_pair 0 hpdu]
  simp only [bind, Except.bind, Tlv.children, tlvAt_value]
  generalize List.take _ (Ber.elements [(tagSavPdu, Ber.elements (pdu.elements w))]) = raw
  rw [SavPdu.elements] at hstart ⊢
  simp only [nextTag_pair _ h0, hread]
  rw [if_neg (Nat.not_lt.mpr hmax)]
  simp only [readSecurity_absent h2, nextTag_pair _ h2]
  generalize hlist : tlvAt _ (Tag.contextConstructed 2) _ = asduList at hstart ⊢
  have hasdus : SavPduView.asdus ⟨pdu.asdus.length, none, asduList, raw⟩ =
      (viewsFrom w (pdu.head w).length pdu.asdus).map .ok := by
    rw [SavPduView.asdus, ← parse_records hw hall, ← hstart, ← hlist]
    rfl
  simp only [Cursor.finish, Cursor.isEmpty, Ber.elements_nil, List.isEmpty_nil, if_true, hasdus,
    mapM_id_iff.mpr rfl, viewsFrom_length, Nat.min_eq_left hcount]
  exact ⟨_, if_neg (by simp), rfl, rfl, hasdus⟩

/-! ### The octets of a field -/

/-- The octets of a field. -/
def octetsAt (octets : Bytes) (f : Field) : Bytes := (octets.drop f.start).take f.len

theorem map_octetsAt_fieldIn (tag : Tag) (pre post : Bytes) (es : List (Tag × Bytes)) :
    (fieldIn tag pre.length es).map (octetsAt (pre ++ (Ber.elements es ++ post))) =
      contentsOf tag es := by
  rw [fieldIn]
  cases hplace : placeOf tag pre.length es with
  | none =>
    rw [Option.map_none, Option.map_none]
    generalize pre.length = offset at hplace
    induction es generalizing offset with
    | nil => rfl
    | cons e es ih =>
      rw [placeOf] at hplace
      rw [contentsOf]
      split at hplace
      · cases hplace
      · rename_i htag
        rw [if_neg htag]
        exact ih _ hplace
  | some place =>
    obtain ⟨start, len⟩ := place
    obtain ⟨value, hcontents, rfl, before, after, hoctets, rfl⟩ :=
      slice_placeOf pre post hplace
    rw [hcontents, hoctets]
    simp [octetsAt]

theorem contentsOf_cons_of_ne {tag' : Tag} {value : Bytes} (h : tag' ≠ tag) :
    contentsOf tag ((tag', value) :: es) = contentsOf tag es :=
  contentsOf_cons_ne h

theorem contentsOf_none (h : ∀ e ∈ es, e.1 ≠ tag) : contentsOf tag es = none := by
  induction es with
  | nil => rfl
  | cons e es ih =>
    rw [List.forall_mem_cons] at h
    rw [contentsOf_cons_ne h.1, ih h.2]

theorem contentsOf_optionally_self {field : Option Bytes} (h : ∀ e ∈ es, e.1 ≠ tag) :
    contentsOf tag (optionally tag field es) = field := by
  cases field with
  | none => exact contentsOf_none h
  | some value => exact contentsOf_self

section Contents

variable (w : Widths) (a : Asdu)

theorem contentsOf_smpCnt :
    contentsOf (Tag.context 2) (a.elements w) = some (fixedContents w.smpCnt a.smpCnt.toNat) := by
  rw [Asdu.elements, contentsOf_cons_of_ne (context_ne (by decide)),
    contentsOf_optionally_ne (context_ne (by decide)), contentsOf_self]

theorem contentsOf_refrTm :
    contentsOf (Tag.context 4) (a.elements w) = a.refrTm.map UtcTime.toOctets := by
  rw [Asdu.elements, contentsOf_cons_of_ne (context_ne (by decide)),
    contentsOf_optionally_ne (context_ne (by decide)),
    contentsOf_cons_of_ne (context_ne (by decide)), contentsOf_cons_of_ne (context_ne (by decide)),
    contentsOf_optionally_self]
  simp only [List.forall_mem_cons, forall_mem_optionally]
  simp [Tag.context]

theorem contentsOf_smpSynch : contentsOf (Tag.context 5) (a.elements w) =
      a.smpSynch.map fun s => fixedContents w.smpSynch s.toU8.toNat := by
  rw [Asdu.elements, contentsOf_cons_of_ne (context_ne (by decide)),
    contentsOf_optionally_ne (context_ne (by decide)),
    contentsOf_cons_of_ne (context_ne (by decide)), contentsOf_cons_of_ne (context_ne (by decide)),
    contentsOf_optionally_ne (context_ne (by decide)), contentsOf_optionally_self]
  simp only [List.forall_mem_cons, forall_mem_optionally]
  simp [Tag.context]

theorem contentsOf_sample : contentsOf (Tag.context 7) (a.elements w) = some a.sample := by
  rw [Asdu.elements, contentsOf_cons_of_ne (context_ne (by decide)),
    contentsOf_optionally_ne (context_ne (by decide)),
    contentsOf_cons_of_ne (context_ne (by decide)), contentsOf_cons_of_ne (context_ne (by decide)),
    contentsOf_optionally_ne (context_ne (by decide)),
    contentsOf_optionally_ne (context_ne (by decide)),
    contentsOf_optionally_ne (context_ne (by decide)), contentsOf_self]

theorem contentsOf_gmIdentity :
    contentsOf (Tag.context 9) (a.elements w) = a.gmIdentity.map GmIdentity.octets := by
  rw [Asdu.elements, contentsOf_cons_of_ne (context_ne (by decide)),
    contentsOf_optionally_ne (context_ne (by decide)),
    contentsOf_cons_of_ne (context_ne (by decide)), contentsOf_cons_of_ne (context_ne (by decide)),
    contentsOf_optionally_ne (context_ne (by decide)),
    contentsOf_optionally_ne (context_ne (by decide)),
    contentsOf_optionally_ne (context_ne (by decide)),
    contentsOf_cons_of_ne (context_ne (by decide)),
    contentsOf_optionally_ne (context_ne (by decide)), contentsOf_optionally_self]
  simp

end Contents

/-- The places in a view have the contents of the fields of the ASDU. -/
structure Located (w : Widths) (octets : Bytes) (a : Asdu) (places : AsduOffsets) : Prop where
  smpCnt : octetsAt octets places.smpCnt = fixedContents w.smpCnt a.smpCnt.toNat
  smpSynch : places.smpSynch.map (octetsAt octets) =
    a.smpSynch.map fun s => fixedContents w.smpSynch s.toU8.toNat
  refrTm : (places.refrTm.map fun start => octetsAt octets ⟨start, 8⟩) =
    a.refrTm.map UtcTime.toOctets
  sample : octetsAt octets ⟨places.sample, a.sample.length⟩ = a.sample
  gmIdentity : (places.gmIdentity.map fun start => octetsAt octets ⟨start, 8⟩) =
    a.gmIdentity.map GmIdentity.octets

/-- A field of eight octets, given by where it starts. -/
theorem map_octetsAt_start {tag : Tag} {start : Nat} {es : List (Tag × Bytes)} {octets : Bytes}
    (hlen : ∀ value, contentsOf tag es = some value → value.length = 8)
    (h : (fieldIn tag start es).map (octetsAt octets) = contentsOf tag es) :
    (((fieldIn tag start es).map Field.start).map fun place => octetsAt octets ⟨place, 8⟩) =
      contentsOf tag es := by
  cases hfield : fieldIn tag start es with
  | none =>
    rw [hfield] at h
    exact h
  | some f =>
    have hsame : f.len = 8 := by
      rw [fieldIn, Option.map_eq_some_iff] at hfield
      obtain ⟨⟨place, len⟩, hplace, rfl⟩ := hfield
      obtain ⟨front, value, back, rfl, hfront, -, rfl⟩ := placeOf_split hplace
      exact hlen value (contentsOf_split hfront)
    rw [hfield] at h
    rw [← h, ← hsame]
    rfl

theorem toOctets_length (t : UtcTime) : t.toOctets.length = 8 := by
  simp [UtcTime.toOctets, beBytes_length]

theorem located_view (w : Widths) (a : Asdu) (pre post : Bytes) :
    Located w (pre ++ (Ber.elements (a.elements w) ++ post)) a
      (placesIn pre.length (a.elements w)) := by
  have hread := fun tag => map_octetsAt_fieldIn tag pre post (a.elements w)
  refine ⟨?_, ?_, ?_, ?_, ?_⟩
  · have h := hread (Tag.context 2)
    rw [contentsOf_smpCnt, fieldIn_smpCnt, Option.map_some, Option.some.injEq] at h
    rw [placesIn, fieldIn_smpCnt]
    exact h
  · rw [← contentsOf_smpSynch]
    exact hread (Tag.context 5)
  · rw [← contentsOf_refrTm w]
    refine map_octetsAt_start ?_ (hread (Tag.context 4))
    intro value hvalue
    rw [contentsOf_refrTm, Option.map_eq_some_iff] at hvalue
    obtain ⟨t, -, rfl⟩ := hvalue
    exact toOctets_length t
  · have h := hread (Tag.context 7)
    rw [contentsOf_sample, fieldIn_sample, Option.map_some, Option.some.injEq] at h
    rw [placesIn, fieldIn_sample]
    exact h
  · rw [← contentsOf_gmIdentity w]
    refine map_octetsAt_start ?_ (hread (Tag.context 9))
    intro value hvalue
    rw [contentsOf_gmIdentity, Option.map_eq_some_iff] at hvalue
    obtain ⟨g, -, rfl⟩ := hvalue
    exact g.length_eq

/-- The octets of a PDU around the fields of its `i`-th ASDU. -/
theorem records_split {w : Widths} {asdus : List Asdu} {i : Nat} {a : Asdu}
    (h : asdus[i]? = some a) (head : Bytes) :
    ∃ pre post, head ++ Ber.elements (asdus.map (Asdu.record w)) =
        pre ++ (Ber.elements (a.elements w) ++ post) ∧
      pre.length = (tlvAt (head.length + (Ber.elements ((asdus.take i).map (Asdu.record w))).length)
        tagAsdu (Ber.elements (a.elements w))).valueOffset := by
  obtain ⟨hi, rfl⟩ := List.getElem?_eq_some_iff.mp h
  refine ⟨head ++ Ber.elements ((asdus.take i).map (Asdu.record w)) ++ writeTag tagAsdu ++
    lengthField (Ber.elements ((asdus[i]).elements w)).length,
    Ber.elements ((asdus.drop (i + 1)).map (Asdu.record w)), ?_, ?_⟩
  · have hsplit : asdus.map (Asdu.record w) = (asdus.take i).map (Asdu.record w) ++
        (asdus[i]).record w :: (asdus.drop (i + 1)).map (Asdu.record w) := by
      conv_lhs => rw [← List.take_append_drop i asdus, List.drop_eq_getElem_cons hi]
      rw [List.map_append, List.map_cons]
    rw [hsplit, Ber.elements_append, Ber.elements_cons, Asdu.record, element]
    simp only [List.append_assoc]
  · simp only [List.length_append, tlvAt]

/-- A PDU is decoded to its ASDUs, each as far as its octets hold it, and the places in the view of
an ASDU are those of its fields in the octets of this ASDU. -/
theorem sav_round_trip (limits : Limits) (pdu : SavPdu) (apdu : Bytes)
    (hcount : pdu.asdus.length ≤ 65535) (hmax : pdu.asdus.length ≤ limits.maxAsdus)
    (hencode : pdu.encode = .ok apdu) :
    ∃ (v : SavPduView) (views : List AsduView), SavPduView.parse apdu limits = .ok v ∧
      v.noAsdu = pdu.asdus.length ∧ v.asdus = views.map .ok ∧ views.length = pdu.asdus.length ∧
      ∀ i a u, pdu.asdus[i]? = some a → views[i]? = some u →
        (∃ pre post, apdu = pre ++ (Ber.elements (a.elements Widths.least) ++ post) ∧
          pre.length = (tlvAt ((pdu.head Widths.least).length +
            (Ber.elements ((pdu.asdus.take i).map (Asdu.record Widths.least))).length) tagAsdu
              (Ber.elements (a.elements Widths.least))).valueOffset ∧
          u = a.view Widths.least pre.length) ∧ Located Widths.least apdu a u.offsets := by
  obtain ⟨happdu, v, hv, hno, -, hasdus⟩ :=
    SavPduView.parse_encodeAt Widths.least_proper hcount hmax (pdu.encodeAt_least ▸ hencode)
  refine ⟨v, _, hv, hno, hasdus, viewsFrom_length _ _ _, ?_⟩
  intro i a u ha hu
  rw [getElem?_viewsFrom ha] at hu
  cases hu
  obtain ⟨pre, post, hoctets, hlen⟩ := records_split (w := Widths.least) ha (pdu.head Widths.least)
  rw [hoctets] at happdu
  refine ⟨⟨pre, post, happdu, hlen, by rw [hlen]⟩, ?_⟩
  rw [← hlen, happdu]
  exact located_view Widths.least a pre post

/-- Two ASDUs, one with every field and one with none that is optional. -/
def mixedPdu : SavPdu where
  asdus :=
    [ { svId := ascii "MU01"
        datSet := some (ascii "LD/LLN0$ds")
        smpCnt := 4000
        confRev := 1
        refrTm := some ⟨100, 8388608, .synchronized⟩
        smpSynch := some .global
        smpRate := some 80
        sample := [0, 1, 2, 3]
        smpMod := some 1
        gmIdentity := some ⟨[1, 2, 3, 4, 5, 6, 7, 8], rfl⟩ }
    , { svId := ascii "MU02"
        datSet := none
        smpCnt := 4000
        confRev := 1
        refrTm := none
        smpSynch := none
        smpRate := none
        sample := []
        smpMod := none
        gmIdentity := none } ]

theorem sav_round_trip_mixed : ∃ (apdu : Bytes) (v : SavPduView) (views : List AsduView),
      mixedPdu.encode = .ok apdu ∧ SavPduView.parse apdu Limits.default = .ok v ∧
      v.noAsdu = 2 ∧ v.asdus = views.map .ok ∧ ∀ u, views[1]? = some u →
        Located Widths.least apdu (mixedPdu.asdus[1]) u.offsets := by
  obtain ⟨apdu, hencode⟩ : ∃ apdu, mixedPdu.encode = .ok apdu := ⟨_, rfl⟩
  obtain ⟨v, views, hv, hno, hasdus, -, hviews⟩ :=
    sav_round_trip Limits.default mixedPdu apdu (by decide) (by decide) hencode
  exact ⟨apdu, v, views, hencode, hv, hno, hasdus, fun u hu => (hviews 1 _ u rfl hu).2⟩

/-- A clock identity that is one of the other values of `smpSynch` is read as that value, and a
fraction of twenty-five bits is cut. -/
theorem wide_asdu_is_cut :
    ∃ apdu v u,
      (⟨[{ svId := ascii "MU01", datSet := none, smpCnt := 0, confRev := 1,
           refrTm := some ⟨100, 2 ^ 24, .synchronized⟩, smpSynch := some (.localClock 2),
           smpRate := none, sample := [], smpMod := none, gmIdentity := none }]⟩ :
        SavPdu).encode = .ok apdu ∧
      SavPduView.parse apdu Limits.default = .ok v ∧ v.asdus = [.ok u] ∧
      u.smpSynch = some .global ∧ u.refrTm = some ⟨100, 0, .synchronized⟩ :=
  ⟨_, _, _, rfl, rfl, rfl, rfl, rfl⟩

end Iec61850.Sv
