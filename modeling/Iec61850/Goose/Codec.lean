import Iec61850.Ber.Records
import Iec61850.Common.DataRoundTrip
import Iec61850.Goose.Publisher
import Iec61850.Goose.SubscriberSteps
import Iec61850.Link.RoundTrip

/-!
# A GOOSE frame there and back

What a subscriber reads out of a frame is what the publisher put into it
(`streamPdu_of_nextFrame`): the APDU and the link-layer header agree with what was written,
the simulation flag in both of its places and the count of members included.
-/

namespace Iec61850.Goose

open Theory Ber Link

/-! ### The APDU -/

/-- The elements of a `goosePdu`. -/
def GooseHeader.elements (h : GooseHeader) (body : Bytes) : List (Tag × Bytes) :=
  (Tag.context 0, h.gocbRef) ::
  (Tag.context 1, unsignedContents h.timeAllowedToLive.toNat) ::
  (Tag.context 2, h.datSet) ::
  ((h.goId.toList.map fun s => (Tag.context 3, s)) ++
  [ (Tag.context 4, h.t.toOctets)
  , (Tag.context 5, unsignedContents h.stNum.toNat)
  , (Tag.context 6, unsignedContents h.sqNum.toNat)
  , (Tag.context 7, [if h.simulation then 1 else 0])
  , (Tag.context 8, unsignedContents h.confRev.toNat)
  , (Tag.context 9, [if h.ndsCom then 1 else 0])
  , (Tag.context 10, unsignedContents h.numDatSetEntries.toNat)
  , (Tag.contextConstructed 11, body) ])

theorem lists_fields (h : GooseHeader) (body : Bytes) :
    Lists (concatM (h.fields body)) (h.elements body) := by
  refine lists_cons (lists_visibleString (by decide)) ?_
  refine lists_cons (lists_unsigned (by decide)) ?_
  refine lists_cons (lists_visibleString (by decide)) ?_
  refine lists_optionally_self (fun _ => lists_visibleString (by decide)) ?_
  refine lists_cons (lists_primitive (by decide)) ?_
  refine lists_cons (lists_unsigned (by decide)) ?_
  refine lists_cons (lists_unsigned (by decide)) ?_
  refine lists_cons (lists_boolean (by decide)) ?_
  refine lists_cons (lists_unsigned (by decide)) ?_
  refine lists_cons (lists_boolean (by decide)) ?_
  refine lists_cons (lists_unsigned (by decide)) ?_
  exact lists_cons (lists_constructed (by decide)) lists_concatM_nil

/-- The view of a `goosePdu` shows this header and this body. -/
structure Shows (h : GooseHeader) (body : Bytes) (v : GoosePduView) : Prop where
  gocbRef : v.gocbRef = h.gocbRef
  timeAllowedToLive : v.timeAllowedToLive = h.timeAllowedToLive.toNat
  stNum : v.stNum = h.stNum.toNat
  sqNum : v.sqNum = h.sqNum.toNat
  simulation : v.simulation = h.simulation
  confRev : v.confRev = h.confRev.toNat
  ndsCom : v.ndsCom = h.ndsCom
  numDatSetEntries : v.numDatSetEntries = h.numDatSetEntries.toNat
  allData : v.allData.value = body

theorem unsignedLenientU32_toNat (n : UInt32) (offset : Nat) (tag : Tag) :
    (tlvAt offset tag (unsignedContents n.toNat)).unsignedLenientU32 = .ok n.toNat :=
  unsignedLenientU32_contents (by
    have h := n.toNat_lt
    rw [u32Max]
    omega) offset tag

theorem fittingTag : tagGoosePdu.number ≤ u32Max := by decide

theorem fields_ascii {h : GooseHeader} {body bs : Bytes} (hok : concatM (h.fields body) = .ok bs) :
    isAscii h.gocbRef = true ∧ isAscii h.datSet = true ∧ ∀ s, h.goId = some s → isAscii s = true := by
  obtain ⟨_, _, hgocbRef, hok, -⟩ := concatM_cons_ok hok
  obtain ⟨_, _, -, hok, -⟩ := concatM_cons_ok hok
  obtain ⟨_, _, hdatSet, hok, -⟩ := concatM_cons_ok hok
  obtain ⟨_, _, hgoId, -, -⟩ := concatM_cons_ok hok
  refine ⟨visibleString_ascii hgocbRef, visibleString_ascii hdatSet, fun s hs => ?_⟩
  rw [hs] at hgoId
  exact visibleString_ascii hgoId

section Read

variable {tag : Tag} {value : Bytes} {es : List (Tag × Bytes)} (offset : Nat)

theorem readOptional_some {α : Type} {read : Tlv → Except Error α} {t : Tlv} {a : α}
    (h : read t = .ok a) : readOptional (some t) read = .ok (some a) := by
  rw [readOptional, h]
  rfl

theorem readOptional_visibleString {field : Option Bytes}
    (hascii : ∀ s, field = some s → isAscii s = true) :
    readOptional (field.map (tlvAt offset tag)) Tlv.visibleString = .ok field := by
  cases field with
  | none => rfl
  | some s => exact readOptional_some (visibleString_tlvAt offset (hascii s rfl))

theorem readSecurity_nil : readSecurity ⟨Ber.elements [], offset⟩ = .ok (none, ⟨[], offset⟩) := rfl

end Read

variable {h : GooseHeader} {body apdu frame : Bytes} {p : Publisher}

theorem GoosePduView.parse_encode (hencode : encodeInto h body = .ok apdu) :
    ∃ v, GoosePduView.parse apdu = .ok v ∧ Shows h body v ∧ v.datSet = h.datSet ∧
      v.goId = h.goId ∧ v.t = h.t.onWire := by
  obtain ⟨contents, hcontents, hlen, rfl⟩ := constructed_ok hencode
  obtain ⟨hgocbRef, hdatSet, hgoId⟩ := fields_ascii hcontents
  obtain ⟨rfl, hfit⟩ := lists_fields h body contents hcontents
  have hpdu : Fitting (tagGoosePdu, Ber.elements (h.elements body)) := ⟨fittingTag, hlen⟩
  have hapdu : element tagGoosePdu (Ber.elements (h.elements body)) =
      Ber.elements [(tagGoosePdu, Ber.elements (h.elements body))] := by simp [Ber.elements]
  unfold GoosePduView.parse
  rw [hapdu, Cursor.new, nextTag_pair 0 hpdu]
  simp only [bind, Except.bind, Tlv.children, tlvAt_value]
  generalize (tlvAt 0 tagGoosePdu (Ber.elements (h.elements body))).valueOffset = start
  generalize List.take _ (Ber.elements [(tagGoosePdu, Ber.elements (h.elements body))]) = raw
  unfold GooseHeader.elements at hfit ⊢
  have hgoIdFirst : ∀ rest, (h.goId.toList.map fun s => (Tag.context 3, s)) ++ rest =
      optionally (Tag.context 3) h.goId rest := fun _ => rfl
  rw [hgoIdFirst] at hfit ⊢
  simp only [List.forall_mem_cons] at hfit
  obtain ⟨h0, h1, h2, hfit⟩ := hfit
  have hrest := (forall_mem_optionally.mp hfit).2
  simp only [List.forall_mem_cons] at hrest
  obtain ⟨h4, h5, h6, h7, h8, h9, h10, h11, -⟩ := hrest
  simp only [nextTag_pair _ h0, visibleString_tlvAt _ hgocbRef, nextTag_pair _ h1,
    unsignedLenientU32_toNat, nextTag_pair _ h2, visibleString_tlvAt _ hdatSet]
  rw [nextIfTag_optionally _ hfit (by simp [Tag.context, Tag.contextConstructed])]
  simp only [readOptional_visibleString _ hgoId]
  simp only [nextTag_pair _ h4, utcTime_toOctets, nextTag_pair _ h5, nextTag_pair _ h6,
    unsignedLenientU32_toNat]
  simp only [nextIfTag_pair _ h7, nextTag_pair _ h8, nextIfTag_pair _ h9, nextTag_pair _ h10,
    nextTag_pair _ h11, unsignedLenientU32_toNat, readOptional_some (boolean_tlvAt _ _),
    readSecurity_nil]
  exact ⟨_, rfl, ⟨rfl, rfl, rfl, rfl, rfl, rfl, rfl, rfl, rfl⟩, rfl, rfl, rfl⟩

/-! ### The members -/

theorem body_length_le (hencode : encodeInto h body = .ok apdu) : body.length ≤ apdu.length := by
  obtain ⟨contents, hcontents, -, rfl⟩ := constructed_ok hencode
  obtain ⟨rfl, -⟩ := lists_fields h body contents hcontents
  have hmem : (Tag.contextConstructed 11, body) ∈ h.elements body := by
    simp [GooseHeader.elements]
  have hle : body.length ≤ (Ber.elements (h.elements body)).length := element_le_elements hmem
  rw [element, List.length_append]
  omega

/-- The body holds these values, and the number of members is theirs. -/
structure Publisher.Holds (p : Publisher) (values : List Value) : Prop where
  tags : ∀ v ∈ values, v.TagFits
  body : Value.encodeAll values = .ok p.body
  members : p.members = UInt32.ofNat values.length

theorem memberCount_elements {v : GoosePduView} {es : List (Tag × Bytes)}
    (h : Spells v.allData.value es) : v.memberCount = some es.length := by
  obtain ⟨hvalue, hfit⟩ := h
  have hcount : ∀ (ts : List Tlv) (n : Nat), (ts.map Except.ok).foldlM
      (fun n (item : Except Error Tlv) => item.toOption.map fun _ => n + 1) n =
        some (n + ts.length) := by
    intro ts
    induction ts with
    | nil => intro n; rfl
    | cons t ts ih =>
      intro n
      rw [List.map_cons, List.foldlM_cons]
      refine (ih (n + 1)).trans ?_
      rw [List.length_cons, Nat.add_assoc, Nat.add_comm 1]
  have hlength : ∀ (es : List (Tag × Bytes)) (offset : Nat), (tlvsAt offset es).length = es.length := by
    intro es
    induction es with
    | nil => intro offset; rfl
    | cons e es ih =>
      intro offset
      rw [tlvsAt, List.length_cons, List.length_cons, ih]
  rw [GoosePduView.memberCount, Tlv.children, hvalue, items_elements hfit, hcount, hlength]
  simp

/-! ### The frame -/

/-- The subscriber is configured for the stream of the publisher. -/
structure Subscribed (cfg : SubscriberConfig) (p : Publisher) : Prop where
  dst : cfg.key.dst = p.cfg.header.dst
  appid : cfg.key.appid = p.cfg.header.appid
  gocbRef : cfg.key.gocbRef = p.cfg.gocbRef
  ethertype : p.cfg.header.ethertype = ethertypeGoose
  simulation : p.simulation = true → cfg.simulation = .preferred
  confRev : ∀ rev, cfg.expectedConfRev = some rev → rev = p.cfg.confRev.toNat

theorem nextFrame_ok (h : p.nextFrame = .ok frame) :
    ∃ apdu, encodeInto p.header p.body = .ok apdu ∧ p.link.write apdu = .ok frame := by
  unfold Publisher.nextFrame at h
  cases hencode : encodeInto p.header p.body with
  | error e =>
    rw [hencode] at h
    cases h
  | ok apdu =>
    rw [hencode] at h
    exact ⟨apdu, rfl, h⟩

theorem link_simulation (p : Publisher) :
    (p.link.reserved1 &&& reserved1Simulation != 0) = p.simulation := by
  unfold Publisher.link
  cases p.simulation
  · exact simulation_cleared _
  · exact simulation_set _

/-- A publisher with ASCII names of a sensible length and a body that leaves room for the
header can always send. -/
theorem nextFrame_of_small (hgocbRef : isAscii p.cfg.gocbRef = true)
    (hgocbRefLen : p.cfg.gocbRef.length ≤ 129) (hdatSet : isAscii p.cfg.datSet = true)
    (hdatSetLen : p.cfg.datSet.length ≤ 129)
    (hgoId : ∀ s, p.cfg.goId = some s → isAscii s = true ∧ s.length ≤ 129)
    (hbody : p.body.length ≤ 60000) : ∃ frame, p.nextFrame = .ok frame := by
  have hoptional : Fits (optM p.cfg.goId (visibleString (Tag.context 3))) 140 := by
    cases hfield : p.cfg.goId with
    | none => exact fits_ok (Nat.zero_le _)
    | some s =>
      obtain ⟨hascii, hlen⟩ := hgoId s hfield
      exact fits_visibleString (n := 129) hascii hlen (by decide)
  have htime : p.t.toOctets.length = 8 := by simp [UtcTime.toOctets]
  have hfields : Fits (concatM (p.header.fields p.body)) 60574 := by
    unfold GooseHeader.fields Publisher.header
    refine (fits_concatM_cons (fits_visibleString (n := 129) hgocbRef hgocbRefLen (by decide)) <|
      fits_concatM_cons (fits_unsigned _ _) <|
      fits_concatM_cons (fits_visibleString (n := 129) hdatSet hdatSetLen (by decide)) <|
      fits_concatM_cons hoptional <|
      fits_concatM_cons (fits_primitive (n := 8) (Nat.le_of_eq htime) (by decide)) <|
      fits_concatM_cons (fits_unsigned _ _) <| fits_concatM_cons (fits_unsigned _ _) <|
      fits_concatM_cons (fits_boolean _ _) <| fits_concatM_cons (fits_unsigned _ _) <|
      fits_concatM_cons (fits_boolean _ _) <| fits_concatM_cons (fits_unsigned _ _) <|
      fits_concatM_cons (fits_constructed (n := 60000) (fits_ok hbody) (by decide))
        fits_concatM_nil).mono ?_
    decide
  obtain ⟨apdu, hencode, hlen⟩ : Fits (encodeInto p.header p.body) 60585 :=
    fits_constructed hfields (by decide)
  unfold Publisher.nextFrame
  rw [hencode]
  change ∃ frame, p.link.write apdu = .ok frame
  rw [FrameHeader.write, if_neg (by omega)]
  exact ⟨_, rfl⟩

/-- The frame of a publisher, as it is read. -/
theorem parse_nextFrame (h : p.nextFrame = .ok frame)
    (hethertype : p.cfg.header.ethertype = ethertypeGoose) :
    ∃ fr v, Frame.parse frame = .ok fr ∧ GoosePduView.parse fr.apdu = .ok v ∧
      Shows p.header p.body v ∧ fr.ethertype = ethertypeGoose ∧ fr.dst = p.cfg.header.dst ∧
      fr.appid = p.cfg.header.appid ∧ fr.simulation = p.simulation ∧ p.body.length ≤ 65535 := by
  obtain ⟨apdu, hencode, hwrite⟩ := nextFrame_ok h
  obtain ⟨v, hv, hshows, -⟩ := GoosePduView.parse_encode hencode
  have hbus : isProcessBus p.link.ethertype = true := by
    change isProcessBus p.cfg.header.ethertype = true
    rw [hethertype]
    decide
  have hlen := (FrameHeader.write_ok hwrite).1
  have hbody := body_length_le hencode
  exact ⟨_, v, Frame.parse_write hbus hwrite, hv, hshows, hethertype, rfl, rfl, link_simulation p,
    by omega⟩

/-- A frame of the stream gets as far as the policies, and shows what was sent. -/
theorem streamPdu_of_nextFrame {cfg : SubscriberConfig} {values : List Value}
    (h : p.nextFrame = .ok frame) (hsub : Subscribed cfg p) (hholds : p.Holds values) :
    ∃ v, Subscriber.streamPdu cfg.key frame = some v ∧ Shows p.header p.body v := by
  obtain ⟨fr, v, hframe, hv, hshows, hethertype, hdst, happid, hsimulation, hlen⟩ :=
    parse_nextFrame h hsub.ethertype
  obtain ⟨es, hes, hcount⟩ := Value.encodeAll_spells values p.body hholds.tags hholds.body
  have hmatches : v.memberCountMatches = true := by
    have hle := length_le_elements es
    rw [← hes.1] at hle
    rw [GoosePduView.memberCountMatches, memberCount_elements (by rw [hshows.allData]; exact hes),
      hshows.numDatSetEntries]
    change (some es.length == some p.members.toNat) = true
    rw [hholds.members, UInt32.toNat_ofNat', hcount, Nat.mod_eq_of_lt (by omega)]
    simp
  refine ⟨v, ?_, hshows⟩
  have haddress : ¬ (fr.ethertype ≠ ethertypeGoose ∨ fr.dst ≠ cfg.key.dst ∨
      fr.appid ≠ cfg.key.appid) := by
    rw [hethertype, hdst, happid, hsub.dst, hsub.appid]
    simp
  have href : ¬ v.gocbRef ≠ cfg.key.gocbRef := by
    rw [hshows.gocbRef, hsub.gocbRef]
    exact not_not_intro rfl
  have hsim : ¬ v.simulation ≠ fr.simulation := by
    rw [hshows.simulation, hsimulation]
    exact not_not_intro rfl
  have hcounted : ¬ (!v.memberCountMatches) = true := by
    rw [hmatches]
    decide
  unfold Subscriber.streamPdu
  simp only [hframe, hv]
  rw [if_neg haddress, if_neg href, if_neg hsim, if_neg hcounted]

end Iec61850.Goose
