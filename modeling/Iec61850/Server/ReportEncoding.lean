import Iec61850.Common.DataRoundTrip
import Iec61850.Mms.ReportReread
import Iec61850.Server.Segments

/-!
# Which reports can be encoded

The encoding of a report is an envelope around the encodings of its values (`encode_parts`), so
a report of which another one sends all values but a few short ones can be encoded too. Its
one-entry segments are of that kind (`splittable_of_encode`).
-/

namespace Iec61850.Server

open Theory Ber Mms

/-- One value of a report, as it stands in the PDU. -/
def valueBytes (v : Value) : Except Error Bytes :=
  (Value.encodeAll [v] >>= successOf) >>= AccessResult.write

/-- The values can be written, in at most `n` octets. -/
def Written (vs : List Value) (n : Nat) : Prop :=
  ∃ parts, List.Forall₂ (fun v part => valueBytes v = .ok part) vs parts ∧ parts.flatten.length ≤ n

variable {v : Value} {n : Nat} {vs ws values : List Value} {results : List AccessResult}
  {bytes : Bytes} {r : Report}

theorem written_single {part : Bytes} (h : valueBytes v = .ok part) (hn : part.length ≤ n) :
    Written [v] n :=
  ⟨[part], .cons h .nil, by simpa using hn⟩

theorem Written.mono {m : Nat} (h : Written vs m) (hmn : m ≤ n) : Written vs n := by
  obtain ⟨parts, hparts, hlen⟩ := h
  exact ⟨parts, hparts, Nat.le_trans hlen hmn⟩

theorem Written.append {m : Nat} (h : Written vs m) (h' : Written ws n) :
    Written (vs ++ ws) (m + n) := by
  obtain ⟨parts, hparts, hlen⟩ := h
  obtain ⟨parts', hparts', hlen'⟩ := h'
  refine ⟨parts ++ parts', List.rel_append hparts hparts', ?_⟩
  rw [List.flatten_append, List.length_append]
  omega

theorem Written.sublist (hsub : List.Sublist ws vs) (h : Written vs n) : Written ws n := by
  obtain ⟨parts, hparts, hlen⟩ := h
  induction hsub generalizing parts n with
  | slnil => exact ⟨parts, hparts, hlen⟩
  | cons v hsub ih =>
    cases hparts with
    | @cons _ part _ parts hv hrest =>
      rw [List.flatten_cons, List.length_append] at hlen
      exact (ih parts hrest (Nat.le_refl _)).mono (by omega)
  | cons_cons v hsub ih =>
    cases hparts with
    | @cons _ part _ parts hv hrest =>
      rw [List.flatten_cons, List.length_append] at hlen
      have hboth := (written_single hv (Nat.le_refl _)).append (ih parts hrest (Nat.le_refl _))
      exact hboth.mono hlen

theorem Written.perm (h : Written vs n) (hperm : vs.Perm ws) : Written ws n := by
  induction hperm generalizing n with
  | nil => exact h
  | cons v hperm ih =>
    obtain ⟨parts, hparts, hlen⟩ := h
    cases hparts with
    | @cons _ part _ parts hv hrest =>
      rw [List.flatten_cons, List.length_append] at hlen
      have hboth := (written_single hv (Nat.le_refl _)).append
        (ih ⟨parts, hrest, Nat.le_refl _⟩)
      exact hboth.mono hlen
  | swap v w vs =>
    obtain ⟨parts, hparts, hlen⟩ := h
    cases hparts with
    | @cons _ first _ parts hw hrest =>
      cases hrest with
      | @cons _ second _ parts hv hrest =>
        refine ⟨second :: first :: parts, .cons hv (.cons hw hrest), ?_⟩
        simp only [List.flatten_cons, List.length_append] at hlen ⊢
        omega
  | trans _ _ ih ih' => exact ih' (ih h)

theorem length_le_element (tag : Tag) (value : Bytes) : value.length ≤ (element tag value).length := by
  rw [element, List.length_append]
  exact Nat.le_add_left _ _

theorem concatM_write {parts : List Bytes}
    (h : List.Forall₂ (fun res part => res.write = .ok part) results parts) :
    concatM (results.map AccessResult.write) = .ok parts.flatten := by
  induction h with
  | nil => rfl
  | cons hhead htail ih =>
    rw [List.map_cons, concatM, hhead, ih]
    rfl

theorem exists_parts (h : concatM (results.map AccessResult.write) = .ok bytes) :
    ∃ parts, List.Forall₂ (fun res part => res.write = .ok part) results parts ∧
      bytes = parts.flatten := by
  induction results generalizing bytes with
  | nil => exact ⟨[], .nil, concatM_nil_ok h⟩
  | cons res results ih =>
    obtain ⟨here, rest, hhere, hrest, rfl⟩ := concatM_cons_ok h
    obtain ⟨parts, hparts, rfl⟩ := ih hrest
    exact ⟨here :: parts, .cons hhere hparts, rfl⟩

theorem fits_reportPdu (h : Fits (concatM (results.map AccessResult.write)) n)
    (hn : n + 64 ≤ u32Max) : Fits (reportPdu results).write (n + 64) := by
  have haccess : Fits (VariableAccess.variableListName (.vmdSpecific reportListName)).write 7 :=
    ⟨_, rfl, by decide⟩
  have hlist : Fits (writeAccessResults results (svc 0)) (n + 11) :=
    fits_constructed h (by omega)
  have hcontents := fits_concatM_cons haccess (fits_concatM_cons hlist fits_concatM_nil)
  have hservice := @fits_constructed (svc 0) _ _ hcontents (by omega)
  exact (@fits_constructed (svc 3) _ _ hservice (by omega)).mono (by omega)

theorem encode_of_written (hvalues : r.toValues = .ok values) (h : Written values n)
    (hn : n + 64 ≤ u32Max) : ∃ bytes, encode r = .ok bytes := by
  obtain ⟨parts, hparts, hlen⟩ := h
  obtain ⟨results, hresults, hwrites⟩ := exists_forall₂_comp hparts
  obtain ⟨encoded, hencoded, hsuccess⟩ := exists_forall₂_comp hresults
  have hwritten : Fits (concatM (results.map AccessResult.write)) n :=
    ⟨parts.flatten, concatM_write hwrites, hlen⟩
  obtain ⟨bytes, hbytes, -⟩ := fits_reportPdu hwritten hn
  refine ⟨bytes, ?_⟩
  unfold encode
  rw [hvalues]
  simp only [bind, Except.bind]
  rw [mapM_ok_iff.mpr hencoded]
  simp only
  rw [mapM_ok_iff.mpr hsuccess]
  exact hbytes

theorem encode_parts (h : encode r = .ok bytes) :
    ∃ values, r.toValues = .ok values ∧ Written values bytes.length := by
  obtain ⟨values, hvalues, h⟩ := bind_ok h
  obtain ⟨encoded, hencoded, h⟩ := bind_ok h
  obtain ⟨results, hresults, h⟩ := bind_ok h
  obtain ⟨service, hservice, -, rfl⟩ := constructed_ok h
  obtain ⟨contents, hcontents, -, rfl⟩ := constructed_ok hservice
  obtain ⟨access, rest, -, hrest, rfl⟩ := concatM_cons_ok hcontents
  obtain ⟨list, nothing, hlist, -, rfl⟩ := concatM_cons_ok hrest
  obtain ⟨written, hwritten, -, rfl⟩ := constructed_ok hlist
  obtain ⟨parts, hparts, rfl⟩ := exists_parts hwritten
  have hpasses := forall₂_comp (forall₂_comp (mapM_ok_iff.mp hencoded) (mapM_ok_iff.mp hresults))
    hparts
  refine ⟨values, hvalues, parts, hpasses, ?_⟩
  have hinner := length_le_element (svc 0) parts.flatten
  have hmiddle := length_le_element (svc 0) (access ++ (element (svc 0) parts.flatten ++ nothing))
  have houter := length_le_element (svc 3)
    (element (svc 0) (access ++ (element (svc 0) parts.flatten ++ nothing)))
  simp only [List.length_append] at hmiddle
  omega

/-! ### The values of a segment -/

theorem toValues_of {fields part members : List Value} (hfields : r.optionalValues = .ok fields)
    (hpart : segmentValues r = .ok part)
    (hcount : (includedIndices r.inclusion).length = r.entries.length)
    (hmembers : entryValues r.optFlds r.entries = .ok members) :
    r.toValues = .ok (.visibleString r.rptId :: packedToValue r.optFlds :: (fields ++ (part ++
      .bitString r.inclusion.1 r.inclusion.2 :: members))) := by
  unfold Report.toValues
  rw [hfields, hpart]
  simp only [bind, Except.bind]
  rw [if_neg (not_not.mpr hcount), hmembers]

theorem optionalValues_segment (r : Report) (start count : Nat) (sub : UInt32) (more : Bool) :
    (segment r start count sub more).optionalValues = r.optionalValues := by
  simp only [Report.optionalValues, segment, OptFlds.sequenceNumber, OptFlds.reportTimeStamp,
    OptFlds.dataSetName, OptFlds.bufferOverflow, OptFlds.entryId, OptFlds.confRevision,
    OptFlds.getLsbD_withSegmentation _ _ (by decide : (1 : Nat) ≠ 9),
    OptFlds.getLsbD_withSegmentation _ _ (by decide : (2 : Nat) ≠ 9),
    OptFlds.getLsbD_withSegmentation _ _ (by decide : (4 : Nat) ≠ 9),
    OptFlds.getLsbD_withSegmentation _ _ (by decide : (6 : Nat) ≠ 9),
    OptFlds.getLsbD_withSegmentation _ _ (by decide : (7 : Nat) ≠ 9),
    OptFlds.getLsbD_withSegmentation _ _ (by decide : (8 : Nat) ≠ 9)]

theorem segmentValues_segment (r : Report) (start count : Nat) (sub : UInt32) (more : Bool) :
    segmentValues (segment r start count sub more) = .ok [.unsigned sub.toNat, .boolean more] := by
  simp [segmentValues, segment]

theorem entryValues_withSegmentation (opt : OptFlds) (on : Bool) (entries : List ReportEntry) :
    entryValues (opt.withSegmentation on) entries = entryValues opt entries := by
  have hrefs : (opt.withSegmentation on).dataReference = opt.dataReference :=
    opt.getLsbD_withSegmentation on (by decide)
  have hreasons : (opt.withSegmentation on).reasonForInclusion = opt.reasonForInclusion :=
    opt.getLsbD_withSegmentation on (by decide)
  rw [entryValues, entryValues, hrefs, hreasons]

theorem runOf_sublist {flag : Bool} {f : ReportEntry → Except Error Value}
    {entries few : List ReportEntry} (hsub : List.Sublist few entries)
    (h : runOf flag f entries = .ok values) :
    ∃ values', runOf flag f few = .ok values' ∧ List.Sublist values' values := by
  cases flag with
  | true => exact mapM_sublist hsub h
  | false =>
    cases h
    exact ⟨[], rfl, .slnil⟩

/-- Some of the entries are written when all are. -/
theorem entryValues_sublist {opt : OptFlds} {entries few : List ReportEntry} {members : List Value}
    (hsub : List.Sublist few entries) (h : entryValues opt entries = .ok members) :
    ∃ members', entryValues opt few = .ok members' ∧ List.Sublist members' members := by
  obtain ⟨references, hreferences, h⟩ := bind_ok h
  obtain ⟨reasons, hreasons, h⟩ := bind_ok h
  cases h
  obtain ⟨references', hreferences', hsub'⟩ := runOf_sublist hsub hreferences
  obtain ⟨reasons', hreasons', hsub''⟩ := runOf_sublist hsub hreasons
  refine ⟨references' ++ few.map (·.value) ++ reasons', ?_, ?_⟩
  · unfold entryValues
    rw [hreferences', hreasons']
    rfl
  · exact (hsub'.append (hsub.map _)).append hsub''

theorem segment_entries_sublist (r : Report) (start count : Nat) (sub : UInt32) (more : Bool) :
    List.Sublist (segment r start count sub more).entries r.entries :=
  (List.take_sublist _ _).trans (List.drop_sublist _ _)

theorem segment_includedIndices (hidx : r.entries.map (·.index) = includedIndices r.inclusion)
    (start count : Nat) (sub : UInt32) (more : Bool) :
    includedIndices (segment r start count sub more).inclusion =
      (segment r start count sub more).entries.map (·.index) := by
  have hsub : List.Sublist ((segment r start count sub more).entries.map (·.index))
      (includedIndices r.inclusion) :=
    hidx ▸ (segment_entries_sublist r start count sub more).map _
  apply includedIndices_inclusionFor
  · exact (includedIndices_sorted _).sublist hsub
  · intro i hi
    exact lt_of_mem_includedIndices (hsub.subset hi)

/-- The values of a segment of a report that has values itself. -/
theorem segment_toValues (h : r.toValues = .ok values)
    (hidx : r.entries.map (·.index) = includedIndices r.inclusion) (start count : Nat)
    (sub : UInt32) (more : Bool) : ∃ fields members part, r.optionalValues = .ok fields ∧
      entryValues r.optFlds (segment r start count sub more).entries = .ok members ∧
      List.Sublist (.visibleString r.rptId :: (fields ++ members)) values ∧
      part = [.unsigned sub.toNat, .boolean more] ∧
      (segment r start count sub more).toValues = .ok (.visibleString r.rptId ::
        packedToValue (r.optFlds.withSegmentation true) :: (fields ++ (part ++
          .bitString (segment r start count sub more).inclusion.1
            (segment r start count sub more).inclusion.2 :: members))) := by
  obtain ⟨fields, part, all, hfields, hpart, hcount, hall, rfl⟩ := toValues_ok h
  obtain ⟨members, hmembers, hsub⟩ :=
    entryValues_sublist (segment_entries_sublist r start count sub more) hall
  refine ⟨fields, members, _, hfields, hmembers, ?_, rfl, ?_⟩
  · have htail : List.Sublist members (part ++ .bitString r.inclusion.1 r.inclusion.2 :: all) :=
      (hsub.cons _).trans (List.sublist_append_right part _)
    exact (((List.Sublist.refl fields).append htail).cons _).cons_cons _
  · apply toValues_of
    · rw [optionalValues_segment, hfields]
    · exact segmentValues_segment r start count sub more
    · rw [segment_includedIndices hidx, List.length_map]
    · rw [← hmembers]
      exact entryValues_withSegmentation r.optFlds true _

/-! ### One-entry segments -/

theorem primitive_eq {tag : Tag} {value : Bytes} (h : value.length ≤ u32Max) :
    primitive tag value = .ok (element tag value) := by
  rw [primitive, encodeLength_eq h]
  rfl

theorem valueBytes_of_encode (htag : v.TagFits) {bs : Bytes} (h : v.encode = .ok bs) :
    valueBytes v = .ok bs := by
  obtain ⟨⟨tag, contents⟩, hbs, hfit⟩ := Value.encode_spells htag h
  have hfits : Fitting (tag, contents) := hfit _ (List.mem_singleton.mpr rfl)
  have helement : bs = element tag contents := by
    rw [hbs, elements_cons, elements_nil, List.append_nil]
  have hall : Value.encodeAll [v] = .ok bs := by
    rw [Value.encodeAll, Value.encodeAll, h]
    simp [bind, Except.bind]
  have hnext := nextRequired_element hfits 0 []
  rw [List.append_nil, ← helement] at hnext
  have hsuccess : successOf bs = .ok (.success (tlvAt 0 tag contents)) := by
    rw [successOf, Cursor.new, hnext]
    rfl
  rw [valueBytes, hall]
  simp only [bind, Except.bind]
  rw [hsuccess, helement]
  exact primitive_eq hfits.2

theorem written_of_fits (htag : v.TagFits) (h : Fits v.encode n) : Written [v] n := by
  obtain ⟨bs, hbs, hlen⟩ := h
  exact written_single (valueBytes_of_encode htag hbs) hlen

theorem unused_octetsFor (total : Nat) : (UInt8.ofNat (octetsFor total * 8 - total)).toNat ≤ 7 ∧
      (octetsFor total = 0 → UInt8.ofNat (octetsFor total * 8 - total) = 0) := by
  constructor
  · rw [toNat_ofNat8]
    unfold octetsFor
    omega
  · intro hzero
    rw [hzero, Nat.zero_mul, Nat.zero_sub]
    rfl

/-- A bit string of so many bits, packed into octets, can be written. -/
theorem written_bits {total : Nat} (hlen : bytes.length = octetsFor total)
    (hfits : bytes.length + 1 ≤ u32Max) :
    Written [.bitString (UInt8.ofNat (octetsFor total * 8 - total)) bytes] (bytes.length + 12) := by
  obtain ⟨hunused, hempty⟩ := unused_octetsFor total
  refine written_of_fits (v := .bitString _ bytes) trivial (fits_bitString hunused ?_ hfits)
  intro hnil
  apply hempty
  rw [← hlen, hnil, List.length_nil]

theorem written_packed {width : Nat} (v : BitVec width) (h : octetsFor width + 1 ≤ u32Max) :
    Written [packedToValue v] (octetsFor width + 12) := by
  have hlen := toBitString_length v
  have hbits := written_bits hlen (by omega)
  rw [hlen] at hbits
  exact hbits

theorem written_inclusionFor (total : Nat) (included : List Nat) (h : octetsFor total + 1 ≤ u32Max) :
    Written [.bitString (inclusionFor total included).1 (inclusionFor total included).2]
      (octetsFor total + 12) := by
  have hlen : (inclusionFor total included).2.length = octetsFor total := by simp [inclusionFor]
  have hbits := written_bits hlen (by omega)
  rw [hlen] at hbits
  exact hbits

/-- Every entry can be encoded as a segment of its own. -/
def Splittable (r : Report) : Prop :=
  ∀ i < r.entries.length, ∀ sub more, ∃ bytes, encode (segment r i 1 sub more) = .ok bytes

theorem perm_regroup {α : Type} (a b : α) (xs ys zs : List α) :
    (a :: (xs ++ ys) ++ b :: zs).Perm (a :: b :: (xs ++ (zs ++ ys))) := by
  rw [List.cons_append]
  refine List.Perm.cons a ?_
  refine List.perm_middle.trans (List.Perm.cons b ?_)
  rw [List.append_assoc]
  exact List.Perm.append_left xs List.perm_append_comm

/-- An encodable report, below the limit of a length field, whose inclusion bits name the members
its entries are for: each entry can be sent alone. -/
theorem splittable_of_encode {whole : Bytes} (henc : encode r = .ok whole)
    (hidx : r.entries.map (·.index) = includedIndices r.inclusion)
    (hlen : whole.length + r.inclusion.2.length + 256 ≤ u32Max) : Splittable r := by
  intro i _ sub more
  obtain ⟨values, hvalues, hwritten⟩ := encode_parts henc
  obtain ⟨fields, members, part, -, -, hsub, rfl, hsegment⟩ :=
    segment_toValues hvalues hidx i 1 sub more
  have hoctets : octetsFor (inclusionLen r.inclusion) ≤ r.inclusion.2.length := by
    unfold octetsFor inclusionLen
    omega
  have hopt := written_packed (r.optFlds.withSegmentation true) (by decide)
  have hnumber : Written [.unsigned sub.toNat] 20 :=
    written_of_fits (v := .unsigned _) trivial (fits_unsigned _ _)
  have hmore : Written [.boolean more] 12 :=
    written_of_fits (v := .boolean _) trivial (fits_boolean _ _)
  have hinclusion := written_inclusionFor (inclusionLen r.inclusion)
    ((segment r i 1 sub more).entries.map (·.index)) (by omega)
  -- what the report has too, and what the segment has of its own
  have hold := hwritten.sublist hsub
  have hnew := hopt.append (hnumber.append (hmore.append hinclusion))
  have hgrouped := (hold.append hnew).perm (perm_regroup _ _ fields members _)
  exact encode_of_written hsegment hgrouped (by
    have : octetsFor 10 = 2 := by decide
    omega)

end Iec61850.Server
