import Iec61850.Ber.Reread
import Iec61850.Mms.Report

/-!
# Which reports come back

`Report::to_values` and `Report::from_values` of `proto/mms/report.rs`. The writer follows the
flags and counts the entries; the reader fills the fields the flags ask for and numbers the
entries from the inclusion bits. What comes back is therefore the report cut down to its flags
and renumbered (`Report.sent`), and that is the report itself exactly if they agree.
-/

namespace Iec61850.Mms

open Theory Ber

/-! ### What is sent -/

/-- A field as its flag lets it through. -/
def kept {α : Type} (flag : Bool) (x : Option α) : Option α := if flag then x else none

theorem kept_eq_iff {α : Type} {flag : Bool} {x : Option α} :
    kept flag x = x ↔ (flag = false → x = none) := by
  cases flag
  · constructor
    · intro h _
      exact h.symm
    · intro h
      exact (h rfl).symm
  · simp [kept]

/-- An entry as it arrives: under the index of its inclusion bit. -/
def ReportEntry.sent (opt : OptFlds) (e : ReportEntry) (index : Nat) : ReportEntry :=
  { index, reference := kept opt.dataReference e.reference, value := e.value,
    reason := kept opt.reasonForInclusion e.reason }

/-- The report as it arrives. -/
def Report.sent (r : Report) : Report :=
  { r with
    seqNum := kept r.optFlds.sequenceNumber r.seqNum
    timeOfEntry := kept r.optFlds.reportTimeStamp r.timeOfEntry
    dataSet := kept r.optFlds.dataSetName r.dataSet
    bufOvfl := kept r.optFlds.bufferOverflow r.bufOvfl
    entryId := kept r.optFlds.entryId r.entryId
    confRev := kept r.optFlds.confRevision r.confRev
    subSeqNum := kept r.optFlds.segmentation r.subSeqNum
    moreSegmentsFollow := r.optFlds.segmentation && r.moreSegmentsFollow
    entries := List.zipWith (ReportEntry.sent r.optFlds) r.entries (includedIndices r.inclusion) }

/-- An entry carries nothing the flags do not ask for. -/
def ReportEntry.Agrees (opt : OptFlds) (e : ReportEntry) : Prop :=
  (opt.dataReference = false → e.reference = none) ∧
    (opt.reasonForInclusion = false → e.reason = none)

/-- A report carries nothing its flags do not ask for, and its entries are numbered as its
inclusion bits say. -/
structure Report.Agrees (r : Report) : Prop where
  seqNum : r.optFlds.sequenceNumber = false → r.seqNum = none
  timeOfEntry : r.optFlds.reportTimeStamp = false → r.timeOfEntry = none
  dataSet : r.optFlds.dataSetName = false → r.dataSet = none
  bufOvfl : r.optFlds.bufferOverflow = false → r.bufOvfl = none
  entryId : r.optFlds.entryId = false → r.entryId = none
  confRev : r.optFlds.confRevision = false → r.confRev = none
  segment : r.optFlds.segmentation = false →
    r.subSeqNum = none ∧ r.moreSegmentsFollow = false
  indices : r.entries.map (·.index) = includedIndices r.inclusion
  entries : ∀ e ∈ r.entries, e.Agrees r.optFlds

theorem ReportEntry.sent_eq_iff {opt : OptFlds} {e : ReportEntry} {index : Nat} :
    e.sent opt index = e ↔ e.index = index ∧ e.Agrees opt := by
  obtain ⟨i, reference, value, reason⟩ := e
  simp only [ReportEntry.sent, ReportEntry.Agrees, ReportEntry.mk.injEq, kept_eq_iff, true_and,
    eq_comm (a := index)]

theorem zipWith_sent_eq_iff (opt : OptFlds) {entries : List ReportEntry} {indices : List Nat}
    (hcount : indices.length = entries.length) :
    List.zipWith (ReportEntry.sent opt) entries indices = entries ↔
      entries.map (·.index) = indices ∧ ∀ e ∈ entries, e.Agrees opt := by
  induction entries generalizing indices with
  | nil =>
    rw [List.length_eq_zero_iff.mp hcount]
    simp
  | cons e entries ih =>
    obtain _ | ⟨index, indices⟩ := indices
    · cases hcount
    · rw [List.zipWith_cons_cons, List.cons.injEq, ReportEntry.sent_eq_iff,
        ih (Nat.succ.inj hcount), List.map_cons, List.cons.injEq, List.forall_mem_cons]
      tauto

theorem Report.sent_eq_iff {r : Report}
    (hcount : (includedIndices r.inclusion).length = r.entries.length) : r.sent = r ↔ r.Agrees := by
  have hentries := zipWith_sent_eq_iff r.optFlds hcount
  have hmore : (r.optFlds.segmentation && r.moreSegmentsFollow) = r.moreSegmentsFollow ↔
      (r.optFlds.segmentation = false → r.moreSegmentsFollow = false) := by
    cases r.optFlds.segmentation <;> cases r.moreSegmentsFollow <;> simp
  constructor
  · intro h
    have hseq := congrArg Report.seqNum h
    have htime := congrArg Report.timeOfEntry h
    have hset := congrArg Report.dataSet h
    have hovfl := congrArg Report.bufOvfl h
    have hid := congrArg Report.entryId h
    have hrev := congrArg Report.confRev h
    have hsub := congrArg Report.subSeqNum h
    have hlast := hmore.mp (congrArg Report.moreSegmentsFollow h)
    obtain ⟨hindices, hall⟩ := hentries.mp (congrArg Report.entries h)
    exact ⟨kept_eq_iff.mp hseq, kept_eq_iff.mp htime, kept_eq_iff.mp hset, kept_eq_iff.mp hovfl,
      kept_eq_iff.mp hid, kept_eq_iff.mp hrev,
      fun hflag => ⟨kept_eq_iff.mp hsub hflag, hlast hflag⟩, hindices, hall⟩
  · intro h
    have hsub := kept_eq_iff.mpr fun hflag => (h.segment hflag).1
    have hlast := hmore.mpr fun hflag => (h.segment hflag).2
    unfold Report.sent
    rw [kept_eq_iff.mpr h.seqNum, kept_eq_iff.mpr h.timeOfEntry, kept_eq_iff.mpr h.dataSet,
      kept_eq_iff.mpr h.bufOvfl, kept_eq_iff.mpr h.entryId, kept_eq_iff.mpr h.confRev, hsub,
      hlast, hentries.mpr ⟨h.indices, h.entries⟩]

/-! ### One field -/

section Fields

variable {α : Type} {what refused missing : String} {flag : Bool}

theorem bind_of_ok {β γ : Type} {x : Except Error β} {a : β} {k : β → Except Error γ}
    {y : Except Error γ} (hx : x = .ok a) (hk : k a = y) : x >>= k = y := by
  rw [hx]
  exact hk

theorem field_cons {f : Value → Option α} {v : Value} {a : α} (h : f v = some a)
    (rest : List Value) : field what refused f (v :: rest) = .ok (a, rest) := by
  simp [field, nextValue, h]

/-- A flagged field is read back as its flag let it through. -/
theorem flagged_pushField {x : Option α} {g : α → Value} {vs : List Value}
    (h : pushField flag missing (x.map g) = .ok vs) {f : List Value → Except Error (α × List Value)}
    (hf : ∀ a, x = some a → ∀ rest, f (g a :: rest) = .ok (a, rest)) (rest : List Value) :
    flagged flag f (vs ++ rest) = .ok (kept flag x, rest) := by
  unfold pushField at h
  unfold flagged kept
  cases flag with
  | false =>
    obtain rfl := Except.ok.inj h
    rfl
  | true =>
    cases x with
    | none => cases h
    | some a =>
      obtain rfl := Except.ok.inj h
      rw [if_pos rfl, if_pos rfl, List.singleton_append, hf a rfl]
      rfl

theorem unsignedField_toNat (n : UInt32) : unsignedField (.unsigned n.toNat) = some n := by
  have hle : n.toNat ≤ u32Max := Nat.le_pred_of_lt n.toNat_lt
  rw [unsignedField, if_pos hle, UInt32.ofNat_toNat]

theorem entryTime_toOctets {t : EntryTime} (hmillis : t.millisOfDay < 2 ^ 32)
    (hdays : t.daysSince1984 < 2 ^ 16) (rest : List Value) :
    entryTime (.binaryTime t.toOctets :: rest) = .ok (t, rest) := by
  have h : EntryTime.fromOctets t.toOctets = some t := by
    have h1 : beNat (beBytes 4 t.millisOfDay) = t.millisOfDay := beNat_beBytes_of_lt (by omega)
    have h2 : beNat (beBytes 2 t.daysSince1984) = t.daysSince1984 :=
      beNat_beBytes_of_lt (by omega)
    simp only [beBytes, EntryTime.toOctets, List.cons_append, List.nil_append] at h1 h2 ⊢
    rw [EntryTime.fromOctets, h1, h2]
  simp [entryTime, nextValue, h]

theorem flagged_segment {r : Report} {vs : List Value} (h : segmentValues r = .ok vs)
    (rest : List Value) : flagged r.optFlds.segmentation segmentFields (vs ++ rest) =
      .ok ((kept r.optFlds.segmentation r.subSeqNum).map (·, r.moreSegmentsFollow), rest) := by
  unfold segmentValues at h
  unfold flagged kept
  cases hflag : r.optFlds.segmentation with
  | false =>
    rw [hflag] at h
    obtain rfl := Except.ok.inj h
    rfl
  | true =>
    rw [hflag] at h
    cases hsub : r.subSeqNum with
    | none =>
      rw [hsub] at h
      cases h
    | some n =>
      rw [hsub] at h
      obtain rfl := Except.ok.inj h
      rw [if_pos rfl, if_pos rfl]
      refine bind_of_ok (a := ((n, r.moreSegmentsFollow), rest)) ?_ rfl
      unfold segmentFields
      refine bind_of_ok (field_cons (unsignedField_toNat n) _) ?_
      exact bind_of_ok (field_cons (a := r.moreSegmentsFollow) rfl _) rfl

/-- One run of fields is read back as its flag let it through, entry by entry. -/
theorem flagged_runOf {x : ReportEntry → Option α} {g : α → Value} {entries : List ReportEntry}
    {vs : List Value} (h : runOf flag (fun e => promised missing g (x e)) entries = .ok vs)
    {f : List Value → Except Error (α × List Value)}
    (hf : ∀ a rest, f (g a :: rest) = .ok (a, rest)) (rest : List Value) :
    ∃ as, flagged flag (times f entries.length) (vs ++ rest) = .ok (as, rest) ∧
      ∀ n : Nat, (as.getD [])[n]? = (entries[n]?).bind fun e => kept flag (x e) := by
  unfold runOf at h
  unfold flagged kept
  cases flag with
  | false =>
    obtain rfl := Except.ok.inj h
    exact ⟨none, rfl, by simp⟩
  | true =>
    rw [if_pos rfl] at h
    simp only [if_pos]
    obtain ⟨as, hread, has⟩ : ∃ as, times f entries.length (vs ++ rest) = .ok (as, rest) ∧
        ∀ n : Nat, as[n]? = (entries[n]?).bind x := by
      rw [mapM_ok_iff] at h
      induction h with
      | nil => exact ⟨[], rfl, by simp⟩
      | cons hhead htail ih =>
        rename_i e v entries vs
        obtain ⟨as, hread, has⟩ := ih
        cases hx : x e with
        | none =>
          rw [hx] at hhead
          cases hhead
        | some a =>
          rw [hx] at hhead
          obtain rfl := Except.ok.inj hhead
          refine ⟨a :: as, ?_, ?_⟩
          · exact bind_of_ok (hf a _) (bind_of_ok hread rfl)
          · rintro (_ | n)
            · simp [hx]
            · simpa using has n
    exact ⟨some as, bind_of_ok hread rfl, has⟩

theorem times_values (vs rest : List Value) :
    times (nextValue "value") vs.length (vs ++ rest) = .ok (vs, rest) := by
  induction vs with
  | nil => rfl
  | cons v vs ih => exact bind_of_ok rfl (bind_of_ok ih rfl)

end Fields

/-- The parts of the values of a report. -/
theorem toValues_ok {r : Report} {values : List Value} (h : r.toValues = .ok values) :
    ∃ fields part members, r.optionalValues = .ok fields ∧ segmentValues r = .ok part ∧
      (includedIndices r.inclusion).length = r.entries.length ∧
      entryValues r.optFlds r.entries = .ok members ∧
      values = .visibleString r.rptId :: packedToValue r.optFlds :: (fields ++ (part ++
        .bitString r.inclusion.1 r.inclusion.2 :: members)) := by
  obtain ⟨fields, hfields, h⟩ := bind_ok h
  obtain ⟨part, hpart, h⟩ := bind_ok h
  split at h
  · cases h
  · rename_i hcount
    obtain ⟨members, hmembers, h⟩ := bind_ok h
    exact ⟨fields, part, members, hfields, hpart, not_not.mp hcount, hmembers,
      (Except.ok.inj h).symm⟩

/-! ### A whole report -/

/-- The entries that the three runs are read back as. -/
theorem entriesOf_runs {opt : OptFlds} {entries : List ReportEntry} {indices : List Nat}
    {references : List Bytes} {reasons : List ReasonCode} (hcount : indices.length = entries.length)
    (hreferences : ∀ n : Nat, references[n]? = (entries[n]?).bind fun e =>
      kept opt.dataReference e.reference)
    (hreasons : ∀ n : Nat, reasons[n]? = (entries[n]?).bind fun e =>
      kept opt.reasonForInclusion e.reason) :
    entriesOf indices references (entries.map (·.value)) reasons =
      .ok (List.zipWith (ReportEntry.sent opt) entries indices) := by
  unfold entriesOf
  rw [mapM_ok_iff, List.forall₂_iff_get]
  refine ⟨by simp [hcount], fun n hn hn' => ?_⟩
  have hlt : n < entries.length := by simpa [hcount] using hn
  simp [hreferences, hreasons, hlt, ReportEntry.sent]

/-- The time of entry is a `u32` and a `u16`. -/
def Report.InRange (r : Report) : Prop :=
  ∀ t, r.timeOfEntry = some t → t.millisOfDay < 2 ^ 32 ∧ t.daysSince1984 < 2 ^ 16

theorem Report.fromValues_toValues {r : Report} (hrange : r.InRange) {vs : List Value}
    (h : r.toValues = .ok vs) : Report.fromValues vs = .ok r.sent := by
  obtain ⟨fields, part, members, hfields, hpart, hcount, hmembers, rfl⟩ := toValues_ok h
  obtain ⟨seqNum, hseqNum, hfields⟩ := bind_ok hfields
  obtain ⟨time, htime, hfields⟩ := bind_ok hfields
  obtain ⟨dataSet, hdataSet, hfields⟩ := bind_ok hfields
  obtain ⟨bufOvfl, hbufOvfl, hfields⟩ := bind_ok hfields
  obtain ⟨entryId, hentryId, hfields⟩ := bind_ok hfields
  obtain ⟨confRev, hconfRev, hfields⟩ := bind_ok hfields
  obtain rfl := Except.ok.inj hfields
  obtain ⟨references, hreferences, hmembers⟩ := bind_ok hmembers
  obtain ⟨reasons, hreasons, hmembers⟩ := bind_ok hmembers
  obtain rfl := Except.ok.inj hmembers
  simp only [List.append_assoc]
  unfold Report.fromValues
  refine bind_of_ok (field_cons (a := r.rptId) rfl _) ?_
  refine bind_of_ok (field_cons (packedFromValue_packedToValue _) _) ?_
  refine bind_of_ok (flagged_pushField hseqNum
    (fun n _ rest => field_cons (unsignedField_toNat n) rest) _) ?_
  refine bind_of_ok (flagged_pushField htime
    (fun t ht rest => entryTime_toOctets (hrange t ht).1 (hrange t ht).2 rest) _) ?_
  refine bind_of_ok (flagged_pushField hdataSet (fun s _ rest => field_cons (a := s) rfl rest) _) ?_
  refine bind_of_ok (flagged_pushField hbufOvfl (fun b _ rest => field_cons (a := b) rfl rest) _) ?_
  refine bind_of_ok (flagged_pushField hentryId (fun b _ rest => field_cons (a := b) rfl rest) _) ?_
  refine bind_of_ok (flagged_pushField hconfRev
    (fun n _ rest => field_cons (unsignedField_toNat n) rest) _) ?_
  refine bind_of_ok (flagged_segment hpart _) ?_
  refine bind_of_ok (field_cons (a := r.inclusion) rfl _) ?_
  dsimp only
  rw [hcount]
  obtain ⟨refs, hrefs, hrefsAt⟩ := flagged_runOf hreferences
    (f := field "data-reference" "a data reference is not a string" Value.asStr)
    (fun s rest => field_cons (a := s) rfl rest) (r.entries.map (·.value) ++ reasons)
  obtain ⟨whys, hwhys, hwhysAt⟩ := flagged_runOf hreasons
    (f := field "ReasonCode" "a reason code is not a bit string" (packedFromValue 6))
    (fun c rest => field_cons (packedFromValue_packedToValue c) rest) []
  have hvalues := times_values (r.entries.map (·.value)) reasons
  rw [List.length_map] at hvalues
  rw [List.append_nil] at hwhys
  refine bind_of_ok hrefs ?_
  refine bind_of_ok hvalues ?_
  refine bind_of_ok hwhys ?_
  dsimp only
  rw [if_neg (by simp)]
  refine bind_of_ok (entriesOf_runs hcount hrefsAt hwhysAt) ?_
  unfold Report.sent
  cases hflag : r.optFlds.segmentation <;> cases hsub : r.subSeqNum <;>
    simp_all [kept, segmentValues]

/-- A report that can be sent comes back exactly if it agrees with its flags and inclusion
bits. -/
theorem Report.reread_iff {r : Report} (hrange : r.InRange) {vs : List Value}
    (h : r.toValues = .ok vs) : Report.fromValues vs = .ok r ↔ r.Agrees := by
  obtain ⟨fields, part, members, -, -, hcount, -, -⟩ := toValues_ok h
  rw [Report.fromValues_toValues hrange h, Except.ok.injEq]
  exact Report.sent_eq_iff hcount

/-- A report with one member, whose flags ask for the report counter. -/
def counted : Report :=
  { rptId := [0x52], optFlds := withBit 0 1 true, seqNum := some 5, timeOfEntry := none,
    dataSet := none, bufOvfl := none, entryId := none, confRev := none, subSeqNum := none,
    moreSegmentsFollow := false, inclusion := (7, [0x80]),
    entries := [⟨0, none, .boolean true, none⟩] }

/-- The report whose flags ask for its counter comes back. -/
theorem Report.reread_iff_counted :
    ∃ vs, counted.toValues = .ok vs ∧ Report.fromValues vs = .ok counted := by
  obtain ⟨vs, hvs⟩ : ∃ vs, counted.toValues = .ok vs := ⟨_, rfl⟩
  refine ⟨vs, hvs, (Report.reread_iff ?_ hvs).2 ?_⟩
  · intro t ht
    cases ht
  · exact ⟨fun h => absurd h (by decide), fun _ => rfl, fun _ => rfl, fun _ => rfl, fun _ => rfl,
      fun _ => rfl, fun _ => ⟨rfl, rfl⟩, by decide, by simp [counted, ReportEntry.Agrees]⟩

/-- A report counter that the flags do not ask for is dropped, and a member is renumbered. -/
theorem Report.sent_as_another :
    ∃ vs, { counted with optFlds := 0 }.toValues = .ok vs ∧
      (∀ r, Report.fromValues vs = .ok r → r.seqNum = none) ∧
      ∃ ws, { counted with entries := [⟨3, none, .boolean true, none⟩] }.toValues = .ok ws ∧
        ∀ r, Report.fromValues ws = .ok r → r.entries.map (·.index) = [0] := by
  refine ⟨_, rfl, ?_, _, rfl, ?_⟩
  · intro r h
    obtain rfl := Except.ok.inj h
    rfl
  · intro r h
    obtain rfl := Except.ok.inj h
    rfl

end Iec61850.Mms
