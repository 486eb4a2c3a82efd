import Iec61850.Server.RcbResume

/-!
# What a replayed entry says

An entry of the buffer is a map from the members that were recorded, and becomes a report only when
it is replayed: under the settings, and over the data set, that the block has then. The report says
what was recorded when, and only when, that data set still has every recorded member.
-/

namespace Iec61850.Server.ControlBlock

open Theory Mms

/-- The entry has the member, with this reason and this value. -/
structure Recorded (e : Buffered) (m : Bytes) (reason : ReasonCode) (value : Value) : Prop where
  reason : e.reasons.lookup m = some reason
  value : e.values.lookup m = some value

/-- The report says of its entry what was recorded: nothing but recorded members, each with its own
value, and, where the report carries them, its own reference, reason and time; and it drops
none. What a report carries is what the `OptFlds` it is made under ask for. -/
structure Faithful (opt : OptFlds) (d : Delivery) : Prop where
  entries : ∀ e ∈ d.report.entries, ∃ m reason, d.members[e.index]? = some m ∧
    Recorded d.entry m reason e.value ∧
    e.reference = (if opt.dataReference then some m else none) ∧
    e.reason = if opt.reasonForInclusion then some reason else none
  members : ∀ m reason value, Recorded d.entry m reason value →
    ∃ e ∈ d.report.entries, d.members[e.index]? = some m ∧ e.value = value
  inclusion : d.report.inclusion =
    inclusionFor d.members.length (d.report.entries.map (·.index))
  time : d.report.timeOfEntry = if opt.reportTimeStamp then some d.entry.madeAt else none

/-- The entries that are replayed to whoever enables the block. -/
def pendingReplay (b : ControlBlock) : List Buffered :=
  b.rcb.buffer.drop (b.resumePoint ((b.values .entryID).bind entryIdOf)).1

/-- There is nothing to replay, or the data set the block names exists and has every member that was
recorded in what is to be replayed. -/
def Listed (b : ControlBlock) (ied : Ied) : Prop :=
  b.pendingReplay = [] ∨ ∃ dataSet, b.dataSet ied = some dataSet ∧
    ∀ e ∈ b.pendingReplay, ∀ m reason value, Recorded e m reason value →
      m ∈ dataSet.2.map (·.reference)

/-! ### One report -/

variable {opt : OptFlds} {reasons : Reasons} {values : List (Bytes × Value)} {members : List Bytes}
  {b : ControlBlock} {dataSet : Bytes × List DataSetMember}

theorem mem_assemble {e : ReportEntry}
    (h : e ∈ members.zipIdx.filterMap (assembleEntry opt reasons values)) :
    ∃ m reason, members[e.index]? = some m ∧ reasons.lookup m = some reason ∧
      values.lookup m = some e.value ∧ e.reference = (if opt.dataReference then some m else none) ∧
      e.reason = if opt.reasonForInclusion then some reason else none := by
  rw [List.mem_filterMap] at h
  obtain ⟨⟨m, i⟩, hzip, hentry⟩ := h
  rw [List.mem_zipIdx_iff_getElem?] at hzip
  unfold assembleEntry at hentry
  split at hentry
  · rename_i reason value hreason hvalue
    cases hentry
    exact ⟨m, reason, hzip, hreason, hvalue, rfl, rfl⟩
  · cases hentry

theorem mem_assemble_of_mem {m : Bytes} {reason : ReasonCode} {value : Value} (hmem : m ∈ members)
    (hreason : reasons.lookup m = some reason) (hvalue : values.lookup m = some value) :
    ∃ e ∈ members.zipIdx.filterMap (assembleEntry opt reasons values),
      members[e.index]? = some m ∧ e.value = value := by
  obtain ⟨i, hi, hget⟩ := List.getElem_of_mem hmem
  have hindex : members[i]? = some m := by
    rw [List.getElem?_eq_getElem hi, hget]
  refine ⟨⟨i, if opt.dataReference then some m else none, value,
    if opt.reasonForInclusion then some reason else none⟩, ?_, hindex, rfl⟩
  rw [List.mem_filterMap]
  refine ⟨(m, i), List.mem_zipIdx_iff_getElem?.mpr hindex, ?_⟩
  rw [assembleEntry, hreason, hvalue]

/-- Clearing the flag of the segmenter leaves the flags that decide what an entry carries. -/
theorem carried_effectiveFlags (opt : OptFlds) :
    (effectiveFlags opt true).dataReference = opt.dataReference ∧
    (effectiveFlags opt true).reasonForInclusion = opt.reasonForInclusion ∧
    (effectiveFlags opt true).reportTimeStamp = opt.reportTimeStamp := by
  refine ⟨?_, ?_, ?_⟩
  · exact opt.getLsbD_withSegmentation false (by decide)
  · exact opt.getLsbD_withSegmentation false (by decide)
  · exact opt.getLsbD_withSegmentation false (by decide)

/-- A replayed entry's report is faithful exactly when the data set has every recorded member. -/
theorem faithful_iff {d : Delivery} {seq : UInt32} {flag : Bool}
    (hmembers : d.members = dataSet.2.map (·.reference))
    (hreport : d.report = b.reportOf dataSet d.entry seq true flag) : Faithful b.optFlds d ↔
      ∀ m reason value, Recorded d.entry m reason value → m ∈ dataSet.2.map (·.reference) := by
  obtain ⟨href, hreason, htime⟩ := carried_effectiveFlags b.optFlds
  have hentries : d.report.entries = d.members.zipIdx.filterMap
      (assembleEntry (effectiveFlags b.optFlds true) d.entry.reasons d.entry.values) := by
    rw [hreport, hmembers]
    rfl
  constructor
  · intro h m reason value hrecorded
    obtain ⟨e, -, hget, -⟩ := h.members m reason value hrecorded
    rw [hmembers] at hget
    exact List.mem_of_getElem? hget
  · intro h
    constructor
    · intro e he
      rw [hentries] at he
      obtain ⟨m, reason, hget, hr, hv, hreference, hcarried⟩ := mem_assemble he
      rw [href] at hreference
      rw [hreason] at hcarried
      exact ⟨m, reason, hget, ⟨hr, hv⟩, hreference, hcarried⟩
    · intro m reason value hrecorded
      have hmem := h m reason value hrecorded
      rw [← hmembers] at hmem
      rw [hentries]
      exact mem_assemble_of_mem hmem hrecorded.reason hrecorded.value
    · rw [hreport, hmembers]
      rfl
    · rw [← htime, hreport]
      rfl

/-! ### The replay -/

/-- A replay has the members of the data set that the block names. -/
theorem replayAll_members {ied : Ied} (h : b.dataSet ied = some dataSet) (peers : Peers)
    (assoc : AssocId) (overflowed : Bool) (entries : List Buffered) :
    ∀ d ∈ (replayAll ied peers assoc b overflowed entries).2,
      d.assoc = assoc ∧ d.members = dataSet.2.map (·.reference) := by
  induction entries generalizing b overflowed with
  | nil =>
    intro d hd
    cases hd
  | cons entry entries ih =>
    have hsame := sameReports_replay b ied peers assoc entry overflowed
    intro d hd
    rw [replayAll] at hd
    dsimp only at hd
    rw [List.mem_append] at hd
    rcases hd with hd | hd
    · rw [replay, h] at hd
      rw [List.mem_singleton.mp hd]
      exact ⟨rfl, rfl⟩
    · exact ih ((hsame.dataSet ied).trans h) false d hd

/-- A replay reports each of its entries, and says of each what was recorded, exactly when the data
set has every recorded member. -/
theorem replayAll_faithful {b : ControlBlock} {ied : Ied} (peers : Peers) (assoc : AssocId)
    (overflowed : Bool) (entries : List Buffered) :
    ((replayAll ied peers assoc b overflowed entries).2.map (·.entry) = entries ∧
      ∀ d ∈ (replayAll ied peers assoc b overflowed entries).2, Faithful b.optFlds d) ↔
    (entries = [] ∨ ∃ dataSet, b.dataSet ied = some dataSet ∧ ∀ e ∈ entries, ∀ m reason value,
      Recorded e m reason value → m ∈ dataSet.2.map (·.reference)) := by
  cases hds : b.dataSet ied with
  | none =>
    rw [replayAll_none hds]
    constructor
    · rintro ⟨hnil, -⟩
      exact Or.inl hnil.symm
    · rintro (rfl | ⟨dataSet, hsome, -⟩)
      · exact ⟨rfl, fun d hd => absurd hd List.not_mem_nil⟩
      · cases hsome
  | some dataSet =>
    have hentries := replayAll_entries hds peers assoc overflowed entries
    have hiff : ∀ d ∈ (replayAll ied peers assoc b overflowed entries).2,
        Faithful b.optFlds d ↔ ∀ m reason value, Recorded d.entry m reason value →
          m ∈ dataSet.2.map (·.reference) := by
      intro d hd
      obtain ⟨-, hmembers⟩ := replayAll_members hds peers assoc overflowed entries d hd
      obtain ⟨-, seq, flag, hreport⟩ :=
        replayAll_report hds peers assoc overflowed entries d hd
      exact faithful_iff hmembers hreport
    constructor
    · rintro ⟨-, hfaithful⟩
      right
      refine ⟨dataSet, rfl, ?_⟩
      intro e he
      rw [← hentries, List.mem_map] at he
      obtain ⟨d, hd, rfl⟩ := he
      exact (hiff d hd).mp (hfaithful d hd)
    · intro hlisted
      refine ⟨hentries, ?_⟩
      intro d hd
      have hmem : d.entry ∈ entries := by
        rw [← hentries]
        exact List.mem_map_of_mem hd
      rcases hlisted with rfl | ⟨dataSet', hsome, hlisted⟩
      · cases hmem
      · cases hsome
        exact (hiff d hd).mpr (hlisted d.entry hmem)

/-! ### Runs -/

/-- A data set of one member under one name, and of another member under every other name. -/
def twoPositions : Ied where
  dataSet name := some (if name = [100] then [⟨[112], [[112]]⟩] else [⟨[113], [[113]]⟩])
  readReference _ := some (.boolean true)

end Iec61850.Server.ControlBlock
