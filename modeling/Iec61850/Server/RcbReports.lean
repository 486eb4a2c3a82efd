import Iec61850.Server.RcbNaming

/-!
# What the reports of a block are made from

A report is made when its block builds one or replays its buffer, from the data set, the revision
and the members of that moment; a replayed one may wait before it goes out.
-/

namespace Iec61850.Server.ControlBlock

open Theory Mms

/-- The data sets that the engine finds in an action. -/
def Action.dataSet : Action → Bytes → Option (List DataSetMember)
  | .write ied _ _ _ _ _ | .gather ied _ _ | .interrogate ied _ _ | .integrity ied _ _ _
  | .change ied _ _ _ => ied.dataSet
  | .writeWhole _ _ | .purge | .flush | .closed _ _ _ | .expire _ => fun _ => none

/-- The values that an entry made in an action is made of. -/
def Action.reads : Action → Bytes → Option Value
  | .interrogate ied _ _ | .integrity ied _ _ _ | .change ied _ _ _ => ied.readReference
  | .write _ _ _ _ _ _ | .writeWhole _ _ | .gather _ _ _ | .purge | .flush | .closed _ _ _
  | .expire _ => fun _ => none

/-! ### One report -/

/-- The report is one of the data set that the block names, under the block's revision: its inclusion
bits stand for the members of the data set, and each value it carries is the one that its entry
has for the member at its place. -/
structure Makes (b : ControlBlock) (dataSet : Bytes → Option (List DataSetMember)) (d : Delivery) :
    Prop where
  named : ∃ name ms, b.dataSetName = some name ∧ dataSet name = some ms ∧
    d.members = ms.map (·.reference)
  revision : ∀ r, d.report.confRev = some r → r.toNat = b.revision
  inclusion : d.report.inclusion =
    inclusionFor d.members.length (d.report.entries.map (·.index))
  entries : ∀ e ∈ d.report.entries, ∃ m, d.members[e.index]? = some m ∧
    d.entry.values.lookup m = some e.value

variable {b b' : ControlBlock}

variable {d : Delivery} {ied : Ied} {dataSet : Bytes × List DataSetMember} {wall : EntryTime}
  {x : Action}

theorem Makes.congr {dataSet : Bytes → Option (List DataSetMember)} (h : SameNaming b b')
    (hd : b'.Makes dataSet d) : b.Makes dataSet d := by
  obtain ⟨⟨name, ms, hname, hms, hmembers⟩, hrevision, hinclusion, hentries⟩ := hd
  refine ⟨⟨name, ms, ?_, hms, hmembers⟩, ?_, hinclusion, hentries⟩
  · rw [← h.dataSetName, hname]
  · intro r hr
    rw [hrevision r hr, h.revision]

theorem dataSetName_of_dataSet (h : b.dataSet ied = some dataSet) :
    b.dataSetName = some dataSet.1 ∧ ied.dataSet dataSet.1 = some dataSet.2 := by
  unfold ControlBlock.dataSet at h
  obtain ⟨name, hname, hds⟩ := Option.bind_eq_some_iff.mp h
  obtain ⟨ms, hms, rfl⟩ := Option.map_eq_some_iff.mp hds
  exact ⟨hname, hms⟩

theorem makes_reportOf (h : b.dataSet ied = some dataSet) {seq : UInt32}
    {buffered overflowed : Bool} (hmembers : d.members = dataSet.2.map (·.reference))
    (hreport : d.report = b.reportOf dataSet d.entry seq buffered overflowed) :
    b.Makes ied.dataSet d := by
  obtain ⟨hname, hms⟩ := dataSetName_of_dataSet h
  refine ⟨⟨dataSet.1, dataSet.2, hname, hms, hmembers⟩, ?_, ?_, ?_⟩
  · intro r hr
    rw [hreport] at hr
    have hflag : (if (effectiveFlags b.optFlds buffered).confRevision then
        some (UInt32.ofNat b.revision) else none) = some r := hr
    split at hflag
    · cases hflag
      exact Nat.mod_eq_of_lt b.revision_lt
    · cases hflag
  · rw [hmembers, hreport]
    rfl
  · intro e he
    rw [hreport] at he
    obtain ⟨m, reason, hget, -, hvalue, -⟩ := mem_assemble he
    rw [hmembers]
    exact ⟨m, hget, hvalue⟩

/-! ### A report that is built -/

theorem read_of_mem_values {reasons : Reasons} {m : Bytes} {v : Value}
    (h : (m, v) ∈ (b.entryFor ied reasons wall).values) : ied.readReference m = some v := by
  have hmem : (m, v) ∈ valuesOf ied reasons := h
  obtain ⟨⟨m', reason⟩, -, hread⟩ := List.mem_filterMap.mp hmem
  obtain ⟨v', hv', heq⟩ := Option.map_eq_some_iff.mp hread
  cases heq
  exact hv'

/-- The buffer has nothing it had not before, but for the entry. -/
def BufferGains (b b' : ControlBlock) (e : Buffered) : Prop :=
  ∀ x ∈ b'.rcb.buffer, x ∈ b.rcb.buffer ∨ x = e

theorem bufferGains_file (b : ControlBlock) (trigger : Trigger) (e : Buffered) :
    BufferGains b (b.file trigger e) e := by
  unfold file
  split
  · unfold record
    split
    · intro x hx
      rcases List.mem_append.mp hx with hx | hx
      · exact Or.inl (List.mem_of_mem_tail hx)
      · exact Or.inr (List.mem_singleton.mp hx)
    · intro x hx
      rcases List.mem_append.mp hx with hx | hx
      · exact Or.inl hx
      · exact Or.inr (List.mem_singleton.mp hx)
  · exact fun x hx => Or.inl hx

/-- What building a report does: it makes at most one entry, and the reports it hands over are made of
it. -/
theorem build_makes (b : ControlBlock) (ied : Ied) (peers : Peers) (trigger : Trigger)
    (wall : EntryTime) : ∃ e : Buffered, (∀ m v, (m, v) ∈ e.values → ied.readReference m = some v) ∧
      BufferGains b (b.build ied peers trigger wall).1 e ∧
      ∀ d ∈ (b.build ied peers trigger wall).2, b.Makes ied.dataSet d ∧ d.entry = e := by
  have hnone : ∀ m v, (m, v) ∈ (⟨0, wall, [], []⟩ : Buffered).values →
      ied.readReference m = some v := fun m v h => by cases h
  rcases build_cases (Prod.eta (b.build ied peers trigger wall)).symm with
    ⟨-, -, hb', hds⟩ | ⟨-, -, hb', hds⟩ | ⟨dataSet, e, hdataSet, -, he, hdeliver⟩
  · refine ⟨⟨0, wall, [], []⟩, hnone, ?_, ?_⟩
    · rw [hb']
      exact fun x hx => Or.inl hx
    · rw [hds]
      exact fun d hd => by cases hd
  · refine ⟨⟨0, wall, [], []⟩, hnone, ?_, ?_⟩
    · rw [hb']
      intro x hx
      rw [takePending_buffer] at hx
      exact Or.inl hx
    · rw [hds]
      exact fun d hd => by cases hd
  · refine ⟨e, ?_, ?_, ?_⟩
    · intro m v hmem
      rw [he] at hmem
      exact read_of_mem_values hmem
    · intro x hx
      rw [(deliver_buffer hdeliver).1] at hx
      rcases bufferGains_file _ trigger e x hx with hx | hx
      · rw [takePending_buffer] at hx
        exact Or.inl hx
      · exact Or.inr hx
    · intro d hd
      rcases deliver_cases hdeliver with ⟨-, -, hds⟩ | ⟨assoc, -, -, -, -, hds⟩
      · rw [hds] at hd
        cases hd
      · have hfiled : SameNaming b ((b.takePending trigger).file trigger e) := by
          have hfile := (file_rcb (b.takePending trigger) trigger e).2.1
          have htake := (takePending_rcb b trigger).2.1
          exact ⟨by rw [hfile, htake], by rw [hfile, htake]⟩
        have hfiledSet : ((b.takePending trigger).file trigger e).dataSet ied = some dataSet := by
          rw [← hdataSet, ControlBlock.dataSet, ControlBlock.dataSet, hfiled.datSet]
        rw [hds] at hd
        rw [List.mem_singleton.mp hd]
        exact ⟨(makes_reportOf hfiledSet rfl rfl).congr hfiled, rfl⟩

/-! ### A report that is replayed -/

theorem replayAll_makes (b : ControlBlock) (ied : Ied) (peers : Peers) (assoc : AssocId)
    (overflowed : Bool) (entries : List Buffered) :
    ∀ d ∈ (replayAll ied peers assoc b overflowed entries).2,
      b.Makes ied.dataSet d ∧ d.entry ∈ entries := by
  intro d hd
  cases hdataSet : b.dataSet ied with
  | none =>
    rw [replayAll_none hdataSet] at hd
    cases hd
  | some dataSet =>
    obtain ⟨-, hmembers⟩ := replayAll_members hdataSet peers assoc overflowed entries d hd
    obtain ⟨-, seq, flag, hreport⟩ :=
      replayAll_report hdataSet peers assoc overflowed entries d hd
    refine ⟨makes_reportOf hdataSet hmembers hreport, ?_⟩
    rw [← replayAll_entries hdataSet peers assoc overflowed entries]
    exact List.mem_map_of_mem hd

theorem drainBuffer_makes (b : ControlBlock) (ied : Ied) (peers : Peers) (after : Option UInt64) :
    ∀ d ∈ (b.drainBuffer ied peers after).2, b.Makes ied.dataSet d ∧ d.entry ∈ b.rcb.buffer := by
  intro d hd
  unfold drainBuffer at hd
  split at hd
  · cases hd
  · obtain ⟨hmakes, hentry⟩ := replayAll_makes _ _ _ _ _ _ d hd
    have hnaming : SameNaming b { b with rcb := { b.rcb with overflowed := false } } := ⟨rfl, rfl⟩
    exact ⟨hmakes.congr hnaming, List.mem_of_mem_drop hentry⟩

/-! ### One action -/

/-- The reports come from the block as it was: they were waiting, or are made of the data sets at hand
and of an entry that was in the buffer, or of one that the action makes of what it reads. -/
def MadeFrom (b : ControlBlock) (x : Action) (e : Buffered) (ds : List Delivery) : Prop :=
  ∀ d ∈ ds, d ∈ b.deferred ∨
    b.Makes x.dataSet d ∧ (d.entry ∈ b.rcb.buffer ∨ d.entry = e)

/-- What an action sends, keeps in the buffer and leaves waiting. -/
structure Reports (b : ControlBlock) (x : Action) : Prop where
  made : ∃ e : Buffered, (∀ m v, (m, v) ∈ e.values → x.reads m = some v) ∧
    BufferGains b (b.next x) e ∧ b.MadeFrom x e (b.next x).deferred ∧
    b.MadeFrom x e (delivered (b.events x))

/-- An action that makes no entry and sends nothing of its own. -/
theorem reports_of_still (hbuffer : ∀ e ∈ (b.next x).rcb.buffer, e ∈ b.rcb.buffer)
    (hdeferred : ∀ d ∈ (b.next x).deferred, d ∈ b.deferred ∨
      b.Makes x.dataSet d ∧ d.entry ∈ b.rcb.buffer)
    (hsent : ∀ d ∈ delivered (b.events x), d ∈ b.deferred) : b.Reports x := by
  refine ⟨⟨0, ⟨0, 0⟩, [], []⟩, ?_, ?_, ?_, ?_⟩
  · intro m v hmem
    cases hmem
  · exact fun e he => Or.inl (hbuffer e he)
  · intro d hd
    rcases hdeferred d hd with hold | ⟨hmakes, hentry⟩
    · exact Or.inl hold
    · exact Or.inr ⟨hmakes, Or.inl hentry⟩
  · exact fun d hd => Or.inl (hsent d hd)

theorem reports_enables (h : Enables b x) : b.Reports x := by
  cases x with
  | write ied peers assoc a value now =>
    obtain ⟨c, hwrite, ⟨integrityDue, hrcb⟩, hdeferred, hsame, -, -⟩ :=
      writeAttribute_enables h ied peers now
    have hnext : b.next (.write ied peers assoc a value now) = c.resume ied peers := by
      rw [next, hwrite]
    have hnaming : SameNaming b c :=
      ⟨hsame.values .datSet (Or.inr (Or.inr (Or.inr rfl))),
        hsame.values .confRev (Or.inr (Or.inr (Or.inl rfl)))⟩
    have hbuffer : c.rcb.buffer = b.rcb.buffer := by rw [hrcb]
    obtain ⟨⟨seq, overflowed, hresumed⟩, hreplayed, -⟩ := resume_frame c ied peers
    apply reports_of_still
    · intro e he
      rw [hnext, hresumed] at he
      rw [← hbuffer]
      exact he
    · intro d hd
      rw [hnext, hreplayed, hdeferred] at hd
      rcases List.mem_append.mp hd with hd | hd
      · exact Or.inl hd
      · obtain ⟨hmakes, hentry⟩ := drainBuffer_makes _ _ _ _ d hd
        rw [hbuffer] at hentry
        exact Or.inr ⟨hmakes.congr hnaming, hentry⟩
    · rw [delivered_write]
      intro d hd
      cases hd
  | _ => exact h.elim

/-- An action that builds a report. -/
theorem reports_builds {c : ControlBlock} {peers : Peers} {trigger : Trigger}
    (hprepared : Prepared b c) (hnext : b.next x = (c.build ied peers trigger wall).1)
    (hevents : b.events x = c.buildEvents ied peers trigger wall)
    (hdataSet : x.dataSet = ied.dataSet) (hreads : x.reads = ied.readReference) : b.Reports x := by
  obtain ⟨⟨integrityDue, hrcb⟩, hdeferred, -, hvalues⟩ := hprepared
  have hnaming : SameNaming b c := ⟨hvalues .datSet (by decide), hvalues .confRev (by decide)⟩
  obtain ⟨e, hread, hgains, hmakes⟩ := build_makes c ied peers trigger wall
  refine ⟨e, ?_, ?_, ?_, ?_⟩
  · rw [hreads]
    exact hread
  · intro y hy
    rw [hnext] at hy
    have hy' := hgains y hy
    rw [hrcb] at hy'
    exact hy'
  · intro d hd
    rw [hnext, build_deferred, hdeferred] at hd
    exact Or.inl hd
  · intro d hd
    rw [hevents, delivered_buildEvents] at hd
    obtain ⟨hmade, hentry⟩ := hmakes d (List.mem_of_mem_filter hd)
    rw [hdataSet]
    exact Or.inr ⟨hmade.congr hnaming, Or.inr hentry⟩

theorem reports_same (hnext : b.next x = b) (hevents : b.events x = []) : b.Reports x := by
  apply reports_of_still
  · rw [hnext]
    exact fun e he => he
  · rw [hnext]
    exact fun d hd => Or.inl hd
  · rw [hevents]
    intro d hd
    cases hd

theorem reports_next (b : ControlBlock) (x : Action) : b.Reports x := by
  by_cases henables : Enables b x
  · exact reports_enables henables
  by_cases hbuild : x.mayBuild = true
  · cases x with
    | interrogate ied peers wall =>
      by_cases hasked : b.interrogated = true
      · have hprepared : Prepared b (b.setInternal .gi (.boolean false)) :=
          ⟨⟨b.rcb.integrityDue, setInternal_rcb b _ _⟩, setInternal_deferred b _ _,
            setInternal_reference b _ _, fun a ha => setInternal_values b _ _ ha⟩
        refine reports_builds hprepared ?_ (if_pos hasked) rfl rfl
        exact congrArg Prod.fst (if_pos hasked)
      · exact reports_same (congrArg Prod.fst (if_neg hasked)) (if_neg hasked)
    | integrity ied peers wall now =>
      by_cases hdue : b.rcb.integrityDue.any (· ≤ now) = true
      · have hprepared : Prepared b (b.rearm now) := ⟨⟨_, rfl⟩, rfl, rfl, fun _ _ => rfl⟩
        refine reports_builds hprepared ?_ (if_pos hdue) rfl rfl
        exact congrArg Prod.fst (if_pos hdue)
      · exact reports_same (congrArg Prod.fst (if_neg hdue)) (if_neg hdue)
    | change ied peers wall now =>
      by_cases hdue : b.rcb.due.any (· ≤ now) = true
      · refine reports_builds (prepared_refl b) ?_ (if_pos hdue) rfl rfl
        exact congrArg Prod.fst (if_pos hdue)
      · exact reports_same (congrArg Prod.fst (if_neg hdue)) (if_neg hdue)
    | _ => cases hbuild
  by_cases hflush : x = .flush
  · subst hflush
    apply reports_of_still
    · exact fun e he => he
    · intro d hd
      cases hd
    · intro d hd
      have hsent : delivered (b.events .flush) = b.deferred.filter fun d => !d.pdus.isEmpty :=
        delivered_sends b.deferred
      rw [hsent] at hd
      exact List.mem_of_mem_filter hd
  · obtain ⟨hrests, hsilent⟩ := rests_next henables hflush (Bool.not_eq_true _ ▸ hbuild)
    apply reports_of_still
    · exact fun e he => hrests.buffer.subset he
    · rw [hrests.deferred]
      exact fun d hd => Or.inl hd
    · rw [hsilent]
      intro d hd
      cases hd

end Iec61850.Server.ControlBlock
