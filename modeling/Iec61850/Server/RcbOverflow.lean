import Iec61850.Server.RcbResume

/-!
# The overflow indication

When a report owes its client the indication that an entry was lost, and the condition on the
actions under which the overflow flag and the reports that wait tell exactly that.
-/

namespace Iec61850.Server

open Theory Mms

/-- The report says that the buffer overflowed. -/
def Delivery.TellsOverflow (d : Delivery) : Prop := d.report.bufOvfl = some true

namespace ControlBlock

/-! ### What is owed -/

/-- No report of the entry has gone out. -/
def Unsent (log : List Event) (e : Buffered) : Prop := ∀ d, .sent d ∈ log → d.entry ≠ e

/-- Something is lost: an entry that was never sent is evicted, or the one a client resumes after
has gone. -/
def Loses (log : List Event) : Event → Prop
  | .evicted e _ => Unsent log e
  | .lost => True
  | _ => False

/-- Something was lost since the last report that went out. -/
def Owed (log : List Event) : Prop := Since Loses (fun ev => ∀ d, ev ≠ .sent d) log

/-- A report that goes out tells of an overflow exactly when it owes it. -/
def Told (log : List Event) (ev : Event) : Prop :=
  ∀ d, ev = .sent d → (d.TellsOverflow ↔ Owed log)

/-- The event neither loses anything nor is a report. -/
def Silent : Event → Prop
  | .evicted _ _ | .lost | .sent _ => False
  | _ => True

variable {log : List Event} {d : Delivery} {b b' : ControlBlock} {trigger : Trigger}
  {entry : Buffered} {ied : Ied} {peers : Peers} {assoc : AssocId}

variable {es log' : List Event} {wall : EntryTime} {a : Attribute} {value : Value} {x : Action}

theorem owed_silent (h : ∀ ev ∈ es, Silent ev) : Owed (log ++ es) ↔ Owed log := by
  apply since_append
  · intro ev hev pre hloses
    have hsilent := h ev hev
    cases ev with
    | evicted | lost => exact hsilent
    | _ => exact hloses
  · rintro ev hev d rfl
    exact h _ hev

theorem not_owed_sent (log : List Event) (d : Delivery) : ¬ Owed (log ++ [.sent d]) := by
  rw [Owed, since_concat]
  rintro (hloses | ⟨-, hne⟩)
  · exact hloses
  · exact hne d rfl

theorem owed_lost (log : List Event) : Owed (log ++ [.lost]) := since_concat.mpr (Or.inl trivial)

theorem owed_evicted (log : List Event) (e : Buffered) (raised : Bool) :
    Owed (log ++ [.evicted e raised]) ↔ Unsent log e ∨ Owed log := by
  rw [Owed, since_concat]
  constructor
  · rintro (hunsent | ⟨howed, -⟩)
    · exact Or.inl hunsent
    · exact Or.inr howed
  · rintro (hunsent | howed)
    · exact Or.inl hunsent
    · refine Or.inr ⟨howed, ?_⟩
      intro d hd
      cases hd

theorem told_append (h : Justified Told log) (hes : ∀ ev ∈ es, ∀ d, ev ≠ .sent d) :
    Justified Told (log ++ es) := by
  apply justified_append h
  intro pre ev hpre d hd
  refine absurd hd (hes ev (hpre.subset ?_) d)
  exact List.mem_append_right _ List.mem_cons_self

theorem Silent.not_sent {ev : Event} (h : Silent ev) : ∀ d, ev ≠ .sent d := by
  rintro d rfl
  exact h

theorem told_sent (h : Justified Told log) (hd : d.TellsOverflow ↔ Owed log) :
    Justified Told (log ++ [.sent d]) := by
  rw [justified_concat]
  refine ⟨h, ?_⟩
  rintro d' heq
  cases heq
  exact hd

/-- Reports go out in a row: the first tells what is owed, and there is nothing for the others to
tell. -/
theorem told_sends {rest : List Delivery} (h : Justified Told log) (hd : d.TellsOverflow ↔ Owed log)
    (hrest : ∀ r ∈ rest, ¬ r.TellsOverflow) :
    Justified Told (log ++ (d :: rest).map .sent) ∧ ¬ Owed (log ++ (d :: rest).map .sent) := by
  induction rest generalizing log d with
  | nil => exact ⟨told_sent h hd, not_owed_sent log d⟩
  | cons r rest ih =>
    rw [List.map_cons, List.append_cons]
    apply ih (told_sent h hd)
    · constructor
      · intro hr
        exact absurd hr (hrest r List.mem_cons_self)
      · intro howed
        exact absurd howed (not_owed_sent log d)
    · intro r' hr'
      exact hrest r' (List.mem_cons_of_mem r hr')

/-! ### What the block would tell -/

/-- The reports that wait and can go out. -/
def outgoing (b : ControlBlock) : List Delivery := b.deferred.filter fun d => !d.pdus.isEmpty

/-- The next report tells what is owed: the first of those that wait, with nothing left to tell in
the others, or, when none waits, one made under the flag. -/
def InTune (log : List Event) (b : ControlBlock) : Prop :=
  match b.outgoing with
  | [] => b.rcb.overflowed = true ↔ Owed log
  | d :: rest => (d.TellsOverflow ↔ Owed log) ∧ (∀ r ∈ rest, ¬ r.TellsOverflow) ∧
      b.rcb.overflowed = false

theorem InTune.congr (h : InTune log b) (hdeferred : b'.deferred = b.deferred)
    (hoverflowed : b'.rcb.overflowed = b.rcb.overflowed) (howed : Owed log' ↔ Owed log) :
    InTune log' b' := by
  rw [InTune, outgoing, hdeferred, hoverflowed, howed]
  exact h

/-- When no report that waits tells of an overflow, the flag does, and it is down if any waits. -/
theorem inTune_iff (hquiet : ∀ d ∈ b.outgoing, ¬ d.TellsOverflow) :
    InTune log b ↔ (b.rcb.overflowed = true ↔ Owed log) ∧
      (b.outgoing ≠ [] → b.rcb.overflowed = false) := by
  unfold InTune
  cases hout : b.outgoing with
  | nil =>
    constructor
    · intro h
      exact ⟨h, fun hne => absurd rfl hne⟩
    · exact And.left
  | cons d rest =>
    rw [hout] at hquiet
    have hd := hquiet d List.mem_cons_self
    dsimp only
    constructor
    · rintro ⟨howed, -, hdown⟩
      refine ⟨?_, fun _ => hdown⟩
      rw [hdown, ← howed]
      exact ⟨fun h => absurd h (by decide), fun h => absurd h hd⟩
    · rintro ⟨howed, hdown⟩
      have hdown := hdown (List.cons_ne_nil d rest)
      refine ⟨?_, fun r hr => hquiet r (List.mem_cons_of_mem d hr), hdown⟩
      rw [← howed, hdown]
      exact ⟨fun h => absurd h hd, fun h => absurd h (by decide)⟩

/-! ### Building a report -/

/-- Making the entry costs the oldest one. -/
def evicts (b : ControlBlock) (trigger : Trigger) : Bool :=
  b.keeps trigger && decide (defaultBuffer ≤ b.rcb.buffer.length)

/-- The overflow flag once the entry is made. -/
def raised (b : ControlBlock) (trigger : Trigger) : Bool := b.rcb.overflowed || b.evicts trigger

/-- A report that is made tells what is owed, and goes out. If an entry is evicted, it was never
sent, or the flag is raised anyway; with nobody to make the report for, this does not happen while
others wait. The report for an owner can be encoded, and those that wait have nothing to tell; or
there is nothing to tell in it. -/
structure Announces (b : ControlBlock) (log : List Event) (ied : Ied) (peers : Peers)
    (trigger : Trigger) (wall : EntryTime) : Prop where
  unsent : b.entryMade ied trigger wall ≠ none → b.evicts trigger = true →
    b.rcb.overflowed = false → ∀ old, b.rcb.buffer.head? = some old → Unsent log old
  alone : b.entryMade ied trigger wall ≠ none → b.evicts trigger = true →
    b.rcb.owner = none → b.outgoing = []
  goes : ∀ dataSet entry assoc, b.dataSet ied = some dataSet →
    b.entryMade ied trigger wall = some entry → b.rcb.owner = some assoc →
      if segments (b.reportOf dataSet entry b.rcb.seq true (b.raised trigger))
          (peers.budget assoc) = [] then b.raised trigger = false
      else ∀ d ∈ b.outgoing, ¬ d.TellsOverflow

/-- What filing an entry writes into the journal. -/
def fileEvents (b : ControlBlock) (trigger : Trigger) (entry : Buffered) : List Event :=
  (if b.keeps trigger then b.evictions entry else []) ++ [.made entry (b.keeps trigger)]

theorem file_overflowed (b : ControlBlock) (trigger : Trigger) (entry : Buffered) :
    ((b.takePending trigger).file trigger entry).rcb.overflowed = b.raised trigger := by
  have hoverflowed : (b.takePending trigger).rcb.overflowed = b.rcb.overflowed := by
    obtain ⟨-, -, pending, due, hrcb⟩ := takePending_rcb b trigger
    rw [hrcb]
  rw [file, takePending_keeps, raised, evicts]
  cases hkeeps : b.keeps trigger with
  | false =>
    rw [if_neg (by decide), Bool.false_and, Bool.or_false]
    exact hoverflowed
  | true =>
    have hbuffer : (b.takePending trigger).number.rcb.buffer = b.rcb.buffer :=
      takePending_buffer b trigger
    rw [if_pos rfl, Bool.true_and, record, hbuffer]
    split
    · rename_i hfull
      rw [decide_eq_true hfull, Bool.or_true]
    · rename_i hroom
      rw [decide_eq_false hroom, Bool.or_false]
      exact hoverflowed

/-- What is owed once an entry is filed. -/
theorem owed_fileEvents (b : ControlBlock) (log : List Event) (trigger : Trigger)
    (entry : Buffered) : Owed (log ++ b.fileEvents trigger entry) ↔
      (b.evicts trigger = true ∧ ∃ old, b.rcb.buffer.head? = some old ∧ Unsent log old) ∨
        Owed log := by
  have hmade : ∀ T, Owed (T ++ [.made entry (b.keeps trigger)]) ↔ Owed T := by
    intro T
    apply owed_silent
    intro ev hev
    rw [List.mem_singleton.mp hev]
    trivial
  rw [fileEvents, ← List.append_assoc, hmade, evicts, evictions_eq]
  cases b.keeps trigger with
  | false => simp
  | true =>
    rw [if_pos rfl, Bool.true_and, decide_eq_true_eq]
    split
    · rename_i hfull
      cases hbuffer : b.rcb.buffer with
      | nil =>
        rw [hbuffer] at hfull
        exact absurd hfull (by decide)
      | cons old rest =>
        rw [List.head?_cons]
        change Owed (log ++ [.evicted old true]) ↔ _
        rw [owed_evicted]
        simp [← hbuffer, hfull]
    · rename_i hroom
      rw [List.append_nil]
      exact ⟨Or.inr, fun h => h.elim (fun hfull => absurd hfull.1 hroom) id⟩

theorem fileEvents_not_sent : ∀ ev ∈ b.fileEvents trigger entry, ∀ d, ev ≠ .sent d := by
  rintro ev hev d rfl
  rw [fileEvents, List.mem_append, List.mem_singleton] at hev
  rcases hev with hev | hev
  · split at hev
    · rw [evictions_eq] at hev
      split at hev
      · rw [List.mem_map] at hev
        obtain ⟨old, -, hold⟩ := hev
        cases hold
      · cases hev
    · cases hev
  · cases hev

theorem sameReports_file (b : ControlBlock) (trigger : Trigger) (entry : Buffered) :
    SameReports b ((b.takePending trigger).file trigger entry) := by
  obtain ⟨-, hvalues, -⟩ := file_rcb (b.takePending trigger) trigger entry
  obtain ⟨-, htake, -⟩ := takePending_rcb b trigger
  constructor
  · have hreference : (b.takePending trigger).reference = b.reference := by
      unfold takePending
      split <;> rfl
    rw [← hreference]
    unfold file record
    split
    · split <;> rfl
    · rfl
  · intro a _
    rw [hvalues, htake]

/-- The flag an entry leaves is what is owed then, unless something was there to be told already. -/
theorem raised_iff (htune : InTune log b) (hquiet : ∀ d ∈ b.outgoing, ¬ d.TellsOverflow)
    (hannounces : b.Announces log ied peers trigger wall)
    (hmade : b.entryMade ied trigger wall = some entry) :
    b.raised trigger = true ↔ Owed (log ++ b.fileEvents trigger entry) := by
  have howed := ((inTune_iff hquiet).mp htune).1
  have hne : b.entryMade ied trigger wall ≠ none := by
    rw [hmade]
    exact Option.some_ne_none entry
  rw [owed_fileEvents, raised, Bool.or_eq_true, howed]
  constructor
  · rintro (hbefore | hevicts)
    · exact Or.inr hbefore
    · by_cases hbefore : Owed log
      · exact Or.inr hbefore
      · left
        have hdown : b.rcb.overflowed = false := by
          rw [← Bool.not_eq_true, howed]
          exact hbefore
        obtain ⟨old, hold⟩ : ∃ old, b.rcb.buffer.head? = some old := by
          rw [evicts, Bool.and_eq_true, decide_eq_true_eq] at hevicts
          cases hbuffer : b.rcb.buffer with
          | nil =>
            rw [hbuffer] at hevicts
            exact absurd hevicts.2 (by decide)
          | cons old rest => exact ⟨old, rfl⟩
        exact ⟨hevicts, old, hold, hannounces.unsent hne hevicts hdown old hold⟩
  · rintro (⟨hevicts, -⟩ | hbefore)
    · exact Or.inr hevicts
    · exact Or.inl hbefore

theorem sends_of_nil (h : segments d.report d.budget = []) : sends [d] = [] := by
  have hstays : (!d.pdus.isEmpty) = false := by
    rw [Delivery.pdus, h]
    rfl
  rw [sends, List.filter_cons, hstays, List.filter_nil]
  rfl

theorem sends_of_ne (h : segments d.report d.budget ≠ []) : sends [d] = [.sent d] := by
  have hgoes : (!d.pdus.isEmpty) = true := by
    rw [Bool.not_eq_true', List.isEmpty_eq_false_iff]
    exact h
  rw [sends, List.filter_cons, if_pos hgoes, List.filter_nil]
  rfl

/-- Building a report keeps the block in tune, and the report, if one goes out, tells what is
owed. -/
theorem inTune_build (hbuffered : b.rcb.buffered = true) (hasks : b.asksOverflow = true)
    (htune : InTune log b) (htold : Justified Told log)
    (hannounces : b.Announces log ied peers trigger wall) :
    InTune (log ++ b.buildEvents ied peers trigger wall) (b.build ied peers trigger wall).1 ∧
      Justified Told (log ++ b.buildEvents ied peers trigger wall) := by
  obtain ⟨htakeDeferred, -, pending, due, htake⟩ := takePending_rcb b trigger
  rcases hbuild : b.build ied peers trigger wall with ⟨b', ds⟩
  rcases build_cases hbuild with
    ⟨-, hmade, rfl, -⟩ | ⟨-, hmade, rfl, -⟩ | ⟨dataSet, entry, hds, hmade, -, hdeliver⟩
  · rw [buildEvents, hmade, List.append_nil]
    exact ⟨htune, htold⟩
  · rw [buildEvents, hmade, List.append_nil]
    exact ⟨htune.congr htakeDeferred (by rw [htake]) Iff.rfl, htold⟩
  · have hne : b.entryMade ied trigger wall ≠ none := by
      rw [hmade]
      exact Option.some_ne_none entry
    have hevents : b.buildEvents ied peers trigger wall =
        b.fileEvents trigger entry ++ sends ds := by
      rw [buildEvents, hmade, hbuild]
      rfl
    have hfiled : Justified Told (log ++ b.fileEvents trigger entry) :=
      told_append htold fileEvents_not_sent
    have hflag := file_overflowed b trigger entry
    have hsame := sameReports_file b trigger entry
    obtain ⟨hdeferred, -, buffer, nextEntry, overflowed, hrcb⟩ :=
      file_rcb (b.takePending trigger) trigger entry
    have hkept : ∀ d : ControlBlock, d.deferred = b.deferred → b.raised trigger = false →
        d.rcb.overflowed = false → InTune (log ++ b.fileEvents trigger entry) d := by
      intro d hd hdown hoverflowed
      rw [raised, Bool.or_eq_false_iff] at hdown
      refine htune.congr hd (hoverflowed.trans hdown.1.symm) ?_
      rw [owed_fileEvents, hdown.2]
      simp
    rw [hevents, ← List.append_assoc]
    generalize (b.takePending trigger).file trigger entry = c at *
    rw [htake] at hrcb
    have hwait : c.deferred = b.deferred := hdeferred.trans htakeDeferred
    rcases deliver_cases hdeliver with
      ⟨hnone, rfl, rfl⟩ | ⟨assoc, howner, ⟨seq, hrcb'⟩, hdeferred', -, rfl⟩
    · -- nobody to make the report for
      rw [hrcb] at hnone
      refine ⟨?_, by rw [sends, List.filter_nil, List.map_nil, List.append_nil]; exact hfiled⟩
      rw [sends, List.filter_nil, List.map_nil, List.append_nil]
      by_cases hevicts : b.evicts trigger = true
      · have hout : b.outgoing = [] := hannounces.alone hne hevicts hnone
        have hout' : b'.outgoing = [] := by
          rw [outgoing, hwait]
          exact hout
        have hraised := raised_iff htune (by rw [hout]; exact fun d hd => absurd hd List.not_mem_nil)
          hannounces hmade
        rw [inTune_iff (by rw [hout']; exact fun d hd => absurd hd List.not_mem_nil), hflag]
        exact ⟨hraised, fun hwaits => absurd hout' hwaits⟩
      · rw [Bool.not_eq_true] at hevicts
        refine htune.congr hwait ?_ ?_
        · rw [hflag, raised, hevicts, Bool.or_false]
        · rw [owed_fileEvents, hevicts]
          simp
    · -- the report goes to the owner
      have hdown : b'.rcb.overflowed = false := by rw [hrcb']
      have hwait' : b'.deferred = b.deferred := hdeferred'.trans hwait
      have hcbuffered : c.rcb.buffered = true := by
        rw [hrcb]
        exact hbuffered
      have hseq : c.rcb.seq = b.rcb.seq := by rw [hrcb]
      rw [hrcb] at howner
      have hgoes := hannounces.goes dataSet entry assoc hds hmade howner
      rw [hcbuffered, hflag, hseq, hsame.reportOf]
      obtain ⟨d, hd⟩ : ∃ d : Delivery, d = ⟨assoc, entry, dataSet.2.map (·.reference),
        b.reportOf dataSet entry b.rcb.seq true (b.raised trigger), peers.budget assoc⟩ := ⟨_, rfl⟩
      have hreport : b.reportOf dataSet entry b.rcb.seq true (b.raised trigger) = d.report := by
        rw [hd]
      have hbudget : peers.budget assoc = d.budget := by rw [hd]
      rw [hreport, hbudget] at hgoes
      rw [← hd]
      dsimp only
      by_cases hempty : segments d.report d.budget = []
      · rw [if_pos hempty] at hgoes
        rw [sends_of_nil hempty, List.append_nil]
        exact ⟨hkept b' hwait' hgoes hdown, hfiled⟩
      · rw [if_neg hempty] at hgoes
        rw [sends_of_ne hempty]
        have htells : d.TellsOverflow ↔ b.raised trigger = true := by
          rw [Delivery.TellsOverflow, ← hreport, bufOvfl_reportOf, hasks, if_pos rfl,
            Option.some.injEq]
        have hraised := raised_iff htune hgoes hannounces hmade
        refine ⟨?_, told_sent hfiled (htells.trans hraised)⟩
        rw [inTune_iff (by rw [outgoing, hwait']; exact hgoes), hdown]
        refine ⟨⟨fun h => absurd h (by decide), ?_⟩, fun _ => rfl⟩
        exact fun howed => absurd howed (not_owed_sent _ _)

/-! ### Enabling -/

/-- A replay tells what is owed. There is something to tell only if no earlier replay waits, and
then the first entry to replay makes a report that can go out. -/
structure Resumes (b : ControlBlock) (ied : Ied) (peers : Peers) (assoc : AssocId) : Prop where
  alone : b.resumeLost = true → b.outgoing = []
  goes : (b.rcb.overflowed || b.resumeLost) = true → ∃ dataSet entry,
    b.dataSet ied = some dataSet ∧
      (b.rcb.buffer.drop (b.resumePoint ((b.values .entryID).bind entryIdOf)).1).head? =
        some entry ∧
      segments (b.reportOf dataSet entry 0 true true) (peers.budget assoc) ≠ []

theorem replayAll_quiet (b : ControlBlock) (ied : Ied) (peers : Peers) (assoc : AssocId)
    (entries : List Buffered) :
    ∀ r ∈ (replayAll ied peers assoc b false entries).2, ¬ r.TellsOverflow := by
  cases hds : b.dataSet ied with
  | none =>
    rw [replayAll_none hds]
    exact fun r hr => absurd hr List.not_mem_nil
  | some dataSet => exact (replayAll_overflow hds peers assoc false entries).mpr (Or.inl rfl)

/-- The reports of a replay that is to tell of an overflow: the first does, the others do not. -/
theorem replayAll_tells {dataSet : Bytes × List DataSetMember} (hds : b.dataSet ied = some dataSet)
    (hasks : b.asksOverflow = true) (peers : Peers) (assoc : AssocId) {entries : List Buffered}
    (hfirst : entries.head? = some entry) :
    ∃ r rest, (replayAll ied peers assoc b true entries).2 = r :: rest ∧ r.TellsOverflow ∧
      r.report = b.reportOf dataSet entry b.rcb.seq true true ∧ r.budget = peers.budget assoc ∧
      ∀ r ∈ rest, ¬ r.TellsOverflow := by
  cases entries with
  | nil => cases hfirst
  | cons e es =>
    cases hfirst
    have hreplay : (b.replay ied peers assoc entry true).2 =
        [⟨assoc, entry, dataSet.2.map (·.reference),
          b.reportOf dataSet entry b.rcb.seq true true, peers.budget assoc⟩] := by
      rw [replay, hds]
    rw [replayAll]
    dsimp only
    rw [hreplay]
    refine ⟨_, _, rfl, ?_, rfl, rfl, replayAll_quiet _ ied peers assoc es⟩
    rw [Delivery.TellsOverflow, bufOvfl_reportOf, hasks, if_pos rfl]

/-- Reports with nothing to tell may wait behind the others. -/
theorem InTune.wait {rs : List Delivery} (h : InTune log b) (hout : b'.outgoing = b.outgoing ++ rs)
    (hrs : ∀ r ∈ rs, ¬ r.TellsOverflow) (hflag : b.rcb.overflowed = false)
    (hdown : b'.rcb.overflowed = false) : InTune log b' := by
  unfold InTune at h ⊢
  cases hwaits : b.outgoing with
  | nil =>
    rw [hwaits] at h hout
    dsimp only at h
    have hnone : ¬ Owed log := by
      rw [← h, hflag]
      decide
    rw [hout, List.nil_append, hdown]
    cases rs with
    | nil => exact ⟨fun hup => absurd hup (by decide), fun howed => absurd howed hnone⟩
    | cons r rest =>
      refine ⟨?_, fun r' hr' => hrs r' (List.mem_cons_of_mem r hr'), rfl⟩
      exact ⟨fun hr => absurd hr (hrs r List.mem_cons_self), fun howed => absurd howed hnone⟩
  | cons d rest =>
    rw [hwaits] at h hout
    obtain ⟨hd, hrest, -⟩ := h
    rw [hout, List.cons_append]
    refine ⟨hd, ?_, hdown⟩
    intro r hr
    rw [List.mem_append] at hr
    rcases hr with hr | hr
    · exact hrest r hr
    · exact hrs r hr

/-- An enabling write keeps the block in tune. -/
theorem inTune_enables {d : ControlBlock} (hasks : b.asksOverflow = true) (htune : InTune log b)
    (hresumes : b.Resumes ied peers assoc) (hsame : SameReports b d) (hseq : d.rcb.seq = 0)
    (hdown : b'.rcb.overflowed = false)
    (hdeferred : b'.deferred = b.deferred ++ (replayAll ied peers assoc d
      (b.rcb.overflowed || b.resumeLost)
      (b.rcb.buffer.drop (b.resumePoint ((b.values .entryID).bind entryIdOf)).1)).2)
    (howed : Owed log' ↔ b.resumeLost = true ∨ Owed log) : InTune log' b' := by
  generalize hentries : b.rcb.buffer.drop (b.resumePoint ((b.values .entryID).bind entryIdOf)).1 =
    entries at hdeferred
  have hout : ∀ reports, b'.deferred = b.deferred ++ reports →
      b'.outgoing = b.outgoing ++ reports.filter fun d => !d.pdus.isEmpty := by
    intro reports h
    rw [outgoing, h, List.filter_append]
    rfl
  cases hflag : b.rcb.overflowed || b.resumeLost with
  | false =>
    rw [hflag] at hdeferred
    rw [Bool.or_eq_false_iff] at hflag
    have howed' : Owed log' ↔ Owed log := by
      rw [howed, hflag.2]
      simp
    have htune' : InTune log' b := htune.congr rfl rfl howed'
    refine htune'.wait (hout _ hdeferred) ?_ hflag.1 hdown
    intro r hr
    exact replayAll_quiet d ied peers assoc entries r (List.mem_filter.mp hr).1
  | true =>
    rw [hflag] at hdeferred
    obtain ⟨dataSet, entry, hds, hfirst, hgoes⟩ := hresumes.goes hflag
    rw [hentries] at hfirst
    have hasks' : d.asksOverflow = true := by
      rw [asksOverflow, hsame.optFlds]
      exact hasks
    obtain ⟨r, rest, hreplay, htells, hreport, hbudget, hrest⟩ :=
      replayAll_tells ((hsame.dataSet ied).trans hds) hasks' peers assoc hfirst
    have hnone : b.outgoing = [] := by
      rw [Bool.or_eq_true] at hflag
      rcases hflag with hup | hlost
      · cases hwaits : b.outgoing with
        | nil => rfl
        | cons d rest =>
          unfold InTune at htune
          rw [hwaits] at htune
          exact absurd (hup.symm.trans htune.2.2) (by decide)
      · exact hresumes.alone hlost
    have hpdus : (!r.pdus.isEmpty) = true := by
      rw [Bool.not_eq_true', List.isEmpty_eq_false_iff, Delivery.pdus, hreport, hbudget, hseq,
        hsame.reportOf]
      exact hgoes
    have hall := hout _ hdeferred
    rw [hnone, List.nil_append, hreplay, List.filter_cons, if_pos hpdus] at hall
    unfold InTune
    rw [hall]
    refine ⟨⟨fun _ => ?_, fun _ => htells⟩, ?_, hdown⟩
    · rw [howed]
      rw [Bool.or_eq_true] at hflag
      rcases hflag with hup | hlost
      · right
        unfold InTune at htune
        rw [hnone] at htune
        exact htune.mp hup
      · exact Or.inl hlost
    · intro r' hr'
      exact hrest r' (List.mem_filter.mp hr').1

/-- A write that does not enable the block leaves the flag and the reports that wait. -/
theorem writeAttribute_waiting (h : b.enables assoc a value = false) (ied : Ied) (peers : Peers)
    (now : Instant) : (b.writeAttribute ied peers assoc a value now).1.deferred = b.deferred ∧
      (b.writeAttribute ied peers assoc a value now).1.rcb.overflowed = b.rcb.overflowed := by
  have heffect : ∀ {c : ControlBlock}, b.onWrite ied assoc a value now = .ok c →
      c.rcb.overflowed = b.rcb.overflowed ∧ (a = .rptEna → c.rcb.owner ≠ some assoc) := by
    intro c hc
    have hwritten := (onWrite_ok hc).1
    generalize c.rcb = rcb at hwritten ⊢
    cases hwritten with
    | enabled integrityDue ha hv howned hreserved =>
      rw [enables, ha, hv, howned, hreserved] at h
      cases h
    | disabled => exact ⟨rfl, fun _ howner => by cases howner⟩
    | reserved lingerSecs ha | unreserved ha =>
      refine ⟨rfl, ?_⟩
      rintro rfl
      rcases ha with ha | ha <;> cases ha
    | none ha => exact ⟨rfl, fun heq => absurd heq ha⟩
  rcases hwrite : b.writeAttribute ied peers assoc a value now with ⟨b', r⟩
  rcases writeAttribute_cases hwrite with
    ⟨rfl, -⟩ | ⟨c, hc, ⟨rfl, -⟩ | ⟨-, d, hrcb, hdeferred, -, -, rfl⟩⟩
  · exact ⟨rfl, rfl⟩
  · exact ⟨(onWrite_ok hc).2.1, (heffect hc).1⟩
  · have howner : (a = .rptEna && d.rcb.owner = some assoc) = false := by
      rw [Bool.and_eq_false_iff, decide_eq_false_iff_not, decide_eq_false_iff_not, hrcb]
      by_cases ha : a = .rptEna
      · exact Or.inr ((heffect hc).2 ha)
      · exact Or.inl ha
    dsimp only
    rw [howner]
    refine ⟨hdeferred.trans (onWrite_ok hc).2.1, ?_⟩
    rw [if_neg (by decide), hrcb]
    exact (heffect hc).1

/-! ### Runs -/

/-- The condition on an action for the indication to be kept, after what the journal has: the block
asks for it, the report that is made announces what is owed, so does the replay an enabling write
sets off, and no purge takes it. -/
def KeepsIndication : ControlBlock × List Event → Action → Prop
  | (b, log), x => b.asksOverflow = true ∧
      match x with
      | .write ied peers assoc a value _ =>
        b.enables assoc a value = true → b.Resumes ied peers assoc
      | .interrogate ied peers wall => b.interrogated = true →
          (b.setInternal .gi (.boolean false)).Announces log ied peers .generalInterrogation wall
      | .purge => b.purgeAsked = true → b.rcb.overflowed = false
      | .integrity ied peers wall now => b.rcb.integrityDue.any (· ≤ now) = true →
          (b.rearm now).Announces log ied peers .integrity wall
      | .change ied peers wall now => b.rcb.due.any (· ≤ now) = true →
          b.Announces log ied peers .change wall
      | _ => True

/-- What a run keeps. -/
structure Telling (log : List Event) (b : ControlBlock) : Prop where
  buffered : b.rcb.buffered = true
  inTune : InTune log b
  told : Justified Told log

/-- An action that loses nothing and sends nothing. -/
theorem telling_silent (h : Telling log b) (hevents : ∀ ev ∈ b.events x, Silent ev)
    (hdeferred : (b.next x).deferred = b.deferred)
    (hoverflowed : (b.next x).rcb.overflowed = b.rcb.overflowed) :
    InTune (log ++ b.events x) (b.next x) ∧ Justified Told (log ++ b.events x) :=
  ⟨h.inTune.congr hdeferred hoverflowed (owed_silent hevents),
    told_append h.told fun ev hev => (hevents ev hev).not_sent⟩

theorem telling_write (h : Telling log b) {now : Instant} (hasks : b.asksOverflow = true)
    (hkeeps : b.enables assoc a value = true → b.Resumes ied peers assoc) :
    InTune (log ++ b.events (.write ied peers assoc a value now))
        (b.next (.write ied peers assoc a value now)) ∧
      Justified Told (log ++ b.events (.write ied peers assoc a value now)) := by
  have hsilent : ∀ ev ∈ (if a = .purgeBuf && boolOf value == some true &&
        (b.writeAttribute ied peers assoc a value now).2.isOk then [Event.purgeRequested assoc]
      else []) ++ releases b (b.writeAttribute ied peers assoc a value now).1, Silent ev := by
    intro ev hev
    rw [List.mem_append] at hev
    rcases hev with hreq | hrel
    · split at hreq
      · rw [List.mem_singleton.mp hreq]
        trivial
      · cases hreq
    · rw [mem_releases hrel]
      trivial
  generalize hfirst : (if a = .purgeBuf && boolOf value == some true &&
        (b.writeAttribute ied peers assoc a value now).2.isOk then [Event.purgeRequested assoc]
      else []) ++ releases b (b.writeAttribute ied peers assoc a value now).1 = first at hsilent
  have hevents : b.events (.write ied peers assoc a value now) =
      first ++ if b.enables assoc a value && b.resumeLost then [.lost] else [] := by
    rw [← hfirst]
    rfl
  have hnot : ∀ ev ∈ b.events (.write ied peers assoc a value now), ∀ d, ev ≠ .sent d := by
    rw [hevents]
    rintro ev hev d rfl
    rw [List.mem_append] at hev
    rcases hev with hev | hev
    · exact hsilent _ hev
    · split at hev
      · cases List.mem_singleton.mp hev
      · cases hev
  refine ⟨?_, told_append h.told hnot⟩
  cases henables : b.enables assoc a value with
  | false =>
    obtain ⟨hdeferred, hoverflowed⟩ := writeAttribute_waiting henables ied peers now
    refine h.inTune.congr hdeferred hoverflowed ?_
    rw [hevents, henables, Bool.false_and, if_neg (by decide), List.append_nil]
    exact owed_silent hsilent
  | true =>
    obtain ⟨hdown, d, hsame, hseq, hdeferred⟩ := deferred_enables henables ied peers now
    refine inTune_enables hasks h.inTune (hkeeps henables) hsame hseq hdown hdeferred ?_
    rw [hevents, henables, Bool.true_and, ← List.append_assoc]
    split
    · rename_i hlost
      exact ⟨fun _ => Or.inl hlost, fun _ => owed_lost _⟩
    · rename_i hfound
      rw [List.append_nil, owed_silent hsilent]
      exact ⟨Or.inr, fun howed => howed.resolve_left hfound⟩

theorem telling_flush (h : Telling log b) : InTune (log ++ b.events .flush) (b.next .flush) ∧
      Justified Told (log ++ b.events .flush) := by
  have hnone : (b.next .flush).outgoing = [] := rfl
  have hevents : b.events .flush = b.outgoing.map .sent := rfl
  have htune := h.inTune
  unfold InTune at htune ⊢
  rw [hnone, hevents]
  cases hout : b.outgoing with
  | nil =>
    rw [hout] at htune
    rw [List.map_nil, List.append_nil]
    exact ⟨htune, h.told⟩
  | cons d rest =>
    rw [hout] at htune
    obtain ⟨hd, hrest, hdown⟩ := htune
    obtain ⟨htold, hpaid⟩ := told_sends h.told hd hrest
    refine ⟨?_, htold⟩
    have hflag : (b.next .flush).rcb.overflowed = false := hdown
    rw [hflag]
    exact ⟨fun hup => absurd hup (by decide), fun howed => absurd howed hpaid⟩

theorem Telling.next (h : Telling log b) (hkeeps : KeepsIndication (b, log) x) :
    Telling (log ++ b.events x) (b.next x) := by
  obtain ⟨hasks, hkeeps⟩ := hkeeps
  have hidle : b.Idle := fun hnot => absurd (h.buffered.symm.trans hnot) (by decide)
  suffices hstep : InTune (log ++ b.events x) (b.next x) ∧ Justified Told (log ++ b.events x) from
    ⟨(idle_next hidle x).2.trans h.buffered, hstep.1, hstep.2⟩
  -- a report is built of a block that differs from this one in what no report looks at
  have hbuild : ∀ {c : ControlBlock} (ied : Ied) (peers : Peers) (trigger : Trigger)
      (wall : EntryTime), c.rcb.buffered = b.rcb.buffered →
      c.rcb.overflowed = b.rcb.overflowed → c.deferred = b.deferred → c.optFlds = b.optFlds →
      c.Announces log ied peers trigger wall →
      InTune (log ++ c.buildEvents ied peers trigger wall) (c.build ied peers trigger wall).1 ∧
        Justified Told (log ++ c.buildEvents ied peers trigger wall) := by
    intro c ied peers trigger wall hbuffered hoverflowed hdeferred hopt hannounces
    apply inTune_build (hbuffered.trans h.buffered) _ (h.inTune.congr hdeferred hoverflowed Iff.rfl)
      h.told hannounces
    rw [asksOverflow, hopt]
    exact hasks
  cases x with
  | write ied peers assoc a value now => exact telling_write h hasks hkeeps
  | writeWhole assoc value =>
    obtain ⟨hrcb, hdeferred⟩ := writeWhole_rcb b value
    refine telling_silent h ?_ hdeferred (congrArg Rcb.overflowed hrcb)
    intro ev hev
    rw [events] at hev
    split at hev
    · rw [List.mem_singleton.mp hev]
      trivial
    · cases hev
  | gather ied dirty now =>
    obtain ⟨hdeferred, -, pending, due, hrcb⟩ := gather_rcb b ied dirty now
    refine telling_silent h ?_ hdeferred (by rw [ControlBlock.next, hrcb])
    intro ev hev
    rw [events] at hev
    split at hev
    · cases hev
    · rw [List.mem_map] at hev
      obtain ⟨⟨m, reason⟩, -, rfl⟩ := hev
      trivial
  | interrogate ied peers wall =>
    rw [ControlBlock.next, emitInterrogation, events]
    dsimp only at hkeeps
    rw [interrogated] at hkeeps ⊢
    split
    · rename_i hasked
      refine hbuild ied peers _ wall ?_ ?_ (setInternal_deferred _ _ _) ?_ (hkeeps hasked)
      · rw [setInternal_rcb]
      · rw [setInternal_rcb]
      · rw [optFlds, optFlds, setInternal_values _ _ _ (by decide)]
    · rw [List.append_nil]
      exact ⟨h.inTune, h.told⟩
  | purge =>
    obtain ⟨hdeferred, buffer, overflowed, hrcb⟩ := purge_rcb b
    refine telling_silent h ?_ hdeferred ?_
    · intro ev hev
      rw [events] at hev
      split at hev
      · rw [List.mem_map] at hev
        obtain ⟨e, -, rfl⟩ := hev
        trivial
      · cases hev
    · dsimp only at hkeeps
      rw [ControlBlock.next, purge]
      rw [purgeAsked] at hkeeps
      split
      · rename_i hasked
        exact (hkeeps hasked).symm
      · rfl
  | integrity ied peers wall now =>
    rw [ControlBlock.next, emitIntegrity, events]
    split
    · rename_i hdue
      exact hbuild ied peers _ wall rfl rfl rfl rfl (hkeeps hdue)
    · rw [List.append_nil]
      exact ⟨h.inTune, h.told⟩
  | change ied peers wall now =>
    rw [ControlBlock.next, emitChange, events]
    split
    · rename_i hdue
      exact hbuild ied peers _ wall rfl rfl rfl rfl (hkeeps hdue)
    · rw [List.append_nil]
      exact ⟨h.inTune, h.told⟩
  | flush => exact telling_flush h
  | closed peers assoc now =>
    obtain ⟨hdeferred, reserved, hrcb, -⟩ := closed_rcb b peers assoc now
    refine telling_silent h ?_ hdeferred ?_
    · intro ev hev
      rw [mem_releases hev]
      trivial
    · rw [ControlBlock.next, hrcb]
      dsimp only
      split <;> rfl
  | expire now =>
    obtain ⟨hdeferred, reserved, hrcb, -⟩ := expire_rcb b now
    refine telling_silent h ?_ hdeferred (by rw [ControlBlock.next, hrcb])
    intro ev hev
    cases hev

theorem telling_engineered {rcb : ReportControl} (hbuffered : rcb.buffered = true)
    (reference : Bytes) (dataSet : Option Bytes) (reservation : Bool) :
    Telling [] (engineered rcb reference dataSet reservation) := by
  refine ⟨hbuffered, ?_, justified_nil Told⟩
  have hnone : (engineered rcb reference dataSet reservation).outgoing = [] := rfl
  have hdown : (engineered rcb reference dataSet reservation).rcb.overflowed = false := rfl
  unfold InTune
  rw [hnone, hdown]
  refine ⟨fun hup => absurd hup (by decide), fun howed => absurd howed ?_⟩
  exact not_since_nil _ _

/-- Along every run of a buffered block that keeps the indication, a report that goes out says that
the buffer overflowed if and only if something was lost since the last one: an entry that was never
sent was evicted, or the one a client resumed after had gone. -/
theorem run_tells (rcb : ReportControl) (reference : Bytes) (dataSet : Option Bytes)
    (reservation : Bool) {xs : List Action} (hbuffered : rcb.buffered = true)
    (hkeeps : Meets (journaled step events) KeepsIndication
      (engineered rcb reference dataSet reservation, []) xs) :
    Justified Told (journal step events (engineered rcb reference dataSet reservation) xs) := by
  obtain ⟨b', hrun⟩ := exists_run (engineered rcb reference dataSet reservation) xs
  have htelling := journaled_run (J := Telling)
    (fun log b x b' h hx hstep => by
      cases hstep
      exact h.next hx)
    (telling_engineered hbuffered reference dataSet reservation) hkeeps hrun
  exact htelling.told

/-- A client enables the block, a member changes, and the client is sent a report. -/
theorem run_tells_once :
    Justified Told (journal step events (engineered numbered [] (some [100]) true)
      [.write onePosition anonymous 1 .rptEna (.boolean true) 0, .gather onePosition moved 0,
        .change onePosition anonymous ⟨0, 0⟩ 0]) := by
  apply run_tells numbered [] (some [100]) true (by decide)
  refine ⟨⟨by decide +kernel, fun _ => ⟨?_, ?_⟩⟩, ?_⟩
  · intro hlost
    exact absurd hlost (by decide +kernel)
  · intro hflag
    exact absurd hflag (by decide +kernel)
  rintro _ ⟨⟩
  refine ⟨⟨by decide +kernel, trivial⟩, ?_⟩
  rintro _ ⟨⟩
  refine ⟨⟨by decide +kernel, fun _ => ⟨?_, ?_, ?_⟩⟩, fun _ _ => trivial⟩
  · intro _ hevicts
    exact absurd hevicts (by decide +kernel)
  · intro _ hevicts
    exact absurd hevicts (by decide +kernel)
  · intro set entry assoc _ _ _
    have hnone : changed.outgoing.length = 0 := by decide +kernel
    split
    · decide +kernel
    · intro d hd
      have hgone : (changed.outgoing : List Delivery) = [] := List.length_eq_zero_iff.mp hnone
      exact absurd (hgone ▸ hd) List.not_mem_nil

/-- A client resumes after an entry the block has never had. There is nothing to replay, and the
report of the next change does not say that anything is missing. -/
theorem resume_hides_loss :
    ¬ ∀ (rcb : ReportControl) (reference : Bytes) (dataSet : Option Bytes) (reservation : Bool)
        (xs : List Action), rcb.buffered = true → Meets step (fun b _ => b.asksOverflow = true)
        (engineered rcb reference dataSet reservation) xs →
      Justified Told (journal step events (engineered rcb reference dataSet reservation) xs) := by
  intro hclaim
  have htold := hclaim numbered [] (some [100]) true
    [.write onePosition anonymous 1 .entryID (.octetString (entryIdBytes 7)) 0,
      .write onePosition anonymous 1 .rptEna (.boolean true) 0, .gather onePosition moved 0,
      .change onePosition anonymous ⟨0, 0⟩ 0] (by decide) (by decide +kernel)
  generalize hlog : journal step events (engineered numbered [] (some [100]) true) _ = log at htold
  have hsays : (delivered log).map (·.report.bufOvfl) = [some false] := by
    rw [← hlog]
    decide +kernel
  obtain ⟨m, reason, e, d, hevents⟩ : ∃ m reason e d,
      log = [.lost, .hit m reason, .made e true, .sent d] := by
    rw [← hlog]
    exact ⟨_, _, _, _, rfl⟩
  have hsilent : ∀ ev ∈ [Event.hit m reason, .made e true], Silent ev := by
    intro ev hev
    rw [List.mem_cons, List.mem_singleton] at hev
    rcases hev with rfl | rfl <;> trivial
  have howed : Owed ([.lost] ++ [Event.hit m reason, .made e true]) :=
    (owed_silent hsilent).mpr (owed_lost [])
  have htells := (htold [.lost, .hit m reason, .made e true] (.sent d)
    (by rw [hevents]; exact List.prefix_refl _) d rfl).mpr howed
  rw [hevents] at hsays
  have hquiet : d.report.bufOvfl = some false := (List.cons.inj hsays).1
  exact absurd (hquiet.symm.trans htells) (by decide)

end ControlBlock

end Iec61850.Server
