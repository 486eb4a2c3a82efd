import Iec61850.Server.RcbRuns
import Iec61850.Server.Segmentation

/-!
# What becomes of a change

A change of a member waits in the gathering window until the window's report is made, and is in
the entry this makes from then on. Step by step, a change that waits goes on waiting or gets into
an entry, and an entry stays in the buffer, is sent, is purged on request or is evicted with the
overflow flag raised; the exceptions are the writes and the ends of associations that throw a
window away, and members that cannot be read when it closes.
-/

namespace Iec61850.Server.ControlBlock

open Theory Mms

/-! ### Reasons -/

/-- A reason that says all another one says. -/
def Covers (r reason : ReasonCode) : Prop :=
  ∀ i, reason.getLsbD i = true → r.getLsbD i = true

theorem covers_refl (r : ReasonCode) : Covers r r := fun _ h => h

theorem mergeReason_eq (x y : ReasonCode) : mergeReason x y = x ||| y := fromBitString_orInto x y

variable {reason : ReasonCode} {reasons : Reasons} {m : Bytes} {d : Delivery} {b : ControlBlock}
  {ied : Ied} {peers : Peers} {trigger : Trigger} {wall : EntryTime} {entry e : Buffered}

theorem covers_merge_left {r : ReasonCode} (h : Covers r reason) (y : ReasonCode) :
    Covers (mergeReason r y) reason := by
  intro i hi
  rw [mergeReason_eq, BitVec.getLsbD_or, h i hi, Bool.true_or]

theorem covers_merge_right (x reason : ReasonCode) : Covers (mergeReason x reason) reason := by
  intro i hi
  rw [mergeReason_eq, BitVec.getLsbD_or, hi, Bool.or_true]

/-- Some reason for the member says all that `reason` says. -/
def Has (reasons : Reasons) (m : Bytes) (reason : ReasonCode) : Prop :=
  ∃ r, (m, r) ∈ reasons ∧ Covers r reason

theorem has_addReason (reasons : Reasons) (m : Bytes) (reason : ReasonCode) :
    Has (addReason reasons (m, reason)) m reason := by
  induction reasons with
  | nil => exact ⟨_, List.mem_singleton.mpr rfl, covers_merge_right 0 reason⟩
  | cons first rest ih =>
    obtain ⟨m', reason'⟩ := first
    rw [addReason]
    split
    · rename_i heq
      subst heq
      exact ⟨_, List.mem_cons_self, covers_merge_right reason' reason⟩
    · obtain ⟨r, hr, hcovers⟩ := ih
      exact ⟨r, List.mem_cons_of_mem _ hr, hcovers⟩

theorem Has.addReason (h : Has reasons m reason) (found : Bytes × ReasonCode) :
    Has (addReason reasons found) m reason := by
  obtain ⟨m₁, reason₁⟩ := found
  obtain ⟨r, hr, hcovers⟩ := h
  induction reasons with
  | nil => cases hr
  | cons first rest ih =>
    obtain ⟨m', reason'⟩ := first
    rw [ControlBlock.addReason]
    rw [List.mem_cons] at hr
    split
    · rcases hr with heq | hr
      · cases heq
        exact ⟨_, List.mem_cons_self, covers_merge_left hcovers reason₁⟩
      · exact ⟨r, List.mem_cons_of_mem _ hr, hcovers⟩
    · rcases hr with heq | hr
      · cases heq
        exact ⟨r, List.mem_cons_self, hcovers⟩
      · obtain ⟨r', hr', hcovers'⟩ := ih hr
        exact ⟨r', List.mem_cons_of_mem _ hr', hcovers'⟩

theorem Has.foldl_addReason (h : Has reasons m reason) (found : Reasons) :
    Has (found.foldl ControlBlock.addReason reasons) m reason := by
  induction found generalizing reasons with
  | nil => exact h
  | cons f found ih => exact ih (h.addReason f)

theorem has_foldl_addReason {found : Reasons} (h : (m, reason) ∈ found) :
    Has (found.foldl addReason reasons) m reason := by
  induction found generalizing reasons with
  | nil => cases h
  | cons f found ih =>
    rw [List.mem_cons] at h
    rcases h with heq | h
    · subst heq
      exact (has_addReason reasons m reason).foldl_addReason found
    · exact ih h

/-! ### Where a change can be -/

/-- The entry has the change, and a value for the member. -/
def Carries (e : Buffered) (m : Bytes) (reason : ReasonCode) : Prop :=
  Has e.reasons m reason ∧ (e.values.lookup m).isSome

/-- The report has the member with the entry's value, and all of it goes out: each of its members
can be encoded as a segment of its own. -/
def Includes (d : Delivery) (m : Bytes) : Prop :=
  Splittable d.report ∧ ∃ e ∈ d.report.entries, d.members[e.index]? = some m ∧
    d.entry.values.lookup m = some e.value

/-- The change waits in an open gathering window. -/
def Waits (b : ControlBlock) (m : Bytes) (reason : ReasonCode) : Prop :=
  Has b.rcb.pending m reason ∧ b.rcb.due.isSome

/-- What has become of an entry: it is in the buffer, or it was sent, purged, or evicted with the
overflow flag raised. -/
def Kept (b : ControlBlock) (after : List Event) (m : Bytes) (e : Buffered) : Prop :=
  e ∈ b.rcb.buffer ∨ (∃ d, .sent d ∈ after ∧ d.entry = e ∧ Includes d m) ∨ .purged e ∈ after ∨
    .evicted e true ∈ after

/-- An entry made since the change has it, and is accounted for. -/
def Settled (b : ControlBlock) (after : List Event) (m : Bytes) (reason : ReasonCode) : Prop :=
  ∃ e, (∃ kept, .made e kept ∈ after) ∧ Carries e m reason ∧ Kept b after m e

/-- Every change the journal has is accounted for by what comes after it. For an unbuffered block
this is so as long as it stays enabled. -/
def Accounted (b : ControlBlock) (log : List Event) : Prop :=
  ∀ before m reason after, log = before ++ .hit m reason :: after →
    (b.rcb.buffered = false → .released ∉ after) → b.Waits m reason ∨ b.Settled after m reason

/-- Nothing is purged that no client asked to purge. -/
def PurgedOnRequest (log : List Event) : Prop :=
  Justified (fun before x => ∀ e, x = .purged e → ∃ assoc, .purgeRequested assoc ∈ before) log

/-- No change is thrown away: when a write enables or disables the block, or its owner goes, nothing
waits (an unbuffered block may be disabled at any time), and when the gathering window closes,
every member in it can be read. The report of an unbuffered block is then also one that can be
sent, over a data set that has these members. -/
def KeepsChanges (b : ControlBlock) : Action → Prop
  | .write _ _ assoc .rptEna value _ =>
    if boolOf value = some true then
      b.ownedByOther assoc = true ∨ b.reservedByOther assoc = true ∨ b.rcb.pending = []
    else b.ownedByOther assoc = true ∨ b.rcb.pending = [] ∨ b.rcb.buffered = false
  | .closed _ assoc _ =>
    b.rcb.owner ≠ some assoc ∨ b.rcb.pending = [] ∨ b.rcb.buffered = false
  | .change ied peers wall now =>
    b.rcb.due.any (· ≤ now) = true → ∀ dataSet, b.dataSet ied = some dataSet →
      (∀ p ∈ b.rcb.pending, (ied.readReference p.1).isSome) ∧
      (b.rcb.buffered = false → (∀ p ∈ b.rcb.pending, p.1 ∈ dataSet.2.map (·.reference)) ∧
        ∀ d ∈ (b.build ied peers .change wall).2, Splittable d.report)
  | _ => True

/-! ### Entries that were made -/

theorem mem_sends {deliveries : List Delivery} :
    Event.sent d ∈ sends deliveries ↔ d ∈ deliveries ∧ d.pdus ≠ [] := by
  unfold sends
  rw [List.mem_map]
  constructor
  · rintro ⟨d', hd', heq⟩
    cases heq
    rw [List.mem_filter, Bool.not_eq_true', List.isEmpty_eq_false_iff] at hd'
    exact hd'
  · rintro ⟨hmem, hne⟩
    refine ⟨d, List.mem_filter.mpr ⟨hmem, ?_⟩, rfl⟩
    rwa [Bool.not_eq_true', List.isEmpty_eq_false_iff]

theorem made_mem_buildEvents (h : b.entryMade ied trigger wall = some entry) :
    .made entry (b.keeps trigger) ∈ b.buildEvents ied peers trigger wall := by
  unfold buildEvents
  rw [h]
  simp

theorem sent_mem_buildEvents (h : b.entryMade ied trigger wall = some entry)
    (hd : d ∈ (b.build ied peers trigger wall).2) (hpdus : d.pdus ≠ []) :
    .sent d ∈ b.buildEvents ied peers trigger wall := by
  unfold buildEvents
  rw [h]
  exact List.mem_append_right _ (mem_sends.mpr ⟨hd, hpdus⟩)

/-- What keeping an entry costs depends on the buffer only, and always raises the flag. -/
theorem evictions_eq (b : ControlBlock) (entry : Buffered) :
    b.evictions entry = if defaultBuffer ≤ b.rcb.buffer.length then
      b.rcb.buffer.head?.toList.map fun old => .evicted old true else [] := by
  unfold evictions record
  split <;> rfl

theorem evictions_congr {b' : ControlBlock} (entry : Buffered) (h : b'.rcb.buffer = b.rcb.buffer) :
    b'.evictions entry = b.evictions entry := by
  rw [evictions_eq, evictions_eq, h]

theorem evictions_number (b : ControlBlock) (entry : Buffered) :
    b.number.evictions entry = b.evictions entry := evictions_congr entry rfl

theorem mem_record (entry : Buffered) (h : e ∈ b.rcb.buffer) :
    e ∈ (b.record entry).rcb.buffer ∨ .evicted e true ∈ b.evictions entry := by
  unfold evictions record
  split
  · cases hbuffer : b.rcb.buffer with
    | nil =>
      rw [hbuffer] at h
      cases h
    | cons old rest =>
      rw [hbuffer, List.mem_cons] at h
      rcases h with rfl | h
      · right
        simp
      · left
        exact List.mem_append_left _ h
  · exact Or.inl (List.mem_append_left _ h)

theorem mem_record_self (b : ControlBlock) (entry : Buffered) :
    entry ∈ (b.record entry).rcb.buffer := by
  unfold record
  split
  · exact List.mem_append_right _ (List.mem_singleton.mpr rfl)
  · exact List.mem_append_right _ (List.mem_singleton.mpr rfl)

/-- An entry in the buffer stays there when another one is filed, unless it is evicted for it. -/
theorem mem_file (trigger : Trigger) (entry : Buffered) (h : e ∈ b.rcb.buffer) :
    e ∈ (b.file trigger entry).rcb.buffer ∨
      b.keeps trigger = true ∧ .evicted e true ∈ b.evictions entry := by
  unfold file
  split
  · rename_i hkeeps
    rcases mem_record (b := b.number) entry h with hmem | hev
    · exact Or.inl hmem
    · rw [evictions_number] at hev
      exact Or.inr ⟨hkeeps, hev⟩
  · exact Or.inl h

theorem mem_file_self (entry : Buffered) (h : b.keeps trigger = true) :
    entry ∈ (b.file trigger entry).rcb.buffer := by
  rw [file, if_pos h]
  exact mem_record_self b.number entry

theorem deliver_buffer {b' : ControlBlock} {dataSet : Bytes × List DataSetMember}
    {ds : List Delivery} (h : b.deliver peers dataSet entry = (b', ds)) :
    b'.rcb.buffer = b.rcb.buffer ∧ b'.rcb.pending = b.rcb.pending ∧ b'.rcb.due = b.rcb.due := by
  rcases deliver_cases h with ⟨-, rfl, -⟩ | ⟨-, -, ⟨seq, hrcb⟩, -⟩
  · exact ⟨rfl, rfl, rfl⟩
  · rw [hrcb]
    exact ⟨rfl, rfl, rfl⟩

theorem takePending_buffer (b : ControlBlock) (trigger : Trigger) :
    (b.takePending trigger).rcb.buffer = b.rcb.buffer := by
  obtain ⟨-, -, pending, due, hrcb⟩ := takePending_rcb b trigger
  rw [hrcb]

theorem takePending_keeps (b : ControlBlock) (trigger : Trigger) :
    (b.takePending trigger).keeps trigger = b.keeps trigger := by
  obtain ⟨-, -, pending, due, hrcb⟩ := takePending_rcb b trigger
  rw [keeps, hrcb]
  rfl

/-- An entry in the buffer stays there when a report is built, unless it is evicted. -/
theorem mem_build (ied : Ied) (peers : Peers) (trigger : Trigger) (wall : EntryTime)
    (h : e ∈ b.rcb.buffer) : e ∈ (b.build ied peers trigger wall).1.rcb.buffer ∨
      .evicted e true ∈ b.buildEvents ied peers trigger wall := by
  rcases build_cases (Prod.eta (b.build ied peers trigger wall)).symm with
    ⟨-, -, hb', -⟩ | ⟨-, -, hb', -⟩ | ⟨dataSet, entry, -, hmade, -, hdeliver⟩
  · rw [hb']
    exact Or.inl h
  · rw [hb', takePending_buffer]
    exact Or.inl h
  · rw [(deliver_buffer hdeliver).1]
    rw [← takePending_buffer b trigger] at h
    rcases mem_file trigger entry h with hmem | ⟨hkeeps, hev⟩
    · exact Or.inl hmem
    · right
      rw [takePending_keeps] at hkeeps
      rw [evictions_congr entry (takePending_buffer b trigger)] at hev
      unfold buildEvents
      rw [hmade]
      simp only [if_pos hkeeps]
      exact List.mem_append_left _ (List.mem_append_left _ hev)

/-- The window is only touched by a change report, and not even by that when there is no data
set. -/
theorem build_pending (b : ControlBlock) (ied : Ied) (peers : Peers) (trigger : Trigger)
    (wall : EntryTime) : (trigger ≠ .change ∨ b.dataSet ied = none) →
      (b.build ied peers trigger wall).1.rcb.pending = b.rcb.pending ∧
        (b.build ied peers trigger wall).1.rcb.due = b.rcb.due := by
  intro hquiet
  have htake : trigger ≠ .change → (b.takePending trigger) = b := fun hne => if_neg hne
  rcases build_cases (Prod.eta (b.build ied peers trigger wall)).symm with
    ⟨-, -, hb', -⟩ | ⟨hsome, -, hb', -⟩ | ⟨dataSet, entry, hsome, -, -, hdeliver⟩
  · rw [hb']
    exact ⟨rfl, rfl⟩
  · rw [hb', htake (hquiet.resolve_right hsome)]
    exact ⟨rfl, rfl⟩
  · have hne : trigger ≠ .change := hquiet.resolve_right (by rw [hsome]; simp)
    rw [htake hne] at hdeliver
    obtain ⟨-, -, buffer, nextEntry, overflowed, hfile⟩ := file_rcb b trigger entry
    rw [(deliver_buffer hdeliver).2.1, (deliver_buffer hdeliver).2.2, hfile]
    exact ⟨rfl, rfl⟩

/-! ### One action -/

/-- An entry stays in the buffer, or is purged or evicted; the end of its owner clears the buffer of
an unbuffered block. -/
theorem mem_buffer_next (x : Action) (h : e ∈ b.rcb.buffer) :
    e ∈ (b.next x).rcb.buffer ∨ .purged e ∈ b.events x ∨ .evicted e true ∈ b.events x ∨
      b.rcb.buffered = false ∧ .released ∈ b.events x := by
  have hemits : b.Emits x → e ∈ (b.next x).rcb.buffer ∨ .purged e ∈ b.events x ∨
      .evicted e true ∈ b.events x ∨ b.rcb.buffered = false ∧ .released ∈ b.events x := by
    rintro (⟨hnext, -⟩ | ⟨c, ied, peers, trigger, wall, hprepared, hnext, hevents⟩)
    · rw [hnext]
      exact Or.inl h
    · obtain ⟨integrityDue, hrcb⟩ := hprepared.rcb
      have hc : e ∈ c.rcb.buffer := by
        rw [hrcb]
        exact h
      rw [hnext, hevents]
      rcases mem_build ied peers trigger wall hc with hmem | hev
      · exact Or.inl hmem
      · exact Or.inr (Or.inr (Or.inl hev))
  cases x with
  | write ied peers assoc a value now =>
    obtain ⟨rcb, heffect, seq, overflowed, hrcb⟩ :=
      writeAttribute_rcb b ied peers assoc a value now
    left
    rw [next, hrcb]
    rcases heffect with rfl | heffect
    · exact h
    · cases heffect <;> exact h
  | writeWhole assoc value =>
    left
    rw [next, (writeWhole_rcb b value).1]
    exact h
  | gather ied dirty now =>
    obtain ⟨-, -, pending, due, hrcb⟩ := gather_rcb b ied dirty now
    left
    rw [next, hrcb]
    exact h
  | interrogate ied peers wall => exact hemits (emits_interrogate b ied peers wall)
  | purge =>
    rw [next, purge, events, purgeAsked]
    split
    · exact Or.inr (Or.inl (List.mem_map_of_mem h))
    · exact Or.inl h
  | integrity ied peers wall now => exact hemits (emits_integrity b ied peers wall now)
  | change ied peers wall now => exact hemits (emits_change b ied peers wall now)
  | flush => exact Or.inl h
  | closed peers assoc now =>
    obtain ⟨-, reserved, hrcb, -⟩ := closed_rcb b peers assoc now
    rw [next, events, releases, hrcb]
    dsimp only
    split
    · rename_i howner
      unfold released
      cases hbuffered : b.rcb.buffered with
      | true => exact Or.inl h
      | false =>
        refine Or.inr (Or.inr (Or.inr ⟨rfl, ?_⟩))
        rw [howner]
        exact List.mem_singleton.mpr rfl
    · exact Or.inl h
  | expire now =>
    obtain ⟨-, reserved, hrcb, -⟩ := expire_rcb b now
    left
    rw [next, hrcb]
    exact h

/-- An unbuffered block that nobody has enabled gathers nothing. -/
def Idle (b : ControlBlock) : Prop :=
  b.rcb.buffered = false → b.rcb.owner = none → b.rcb.pending = []

theorem lookup_valuesOf {v : Value} (h : (m, reason) ∈ reasons)
    (hv : ied.readReference m = some v) : (valuesOf ied reasons).lookup m = some v := by
  unfold valuesOf
  induction reasons with
  | nil => cases h
  | cons first rest ih =>
    obtain ⟨m', reason'⟩ := first
    by_cases heq : m' = m
    · subst heq
      simp only [List.filterMap_cons, hv, Option.map_some, List.lookup_cons_self]
    · have hrest : (m, reason) ∈ rest := by
        rw [List.mem_cons] at h
        rcases h with h | h
        · cases h
          exact absurd rfl heq
        · exact h
      have hne : (m == m') = false := beq_eq_false_iff_ne.mpr (Ne.symm heq)
      cases hread : ied.readReference m' with
      | none =>
        simp only [List.filterMap_cons, hread, Option.map_none]
        exact ih hrest
      | some v' =>
        simp only [List.filterMap_cons, hread, Option.map_some, List.lookup_cons, hne]
        exact ih hrest

theorem carries_entryFor (wall : EntryTime) (h : Has reasons m reason)
    (hread : (ied.readReference m).isSome) : Carries (b.entryFor ied reasons wall) m reason := by
  obtain ⟨r, hr, hcovers⟩ := h
  obtain ⟨v, hv⟩ := Option.isSome_iff_exists.mp hread
  have hlookup := lookup_valuesOf hr hv
  have hsome : ((valuesOf ied reasons).lookup m).isSome := by
    rw [hlookup]
    rfl
  exact ⟨⟨r, List.mem_filter.mpr ⟨hr, hsome⟩, hcovers⟩, hsome⟩

/-- A report has every member of the data set that its entry has. -/
theorem includes_reportOf {dataSet : Bytes × List DataSetMember} (hcarries : Carries entry m reason)
    (hmem : m ∈ dataSet.2.map (·.reference)) (seq : UInt32) (buffered overflowed : Bool) :
    ∃ e ∈ (b.reportOf dataSet entry seq buffered overflowed).entries,
      (dataSet.2.map (·.reference))[e.index]? = some m ∧ entry.values.lookup m = some e.value := by
  obtain ⟨⟨r, hr, -⟩, hvalue⟩ := hcarries
  obtain ⟨reason', hreason'⟩ := Option.isSome_iff_exists.mp
    (List.lookup_isSome_iff.mpr ⟨(m, r), hr, beq_self_eq_true m⟩)
  obtain ⟨v, hv⟩ := Option.isSome_iff_exists.mp hvalue
  obtain ⟨i, hi, hget⟩ := List.getElem_of_mem hmem
  have hzip : (m, i) ∈ (dataSet.2.map (·.reference)).zipIdx := by
    rw [List.mem_zipIdx_iff_getElem?]
    rw [List.getElem?_eq_getElem hi, hget]
  have hentry : ∀ opt, ∃ e, assembleEntry opt entry.reasons entry.values (m, i) = some e ∧
      e.index = i ∧ e.value = v := by
    intro opt
    rw [assembleEntry, hreason', hv]
    exact ⟨_, rfl, rfl, rfl⟩
  obtain ⟨e, he, hindex, hvalue'⟩ := hentry (effectiveFlags b.optFlds buffered)
  refine ⟨e, List.mem_filterMap.mpr ⟨(m, i), hzip, he⟩, ?_, ?_⟩
  · rw [hindex, List.getElem?_eq_getElem hi, hget]
  · rw [hvalue', hv]

theorem pdus_ne_nil (h : Includes d m) : d.pdus ≠ [] := by
  obtain ⟨hsplit, e, he, -⟩ := h
  have hpos : 0 < d.report.entries.length := List.length_pos_of_mem he
  unfold Delivery.pdus segments
  split
  · exact List.cons_ne_nil _ _
  · split
    · rename_i hempty
      rw [List.isEmpty_iff.mp hempty] at hpos
      exact absurd hpos (Nat.lt_irrefl 0)
    · obtain ⟨segs, hs, hall⟩ := @segmentsFrom_split d.report hsplit d.budget
        d.report.entries.length 0 0 (by omega) (Nat.zero_le _)
      intro hnil
      rw [hnil] at hall
      cases hall
      have hend := hs.eq_nil_iff.mp rfl
      omega

/-- The change report of a window: what waited is in an entry that is kept, or sent, or it goes on
waiting because there is no data set to report. -/
theorem waits_change (hidle : b.Idle) (h : b.Waits m reason)
    (hkeeps : ∀ dataSet, b.dataSet ied = some dataSet →
      (∀ p ∈ b.rcb.pending, (ied.readReference p.1).isSome) ∧
      (b.rcb.buffered = false → (∀ p ∈ b.rcb.pending, p.1 ∈ dataSet.2.map (·.reference)) ∧
        ∀ d ∈ (b.build ied peers .change wall).2, Splittable d.report)) :
    (b.build ied peers .change wall).1.Waits m reason ∨
      Settled (b.build ied peers .change wall).1 (b.buildEvents ied peers .change wall) m reason := by
  obtain ⟨hhas, hdue⟩ := h
  obtain ⟨r, hr, hcovers⟩ := hhas
  rcases build_cases (Prod.eta (b.build ied peers .change wall)).symm with
    ⟨-, -, hb', -⟩ | ⟨hsome, hmade, -, -⟩ | ⟨dataSet, entry, hsome, hmade, hentry, hdeliver⟩
  · left
    rw [hb']
    exact ⟨⟨r, hr, hcovers⟩, hdue⟩
  · -- a member that can be read is in the entry, so that an entry is made
    obtain ⟨dataSet, hdataSet⟩ := Option.ne_none_iff_exists'.mp hsome
    have hread := (hkeeps dataSet hdataSet).1 (m, r) hr
    obtain ⟨⟨r', hr', -⟩, -⟩ := carries_entryFor (b := b) wall ⟨r, hr, covers_refl r⟩ hread
    rw [entryMade, hdataSet] at hmade
    simp only [Option.bind_some, reasonsFor, ite_eq_left_iff, reduceCtorEq, imp_false, not_not,
      List.isEmpty_iff] at hmade
    rw [hmade] at hr'
    cases hr'
  · right
    obtain ⟨hread, hunbuffered⟩ := hkeeps dataSet hsome
    have hcarries : Carries entry m reason := by
      rw [hentry]
      exact carries_entryFor wall ⟨r, hr, hcovers⟩ (hread (m, r) hr)
    refine ⟨entry, ⟨_, made_mem_buildEvents hmade⟩, hcarries, ?_⟩
    cases hbuffered : b.rcb.buffered with
    | true =>
      left
      have hkept : (b.takePending .change).keeps .change = true := by
        rw [takePending_keeps, keeps, hbuffered]
        rfl
      rw [(deliver_buffer hdeliver).1]
      exact mem_file_self entry hkept
    | false =>
      right
      left
      obtain ⟨hmembers, hsplit⟩ := hunbuffered hbuffered
      obtain ⟨-, -, buffer, nextEntry, overflowed, hfile⟩ :=
        file_rcb (b.takePending .change) .change entry
      have howner : ((b.takePending .change).file .change entry).rcb.owner = b.rcb.owner := by
        rw [hfile]
        rfl
      rcases deliver_cases hdeliver with ⟨hnone, -, -⟩ | ⟨assoc, -, -, -, -, hds⟩
      · rw [howner] at hnone
        rw [hidle hbuffered hnone] at hr
        cases hr
      · obtain ⟨d, hd, hfrom, hof, seq, bufd, ovfl, hreport⟩ :
            ∃ d ∈ (b.build ied peers .change wall).2, d.entry = entry ∧
              d.members = dataSet.2.map (·.reference) ∧ ∃ seq bufd ovfl, d.report =
                ((b.takePending .change).file .change entry).reportOf dataSet entry seq bufd
                  ovfl := by
          rw [hds]
          exact ⟨_, List.mem_singleton.mpr rfl, rfl, rfl, _, _, _, rfl⟩
        have hincludes : Includes d m := by
          refine ⟨hsplit d hd, ?_⟩
          rw [hreport, hof, hfrom]
          exact includes_reportOf hcarries (hmembers (m, r) hr) seq bufd ovfl
        exact ⟨d, sent_mem_buildEvents hmade hd (pdus_ne_nil hincludes), hfrom, hincludes⟩

/-- A change that waits goes on waiting, or gets into an entry that is kept or sent. -/
theorem waits_next {x : Action} (hidle : b.Idle) (h : b.Waits m reason) (hkeeps : b.KeepsChanges x)
    (henabled : b.rcb.buffered = false → .released ∉ b.events x) :
    (b.next x).Waits m reason ∨ (b.next x).Settled (b.events x) m reason := by
  have hpending : b.rcb.pending ≠ [] := by
    obtain ⟨⟨r, hr, -⟩, -⟩ := h
    exact List.ne_nil_of_mem hr
  cases x with
  | write ied peers assoc a value now =>
    obtain ⟨rcb, heffect, seq, overflowed, hrcb⟩ :=
      writeAttribute_rcb b ied peers assoc a value now
    left
    rw [next, Waits, hrcb]
    rcases heffect with rfl | heffect
    · exact h
    · cases heffect with
      | enabled integrityDue ha hv howned hreserved =>
        subst ha
        rw [KeepsChanges, if_pos hv, howned, hreserved] at hkeeps
        rcases hkeeps with hkeeps | hkeeps | hkeeps
        · cases hkeeps
        · cases hkeeps
        · exact absurd hkeeps hpending
      | disabled ha hv howned =>
        subst ha
        rw [KeepsChanges, if_neg hv, howned] at hkeeps
        rcases hkeeps with hkeeps | hkeeps | hunbuffered
        · cases hkeeps
        · exact absurd hkeeps hpending
        · -- an unbuffered block that gathers is enabled, and is not any more
          refine absurd ?_ (henabled hunbuffered)
          have howner : b.rcb.owner ≠ none := fun hnone =>
            hpending (hidle hunbuffered hnone)
          rw [events]
          dsimp only
          refine List.mem_append_left _ (List.mem_append_right _ ?_)
          rw [releases, hrcb, Option.isSome_iff_ne_none.mpr howner]
          exact List.mem_singleton.mpr rfl
      | reserved lingerSecs ha howned hreserved => exact h
      | unreserved ha => exact h
      | none ha => exact h
  | writeWhole assoc value =>
    left
    rw [next, Waits, (writeWhole_rcb b value).1]
    exact h
  | gather ied dirty now =>
    left
    rw [next, gather]
    split
    · exact h
    · dsimp only
      split
      · exact h
      · exact ⟨h.1.foldl_addReason _, rfl⟩
  | interrogate ied peers wall =>
    left
    rw [next, emitInterrogation, Waits]
    split
    · obtain ⟨hpend, hdue⟩ := build_pending (b.setInternal .gi (.boolean false)) ied peers
        .generalInterrogation wall (Or.inl (by decide))
      rw [hpend, hdue, setInternal_rcb]
      exact h
    · exact h
  | purge =>
    obtain ⟨-, buffer, overflowed, hrcb⟩ := purge_rcb b
    left
    rw [next, Waits, hrcb]
    exact h
  | integrity ied peers wall now =>
    left
    rw [next, emitIntegrity, Waits]
    split
    · obtain ⟨hpend, hdue⟩ := build_pending (b.rearm now) ied peers .integrity wall
        (Or.inl (by decide))
      rw [hpend, hdue]
      exact h
    · exact h
  | change ied peers wall now =>
    rw [next, emitChange, events]
    split
    · rename_i hdue
      exact waits_change hidle h (hkeeps hdue)
    · exact Or.inl h
  | flush => exact Or.inl h
  | closed peers assoc now =>
    obtain ⟨-, reserved, hrcb, -⟩ := closed_rcb b peers assoc now
    left
    rw [next, Waits, hrcb]
    dsimp only
    split
    · rename_i howner
      rcases hkeeps with hkeeps | hkeeps | hunbuffered
      · exact absurd howner hkeeps
      · exact absurd hkeeps hpending
      · refine absurd ?_ (henabled hunbuffered)
        rw [events, releases, hrcb, if_pos howner, howner]
        exact List.mem_singleton.mpr rfl
    · exact h
  | expire now =>
    obtain ⟨-, reserved, hrcb, -⟩ := expire_rcb b now
    left
    rw [next, Waits, hrcb]
    exact h

end Iec61850.Server.ControlBlock
