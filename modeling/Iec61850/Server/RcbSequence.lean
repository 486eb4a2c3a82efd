import Iec61850.Server.RcbReplay
import Iec61850.Server.RcbOverflow

/-!
# The order of the reports of a block

From the moment a block is enabled its reports are numbered, and its entries have numbers of their
own. The reports go out in the order of both as long as none overtakes the replay, which waits
for the response to the enabling write.
-/

namespace Iec61850.Server.ControlBlock

open Theory Mms

/-! ### Numbers of reports -/

/-- How many numbers the reports of a block have. -/
def modulus (buffered : Bool) : Nat := if buffered then 0x10000 else 0x100

/-- The report carries this number, if it carries one. -/
def Bears (d : Delivery) (n : Nat) : Prop :=
  ∀ seq, d.report.seqNum = some seq → seq.toNat = n

/-- The reports are numbered consecutively from a number on. -/
def InSequence (m : Nat) : Nat → List Delivery → Prop
  | _, [] => True
  | k, d :: ds => Bears d (k % m) ∧ InSequence m (k + 1) ds

/-- The entries the reports were made from are in the order of their numbers. -/
def Ascending (ds : List Delivery) : Prop :=
  ds.Pairwise fun d d' => d.entry.entryId < d'.entry.entryId

variable {ds : List Delivery} {b b' : ControlBlock} {dataSet : Bytes × List DataSetMember}
  {peers : Peers} {ied : Ied} {assoc : AssocId} {a : Attribute} {value : Value} {now : Instant}
  {x : Action}

theorem inSequence_append {m k : Nat} {ds' : List Delivery} :
    InSequence m k (ds ++ ds') ↔ InSequence m k ds ∧ InSequence m (k + ds.length) ds' := by
  induction ds generalizing k with
  | nil => simp [InSequence]
  | cons d ds ih =>
    rw [List.cons_append, InSequence, InSequence, ih, List.length_cons, and_assoc]
    rw [show k + 1 + ds.length = k + (ds.length + 1) by omega]

/-- The number after this one. -/
theorem toNat_next {seq : UInt32} {k : Nat} {buffered : Bool}
    (h : seq.toNat = k % modulus buffered) :
    (if buffered then (seq + 1) % 0x10000 else (seq + 1) % 0x100).toNat =
      (k + 1) % modulus buffered := by
  cases buffered with
  | true =>
    simp only [modulus, if_true] at h ⊢
    rw [UInt32.toNat_mod, UInt32.toNat_add]
    simp only [UInt32.reduceToNat]
    omega
  | false =>
    simp only [modulus, Bool.false_eq_true, if_false] at h ⊢
    rw [UInt32.toNat_mod, UInt32.toNat_add]
    simp only [UInt32.reduceToNat]
    omega

theorem bears_reportOf {d : Delivery} {seq : UInt32} {buffered flag : Bool}
    (h : d.report = b.reportOf dataSet d.entry seq buffered flag) : Bears d seq.toNat := by
  intro n hn
  rw [h, reportOf, assemble] at hn
  dsimp only at hn
  split at hn
  · cases hn
    rfl
  · cases hn

/-! ### One report -/

/-- What building a report does to the numbers: nothing, or an entry takes the next one, and the report
of it, if it is handed over, the next one of its own. -/
inductive Built (b b' : ControlBlock) (ds : List Delivery) : Prop
  | nothing (rcb : ∃ pending due, b'.rcb = { b.rcb with pending, due }) (none : ds = [])
  | made (entry : Buffered) (number : entry.entryId = b.rcb.nextEntry)
      (rcb : ∃ pending due buffer overflowed seq, b'.rcb =
        { b.rcb with pending, due, buffer, overflowed, seq, nextEntry := b.rcb.nextEntry + 1 } ∧
        buffer.Sublist (b.rcb.buffer ++ [entry]) ∧
        (b.rcb.buffered = false → buffer = b.rcb.buffer) ∧
        (ds = [] ∧ seq = b.rcb.seq ∨
          ∃ d, ds = [d] ∧ b.rcb.owner = some d.assoc ∧ d.entry = entry ∧ Bears d b.rcb.seq.toNat ∧
            seq = if b.rcb.buffered then (b.rcb.seq + 1) % 0x10000 else (b.rcb.seq + 1) % 0x100))

theorem file_numbers (b : ControlBlock) (trigger : Trigger) (entry : Buffered) :
    ∃ buffer overflowed, (b.file trigger entry).rcb =
        { b.rcb with buffer, overflowed, nextEntry := b.rcb.nextEntry + 1 } ∧
      buffer.Sublist (b.rcb.buffer ++ [entry]) ∧
      (b.rcb.buffered = false → buffer = b.rcb.buffer) := by
  unfold file
  split
  · rename_i hkeeps
    have hbuffered : b.rcb.buffered = true := (Bool.and_eq_true_iff.mp hkeeps).1
    unfold record
    split
    · refine ⟨_, _, rfl, ?_, fun hnot => absurd (hbuffered.symm.trans hnot) (by decide)⟩
      exact (List.tail_sublist _).append (List.Sublist.refl _)
    · refine ⟨_, _, rfl, ?_, fun hnot => absurd (hbuffered.symm.trans hnot) (by decide)⟩
      exact List.Sublist.refl _
  · exact ⟨_, _, rfl, List.sublist_append_left _ _, fun _ => rfl⟩

theorem deliver_numbers {entry : Buffered} (h : b.deliver peers dataSet entry = (b', ds)) :
    ∃ overflowed seq, b'.rcb = { b.rcb with overflowed, seq } ∧ (ds = [] ∧ seq = b.rcb.seq ∨
        ∃ d, ds = [d] ∧ b.rcb.owner = some d.assoc ∧ d.entry = entry ∧ Bears d b.rcb.seq.toNat ∧
          seq = if b.rcb.buffered then (b.rcb.seq + 1) % 0x10000 else (b.rcb.seq + 1) % 0x100) := by
  unfold deliver at h
  split at h
  · cases h
    exact ⟨b.rcb.overflowed, b.rcb.seq, rfl, Or.inl ⟨rfl, rfl⟩⟩
  · rename_i assoc howner
    cases h
    refine ⟨false, _, ?_, Or.inr ⟨_, rfl, howner, rfl, bears_reportOf rfl, rfl⟩⟩
    split
    · rw [publishEntry_rcb]
    · rw [setInternal_rcb]

theorem built_build (b : ControlBlock) (ied : Ied) (peers : Peers) (trigger : Trigger)
    (wall : EntryTime) :
    Built b (b.build ied peers trigger wall).1 (b.build ied peers trigger wall).2 := by
  obtain ⟨-, -, pending, due, htake⟩ := takePending_rcb b trigger
  rcases hbuild : b.build ied peers trigger wall with ⟨b', ds⟩
  rcases build_cases hbuild with
    ⟨-, -, rfl, rfl⟩ | ⟨-, -, rfl, rfl⟩ | ⟨dataSet, entry, -, -, hentry, hdeliver⟩
  · exact .nothing ⟨b'.rcb.pending, b'.rcb.due, rfl⟩ rfl
  · exact .nothing ⟨pending, due, htake⟩ rfl
  · obtain ⟨buffer, overflowed, hfile, hsub, hkind⟩ :=
      file_numbers (b.takePending trigger) trigger entry
    obtain ⟨overflowed', seq, hrcb, hsent⟩ := deliver_numbers hdeliver
    rw [hfile, htake] at hrcb hsent
    rw [htake] at hsub hkind
    refine .made entry (by rw [hentry]; rfl) ⟨pending, due, buffer, overflowed', seq, hrcb, hsub,
      hkind, hsent⟩

theorem build_deferred (b : ControlBlock) (ied : Ied) (peers : Peers) (trigger : Trigger)
    (wall : EntryTime) : (b.build ied peers trigger wall).1.deferred = b.deferred := by
  have htake := (takePending_rcb b trigger).1
  rcases hbuild : b.build ied peers trigger wall with ⟨b', ds⟩
  rcases build_cases hbuild with
    ⟨-, -, rfl, -⟩ | ⟨-, -, rfl, -⟩ | ⟨dataSet, entry, -, -, -, hdeliver⟩
  · rfl
  · exact htake
  · have hfile := (file_rcb (b.takePending trigger) trigger entry).1
    rcases deliver_cases hdeliver with ⟨-, rfl, -⟩ | ⟨assoc, -, -, hdeferred, -, -⟩
    · exact hfile.trans htake
    · exact hdeferred.trans (hfile.trans htake)

theorem delivered_buildEvents (b : ControlBlock) (ied : Ied) (peers : Peers) (trigger : Trigger)
    (wall : EntryTime) : delivered (b.buildEvents ied peers trigger wall) =
      (b.build ied peers trigger wall).2.filter fun d => !d.pdus.isEmpty := by
  unfold buildEvents
  cases hmade : b.entryMade ied trigger wall with
  | none =>
    rcases hbuild : b.build ied peers trigger wall with ⟨b', ds⟩
    rcases build_cases hbuild with ⟨-, -, -, rfl⟩ | ⟨-, -, -, rfl⟩ | ⟨_, entry, -, hsome, -⟩
    · rfl
    · rfl
    · rw [hmade] at hsome
      cases hsome
  | some entry =>
    dsimp only
    rw [delivered_append, delivered_sends]
    have hfiled : delivered (b.fileEvents trigger entry) = [] := by
      refine List.filterMap_eq_nil_iff.mpr ?_
      intro ev hev
      cases ev with
      | sent d => exact absurd rfl (fileEvents_not_sent _ hev d)
      | _ => rfl
    rw [fileEvents] at hfiled
    rw [hfiled, List.nil_append]

/-! ### Actions that build no report -/

/-- The numbers stay, as do the reports that wait; entries may leave the buffer, and the owner. -/
structure Rests (b b' : ControlBlock) : Prop where
  buffered : b'.rcb.buffered = b.rcb.buffered
  nextEntry : b'.rcb.nextEntry = b.rcb.nextEntry
  buffer : b'.rcb.buffer.Sublist b.rcb.buffer
  seq : b'.rcb.seq = b.rcb.seq
  deferred : b'.deferred = b.deferred
  owner : b'.rcb.owner = b.rcb.owner ∨ b'.rcb.owner = none

theorem rests_of_rcb (hdeferred : b'.deferred = b.deferred)
    (hrcb : ∃ pending due reserved overflowed, b'.rcb =
      { b.rcb with pending, due, reserved, overflowed }) : Rests b b' := by
  obtain ⟨pending, due, reserved, overflowed, hrcb⟩ := hrcb
  constructor
  · rw [hrcb]
  · rw [hrcb]
  · rw [hrcb]
  · rw [hrcb]
  · exact hdeferred
  · left
    rw [hrcb]

theorem rests_onWrite {c : ControlBlock} (h : b.enables assoc a value = false)
    (hc : b.onWrite ied assoc a value now = .ok c) :
    Rests b c ∧ (a = .rptEna → c.rcb.owner ≠ some assoc) := by
  obtain ⟨heffect, hdeferred, -⟩ := onWrite_ok hc
  generalize hrcb : c.rcb = rcb at heffect
  cases heffect with
  | enabled integrityDue ha hv howned hreserved =>
    rw [enables, ha, hv, howned, hreserved] at h
    cases h
  | disabled ha hv howned =>
    refine ⟨⟨?_, ?_, ?_, ?_, hdeferred, ?_⟩, fun _ howner => by cases howner⟩
    · rw [hrcb]
    · rw [hrcb]
    · rw [hrcb]
    · rw [hrcb]
    · right
      rw [hrcb]
  | reserved lingerSecs ha howned hreserved =>
    refine ⟨rests_of_rcb hdeferred ⟨_, _, _, _, hrcb⟩, ?_⟩
    rintro rfl
    rcases ha with ha | ha <;> cases ha
  | unreserved ha =>
    refine ⟨rests_of_rcb hdeferred ⟨_, _, _, _, hrcb⟩, ?_⟩
    rintro rfl
    rcases ha with ha | ha <;> cases ha
  | none ha =>
    refine ⟨rests_of_rcb hdeferred ⟨_, _, _, _, hrcb⟩, ?_⟩
    rintro rfl
    exact absurd rfl ha

theorem rests_write (h : b.enables assoc a value = false) :
    Rests b (b.writeAttribute ied peers assoc a value now).1 := by
  rcases writeAttribute_cases (Prod.eta (b.writeAttribute ied peers assoc a value now)).symm with
    ⟨hb', -⟩ | ⟨c, hc, ⟨hb', -⟩ | ⟨-, d, hrcb, hdeferred, -, -, hb'⟩⟩
  · rw [hb']
    exact rests_of_rcb rfl ⟨_, _, _, _, rfl⟩
  · rw [hb']
    exact (rests_onWrite h hc).1
  · obtain ⟨hrests, howner⟩ := rests_onWrite h hc
    have hstays : ¬ (a = .rptEna && d.rcb.owner = some assoc) = true := by
      rw [Bool.and_eq_true, decide_eq_true_eq, decide_eq_true_eq, hrcb]
      exact fun hboth => howner hboth.1 hboth.2
    rw [hb', if_neg hstays]
    constructor
    · rw [hrcb, hrests.buffered]
    · rw [hrcb, hrests.nextEntry]
    · rw [hrcb]
      exact hrests.buffer
    · rw [hrcb, hrests.seq]
    · rw [hdeferred, hrests.deferred]
    · rw [hrcb]
      exact hrests.owner

theorem rests_closed (b : ControlBlock) (peers : Peers) (assoc : AssocId) (now : Instant) :
    Rests b (b.closed peers assoc now) := by
  obtain ⟨hdeferred, reserved, hrcb, -⟩ := closed_rcb b peers assoc now
  by_cases howner : b.rcb.owner = some assoc
  · rw [if_pos howner] at hrcb
    constructor
    · rw [hrcb]
      rfl
    · rw [hrcb]
      rfl
    · rw [hrcb]
      dsimp only [released]
      split
      · exact List.Sublist.refl _
      · exact List.nil_sublist _
    · rw [hrcb]
      rfl
    · exact hdeferred
    · right
      rw [hrcb]
      rfl
  · rw [if_neg howner] at hrcb
    exact rests_of_rcb hdeferred ⟨_, _, _, _, hrcb⟩

/-! ### Actions that build one -/

/-- The reports an action makes. -/
def handed (b : ControlBlock) : Action → List Delivery
  | .interrogate ied peers wall => (b.emitInterrogation ied peers wall).2
  | .integrity ied peers wall now => (b.emitIntegrity ied peers wall now).2
  | .change ied peers wall now => (b.emitChange ied peers wall now).2
  | _ => []

/-- The action does nothing, or builds one report. -/
def Hands (b : ControlBlock) (x : Action) : Prop :=
  (b.next x = b ∧ b.events x = [] ∧ b.handed x = []) ∨
    ∃ c ied peers trigger wall, Prepared b c ∧ b.next x = (c.build ied peers trigger wall).1 ∧
      b.events x = c.buildEvents ied peers trigger wall ∧
      b.handed x = (c.build ied peers trigger wall).2

theorem hands_interrogate (b : ControlBlock) (ied : Ied) (peers : Peers) (wall : EntryTime) :
    b.Hands (.interrogate ied peers wall) := by
  rw [Hands, next, emitInterrogation, events, interrogated, handed, emitInterrogation]
  split
  · right
    refine ⟨b.setInternal .gi (.boolean false), ied, peers, .generalInterrogation, wall, ?_, rfl,
      rfl, rfl⟩
    exact ⟨⟨b.rcb.integrityDue, setInternal_rcb b _ _⟩, setInternal_deferred b _ _,
      setInternal_reference b _ _, fun a ha => setInternal_values b _ _ ha⟩
  · exact Or.inl ⟨rfl, rfl, rfl⟩

theorem hands_integrity (b : ControlBlock) (ied : Ied) (peers : Peers) (wall : EntryTime)
    (now : Instant) : b.Hands (.integrity ied peers wall now) := by
  rw [Hands, next, emitIntegrity, events, handed, emitIntegrity]
  split
  · right
    exact ⟨b.rearm now, ied, peers, .integrity, wall, ⟨⟨_, rfl⟩, rfl, rfl, fun _ _ => rfl⟩, rfl, rfl,
      rfl⟩
  · exact Or.inl ⟨rfl, rfl, rfl⟩

theorem hands_change (b : ControlBlock) (ied : Ied) (peers : Peers) (wall : EntryTime)
    (now : Instant) : b.Hands (.change ied peers wall now) := by
  rw [Hands, next, emitChange, events, handed, emitChange]
  split
  · exact Or.inr ⟨b, ied, peers, .change, wall, prepared_refl b, rfl, rfl, rfl⟩
  · exact Or.inl ⟨rfl, rfl, rfl⟩

/-- The action enables the block. -/
def Enables (b : ControlBlock) : Action → Prop
  | .write _ _ assoc a value _ => b.enables assoc a value = true
  | _ => False

/-- The actions that can build a report. -/
def Action.mayBuild : Action → Bool
  | .interrogate _ _ _ | .integrity _ _ _ _ | .change _ _ _ _ => true
  | _ => false

/-- An action that neither enables the block nor hands over what waits nor can build a report leaves
the numbers alone and sends nothing. -/
theorem rests_next (h : ¬ Enables b x) (hx : x ≠ .flush) (hbuild : x.mayBuild = false) :
    Rests b (b.next x) ∧ delivered (b.events x) = [] := by
  cases x with
  | write ied peers assoc a value now =>
    exact ⟨rests_write (Bool.not_eq_true _ ▸ h), delivered_write b ied peers assoc a value now⟩
  | writeWhole assoc value =>
    obtain ⟨hrcb, hdeferred⟩ := writeWhole_rcb b value
    refine ⟨rests_of_rcb hdeferred ⟨_, _, _, _, hrcb⟩, ?_⟩
    rw [events]
    split
    · rfl
    · rfl
  | gather ied dirty now =>
    obtain ⟨hdeferred, -, pending, due, hrcb⟩ := gather_rcb b ied dirty now
    refine ⟨rests_of_rcb hdeferred ⟨_, _, _, _, hrcb⟩, ?_⟩
    rw [events]
    split
    · rfl
    · refine List.filterMap_eq_nil_iff.mpr ?_
      intro ev hev
      obtain ⟨hit, -, rfl⟩ := List.mem_map.mp hev
      rfl
  | interrogate ied peers wall => cases hbuild
  | purge =>
    constructor
    · rw [next]
      unfold purge
      split
      · have hrcb := setInternal_rcb b .purgeBuf (.boolean false)
        have hdeferred := setInternal_deferred b .purgeBuf (.boolean false)
        generalize b.setInternal .purgeBuf (.boolean false) = c at hrcb hdeferred
        constructor
        · dsimp only
          rw [hrcb]
        · dsimp only
          rw [hrcb]
        · exact List.nil_sublist _
        · dsimp only
          rw [hrcb]
        · exact hdeferred
        · left
          dsimp only
          rw [hrcb]
      · exact rests_of_rcb rfl ⟨_, _, _, _, rfl⟩
    · rw [events]
      split
      · refine List.filterMap_eq_nil_iff.mpr ?_
        intro ev hev
        obtain ⟨e, -, rfl⟩ := List.mem_map.mp hev
        rfl
      · rfl
  | integrity ied peers wall now => cases hbuild
  | change ied peers wall now => cases hbuild
  | flush => exact absurd rfl hx
  | closed peers assoc now =>
    refine ⟨rests_closed b peers assoc now, ?_⟩
    refine List.filterMap_eq_nil_iff.mpr ?_
    intro ev hev
    rw [mem_releases hev]
  | expire now =>
    obtain ⟨hdeferred, reserved, hrcb, -⟩ := expire_rcb b now
    exact ⟨rests_of_rcb hdeferred ⟨_, _, _, _, hrcb⟩, rfl⟩

/-- An action that neither enables the block nor hands over what waits builds a report, or leaves the
numbers alone and sends nothing. -/
theorem hands_or_rests (h : ¬ Enables b x) (hx : x ≠ .flush) :
    b.Hands x ∨ Rests b (b.next x) ∧ delivered (b.events x) = [] := by
  cases x with
  | interrogate ied peers wall => exact Or.inl (hands_interrogate b ied peers wall)
  | integrity ied peers wall now => exact Or.inl (hands_integrity b ied peers wall now)
  | change ied peers wall now => exact Or.inl (hands_change b ied peers wall now)
  | _ => exact Or.inr (rests_next h hx rfl)

/-! ### The numbers of the entries -/

/-- The entries of the buffer are in the order of their numbers, which have been given; a block that is
not buffered has none. -/
structure Numbered (b : ControlBlock) : Prop where
  ordered : b.rcb.buffer.Pairwise fun e e' => e.entryId < e'.entryId
  given : ∀ e ∈ b.rcb.buffer, e.entryId < b.rcb.nextEntry
  kind : b.rcb.buffered = false → b.rcb.buffer = []

/-- The counter of the entries does not come round. -/
def Counts (b : ControlBlock) (_ : Action) : Prop := b.rcb.nextEntry.toNat + 1 < 2 ^ 64

theorem lt_succ {n : UInt64} (h : n.toNat + 1 < 2 ^ 64) : n < n + 1 := by
  rw [UInt64.lt_iff_toNat_lt, UInt64.toNat_add]
  simp only [UInt64.reduceToNat]
  omega

theorem numbered_new (reference : Bytes) (buffered reservation : Bool)
    (values : Attribute → Option Value) : (new reference buffered reservation values).Numbered :=
  ⟨.nil, fun _ h => absurd h List.not_mem_nil, fun _ => rfl⟩

theorem Numbered.rests (h : b.Numbered) (hrests : Rests b b') : b'.Numbered := by
  constructor
  · exact h.ordered.sublist hrests.buffer
  · intro e he
    rw [hrests.nextEntry]
    exact h.given e (hrests.buffer.subset he)
  · intro hkind
    rw [hrests.buffered] at hkind
    have hbuffer := hrests.buffer
    rw [h.kind hkind, List.sublist_nil] at hbuffer
    exact hbuffer

theorem Numbered.built (h : b.Numbered) (hbuilt : Built b b' ds)
    (hcounts : b.rcb.nextEntry.toNat + 1 < 2 ^ 64) : b'.Numbered := by
  cases hbuilt with
  | nothing hrcb _ =>
    obtain ⟨pending, due, hrcb⟩ := hrcb
    constructor
    · rw [hrcb]
      exact h.ordered
    · rw [hrcb]
      exact h.given
    · rw [hrcb]
      exact h.kind
  | made entry hnumber hrcb =>
    obtain ⟨pending, due, buffer, overflowed, seq, hrcb, hsub, hkind, -⟩ := hrcb
    have hlt := lt_succ hcounts
    constructor
    · rw [hrcb]
      refine List.Pairwise.sublist hsub ?_
      rw [List.pairwise_append]
      refine ⟨h.ordered, List.pairwise_singleton _ _, ?_⟩
      intro e he e' he'
      rw [List.mem_singleton.mp he', hnumber]
      exact h.given e he
    · rw [hrcb]
      intro e he
      have hmem := hsub.subset he
      rw [List.mem_append, List.mem_singleton] at hmem
      rcases hmem with hmem | rfl
      · exact UInt64.lt_trans (h.given e hmem) hlt
      · rw [hnumber]
        exact hlt
    · rw [hrcb]
      intro hnot
      exact (hkind hnot).trans (h.kind hnot)

theorem Numbered.of_rcb (h : b.Numbered)
    (hrcb : ∃ integrityDue, b'.rcb = { b.rcb with integrityDue }) : b'.Numbered := by
  obtain ⟨integrityDue, hrcb⟩ := hrcb
  constructor
  · rw [hrcb]
    exact h.ordered
  · rw [hrcb]
    exact h.given
  · rw [hrcb]
    exact h.kind

/-- An enabling write leaves the entries and their numbers. -/
theorem enables_numbers {b : ControlBlock} {ied : Ied} {peers : Peers} {assoc : AssocId}
    {a : Attribute} {value : Value} {now : Instant} (h : b.enables assoc a value = true) :
    (b.next (.write ied peers assoc a value now)).rcb.buffered = b.rcb.buffered ∧
    (b.next (.write ied peers assoc a value now)).rcb.nextEntry = b.rcb.nextEntry ∧
    (b.next (.write ied peers assoc a value now)).rcb.buffer = b.rcb.buffer ∧
    (b.next (.write ied peers assoc a value now)).rcb.owner = some assoc := by
  obtain ⟨d, hwrite, ⟨integrityDue, hrcb⟩, -⟩ := writeAttribute_enables h ied peers now
  obtain ⟨seq, overflowed, hresumed⟩ := (resume_frame d ied peers).1
  rw [next, hwrite, hresumed, hrcb]
  exact ⟨rfl, rfl, rfl, rfl⟩

theorem Numbered.next (h : b.Numbered) (hcounts : Counts b x) : (b.next x).Numbered := by
  by_cases henables : Enables b x
  · cases x with
    | write ied peers assoc a value now =>
      obtain ⟨hbuffered, hnext, hbuffer, -⟩ :=
        @enables_numbers b ied peers assoc a value now henables
      constructor
      · rw [hbuffer]
        exact h.ordered
      · rw [hbuffer, hnext]
        exact h.given
      · rw [hbuffered, hbuffer]
        exact h.kind
    | _ => exact henables.elim
  · by_cases hflush : x = .flush
    · subst hflush
      exact ⟨h.ordered, h.given, h.kind⟩
    · rcases hands_or_rests henables hflush with hhands | ⟨hrests, -⟩
      · rcases hhands with ⟨hnext, -⟩ | ⟨c, ied, peers, trigger, wall, hprepared, hnext, -⟩
        · rw [hnext]
          exact h
        · rw [hnext]
          refine (h.of_rcb hprepared.rcb).built (built_build c ied peers trigger wall) ?_
          obtain ⟨integrityDue, hrcb⟩ := hprepared.rcb
          rw [hrcb]
          exact hcounts
      · exact h.rests hrests

/-! ### The replay -/

/-- The reports of a replay are numbered one after the other. -/
theorem replayAll_numbers (h : b.dataSet ied = some dataSet) (peers : Peers) (assoc : AssocId)
    (overflowed : Bool) (entries : List Buffered) {k : Nat}
    (hseq : b.rcb.seq.toNat = k % modulus true) :
    InSequence (modulus true) k (replayAll ied peers assoc b overflowed entries).2 ∧
    (replayAll ied peers assoc b overflowed entries).1.rcb.seq.toNat =
      (k + (replayAll ied peers assoc b overflowed entries).2.length) % modulus true ∧
    ∀ d ∈ (replayAll ied peers assoc b overflowed entries).2, d.assoc = assoc := by
  induction entries generalizing b overflowed k with
  | nil => exact ⟨trivial, hseq, fun d hd => absurd hd List.not_mem_nil⟩
  | cons entry entries ih =>
    have hsame := sameReports_replay b ied peers assoc entry overflowed
    obtain ⟨d, hreplay, hentry, hassoc, hbears⟩ : ∃ d,
        (b.replay ied peers assoc entry overflowed).2 = [d] ∧ d.entry = entry ∧
        d.assoc = assoc ∧ Bears d b.rcb.seq.toNat := by
      refine ⟨_, by rw [replay, h], rfl, rfl, bears_reportOf rfl⟩
    have hnext : (b.replay ied peers assoc entry overflowed).1.rcb.seq.toNat =
        (k + 1) % modulus true := by
      rw [replay, h]
      dsimp only
      rw [publishEntry_rcb]
      exact @toNat_next b.rcb.seq k true hseq
    obtain ⟨hnumbers, hlast, hmine⟩ := ih ((hsame.dataSet ied).trans h) false hnext
    rw [replayAll]
    dsimp only
    rw [hreplay, List.singleton_append]
    refine ⟨⟨hseq ▸ hbears, hnumbers⟩, ?_, List.forall_mem_cons.mpr ⟨hassoc, hmine⟩⟩
    rw [hlast, List.length_cons]
    congr 1
    omega

/-- What waits once the block has been enabled, and the number of the next report. -/
theorem enables_replays (h : b.enables assoc a value = true) (ied : Ied) (peers : Peers)
    (now : Instant) : ∃ c, c.dataSet ied = b.dataSet ied ∧ c.rcb.seq = 0 ∧
      (b.next (.write ied peers assoc a value now)).rcb.seq =
        (replayAll ied peers assoc c (b.rcb.overflowed || b.resumeLost) b.pendingReplay).1.rcb.seq ∧
      (b.next (.write ied peers assoc a value now)).deferred = b.deferred ++
        (replayAll ied peers assoc c (b.rcb.overflowed || b.resumeLost) b.pendingReplay).2 := by
  obtain ⟨d, hwrite, ⟨integrityDue, hrcb⟩, hdeferred, hsame, hentryID, -⟩ :=
    writeAttribute_enables h ied peers now
  have howner : d.rcb.owner = some assoc := by rw [hrcb]
  have hoverflowed : d.rcb.overflowed = b.rcb.overflowed := by rw [hrcb]
  have hbuffer : d.rcb.buffer = b.rcb.buffer := by rw [hrcb]
  have hpoint : ∀ after, d.resumePoint after = b.resumePoint after := by
    intro after
    unfold resumePoint
    rw [hbuffer]
  have hdrain : d.drainBuffer ied peers ((b.values .entryID).bind entryIdOf) =
      replayAll ied peers assoc { d with rcb := { d.rcb with overflowed := false } }
        (b.rcb.overflowed || b.resumeLost) b.pendingReplay := by
    rw [drainBuffer, howner]
    dsimp only
    rw [hpoint, hoverflowed, hbuffer, resumeLost, pendingReplay]
  refine ⟨{ d with rcb := { d.rcb with overflowed := false } }, ?_, ?_, ?_, ?_⟩
  · exact hsame.dataSet ied
  · dsimp only
    rw [hrcb]
  · rw [next, hwrite]
    dsimp only
    rw [resume, hentryID, hdrain]
  · rw [next, hwrite, (resume_frame d ied peers).2.1, hentryID, hdrain, hdeferred]

/-! ### An enablement -/

/-- What has been handed over since the block was enabled, and what waits, is in order; the next
numbers continue it. -/
structure Sequenced (assoc : AssocId) (ds : List Delivery) (b : ControlBlock) : Prop where
  numbers : InSequence (modulus b.rcb.buffered) 0 (ds ++ b.deferred)
  following : b.rcb.seq.toNat = (ds ++ b.deferred).length % modulus b.rcb.buffered
  ascending : Ascending (ds ++ b.deferred)
  given : ∀ d ∈ ds ++ b.deferred, d.entry.entryId < b.rcb.nextEntry
  whole : ∀ d ∈ b.deferred, d.pdus ≠ []
  mine : ∀ d ∈ ds ++ b.deferred, d.assoc = assoc
  owner : b.rcb.owner = some assoc ∨ b.rcb.owner = none

/-- No report waits when the block is enabled, the data set of what is to be replayed is there, and
each report of the replay can be encoded. -/
structure Begins (b : ControlBlock) (ied : Ied) (peers : Peers) (assoc : AssocId) (value : Value)
    (now : Instant) : Prop where
  enables : b.enables assoc .rptEna value = true
  alone : b.deferred = []
  listed : b.pendingReplay = [] ∨ b.dataSet ied ≠ none
  whole : ∀ d ∈ (b.next (.write ied peers assoc .rptEna value now)).deferred, d.pdus ≠ []

/-- The enablement goes on, the counter of the entries does not come round, and a report is made only
when none waits, and can be encoded. -/
def Straight (b : ControlBlock) (x : Action) : Prop :=
  ¬ Enables b x ∧ Counts b x ∧
    (b.handed x ≠ [] → b.deferred = [] ∧ ∀ d ∈ b.handed x, d.pdus ≠ [])

theorem sequenced_enables (h : b.Numbered) (hbegins : b.Begins ied peers assoc value now) :
    Sequenced assoc [] (b.next (.write ied peers assoc .rptEna value now)) := by
  obtain ⟨hbuffered, hnext, -, howner⟩ :=
    @enables_numbers b ied peers assoc .rptEna value now hbegins.enables
  obtain ⟨c, hds, hzero, hseq, hdeferred⟩ := enables_replays hbegins.enables ied peers now
  rw [hbegins.alone, List.nil_append] at hdeferred
  have hwhole := hbegins.whole
  generalize hb' : b.next (.write ied peers assoc .rptEna value now) = b' at *
  by_cases hnone : b.pendingReplay = []
  · -- nothing is replayed
    rw [hnone] at hseq hdeferred
    have hempty : b'.deferred = [] := hdeferred
    constructor
    · rw [hempty]
      trivial
    · rw [hempty, hseq]
      have hstart : (replayAll ied peers assoc c (b.rcb.overflowed || b.resumeLost) []).1.rcb.seq =
        0 := hzero
      rw [hstart]
      exact (Nat.zero_mod _).symm
    · rw [hempty]
      exact .nil
    · rw [hempty]
      exact fun d hd => absurd hd List.not_mem_nil
    · exact hwhole
    · rw [hempty]
      exact fun d hd => absurd hd List.not_mem_nil
    · exact Or.inl howner
  · -- only a buffered block has something to replay
    have hkind : b'.rcb.buffered = true := by
      rw [hbuffered]
      by_contra hnot
      rw [Bool.not_eq_true] at hnot
      apply hnone
      rw [pendingReplay, h.kind hnot, List.drop_nil]
    obtain ⟨dataSet, hsome⟩ := Option.ne_none_iff_exists'.mp (hbegins.listed.resolve_left hnone)
    have hc := hds.trans hsome
    obtain ⟨hnumbers, hlast, hmine⟩ := replayAll_numbers hc peers assoc
      (b.rcb.overflowed || b.resumeLost) b.pendingReplay (k := 0) (by rw [hzero]; rfl)
    have hentries := replayAll_entries hc peers assoc (b.rcb.overflowed || b.resumeLost)
      b.pendingReplay
    rw [← hdeferred] at hnumbers hlast hmine hentries
    have hsub : (b'.deferred.map (·.entry)).Sublist b.rcb.buffer := by
      rw [hentries]
      exact List.drop_sublist _ _
    constructor
    · rw [hkind]
      exact hnumbers
    · rw [hkind, hseq, hlast, List.nil_append, Nat.zero_add]
    · have hordered := h.ordered.sublist hsub
      rw [List.pairwise_map] at hordered
      exact hordered
    · intro d hd
      rw [hnext]
      exact h.given d.entry (hsub.subset (List.mem_map_of_mem hd))
    · exact hwhole
    · exact hmine
    · exact Or.inl howner

theorem Sequenced.rests (h : Sequenced assoc ds b) (hrests : Rests b b') :
    Sequenced assoc ds b' := by
  constructor
  · rw [hrests.buffered, hrests.deferred]
    exact h.numbers
  · rw [hrests.seq, hrests.deferred, hrests.buffered]
    exact h.following
  · rw [hrests.deferred]
    exact h.ascending
  · rw [hrests.deferred, hrests.nextEntry]
    exact h.given
  · rw [hrests.deferred]
    exact h.whole
  · rw [hrests.deferred]
    exact h.mine
  · rcases hrests.owner with howner | howner
    · rw [howner]
      exact h.owner
    · exact Or.inr howner

theorem Sequenced.flush (h : Sequenced assoc ds b) :
    Sequenced assoc (ds ++ delivered (b.events .flush)) (b.next .flush) := by
  have hall : delivered (b.events .flush) = b.deferred := by
    rw [events, delivered_sends, List.filter_eq_self]
    intro d hd
    rw [Bool.not_eq_true', List.isEmpty_eq_false_iff]
    exact h.whole d hd
  have hempty : (b.next .flush).deferred = [] := rfl
  rw [hall]
  constructor
  · rw [hempty, List.append_nil]
    exact h.numbers
  · rw [hempty, List.append_nil]
    exact h.following
  · rw [hempty, List.append_nil]
    exact h.ascending
  · rw [hempty, List.append_nil]
    exact h.given
  · rw [hempty]
    exact fun d hd => absurd hd List.not_mem_nil
  · rw [hempty, List.append_nil]
    exact h.mine
  · exact h.owner

/-- A report that is made when none waits continues what has been handed over. -/
theorem Sequenced.build {c : ControlBlock} (h : Sequenced assoc ds b) (hprepared : Prepared b c)
    (hcounts : b.rcb.nextEntry.toNat + 1 < 2 ^ 64) (ied : Ied) (peers : Peers) (trigger : Trigger)
    (wall : EntryTime) (hmade : (c.build ied peers trigger wall).2 ≠ [] →
      b.deferred = [] ∧ ∀ d ∈ (c.build ied peers trigger wall).2, d.pdus ≠ []) :
    Sequenced assoc (ds ++ delivered (c.buildEvents ied peers trigger wall))
      (c.build ied peers trigger wall).1 := by
  obtain ⟨integrityDue, hc⟩ := hprepared.rcb
  have hwait : (c.build ied peers trigger wall).1.deferred = b.deferred :=
    (build_deferred c ied peers trigger wall).trans hprepared.deferred
  have hbuilt := built_build c ied peers trigger wall
  rw [delivered_buildEvents]
  generalize (c.build ied peers trigger wall).1 = b' at hwait hbuilt ⊢
  generalize (c.build ied peers trigger wall).2 = made at hmade hbuilt ⊢
  cases hbuilt with
  | nothing hrcb hnone =>
    obtain ⟨pending, due, hrcb⟩ := hrcb
    rw [hc] at hrcb
    subst hnone
    rw [List.filter_nil, List.append_nil]
    constructor
    · rw [hwait, hrcb]
      exact h.numbers
    · rw [hwait, hrcb]
      exact h.following
    · rw [hwait]
      exact h.ascending
    · rw [hwait, hrcb]
      exact h.given
    · rw [hwait]
      exact h.whole
    · rw [hwait]
      exact h.mine
    · rw [hrcb]
      exact h.owner
  | made entry hnumber hrcb =>
    obtain ⟨pending, due, buffer, overflowed, seq, hrcb, -, -, hsent⟩ := hrcb
    rw [hc] at hrcb hnumber hsent
    have hlt := lt_succ hcounts
    rcases hsent with ⟨rfl, rfl⟩ | ⟨d, rfl, howner, hentry, hbears, rfl⟩
    · -- nobody to hand it to
      rw [List.filter_nil, List.append_nil]
      constructor
      · rw [hwait, hrcb]
        exact h.numbers
      · rw [hwait, hrcb]
        exact h.following
      · rw [hwait]
        exact h.ascending
      · rw [hwait, hrcb]
        intro d hd
        exact UInt64.lt_trans (h.given d hd) hlt
      · rw [hwait]
        exact h.whole
      · rw [hwait]
        exact h.mine
      · rw [hrcb]
        exact h.owner
    · -- the next report
      obtain ⟨hempty, hwhole⟩ := hmade (List.cons_ne_nil d [])
      have hgoes : (!d.pdus.isEmpty) = true := by
        rw [Bool.not_eq_true', List.isEmpty_eq_false_iff]
        exact hwhole d (List.mem_singleton_self d)
      obtain ⟨hnumbers, hnext, hascending, hgiven, -, hmine, hholder⟩ := h
      rw [hempty, List.append_nil] at hnumbers hnext hascending hgiven hmine
      rw [hempty] at hwait
      rw [List.filter_cons, if_pos hgoes, List.filter_nil]
      have hid : d.entry.entryId = b.rcb.nextEntry := by rw [hentry, hnumber]
      constructor
      · rw [hwait, List.append_nil, hrcb]
        rw [inSequence_append]
        refine ⟨hnumbers, ?_, trivial⟩
        rw [Nat.zero_add, ← hnext]
        exact hbears
      · rw [hwait, List.append_nil, hrcb, List.length_append, List.length_singleton]
        exact toNat_next hnext
      · rw [hwait, List.append_nil, Ascending, List.pairwise_append]
        refine ⟨hascending, List.pairwise_singleton _ _, ?_⟩
        intro d₁ hd₁ d₂ hd₂
        rw [List.mem_singleton.mp hd₂, hid]
        exact hgiven d₁ hd₁
      · rw [hwait, List.append_nil, hrcb]
        intro d' hd'
        rw [List.mem_append, List.mem_singleton] at hd'
        rcases hd' with hd' | rfl
        · exact UInt64.lt_trans (hgiven d' hd') hlt
        · rw [hid]
          exact hlt
      · rw [hwait]
        exact fun d hd => absurd hd List.not_mem_nil
      · rw [hwait, List.append_nil]
        intro d' hd'
        rw [List.mem_append, List.mem_singleton] at hd'
        rcases hd' with hd' | rfl
        · exact hmine d' hd'
        · rcases hholder with hassoc | hnone
          · rw [hassoc] at howner
            exact (Option.some.inj howner).symm
          · rw [hnone] at howner
            cases howner
      · rw [hrcb]
        exact hholder

theorem Sequenced.next (h : Sequenced assoc ds b) (hx : b.Straight x) :
    Sequenced assoc (ds ++ delivered (b.events x)) (b.next x) := by
  obtain ⟨henables, hcounts, hmade⟩ := hx
  by_cases hflush : x = .flush
  · subst hflush
    exact h.flush
  · rcases hands_or_rests henables hflush with hhands | ⟨hrests, hsilent⟩
    · rcases hhands with ⟨hnext, hevents, -⟩ |
        ⟨c, ied, peers, trigger, wall, hprepared, hnext, hevents, hhanded⟩
      · rw [hnext, hevents]
        rw [show delivered [] = [] from rfl, List.append_nil]
        exact h
      · rw [hnext, hevents]
        rw [hhanded] at hmade
        exact h.build hprepared hcounts ied peers trigger wall hmade
    · rw [hsilent, List.append_nil]
      exact h.rests hrests

theorem buffered_next (h : ¬ Enables b x) : (b.next x).rcb.buffered = b.rcb.buffered := by
  by_cases hflush : x = .flush
  · subst hflush
    rfl
  · rcases hands_or_rests h hflush with hhands | ⟨hrests, -⟩
    · rcases hhands with ⟨hnext, -⟩ | ⟨c, ied, peers, trigger, wall, hprepared, hnext, -⟩
      · rw [hnext]
      · obtain ⟨integrityDue, hc⟩ := hprepared.rcb
        obtain ⟨pending, due, buffer, nextEntry, overflowed, seq, hrcb, -⟩ :=
          build_rcb c ied peers trigger wall
        rw [hnext, hrcb, hc]
    · exact hrests.buffered

/-! ### Runs -/

/-- In every run of a block, from the moment an association enables it: as long as no report is made
while the replay waits, what the association is handed is numbered from zero, each report the next
number, and made from entries whose numbers increase. -/
theorem run_inSequence (reference : Bytes) (buffered reservation : Bool)
    (values : Attribute → Option Value) {xs zs : List Action} {b : ControlBlock} {ied : Ied}
    {peers : Peers} {assoc : AssocId} {value : Value} {now : Instant}
    (hxs : Meets step Counts (new reference buffered reservation values) xs)
    (hrun : run step (new reference buffered reservation values) xs = some b)
    (hbegins : b.Begins ied peers assoc value now)
    (hzs : Meets step Straight (b.next (.write ied peers assoc .rptEna value now)) zs) :
    let ds := delivered (journal step events (b.next (.write ied peers assoc .rptEna value now)) zs)
    InSequence (modulus b.rcb.buffered) 0 ds ∧ Ascending ds ∧ ∀ d ∈ ds, d.assoc = assoc := by
  intro ds
  have hnumbered : b.Numbered :=
    invariant_run (I := Numbered) (C := Counts)
      (fun s y s' hs hy hstep => by
        cases hstep
        exact hs.next hy)
      (numbered_new reference buffered reservation values) hxs hrun
  have hkind := (@enables_numbers b ied peers assoc .rptEna value now hbegins.enables).1
  obtain ⟨b', hb'⟩ := exists_run (b.next (.write ied peers assoc .rptEna value now)) zs
  have hmark : ∀ log s y s', Sequenced assoc (delivered log) s ∧ s.rcb.buffered = b.rcb.buffered →
      Straight s y → step s y = some s' →
      Sequenced assoc (delivered (log ++ events s y)) s' ∧ s'.rcb.buffered = b.rcb.buffered := by
    intro log s y s' hs hy hstep
    cases hstep
    rw [delivered_append]
    exact ⟨hs.1.next hy, (buffered_next hy.1).trans hs.2⟩
  have hstart : Sequenced assoc (delivered []) (b.next (.write ied peers assoc .rptEna value now)) :=
    sequenced_enables hnumbered hbegins
  have hlog := journal_run
    (J := fun log s => Sequenced assoc (delivered log) s ∧ s.rcb.buffered = b.rcb.buffered)
    hmark ⟨hstart, hkind⟩ hzs hb'
  obtain ⟨hsequenced, hbuffered⟩ := hlog
  have hnumbers := hsequenced.numbers
  rw [hbuffered, inSequence_append] at hnumbers
  refine ⟨hnumbers.1, ?_, ?_⟩
  · exact hsequenced.ascending.sublist (List.sublist_append_left _ _)
  · intro d hd
    exact hsequenced.mine d (List.mem_append_left _ hd)

/-! ### A change in the request that enables the block -/

instance (b : ControlBlock) : (x : Action) → Decidable (Enables b x)
  | .write _ _ assoc a value _ => inferInstanceAs (Decidable (b.enables assoc a value = true))
  | .writeWhole _ _ | .gather _ _ _ | .interrogate _ _ _ | .purge | .integrity _ _ _ _
  | .change _ _ _ _ | .flush | .closed _ _ _ | .expire _ => inferInstanceAs (Decidable False)

instance (b : ControlBlock) (x : Action) : Decidable (Counts b x) :=
  inferInstanceAs (Decidable (b.rcb.nextEntry.toNat + 1 < 2 ^ 64))

instance (b : ControlBlock) (x : Action) : Decidable (b.Straight x) :=
  decidable_of_iff (¬ Enables b x ∧ Counts b x ∧ ((b.handed x).isEmpty = false →
    b.deferred.isEmpty = true ∧ ∀ d ∈ b.handed x, d.pdus.isEmpty = false))
    (by simp only [Straight, List.isEmpty_eq_false_iff, List.isEmpty_iff])

/-- A buffered block of data changes whose reports are numbered, without a gathering window. -/
def counting : ReportControl where
  rptId := none
  buffered := true
  confRev := 1
  optFlds := withBit 0 1 true
  bufTimeMs := 0
  trgOps := withBit 0 bitDataChange true
  intgPdMs := 0

/-- A change is recorded while nobody has enabled the block. -/
def missed : List Action :=
  [.gather onePosition moved 0, .change onePosition anonymous ⟨0, 0⟩ 0]

/-- Where the block is then. -/
def waiting : ControlBlock :=
  ((engineered counting [] (some [100]) true).next (.gather onePosition moved 0)).next
    (.change onePosition anonymous ⟨0, 0⟩ 0)

/-- The commit of the request that enables the block changes nothing; a later one does. -/
def changedLater : List Action :=
  commit onePosition anonymous (fun _ => none) ⟨0, 0⟩ 0 ++
    commit onePosition anonymous moved ⟨0, 0⟩ 0

theorem run_inSequence_later :
    let ds := delivered (journal step events
      (waiting.next (.write onePosition anonymous 1 .rptEna (.boolean true) 0)) changedLater)
    InSequence (modulus true) 0 ds ∧ Ascending ds ∧ ∀ d ∈ ds, d.assoc = 1 := by
  have hbegins : waiting.Begins onePosition anonymous 1 (.boolean true) 0 := by
    have halone : waiting.deferred.isEmpty = true := by decide +kernel
    have hlisted : (waiting.dataSet onePosition).isSome = true := by decide +kernel
    have hwhole : ((waiting.next (.write onePosition anonymous 1 .rptEna (.boolean true)
        0)).deferred.all fun d => !d.pdus.isEmpty) = true := by
      decide +kernel
    constructor
    · decide +kernel
    · exact List.isEmpty_iff.mp halone
    · exact Or.inr (Option.isSome_iff_ne_none.mp hlisted)
    · intro d hd
      have hone := List.all_eq_true.mp hwhole d hd
      rw [Bool.not_eq_true', List.isEmpty_eq_false_iff] at hone
      exact hone
  exact @run_inSequence [] true true
    (fun a => (rcbDefaults counting [] (some [100]) true).lookup a) missed changedLater waiting
    onePosition anonymous 1 (.boolean true) 0 (by decide +kernel) rfl hbegins (by decide +kernel)

/-- The change is in the request that enables the block: its report goes out before the replay. -/
theorem replay_overtaken :
    ¬ ∀ (reference : Bytes) (buffered reservation : Bool) (values : Attribute → Option Value)
        (xs zs : List Action) (b : ControlBlock) (ied : Ied) (peers : Peers) (assoc : AssocId)
        (value : Value) (now : Instant),
      run step (new reference buffered reservation values) xs = some b →
      b.enables assoc .rptEna value = true →
      Meets step (fun b x => ¬ Enables b x)
        (b.next (.write ied peers assoc .rptEna value now)) zs →
      let ds := delivered (journal step events
        (b.next (.write ied peers assoc .rptEna value now)) zs)
      InSequence (modulus b.rcb.buffered) 0 ds ∧ Ascending ds := by
  intro hclaim
  have hascending := (hclaim [] true true
    (fun a => (rcbDefaults counting [] (some [100]) true).lookup a) missed
    (commit onePosition anonymous moved ⟨0, 0⟩ 0) waiting onePosition anonymous 1 (.boolean true) 0
    rfl (by decide +kernel) (by decide +kernel)).2
  have hids : (delivered (journal step events
      (waiting.next (.write onePosition anonymous 1 .rptEna (.boolean true) 0))
      (commit onePosition anonymous moved ⟨0, 0⟩ 0))).map (·.entry.entryId) = [2, 1] := by
    decide +kernel
  have hpairs := List.pairwise_map.mpr hascending
  rw [hids] at hpairs
  exact absurd hpairs (by decide)

end Iec61850.Server.ControlBlock
