import Iec61850.Server.RcbChanges

/-!
# No change disappears

The steps of `RcbChanges` put together: along a run that throws no window away, every change the
journal has is still waiting, or in an entry whose whereabouts the journal tells.
-/

namespace Iec61850.Server.ControlBlock

open Theory Mms

/-! ### Which actions write what -/

variable {ev : Event} {b : ControlBlock} {peers : Peers} {x : Action} {m : Bytes}
  {reason : ReasonCode}

theorem mem_sends_sent {deliveries : List Delivery} (h : ev ∈ sends deliveries) :
    ∃ d, ev = .sent d := by
  unfold sends at h
  rw [List.mem_map] at h
  obtain ⟨d, -, rfl⟩ := h
  exact ⟨d, rfl⟩

variable {ied : Ied} {b' : ControlBlock} {after log : List Event} {assoc : AssocId} {now : Instant}

theorem mem_buildEvents {trigger : Trigger} {wall : EntryTime}
    (h : ev ∈ b.buildEvents ied peers trigger wall) :
    (∃ e raised, ev = .evicted e raised) ∨ (∃ e kept, ev = .made e kept) ∨ ∃ d, ev = .sent d := by
  unfold buildEvents at h
  split at h
  · cases h
  · rw [List.mem_append, List.mem_append, List.mem_singleton] at h
    rcases h with (hev | rfl) | hsent
    · left
      split at hev
      · unfold evictions at hev
        split at hev
        · rw [List.mem_map] at hev
          obtain ⟨e, -, rfl⟩ := hev
          exact ⟨e, _, rfl⟩
        · cases hev
      · cases hev
    · exact Or.inr (Or.inl ⟨_, _, rfl⟩)
    · exact Or.inr (Or.inr (mem_sends_sent hsent))

theorem mem_releases (h : ev ∈ releases b b') : ev = .released := by
  unfold releases at h
  split at h
  · exact List.mem_singleton.mp h
  · cases h

/-- What each kind of action can write into the journal. -/
inductive Writes (b : ControlBlock) : Action → Event → Prop
  | requested (ied : Ied) (peers : Peers) (assoc : AssocId) (value : Value) (now : Instant)
      (hv : boolOf value = some true) :
      Writes b (.write ied peers assoc .purgeBuf value now) (.purgeRequested assoc)
  | requestedWhole (assoc : AssocId) (value : Value)
      (h : (b.writeWhole value).1.purgeAsked = true) :
      Writes b (.writeWhole assoc value) (.purgeRequested assoc)
  | lost (ied : Ied) (peers : Peers) (assoc : AssocId) (a : Attribute) (value : Value)
      (now : Instant) (h : b.enables assoc a value = true) (hlost : b.resumeLost = true) :
      Writes b (.write ied peers assoc a value now) .lost
  | released (x : Action) (howner : b.rcb.owner ≠ none) (hnone : (b.next x).rcb.owner = none) :
      Writes b x .released
  | hit (ied : Ied) (dirty : Bytes → Option TrgOps) (now : Instant) (m : Bytes)
      (reason : ReasonCode) (hgather : (b.rcb.owner.isNone && !b.rcb.buffered) = false)
      (h : (m, reason) ∈ b.hits ied dirty) : Writes b (.gather ied dirty now) (.hit m reason)
  | purged (e : Buffered) (h : b.purgeAsked = true) : Writes b .purge (.purged e)
  | built (x : Action) (c : ControlBlock) (ied : Ied) (peers : Peers) (trigger : Trigger)
      (wall : EntryTime) (hprepared : Prepared b c)
      (hnext : b.next x = (c.build ied peers trigger wall).1) (ev : Event)
      (hev : ev ∈ c.buildEvents ied peers trigger wall) : Writes b x ev
  | flushed (d : Delivery) (h : d ∈ b.deferred) : Writes b .flush (.sent d)

theorem writes_of_emits (hx : b.Emits x) (h : ev ∈ b.events x) : Writes b x ev := by
  rcases hx with ⟨-, hevents⟩ | ⟨c, ied, peers, trigger, wall, hprepared, hnext, hevents⟩
  · rw [hevents] at h
    cases h
  · rw [hevents] at h
    exact .built x c ied peers trigger wall hprepared hnext ev h

theorem writes_released (h : ev ∈ releases b (b.next x)) : Writes b x ev := by
  have hev := mem_releases h
  unfold releases at h
  split at h
  · rename_i hreleased
    rw [Bool.and_eq_true, Option.isSome_iff_ne_none, Option.isNone_iff_eq_none] at hreleased
    rw [hev]
    exact .released x hreleased.1 hreleased.2
  · cases h

theorem writes_of_mem (h : ev ∈ b.events x) : Writes b x ev := by
  cases x with
  | write ied peers assoc a value now =>
    rw [events] at h
    dsimp only at h
    rw [List.mem_append, List.mem_append] at h
    rcases h with (hreq | hrel) | hlost
    · split at hreq
      · rename_i hpurge
        rw [Bool.and_eq_true, Bool.and_eq_true, decide_eq_true_eq, beq_iff_eq] at hpurge
        obtain ⟨⟨rfl, hv⟩, -⟩ := hpurge
        rw [List.mem_singleton.mp hreq]
        exact .requested ied peers assoc value now hv
      · cases hreq
    · exact writes_released hrel
    · split at hlost
      · rename_i hboth
        rw [Bool.and_eq_true] at hboth
        rw [List.mem_singleton.mp hlost]
        exact .lost ied peers assoc a value now hboth.1 hboth.2
      · cases hlost
  | writeWhole assoc value =>
    rw [events] at h
    split at h
    · rename_i hasked
      rw [List.mem_singleton.mp h]
      exact .requestedWhole assoc value hasked
    · cases h
  | gather ied dirty now =>
    rw [events] at h
    split at h
    · cases h
    · rename_i hgather
      rw [List.mem_map] at h
      obtain ⟨⟨m, reason⟩, hmem, rfl⟩ := h
      exact .hit ied dirty now m reason (Bool.eq_false_iff.mpr hgather) hmem
  | interrogate ied peers wall => exact writes_of_emits (emits_interrogate b ied peers wall) h
  | purge =>
    rw [events] at h
    split at h
    · rename_i hasked
      rw [List.mem_map] at h
      obtain ⟨e, -, rfl⟩ := h
      exact .purged e hasked
    · cases h
  | integrity ied peers wall now => exact writes_of_emits (emits_integrity b ied peers wall now) h
  | change ied peers wall now => exact writes_of_emits (emits_change b ied peers wall now) h
  | flush =>
    obtain ⟨d, rfl⟩ := mem_sends_sent h
    exact .flushed d (mem_sends.mp h).1
  | closed peers assoc now => exact writes_released h
  | expire now => cases h

/-! ### The kind of a block, and idle blocks -/

theorem idle_build (h : b.Idle) (ied : Ied) (peers : Peers) (trigger : Trigger) (wall : EntryTime) :
    (b.build ied peers trigger wall).1.Idle ∧
      (b.build ied peers trigger wall).1.rcb.buffered = b.rcb.buffered := by
  obtain ⟨pending, due, buffer, nextEntry, overflowed, seq, hrcb, hpending⟩ :=
    build_rcb b ied peers trigger wall
  constructor
  · intro hbuffered howner
    rw [hrcb] at hbuffered howner ⊢
    rcases hpending with rfl | rfl
    · exact h hbuffered howner
    · rfl
  · rw [hrcb]

theorem idle_emits (h : b.Idle) (hx : b.Emits x) :
    (b.next x).Idle ∧ (b.next x).rcb.buffered = b.rcb.buffered := by
  rcases hx with ⟨hnext, -⟩ | ⟨c, ied, peers, trigger, wall, hprepared, hnext, -⟩
  · rw [hnext]
    exact ⟨h, rfl⟩
  · obtain ⟨integrityDue, hrcb⟩ := hprepared.rcb
    have hc : c.Idle := by
      rw [Idle, hrcb]
      exact h
    obtain ⟨hidle, hbuffered⟩ := idle_build hc ied peers trigger wall
    rw [hnext]
    refine ⟨hidle, hbuffered.trans ?_⟩
    rw [hrcb]

theorem idle_next (h : b.Idle) (x : Action) :
    (b.next x).Idle ∧ (b.next x).rcb.buffered = b.rcb.buffered := by
  cases x with
  | write ied peers assoc a value now =>
    obtain ⟨rcb, heffect, seq, overflowed, hrcb⟩ :=
      writeAttribute_rcb b ied peers assoc a value now
    rw [next, Idle, hrcb]
    rcases heffect with rfl | heffect
    · exact ⟨h, rfl⟩
    · cases heffect with
      | enabled integrityDue ha hv howned hreserved => exact ⟨fun _ _ => rfl, rfl⟩
      | disabled ha hv howned => exact ⟨fun _ _ => rfl, rfl⟩
      | reserved lingerSecs ha howned hreserved => exact ⟨h, rfl⟩
      | unreserved ha => exact ⟨h, rfl⟩
      | none ha => exact ⟨h, rfl⟩
  | writeWhole assoc value =>
    rw [next, Idle, (writeWhole_rcb b value).1]
    exact ⟨h, rfl⟩
  | gather ied dirty now =>
    obtain ⟨-, -, pending, due, hrcb⟩ := gather_rcb b ied dirty now
    refine ⟨?_, by rw [next, hrcb]⟩
    intro hbuffered howner
    rw [next, hrcb] at hbuffered howner
    have hnone : (b.rcb.owner.isNone && !b.rcb.buffered) = true := by
      rw [howner, hbuffered]
      rfl
    rw [next, gather, if_pos hnone]
    exact h hbuffered howner
  | interrogate ied peers wall => exact idle_emits h (emits_interrogate b ied peers wall)
  | purge =>
    obtain ⟨-, buffer, overflowed, hrcb⟩ := purge_rcb b
    rw [next, Idle, hrcb]
    exact ⟨h, rfl⟩
  | integrity ied peers wall now => exact idle_emits h (emits_integrity b ied peers wall now)
  | change ied peers wall now => exact idle_emits h (emits_change b ied peers wall now)
  | flush => exact ⟨h, rfl⟩
  | closed peers assoc now =>
    obtain ⟨-, reserved, hrcb, -⟩ := closed_rcb b peers assoc now
    rw [next, Idle, hrcb]
    dsimp only
    split
    · exact ⟨fun _ _ => rfl, rfl⟩
    · exact ⟨h, rfl⟩
  | expire now =>
    obtain ⟨-, reserved, hrcb, -⟩ := expire_rcb b now
    rw [next, Idle, hrcb]
    exact ⟨h, rfl⟩

/-! ### Changes -/

theorem waits_of_hit (h : .hit m reason ∈ b.events x) : (b.next x).Waits m reason := by
  cases writes_of_mem h with
  | hit ied dirty now _ _ hgather hmem =>
    have hne : (b.hits ied dirty).isEmpty = false := by
      rw [List.isEmpty_eq_false_iff]
      exact List.ne_nil_of_mem hmem
    rw [next, gather, hgather]
    simp only [hne, Bool.false_eq_true, if_false]
    exact ⟨has_foldl_addReason hmem, rfl⟩
  | built _ c ied peers trigger wall hprepared hnext _ hev =>
    rcases mem_buildEvents hev with ⟨e, raised, hev⟩ | ⟨e, kept, hev⟩ | ⟨d, hev⟩ <;> cases hev

theorem Kept.next {e : Buffered} (h : b.Kept after m e)
    (henabled : b.rcb.buffered = false → .released ∉ b.events x) :
    (b.next x).Kept (after ++ b.events x) m e := by
  rcases h with hmem | ⟨d, hd, hof, hincludes⟩ | hpurged | hevicted
  · rcases mem_buffer_next x hmem with hmem' | hpurged | hevicted | ⟨hbuffered, hreleased⟩
    · exact Or.inl hmem'
    · exact Or.inr (Or.inr (Or.inl (List.mem_append_right _ hpurged)))
    · exact Or.inr (Or.inr (Or.inr (List.mem_append_right _ hevicted)))
    · exact absurd hreleased (henabled hbuffered)
  · exact Or.inr (Or.inl ⟨d, List.mem_append_left _ hd, hof, hincludes⟩)
  · exact Or.inr (Or.inr (Or.inl (List.mem_append_left _ hpurged)))
  · exact Or.inr (Or.inr (Or.inr (List.mem_append_left _ hevicted)))

theorem Settled.next (h : b.Settled after m reason)
    (henabled : b.rcb.buffered = false → .released ∉ b.events x) :
    (b.next x).Settled (after ++ b.events x) m reason := by
  obtain ⟨e, ⟨kept, hmade⟩, hcarries, hkept⟩ := h
  exact ⟨e, ⟨kept, List.mem_append_left _ hmade⟩, hcarries, hkept.next henabled⟩

theorem Settled.mono {events : List Event} (h : b.Settled events m reason) (after : List Event) :
    b.Settled (after ++ events) m reason := by
  obtain ⟨e, ⟨kept, hmade⟩, hcarries, hkept⟩ := h
  refine ⟨e, ⟨kept, List.mem_append_right _ hmade⟩, hcarries, ?_⟩
  rcases hkept with hmem | ⟨d, hd, hof, hincludes⟩ | hpurged | hevicted
  · exact Or.inl hmem
  · exact Or.inr (Or.inl ⟨d, List.mem_append_right _ hd, hof, hincludes⟩)
  · exact Or.inr (Or.inr (Or.inl (List.mem_append_right _ hpurged)))
  · exact Or.inr (Or.inr (Or.inr (List.mem_append_right _ hevicted)))

theorem Accounted.next (h : b.Accounted log) (hidle : b.Idle) (hkeeps : b.KeepsChanges x) :
    (b.next x).Accounted (log ++ b.events x) := by
  intro before m reason after hlog henabled
  have hkind : (b.next x).rcb.buffered = b.rcb.buffered := (idle_next hidle x).2
  rw [List.append_eq_append_iff] at hlog
  rcases hlog with ⟨fresh, rfl, hevents⟩ | ⟨old, rfl, hold⟩
  · -- the change has just been picked up
    left
    apply waits_of_hit
    rw [hevents]
    exact List.mem_append_right _ List.mem_cons_self
  · cases old with
    | nil =>
      left
      apply waits_of_hit
      rw [List.nil_append] at hold
      rw [← hold]
      exact List.mem_cons_self
    | cons first since =>
      rw [List.cons_append, List.cons.injEq] at hold
      obtain ⟨rfl, rfl⟩ := hold
      have hsince : b.rcb.buffered = false → Event.released ∉ since ++ b.events x := by
        intro hbuffered
        exact henabled (hkind.trans hbuffered)
      have hnow : b.rcb.buffered = false → Event.released ∉ b.events x := by
        intro hbuffered hmem
        exact hsince hbuffered (List.mem_append_right _ hmem)
      rcases h before m reason since rfl
        (fun hbuffered hmem => hsince hbuffered (List.mem_append_left _ hmem)) with
        hwaits | hsettled
      · rcases waits_next hidle hwaits hkeeps hnow with hwaits' | hsettled
        · exact Or.inl hwaits'
        · exact Or.inr (hsettled.mono since)
      · exact Or.inr (hsettled.next hnow)

/-! ### Purging on request -/

theorem purgeAsked_congr (h : b'.values .purgeBuf = b.values .purgeBuf) :
    b'.purgeAsked = b.purgeAsked := by
  rw [purgeAsked, purgeAsked, h]

theorem purgeAsked_write {a : Attribute} {value : Value}
    (h : (b.next (.write ied peers assoc a value now)).purgeAsked = true) : b.purgeAsked = true ∨
      .purgeRequested assoc ∈ b.events (.write ied peers assoc a value now) := by
  rw [next] at h
  rw [events]
  dsimp only
  generalize hb' : (b.writeAttribute ied peers assoc a value now).1 = b' at h ⊢
  generalize hr : (b.writeAttribute ied peers assoc a value now).2 = r
  rcases writeAttribute_cases (Prod.ext hb' hr) with
    ⟨rfl, -⟩ | ⟨c, hc, ⟨rfl, -⟩ | ⟨hok, d, -, -, hother, hown, rfl⟩⟩
  · exact Or.inl h
  · left
    rw [← purgeAsked_congr ((onWrite_ok hc).2.2 .purgeBuf (by decide) (by decide))]
    exact h
  · have hbefore := (onWrite_ok hc).2.2 .purgeBuf (by decide) (by decide)
    have hd : d.purgeAsked = true := by
      rw [← h]
      refine (purgeAsked_congr ?_).symm
      split
      · exact (resume_frame d ied peers).2.2 .purgeBuf rfl
      · rfl
    by_cases ha : a = .purgeBuf
    · subst ha
      rcases hown (by decide) with hsame | hset
      · left
        rw [← purgeAsked_congr (hsame.trans hbefore)]
        exact hd
      · right
        have hv : boolOf value = some true := by
          rw [purgeAsked, hset] at hd
          cases hb : boolOf value with
          | none =>
            rw [Option.bind_some, hb] at hd
            cases hd
          | some on =>
            rw [Option.bind_some, hb] at hd
            exact congrArg some hd
        refine List.mem_append_left _ (List.mem_append_left _ ?_)
        rw [hok, hv]
        exact List.mem_singleton.mpr rfl
    · left
      rw [← purgeAsked_congr ((hother .purgeBuf (Ne.symm ha) (by decide)).trans hbefore)]
      exact hd

/-- A value `PurgeBuf` is reset to does not ask for a purge. -/
theorem purgeAsked_resetAll {resets : List (Attribute × Value)}
    (hresets : ∀ r ∈ resets, r.1 = .purgeBuf → r.2 = .boolean false)
    (h : (b.resetAll resets).purgeAsked = true) : b.purgeAsked = true := by
  rcases resetAll_values b resets .purgeBuf with hsame | ⟨r, hr, ha, hvalue⟩
  · rw [← purgeAsked_congr hsame]
    exact h
  · rw [purgeAsked, hvalue, hresets r hr ha] at h
    cases h

theorem purgeAsked_releaseOwner {b : ControlBlock} {assoc : AssocId}
    (h : (b.releaseOwner assoc).purgeAsked = true) : b.purgeAsked = true := by
  unfold releaseOwner at h
  split at h
  · refine purgeAsked_resetAll (b := { b with rcb := released b.rcb }) ?_ h
    intro r hr ha
    simp only [List.mem_cons, List.not_mem_nil, or_false] at hr
    rcases hr with rfl | rfl | rfl | rfl
    · cases ha
    · cases ha
    · rfl
    · cases ha
  · exact h

theorem purgeAsked_releaseReservation {c : ControlBlock}
    (h : c.releaseReservation.purgeAsked = true) (hvalues : c.values = b.values) :
    b.purgeAsked = true := by
  rw [← purgeAsked_congr (congrFun hvalues .purgeBuf),
    ← purgeAsked_congr (releaseReservation_values c rfl)]
  exact h

theorem purgeAsked_closed (h : (b.closed peers assoc now).purgeAsked = true) :
    b.purgeAsked = true := by
  have hlinger : ((b.releaseOwner assoc).lingerReservation assoc now).purgeAsked = true := by
    unfold closed at h
    dsimp only at h
    split at h
    · rw [← purgeAsked_congr (publishOwner_values _ peers (a := .purgeBuf) (by decide))]
      exact h
    · exact h
  apply @purgeAsked_releaseOwner _ assoc
  unfold lingerReservation at hlinger
  split at hlinger
  · split at hlinger
    · exact hlinger
    · exact hlinger
  · split at hlinger
    · exact purgeAsked_releaseReservation hlinger rfl
    · exact hlinger
  · exact hlinger

theorem purgeAsked_next (h : (b.next x).purgeAsked = true) :
    b.purgeAsked = true ∨ ∃ assoc, .purgeRequested assoc ∈ b.events x := by
  have hemits : b.Emits x → b.purgeAsked = true := by
    rintro (⟨hnext, -⟩ | ⟨c, ied, peers, trigger, wall, hprepared, hnext, -⟩)
    · rw [hnext] at h
      exact h
    · rw [hnext, purgeAsked_congr (build_values c ied peers trigger wall rfl),
        purgeAsked_congr (hprepared.values .purgeBuf (by decide))] at h
      exact h
  cases x with
  | write ied peers assoc a value now =>
    rcases purgeAsked_write h with hold | hnew
    · exact Or.inl hold
    · exact Or.inr ⟨assoc, hnew⟩
  | writeWhole assoc value =>
    right
    refine ⟨assoc, ?_⟩
    rw [next] at h
    rw [events, if_pos h]
    exact List.mem_singleton.mpr rfl
  | gather ied dirty now =>
    left
    rw [next, purgeAsked, (gather_rcb b ied dirty now).2.1] at h
    exact h
  | interrogate ied peers wall => exact Or.inl (hemits (emits_interrogate b ied peers wall))
  | purge =>
    left
    rw [next, purge] at h
    split at h
    · rename_i hasked
      exact hasked
    · exact h
  | integrity ied peers wall now => exact Or.inl (hemits (emits_integrity b ied peers wall now))
  | change ied peers wall now => exact Or.inl (hemits (emits_change b ied peers wall now))
  | flush => exact Or.inl h
  | closed peers assoc now => exact Or.inl (purgeAsked_closed h)
  | expire now =>
    left
    rw [next, expire] at h
    split at h
    · exact purgeAsked_releaseReservation h rfl
    · exact h

/-! ### The run -/

/-- What holds between the journal of a block and its state. -/
structure LedgerHolds (log : List Event) (b : ControlBlock) : Prop where
  accounted : b.Accounted log
  idle : b.Idle
  onRequest : PurgedOnRequest log
  asked : b.purgeAsked = true → ∃ assoc, .purgeRequested assoc ∈ log

theorem LedgerHolds.next (h : LedgerHolds log b) (hkeeps : b.KeepsChanges x) :
    LedgerHolds (log ++ b.events x) (b.next x) := by
  constructor
  · exact h.accounted.next h.idle hkeeps
  · exact (idle_next h.idle x).1
  · refine justified_append h.onRequest ?_
    intro pre ev hpre e hev
    subst hev
    have hmem : Event.purged e ∈ b.events x :=
      hpre.subset (List.mem_append_right _ (List.mem_singleton.mpr rfl))
    cases writes_of_mem hmem with
    | purged _ hasked =>
      obtain ⟨assoc, hrequested⟩ := h.asked hasked
      exact ⟨assoc, List.mem_append_left _ hrequested⟩
    | built _ c ied peers trigger wall hprepared hnext _ hev =>
      rcases mem_buildEvents hev with ⟨e, raised, hev⟩ | ⟨e, kept, hev⟩ | ⟨d, hev⟩ <;> cases hev
  · intro hasked
    rcases purgeAsked_next hasked with hold | ⟨assoc, hnew⟩
    · obtain ⟨assoc, hrequested⟩ := h.asked hold
      exact ⟨assoc, List.mem_append_left _ hrequested⟩
    · exact ⟨assoc, List.mem_append_right _ hnew⟩

theorem purgeAsked_engineered (rcb : ReportControl) (reference : Bytes) (dataSet : Option Bytes)
    (reservation : Bool) : (engineered rcb reference dataSet reservation).purgeAsked = false := by
  have hvalue : (rcbDefaults rcb reference dataSet reservation).lookup .purgeBuf = none ∨
      (rcbDefaults rcb reference dataSet reservation).lookup .purgeBuf = some (.boolean false) := by
    unfold rcbDefaults
    cases rcb.buffered <;> cases reservation
    · exact Or.inl rfl
    · exact Or.inl rfl
    · exact Or.inr rfl
    · exact Or.inr rfl
  rw [purgeAsked, engineered, ControlBlock.new]
  dsimp only
  rcases hvalue with hnone | hfalse
  · rw [hnone]
    rfl
  · rw [hfalse]
    rfl

theorem ledgerHolds_engineered (rcb : ReportControl) (reference : Bytes) (dataSet : Option Bytes)
    (reservation : Bool) : LedgerHolds [] (engineered rcb reference dataSet reservation) := by
  constructor
  · intro before m reason after hlog
    simp at hlog
  · intro _ _
    rfl
  · exact justified_nil _
  · intro hasked
    rw [purgeAsked_engineered] at hasked
    cases hasked

/-- Along every run in which no write and no end of an association throws a gathering window away,
and what is in a window can be read (and, from an unbuffered block, sent) when it closes, every
change is still pending, or in an entry that is in the buffer or was sent, purged on request, or
evicted with the overflow recorded. -/
theorem run_accounted (rcb : ReportControl) (reference : Bytes) (dataSet : Option Bytes)
    (reservation : Bool) {xs : List Action} {b : ControlBlock}
    (hxs : Meets step KeepsChanges (engineered rcb reference dataSet reservation) xs)
    (hrun : run step (engineered rcb reference dataSet reservation) xs = some b) :
    b.Accounted (journal step events (engineered rcb reference dataSet reservation) xs) ∧
      PurgedOnRequest (journal step events (engineered rcb reference dataSet reservation) xs) := by
  have hledger := journal_run (J := LedgerHolds)
    (fun log s x s' hs hkeeps hstep => by
      cases hstep
      exact hs.next hkeeps)
    (ledgerHolds_engineered rcb reference dataSet reservation) hxs hrun
  exact ⟨hledger.accounted, hledger.onRequest⟩

/-- A data set of one member of one leaf. -/
def onePosition : Ied where
  dataSet _ := some [⟨[112], [[112]]⟩]
  readReference _ := some (.boolean true)

/-- A buffered block that reports data changes, at the end of a window of a tenth of a second. -/
def gathering : ReportControl where
  rptId := none
  buffered := true
  confRev := 1
  optFlds := 0
  bufTimeMs := 100
  trgOps := withBit 0 bitDataChange true
  intgPdMs := 0

/-- The member has changed. -/
def moved : Bytes → Option TrgOps := fun _ => some (withBit 0 bitDataChange true)

/-- A change is picked up, and its window closes. -/
theorem run_accounted_window :
    let b := engineered gathering [] (some [100]) true
    let xs := [Action.gather onePosition moved 0,
      Action.change onePosition anonymous ⟨0, 0⟩ (Instant.plusMillis 0 100)]
    ((b.next (.gather onePosition moved 0)).next
      (.change onePosition anonymous ⟨0, 0⟩ (Instant.plusMillis 0 100))).Accounted
        (journal step events b xs) ∧ PurgedOnRequest (journal step events b xs) := by
  refine run_accounted gathering [] (some [100]) true ?_ rfl
  refine ⟨trivial, ?_⟩
  intro b hb
  cases hb
  refine ⟨?_, fun _ _ => trivial⟩
  intro _ dataSet _
  refine ⟨fun _ _ => rfl, ?_⟩
  intro hunbuffered
  cases hunbuffered

/-- A change is picked up, and before its window closes a client enables the block. -/
theorem enabling_loses_change :
    ¬ ∀ (rcb : ReportControl) (reference : Bytes) (dataSet : Option Bytes) (reservation : Bool)
      (xs : List Action) (b : ControlBlock), rcb.buffered = true →
      run step (engineered rcb reference dataSet reservation) xs = some b →
      b.Accounted (journal step events (engineered rcb reference dataSet reservation) xs) := by
  intro hall
  have haccounted := hall gathering [] (some [100]) true
    [.gather onePosition moved 0, .write onePosition anonymous 1 .rptEna (.boolean true) 0] _ rfl rfl
  rcases haccounted [] [112] (withBit 0 bitDataChange true) [] rfl (fun _ hmem => by cases hmem) with
    ⟨⟨r, hr, -⟩, -⟩ | ⟨e, ⟨kept, hmade⟩, -⟩
  · cases hr
  · cases hmade

end Iec61850.Server.ControlBlock
