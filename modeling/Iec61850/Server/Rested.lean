import Iec61850.Server.RcbNaming
import Iec61850.Server.ServerLoop
import Iec61850.Server.SettingEditor
import Mathlib.Data.List.TakeWhile

/-!
# A server at rest

What the server has left to do by itself between two events of its loop. No report is asked for, no
buffer is to be purged, and nothing waits to be sent: what is left are its deadlines. A commit leaves
the server at rest, and so does every other event that finds it at rest.
-/

namespace Iec61850.Server

open Theory Mms

/-! ### A report control block -/

namespace ControlBlock

/-- Nobody has asked the block for a report or for a purge of its buffer. -/
structure AtRest (b : ControlBlock) : Prop where
  interrogated : b.interrogated = false
  purged : b.purgeAsked = false

/-- Only a block that has a buffer is asked to purge it. -/
def Purgeable (b : ControlBlock) : Prop := b.purgeAsked = true → b.rcb.buffered = true

theorem typeOf_gi (b : ControlBlock) : b.typeOf .gi = some .boolean := by
  unfold typeOf
  cases b.rcb.buffered <;> cases b.reservation <;> rfl

theorem typeOf_purgeBuf (b : ControlBlock) :
    b.typeOf .purgeBuf = if b.rcb.buffered then some .boolean else none := by
  unfold typeOf
  cases b.rcb.buffered <;> cases b.reservation <;> rfl

variable {b : ControlBlock}

theorem AtRest.purgeable (h : b.AtRest) : b.Purgeable := by
  intro hasked
  rw [h.purged] at hasked
  cases hasked

theorem next_buffered (b : ControlBlock) (x : Action) :
    (b.next x).rcb.buffered = b.rcb.buffered := by
  have hemits : b.Emits x → (b.next x).rcb.buffered = b.rcb.buffered := by
    rintro (⟨hnext, -⟩ | ⟨c, ied, peers, trigger, wall, hprepared, hnext, -⟩)
    · rw [hnext]
    · obtain ⟨integrityDue, hc⟩ := hprepared.rcb
      obtain ⟨pending, due, buffer, nextEntry, overflowed, seq, hrcb, -⟩ :=
        build_rcb c ied peers trigger wall
      rw [hnext, hrcb, hc]
  cases x with
  | write ied peers assoc a value now =>
    obtain ⟨rcb, heffect, seq, overflowed, hrcb⟩ :=
      writeAttribute_rcb b ied peers assoc a value now
    rw [next, hrcb]
    rcases heffect with rfl | heffect
    · rfl
    · cases heffect <;> rfl
  | writeWhole assoc value => rw [next, (writeWhole_rcb b value).1]
  | gather ied dirty now =>
    obtain ⟨-, -, pending, due, hrcb⟩ := gather_rcb b ied dirty now
    rw [next, hrcb]
  | interrogate ied peers wall => exact hemits (emits_interrogate b ied peers wall)
  | purge =>
    obtain ⟨-, buffer, overflowed, hrcb⟩ := purge_rcb b
    rw [next, hrcb]
  | integrity ied peers wall now => exact hemits (emits_integrity b ied peers wall now)
  | change ied peers wall now => exact hemits (emits_change b ied peers wall now)
  | flush => rfl
  | closed peers assoc now =>
    obtain ⟨-, reserved, hrcb, -⟩ := closed_rcb b peers assoc now
    rw [next, hrcb]
    split <;> rfl
  | expire now =>
    obtain ⟨-, reserved, hrcb, -⟩ := expire_rcb b now
    rw [next, hrcb]

/-- A client cannot ask a block without a buffer for a purge. -/
theorem writeAttribute_purgeBuf (hbuffered : b.rcb.buffered = false) (ied : Ied) (peers : Peers)
    (assoc : AssocId) (value : Value) (now : Instant) :
    (b.writeAttribute ied peers assoc .purgeBuf value now).1 = b := by
  have htype : b.typeOf .purgeBuf = none := by
    rw [typeOf_purgeBuf, hbuffered]
    rfl
  have hleaf : b.writeLeaf .purgeBuf value = (b, .error dataAccessNonExistent) := by
    rw [writeLeaf, htype]
  have honwrite : b.onWrite ied assoc .purgeBuf value now =
      if b.rcb.owner ≠ some assoc then .error dataAccessDenied else .ok b := rfl
  unfold writeAttribute
  rw [if_neg (by decide), honwrite]
  by_cases howner : b.rcb.owner ≠ some assoc
  · rw [if_pos howner]
  · rw [if_neg howner]
    dsimp only
    rw [hleaf]

theorem takes_of_mem_wholeComponents {value : Value} {leaf : Attribute × Value}
    (h : leaf ∈ b.wholeComponents value) : b.takes leaf = true := by
  unfold wholeComponents at h
  split at h
  · dsimp only at h
    split at h
    · cases h
    · exact List.mem_takeWhile_imp h
  · cases h

theorem Purgeable.next (h : b.Purgeable) (x : Action) : (b.next x).Purgeable := by
  intro hasked
  rw [next_buffered]
  by_contra hbuffered
  rw [Bool.not_eq_true] at hbuffered
  have hbefore : b.purgeAsked ≠ true := by
    intro hb
    rw [h hb] at hbuffered
    cases hbuffered
  rcases purgeAsked_next hasked with hold | ⟨assoc, hnew⟩
  · exact hbefore hold
  · cases writes_of_mem hnew with
    | requested ied peers _ value now _ =>
      rw [ControlBlock.next, writeAttribute_purgeBuf hbuffered] at hasked
      exact hbefore hasked
    | requestedWhole _ value _ =>
      rcases writeWhole_value b value .purgeBuf with hkept | ⟨v, hmem, -⟩
      · rw [ControlBlock.next, purgeAsked_congr hkept] at hasked
        exact hbefore hasked
      · have htakes := takes_of_mem_wholeComponents hmem
        rw [takes, typeOf_purgeBuf, hbuffered] at htakes
        cases htakes
    | built _ c ied peers trigger wall hprepared hnext _ hev =>
      rcases mem_buildEvents hev with ⟨e, raised, hev⟩ | ⟨e, kept, hev⟩ | ⟨d, hev⟩ <;> cases hev

theorem Purgeable.foldl (h : b.Purgeable) (xs : List Action) :
    (xs.foldl ControlBlock.next b).Purgeable := by
  induction xs generalizing b with
  | nil => exact h
  | cons x xs ih => exact ih (h.next x)

/-! ### What `emit_due` leaves to do -/

theorem interrogated_congr {b' : ControlBlock} (howner : b'.rcb.owner = b.rcb.owner)
    (hgi : b'.values .gi = b.values .gi) : b'.interrogated = b.interrogated := by
  rw [interrogated, interrogated, howner, hgi]

theorem AtRest.build (h : b.AtRest) (ied : Ied) (peers : Peers) (trigger : Trigger)
    (wall : EntryTime) : (b.build ied peers trigger wall).1.AtRest := by
  constructor
  · rw [interrogated_congr (build_sameHolder b ied peers trigger wall).1
      (build_values b ied peers trigger wall rfl)]
    exact h.interrogated
  · rw [purgeAsked_congr (build_values b ied peers trigger wall rfl)]
    exact h.purged

theorem AtRest.emitIntegrity (h : b.AtRest) (ied : Ied) (peers : Peers) (wall : EntryTime)
    (now : Instant) : (b.emitIntegrity ied peers wall now).1.AtRest := by
  unfold ControlBlock.emitIntegrity
  split
  · have hrearmed : (b.rearm now).AtRest := ⟨h.interrogated, h.purged⟩
    exact hrearmed.build ied peers .integrity wall
  · exact h

theorem AtRest.emitChange (h : b.AtRest) (ied : Ied) (peers : Peers) (wall : EntryTime)
    (now : Instant) : (b.emitChange ied peers wall now).1.AtRest := by
  unfold ControlBlock.emitChange
  split
  · exact h.build ied peers .change wall
  · exact h

theorem emitInterrogation_interrogated (b : ControlBlock) (ied : Ied) (peers : Peers)
    (wall : EntryTime) : (b.emitInterrogation ied peers wall).1.interrogated = false := by
  unfold emitInterrogation
  split
  · have hgi : (b.setInternal .gi (.boolean false)).values .gi = some (.boolean false) := by
      rw [setInternal, writeLeaf_of_takes (by rw [takes, typeOf_gi]; rfl)]
      dsimp only
      rw [Function.update_self]
    rw [interrogated, build_values _ _ _ _ _ rfl, hgi]
    exact Bool.and_false _
  · rename_i hasked
    rw [Bool.not_eq_true] at hasked
    exact hasked

theorem purge_purgeAsked (h : b.Purgeable) : b.purge.purgeAsked = false := by
  unfold purge
  split
  · rename_i hasked
    have hpurgeBuf :
        (b.setInternal .purgeBuf (.boolean false)).values .purgeBuf = some (.boolean false) := by
      rw [setInternal, writeLeaf_of_takes (by rw [takes, typeOf_purgeBuf, h hasked]; rfl)]
      dsimp only
      rw [Function.update_self]
    rw [purgeAsked, hpurgeBuf]
    rfl
  · rename_i hasked
    rw [Bool.not_eq_true] at hasked
    exact hasked

theorem purge_interrogated (b : ControlBlock) : b.purge.interrogated = b.interrogated := by
  unfold purge
  split
  · apply interrogated_congr
    · dsimp only
      rw [setInternal_rcb]
    · exact setInternal_values b .purgeBuf (.boolean false) (by decide)
  · rfl

theorem emitDue_atRest (h : b.Purgeable) (ied : Ied) (peers : Peers) (wall : EntryTime)
    (now : Instant) : (b.emitDue ied peers wall now).1.AtRest := by
  have hasked : (b.next (.interrogate ied peers wall)).Purgeable := h.next _
  have hpurged : (b.next (.interrogate ied peers wall)).purge.AtRest := by
    constructor
    · rw [purge_interrogated]
      exact emitInterrogation_interrogated b ied peers wall
    · exact purge_purgeAsked hasked
  exact (hpurged.emitIntegrity ied peers wall now).emitChange ied peers wall now

/-! ### The end of an association -/

theorem AtRest.closed (h : b.AtRest) (peers : Peers) (assoc : AssocId) (now : Instant) :
    (b.closed peers assoc now).AtRest := by
  constructor
  · obtain ⟨-, reserved, hrcb, -⟩ := closed_rcb b peers assoc now
    by_cases howner : b.rcb.owner = some assoc
    · rw [ControlBlock.interrogated, hrcb, if_pos howner]
      rfl
    · rw [interrogated_congr _ (closed_values howner rfl peers now)]
      · exact h.interrogated
      · rw [hrcb, if_neg howner]
  · by_contra hasked
    rw [Bool.not_eq_false] at hasked
    have hbefore := purgeAsked_closed hasked
    rw [h.purged] at hbefore
    cases hbefore

end ControlBlock

/-! ### The setting groups -/

namespace Groups

/-- A deadline is one of somebody's reservation. -/
def Bounded (g : Groups) : Prop := g.editor = none → g.editorUntil = none

variable {g : Groups}

theorem Bounded.expire (h : g.Bounded) (now : Instant) : (g.expire now).Bounded := by
  unfold Groups.expire
  split
  · exact fun _ => rfl
  · exact h

theorem Bounded.onBlockWrite (h : g.Bounded) (assoc : AssocId) (ied : LeafStore Key)
    (a : SgAttribute) (value : Value) (now : Now) :
    (g.onBlockWrite assoc ied a value now).1.Bounded := by
  unfold Groups.onBlockWrite
  dsimp only
  have hexpired := h.expire now.mono
  generalize g.expire now.mono = g at hexpired ⊢
  cases a with
  | numOfSG => exact hexpired
  | lActTm => exact hexpired
  | actSG =>
    dsimp only
    unfold writeActSG
    split
    · exact hexpired
    · split
      · exact hexpired
      · exact hexpired
  | editSG =>
    dsimp only
    unfold writeEditSG
    split
    · exact hexpired
    · split
      · split
        · exact hexpired
        · exact fun _ => rfl
      · split
        · exact hexpired
        · split
          · exact hexpired
          · intro hnone
            cases hnone
  | cnfEdit =>
    dsimp only
    unfold writeCnfEdit
    split
    · exact hexpired
    · split
      · exact hexpired
      · dsimp only
        split
        · exact hexpired
        · split
          · exact hexpired
          · exact hexpired
  | resvTms =>
    dsimp only
    unfold writeResvTms
    split
    · exact hexpired
    · split
      · exact hexpired
      · split
        · rename_i heditor
          intro hnone
          rw [heditor] at hnone
          cases hnone
        · exact hexpired

theorem Bounded.onAssociationClosed (h : g.Bounded) (assoc : AssocId) :
    (g.onAssociationClosed assoc).Bounded := by
  unfold Groups.onAssociationClosed
  split
  · exact fun _ => rfl
  · exact h

theorem Bounded.onTimeout (h : g.Bounded) (ied : LeafStore Key) (now : Instant) :
    (g.onTimeout ied now).1.Bounded := by
  unfold Groups.onTimeout
  split
  · exact h.expire now
  · exact h.expire now

end Groups

theorem Device.next_bounded {d : Device} (h : d.groups.Bounded) (x : Device.Action) :
    (d.next x).groups.Bounded := by
  cases x with
  | write assoc key value now =>
    rw [next]
    cases key with
    | block a =>
      have hserved := h.onBlockWrite assoc d.ied a value now
      rw [writeReference, writeBlock]
      split
      · split
        · rename_i hwrite
          rw [hwrite] at hserved
          exact hserved
        · rename_i hwrite
          rw [hwrite] at hserved
          split
          · exact hserved
          · exact hserved
      · exact h
    | se r =>
      rw [writeReference, writeEdit]
      split
      · exact h
      · split
        · exact h
        · exact h
    | sg r =>
      rw [writeReference]
      split
      · exact h
      · exact h
  | writeWhole assoc value =>
    rw [next]
    unfold writeWhole
    split
    · split
      · exact h
      · exact h
    · exact h
  | elsewhere now => exact h.expire now
  | closed assoc => exact h.onAssociationClosed assoc
  | timeout now => exact h.onTimeout d.ied now

/-! ### The server -/

theorem exists_of_mem_modify {α : Type*} {l : List α} {i : Nat} {f : α → α} {x : α}
    (h : x ∈ l.modify i f) : ∃ y ∈ l, x = y ∨ x = f y := by
  obtain ⟨j, hj⟩ := List.mem_iff_getElem?.mp h
  rw [List.getElem?_modify] at hj
  obtain ⟨y, hy, hsame⟩ := Option.map_eq_some_iff.mp hj
  refine ⟨y, List.mem_of_getElem? hy, ?_⟩
  split at hsame
  · exact Or.inr hsame.symm
  · exact Or.inl hsame.symm

namespace Acsi

variable {a : Acsi}

/-- Nothing waits to be sent or to be asked for, and no deadline is nobody's. -/
structure Rested (a : Acsi) : Prop where
  pending : a.control.controls.pending = []
  devices : ∀ d ∈ a.devices, d.groups.Bounded
  reports : ∀ r ∈ a.reports, r.block.AtRest

/-- A server as it starts: with the blocks and the devices that its file engineers, and with no
command waiting to be answered. -/
structure Started (a : Acsi) : Prop where
  pending : a.control.controls.pending = []
  devices : ∀ d ∈ a.devices, ∃ (t : TextForms) (ld : LogicalDevice) (sc : SettingControl)
    (s : Seeded ld sc), d = Device.start t s
  reports : ∀ r ∈ a.reports, ∃ rcb reference dataSet reservation,
    r.block = ControlBlock.engineered rcb reference dataSet reservation

theorem Started.rested (h : a.Started) : a.Rested := by
  refine ⟨h.pending, ?_, ?_⟩
  · intro d hd
    obtain ⟨t, ld, sc, s, rfl⟩ := h.devices d hd
    exact fun _ => rfl
  · intro r hr
    obtain ⟨rcb, reference, dataSet, reservation, hblock⟩ := h.reports r hr
    rw [hblock]
    exact ⟨rfl, ControlBlock.purgeAsked_engineered rcb reference dataSet reservation⟩

/-- What a server that is not at rest keeps. -/
structure Orderly (a : Acsi) : Prop where
  devices : ∀ d ∈ a.devices, d.groups.Bounded
  reports : ∀ r ∈ a.reports, r.block.Purgeable

theorem Rested.orderly (h : a.Rested) : a.Orderly :=
  ⟨h.devices, fun r hr => (h.reports r hr).purgeable⟩

theorem Orderly.mapReports (h : a.Orderly) {f : ReportBlock → ReportBlock}
    (hf : ∀ r, ∃ x, (f r).block = r.block.next x) :
    ({ a with reports := a.reports.map f } : Acsi).Orderly := by
  refine ⟨h.devices, ?_⟩
  intro r' hr'
  obtain ⟨r, hr, rfl⟩ := List.mem_map.mp hr'
  obtain ⟨x, hx⟩ := hf r
  rw [hx]
  exact (h.reports r hr).next x

theorem Orderly.modifyReports (h : a.Orderly) {f : ReportBlock → ReportBlock} (i : Nat)
    (hf : ∀ r, ∃ x, (f r).block = r.block.next x) :
    ({ a with reports := a.reports.modify i f } : Acsi).Orderly := by
  refine ⟨h.devices, ?_⟩
  intro r' hr'
  obtain ⟨r, hr, rfl | rfl⟩ := exists_of_mem_modify hr'
  · exact h.reports r' hr
  · obtain ⟨x, hx⟩ := hf r
    rw [hx]
    exact (h.reports r hr).next x

theorem perform_orderly (h : a.Orderly) (op : Operation) : (a.perform op).Orderly := by
  cases op with
  | write r value => exact ⟨h.devices, h.reports⟩
  | select assoc object now => exact ⟨h.devices, h.reports⟩
  | control assoc object x value now => exact ⟨h.devices, h.reports⟩
  | setting j assoc key value now =>
    refine ⟨?_, h.reports⟩
    intro d' hd'
    obtain ⟨i, hi, rfl⟩ := List.mem_mapIdx.mp hd'
    have hd := h.devices _ (List.getElem_mem hi)
    split
    · exact Device.next_bounded hd _
    · split
      · split
        · exact Device.next_bounded hd _
        · exact hd
      · exact hd
  | settingWhole j assoc value =>
    refine ⟨?_, h.reports⟩
    intro d' hd'
    obtain ⟨d, hd, rfl | rfl⟩ := exists_of_mem_modify hd'
    · exact h.devices d' hd
    · exact Device.next_bounded (h.devices d hd) _
  | report i assoc x value now =>
    exact h.modifyReports i fun r => ⟨.write a.view a.peers assoc x value now, rfl⟩
  | reportWhole i value => exact h.modifyReports i fun r => ⟨.writeWhole 0 value, rfl⟩
  | log i x value => exact ⟨h.devices, h.reports⟩
  | logWhole i value => exact ⟨h.devices, h.reports⟩
  | createDataSet name specs => exact ⟨h.devices, h.reports⟩
  | deleteDataSets scope names => exact ⟨h.devices, h.reports⟩

theorem foldl_perform_orderly (h : a.Orderly) (ops : List Operation) :
    (ops.foldl perform a).Orderly := by
  induction ops generalizing a with
  | nil => exact h
  | cons op ops ih => exact ih (perform_orderly h op)

/-- A transaction is a request of writes. -/
theorem foldl_writes (a : Acsi) (writes : List (Reference × Value)) :
    writes.foldl (fun a w => a.perform (.write w.1 w.2)) a =
      (writes.map fun w => Operation.write w.1 w.2).foldl perform a := by
  rw [List.foldl_map]

theorem takeDirty_orderly (h : a.Orderly) : a.takeDirty.Orderly := by
  constructor
  · intro d' hd'
    obtain ⟨d, hd, rfl⟩ := List.mem_map.mp hd'
    exact h.devices d hd
  · intro r' hr'
    obtain ⟨r, hr, rfl⟩ := List.mem_map.mp hr'
    exact h.reports r hr

theorem emitDue_reports (h : a.Orderly) (wall : EntryTime) (now : Instant) :
    ∀ r ∈ (a.emitDue wall now).1.reports, r.block.AtRest := by
  rw [emitDue_fst]
  intro r' hr'
  obtain ⟨r, hr, rfl⟩ := List.mem_map.mp hr'
  exact ControlBlock.emitDue_atRest (h.reports r hr) a.view a.peers wall now

theorem emitDue_devices (wall : EntryTime) (now : Instant) :
    (a.emitDue wall now).1.devices = a.devices := by
  rw [emitDue_fst]

theorem commit_rested (h : a.Orderly) (now : Now) : (a.commit now).1.Rested := by
  let logged : Acsi := { a.takeDirty with
    logs := a.takeDirty.logs.commit a.takeDirty.view a.dirty now.entry }
  have hlogged : logged.Orderly :=
    ⟨(takeDirty_orderly h).devices, (takeDirty_orderly h).reports⟩
  have hgathered : (logged.gather a.dirty now.mono).Orderly :=
    hlogged.mapReports fun r => ⟨.gather logged.view a.dirty now.mono, rfl⟩
  have hemitted := emitDue_reports hgathered now.entry now.mono
  refine ⟨rfl, ?_, ?_⟩
  · have hdevices := hgathered.devices
    rw [← emitDue_devices now.entry now.mono] at hdevices
    exact hdevices
  · intro r' hr'
    obtain ⟨r, hr, rfl⟩ := List.mem_map.mp hr'
    exact ⟨(hemitted r hr).interrogated, (hemitted r hr).purged⟩

theorem onTimeout_rested (h : a.Rested) (now : Now) : (a.onTimeout now).1.Rested := by
  let lapsed : Acsi := { a with
    control := a.control.next (.timeout now.mono)
    devices := a.devices.map fun d => d.next (.timeout now.mono) }
  have hlapsed : (lapsed.trackReleased now).Orderly := by
    have hdevices : ∀ d ∈ lapsed.devices, d.groups.Bounded := by
      intro d' hd'
      obtain ⟨d, hd, rfl⟩ := List.mem_map.mp hd'
      exact Device.next_bounded (h.devices d hd) _
    unfold trackReleased
    split
    · exact ⟨hdevices, h.orderly.reports⟩
    · exact ⟨hdevices, h.orderly.reports⟩
  have hexpired : ((lapsed.trackReleased now).expireReservations now.mono).Orderly := by
    have hmapped := hlapsed.mapReports
      (f := fun r => { r with block := r.block.expire now.mono }) fun r => ⟨.expire now.mono, rfl⟩
    exact ⟨hmapped.devices, hmapped.reports⟩
  refine ⟨rfl, ?_, emitDue_reports hexpired now.entry now.mono⟩
  have hdevices := hexpired.devices
  rw [← emitDue_devices now.entry now.mono] at hdevices
  exact hdevices

theorem onAssociationClosed_rested (h : a.Rested) (assoc : AssocId) (now : Now) :
    (a.onAssociationClosed assoc now).Rested := by
  have hreports : ∀ r ∈ a.reports.map (fun r : ReportBlock =>
      { r with block := r.block.closed a.peers assoc now.mono }), r.block.AtRest := by
    intro r' hr'
    obtain ⟨r, hr, rfl⟩ := List.mem_map.mp hr'
    exact (h.reports r hr).closed a.peers assoc now.mono
  have hdevices : ∀ d ∈ a.devices.map fun d => d.next (.closed assoc), d.groups.Bounded := by
    intro d' hd'
    obtain ⟨d, hd, rfl⟩ := List.mem_map.mp hd'
    exact Device.next_bounded (h.devices d hd) _
  unfold onAssociationClosed trackReleased
  dsimp only
  split
  · exact ⟨h.pending, hdevices, hreports⟩
  · exact ⟨h.pending, hdevices, hreports⟩

theorem rested_next (h : a.Rested) (x : LoopEvent) : (a.next x).Rested := by
  cases x with
  | request operations now => exact commit_rested (foldl_perform_orderly h.orderly operations) now
  | transaction writes now =>
    rw [next]
    split
    · exact h
    · rw [foldl_writes]
      exact commit_rested (foldl_perform_orderly h.orderly _) now
  | timeout now => exact onTimeout_rested h now
  | opened assoc identity => exact ⟨h.pending, h.devices, h.reports⟩
  | negotiated assoc maxPdu => exact ⟨h.pending, h.devices, h.reports⟩
  | closed assoc now => exact onAssociationClosed_rested h assoc now

theorem states_rested {xs : List LoopEvent} (h : a.Rested) : ∀ b ∈ states step a xs, b.Rested := by
  apply invariant_states (C := fun _ _ => True) _ h
  · exact meets_of_forall (fun _ _ => trivial) a xs
  · intro b x b' hb _ hstep
    cases hstep
    exact rested_next hb x

end Acsi

end Iec61850.Server
