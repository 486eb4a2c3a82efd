import Iec61850.Server.ControlEffect
import Iec61850.Server.Rested

/-!
# Waiting for the next deadline

An event loop that sleeps until the deadline the server names, and then tells it the time. Before its
earliest deadline a server at rest has nothing to do; after it has been told the time no deadline has
passed, unless a gathering window has closed whose data set is gone.
-/

namespace Iec61850.Server

open Theory Mms

/-! ### Times -/

theorem Instant.lt_plusMillis {t : Nat} (ht : t < u64Max) {ms : Nat} (hms : 0 < ms) :
    t < Instant.plusMillis t ms := by
  simp only [Instant.plusMillis]
  omega

theorem Instant.plusMillis_zero_le (t : Nat) : Instant.plusMillis t 0 ≤ t := by
  have hle : min u64Max (t + min u64Max (0 * 1000000)) ≤ t := by omega
  exact hle

/-! ### The deadlines of a report control block -/

namespace ControlBlock

/-- The window with its changes, the reservation and the data set are as they were. -/
structure SameWindow (b b' : ControlBlock) : Prop where
  pending : b'.rcb.pending = b.rcb.pending
  due : b'.rcb.due = b.rcb.due
  reserved : b'.rcb.reserved = b.rcb.reserved
  datSet : b'.values .datSet = b.values .datSet

theorem SameWindow.trans {b c d : ControlBlock} (h : SameWindow b c) (h' : SameWindow c d) :
    SameWindow b d :=
  ⟨h'.pending.trans h.pending, h'.due.trans h.due, h'.reserved.trans h.reserved,
    h'.datSet.trans h.datSet⟩

theorem dataSet_congr {b b' : ControlBlock} (h : b'.values .datSet = b.values .datSet) (ied : Ied) :
    b'.dataSet ied = b.dataSet ied := by
  rw [dataSet, dataSet, h]

variable (b : ControlBlock) (ied : Ied) (peers : Peers) (wall : EntryTime) (now : Instant)

theorem build_sameWindow {trigger : Trigger} (h : trigger ≠ .change) :
    SameWindow b (b.build ied peers trigger wall).1 :=
  ⟨(build_pending b ied peers trigger wall (Or.inl h)).1,
    (build_pending b ied peers trigger wall (Or.inl h)).2,
    (build_sameHolder b ied peers trigger wall).2, build_values b ied peers trigger wall rfl⟩

theorem emitInterrogation_sameWindow : SameWindow b (b.emitInterrogation ied peers wall).1 := by
  unfold emitInterrogation
  split
  · have hgi : SameWindow b (b.setInternal .gi (.boolean false)) := by
      constructor
      · rw [setInternal_rcb]
      · rw [setInternal_rcb]
      · rw [setInternal_rcb]
      · exact setInternal_values _ _ _ (by decide)
    exact hgi.trans (build_sameWindow _ ied peers wall (by decide))
  · exact ⟨rfl, rfl, rfl, rfl⟩

theorem purge_sameWindow : SameWindow b b.purge := by
  obtain ⟨-, buffer, overflowed, hrcb⟩ := purge_rcb b
  refine ⟨by rw [hrcb], by rw [hrcb], by rw [hrcb], ?_⟩
  unfold purge
  split
  · exact setInternal_values _ _ _ (by decide)
  · rfl

theorem emitIntegrity_sameWindow : SameWindow b (b.emitIntegrity ied peers wall now).1 := by
  unfold emitIntegrity
  split
  · have hrearmed : SameWindow b (b.rearm now) := ⟨rfl, rfl, rfl, rfl⟩
    exact hrearmed.trans (build_sameWindow _ ied peers wall (by decide))
  · exact ⟨rfl, rfl, rfl, rfl⟩

theorem expire_sameWindow :
    (b.expire now).rcb.due = b.rcb.due ∧ (b.expire now).values .datSet = b.values .datSet := by
  obtain ⟨-, reserved, hrcb, -⟩ := expire_rcb b now
  refine ⟨by rw [hrcb], ?_⟩
  unfold expire
  split
  · exact releaseReservation_values _ rfl
  · rfl

theorem build_change_due (h : b.dataSet ied ≠ none) :
    (b.build ied peers .change wall).1.rcb.due = none := by
  have htake : (b.takePending .change).rcb.due = none := rfl
  rcases build_cases (Prod.eta (b.build ied peers .change wall)).symm with
    ⟨hnone, -⟩ | ⟨-, -, hb', -⟩ | ⟨dataSet, entry, -, -, -, hdeliver⟩
  · exact absurd hnone h
  · rw [hb', htake]
  · obtain ⟨-, -, buffer, nextEntry, overflowed, hfile⟩ :=
      file_rcb (b.takePending .change) .change entry
    rcases deliver_cases hdeliver with ⟨-, hb', -⟩ | ⟨-, -, ⟨seq, hrcb⟩, -⟩
    · rw [hb', hfile]
      exact htake
    · rw [hrcb, hfile]
      exact htake

theorem emitChange_due (u : Instant) : (b.emitChange ied peers wall now).1.rcb.due = some u ↔
      b.rcb.due = some u ∧ (now < u ∨ b.dataSet ied = none) := by
  unfold emitChange
  split
  · rename_i hclosed
    obtain ⟨v, hv, hle⟩ := (Option.any_eq_true _ _).mp hclosed
    rw [decide_eq_true_eq] at hle
    by_cases hnone : b.dataSet ied = none
    · rw [(build_pending b ied peers .change wall (Or.inr hnone)).2]
      exact ⟨fun hu => ⟨hu, Or.inr hnone⟩, fun hu => hu.1⟩
    · rw [build_change_due b ied peers wall hnone]
      constructor
      · intro hu
        cases hu
      · rintro ⟨hu, hlt | hset⟩
        · rw [hv] at hu
          cases hu
          exact absurd hlt (Nat.not_lt.mpr hle)
        · exact absurd hset hnone
  · rename_i hopen
    constructor
    · intro hu
      refine ⟨hu, Or.inl ?_⟩
      by_contra hge
      apply hopen
      rw [hu, Option.any_some, decide_eq_true_eq]
      exact Nat.not_lt.mp hge
    · exact fun hu => hu.1

theorem emitIntegrity_integrityDue {now : Instant} (hnow : now < u64Max) {u : Instant}
    (hu : (b.emitIntegrity ied peers wall now).1.rcb.integrityDue = some u) : now < u := by
  unfold emitIntegrity at hu
  split at hu
  · obtain ⟨pending, due, buffer, nextEntry, overflowed, seq, hrcb, -⟩ :=
      build_rcb (b.rearm now) ied peers .integrity wall
    rw [hrcb] at hu
    obtain ⟨ms, hms, rfl⟩ := Option.map_eq_some_iff.mp hu
    unfold integrityPeriod at hms
    split at hms
    · obtain ⟨-, hpos⟩ := Option.filter_eq_some_iff.mp hms
      rw [decide_eq_true_eq] at hpos
      exact Instant.lt_plusMillis hnow hpos
    · cases hms
  · rename_i hrunning
    by_contra hge
    apply hrunning
    rw [hu, Option.any_some, decide_eq_true_eq]
    exact Nat.not_lt.mp hge

theorem emitChange_integrityDue :
    (b.emitChange ied peers wall now).1.rcb.integrityDue = b.rcb.integrityDue := by
  unfold emitChange
  split
  · obtain ⟨pending, due, buffer, nextEntry, overflowed, seq, hrcb, -⟩ :=
      build_rcb b ied peers .change wall
    rw [hrcb]
  · rfl

theorem emitChange_reserved :
    (b.emitChange ied peers wall now).1.rcb.reserved = b.rcb.reserved := by
  unfold emitChange
  split
  · exact (build_sameHolder b ied peers .change wall).2
  · rfl

theorem expire_reserved {u : Instant} (hu : (b.expire now).rcb.reserved.bind (·.lapsesAt) = some u) :
    now < u := by
  unfold expire at hu
  split at hu
  · rw [releaseReservation, resetAll_rcb] at hu
    cases hu
  · rename_i hkept
    by_contra hge
    apply hkept
    obtain ⟨r, hr, hlapses⟩ := Option.bind_eq_some_iff.mp hu
    rw [hr, Option.any_some, hlapses, Option.any_some, decide_eq_true_eq]
    exact Nat.not_lt.mp hge

/-- The deadlines after a timeout are later than its time, unless the window has closed without a data
set. -/
theorem timeout_due {now : Instant} (hnow : now < u64Max) :
    (∀ u, some u ∈ Acsi.ReportBlock.deadlines
        ⟨((b.expire now).emitDue ied peers wall now).1, fun _ => none⟩ → now < u) ↔
      ∀ u, b.rcb.due = some u → u ≤ now → b.dataSet ied ≠ none := by
  let asked := ((b.expire now).emitInterrogation ied peers wall).1
  let scanned := (asked.purge.emitIntegrity ied peers wall now).1
  have hscanned : SameWindow (b.expire now) scanned :=
    ((emitInterrogation_sameWindow _ ied peers wall).trans (purge_sameWindow asked)).trans
      (emitIntegrity_sameWindow asked.purge ied peers wall now)
  obtain ⟨hdue, hdatSet⟩ := b.expire_sameWindow now
  have hset : scanned.dataSet ied = b.dataSet ied :=
    dataSet_congr (hscanned.datSet.trans hdatSet) ied
  have hwindow : ∀ u, (scanned.emitChange ied peers wall now).1.rcb.due = some u ↔
      b.rcb.due = some u ∧ (now < u ∨ b.dataSet ied = none) := by
    intro u
    rw [emitChange_due, hscanned.due, hdue, hset]
  have hmem : ∀ u, some u ∈ Acsi.ReportBlock.deadlines
        ⟨((b.expire now).emitDue ied peers wall now).1, fun _ => none⟩ ↔
      (scanned.emitChange ied peers wall now).1.rcb.due = some u ∨
        scanned.rcb.integrityDue = some u ∨
          (b.expire now).rcb.reserved.bind (·.lapsesAt) = some u := by
    intro u
    rw [Acsi.ReportBlock.deadlines, List.mem_cons, List.mem_cons, List.mem_singleton,
      ← emitChange_integrityDue scanned ied peers wall now, ← hscanned.reserved,
      ← emitChange_reserved scanned ied peers wall now]
    constructor
    · rintro (h | h | h)
      · exact Or.inl h.symm
      · exact Or.inr (Or.inl h.symm)
      · exact Or.inr (Or.inr h.symm)
    · rintro (h | h | h)
      · exact Or.inl h.symm
      · exact Or.inr (Or.inl h.symm)
      · exact Or.inr (Or.inr h.symm)
  constructor
  · intro hlater u hu hle hnone
    have hlt := hlater u ((hmem u).mpr (Or.inl ((hwindow u).mpr ⟨hu, Or.inr hnone⟩)))
    exact absurd hlt (Nat.not_lt.mpr hle)
  · intro hserved u hu
    rcases (hmem u).mp hu with hopen | hperiod | hreserved
    · obtain ⟨hbefore, hlt | hnone⟩ := (hwindow u).mp hopen
      · exact hlt
      · by_contra hge
        exact hserved u hbefore (Nat.not_lt.mp hge) hnone
    · exact emitIntegrity_integrityDue _ ied peers wall hnow hperiod
    · exact b.expire_reserved now hreserved

/-- A block at rest has nothing to send before its deadlines. -/
theorem emitDue_atRest_eq {b : ControlBlock} (h : b.AtRest) (hdue : ∀ u, b.rcb.due = some u → now < u)
    (hintegrityDue : ∀ u, b.rcb.integrityDue = some u → now < u) :
    b.emitDue ied peers wall now = (b, []) := by
  have hearly : ∀ o : Option Instant, (∀ u, o = some u → now < u) → o.any (· ≤ now) = false := by
    intro o ho
    cases o with
    | none => rfl
    | some u =>
      rw [Option.any_some, decide_eq_false_iff_not]
      exact Nat.not_le.mpr (ho u rfl)
  have hinterrogation : b.emitInterrogation ied peers wall = (b, []) := by
    have hasked := h.interrogated
    unfold interrogated at hasked
    rw [emitInterrogation, hasked]
    rfl
  have hpurge : b.purge = b := by
    have hasked := h.purged
    unfold purgeAsked at hasked
    rw [purge, hasked]
    rfl
  have hintegrity : b.emitIntegrity ied peers wall now = (b, []) := by
    rw [emitIntegrity, hearly _ hintegrityDue]
    rfl
  have hchange : b.emitChange ied peers wall now = (b, []) := by
    rw [emitChange, hearly _ hdue]
    rfl
  rw [emitDue, hinterrogation]
  dsimp only
  rw [hpurge, hintegrity]
  dsimp only
  rw [hchange]
  rfl

end ControlBlock

/-! ### The deadlines of the setting groups -/

namespace Device

theorem timeout_editorUntil {d : Device} {now u : Instant}
    (hu : (d.next (.timeout now)).groups.editorUntil = some u) : now < u := by
  have hgroups : (d.next (.timeout now)).groups = d.groups.expire now := by
    rw [next, Groups.onTimeout]
    split
    · rfl
    · rfl
  rw [hgroups] at hu
  by_cases hlapsed : d.lapsed now = true
  · rw [expire_of_lapsed hlapsed] at hu
    cases hu
  · rw [Bool.not_eq_true] at hlapsed
    rw [expire_of_not_lapsed hlapsed] at hu
    unfold lapsed at hlapsed
    rw [hu, Option.any_some, decide_eq_false_iff_not] at hlapsed
    exact Nat.not_le.mp hlapsed

theorem timeout_early {d : Device} {now : Instant} (h : d.groups.Bounded)
    (hearly : d.groups.editor.isSome → ∀ u, d.groups.editorUntil = some u → now < u) :
    d.next (.timeout now) = d := by
  have hlapsed : d.lapsed now = false := by
    unfold lapsed
    cases heditor : d.groups.editor with
    | none =>
      rw [h heditor]
      rfl
    | some holder =>
      rw [heditor] at hearly
      cases hu : d.groups.editorUntil with
      | none => rfl
      | some u =>
        rw [Option.any_some, decide_eq_false_iff_not]
        exact Nat.not_le.mpr (hearly rfl u hu)
  have hany : d.groups.editorUntil.any (· ≤ now) = false := hlapsed
  rw [next, Groups.onTimeout, hany, Bool.and_false, expire_of_not_lapsed hlapsed]
  rfl

end Device

/-! ### Tracking objects -/

namespace Tracking

/-- The tracking object has no attribute that takes anything. -/
def Bare (t : Tracking) (ied : Store) (tracker : Reference) : Prop :=
  ∀ name ∈ commonAttributes ++ t.mirrored tracker, ∀ value,
    ied.takes (leafOf tracker name) value = false

theorem Bare.still {t : Tracking} {ied : Store} {tracker : Reference} (h : t.Bare ied tracker) :
    t.Still ied tracker := by
  intro name hname value
  unfold write
  dsimp only
  split
  · obtain ⟨e, he⟩ := LeafStore.writeLeaf_refused ied (leafOf tracker name) value
      (Bool.eq_false_iff.mp (h name hname value))
    rw [he]
  · rfl

end Tracking

namespace Acsi

variable {a : Acsi}

/-! ### Before every deadline -/

/-- The time is before all deadlines of the server. -/
structure Beyond (a : Acsi) (t : Instant) : Prop where
  reports : ∀ r ∈ a.reports, ∀ u, some u ∈ ReportBlock.deadlines r → t < u
  commands : ∀ u, a.ControlDeadline u → t < u
  editors : ∀ d ∈ a.devices, d.groups.editor.isSome → ∀ u, d.groups.editorUntil = some u → t < u

theorem exists_nextTimeout (a : Acsi) : ∃ d, a.NextTimeout d := by
  obtain ⟨c, hc⟩ := exists_earliest a.ControlDeadline
  exact ⟨_, c, hc, rfl⟩

theorem reportsTimeout_earliest (a : Acsi) :
    Earliest (fun u => ∃ r ∈ a.reports, some u ∈ ReportBlock.deadlines r) a.reportsTimeout := by
  apply earliest_filterMap.congr
  intro u
  exact List.mem_flatMap

theorem devicesTimeout_earliest (a : Acsi) :
    Earliest (fun u => ∃ d ∈ a.devices, d.groups.editor.isSome ∧ d.groups.editorUntil = some u)
      a.devicesTimeout := by
  apply (earliest_min? _).congr
  intro u
  rw [List.mem_filterMap]
  constructor
  · rintro ⟨d, hd, hu⟩
    obtain ⟨hmem, heditor⟩ := List.mem_filter.mp hd
    exact ⟨d, hmem, heditor, hu⟩
  · rintro ⟨d, hd, heditor, hu⟩
    exact ⟨d, List.mem_filter.mpr ⟨hd, heditor⟩, hu⟩

theorem ahead_iff {t : Instant} {d : Option Instant} (h : a.NextTimeout d) :
    Ahead t d ↔ a.Beyond t := by
  obtain ⟨c, hc, rfl⟩ := h
  have hparts := (@earliest_filterMap [a.reportsTimeout, c, a.devicesTimeout]).ahead_iff (t := t)
  have hthree : (∀ u, some u ∈ [a.reportsTimeout, c, a.devicesTimeout] → t < u) ↔
      Ahead t a.reportsTimeout ∧ Ahead t c ∧ Ahead t a.devicesTimeout := by
    constructor
    · intro h
      refine ⟨?_, ?_, ?_⟩
      · exact fun u hu => h u (by rw [hu]; exact List.mem_cons_self)
      · exact fun u hu => h u (by rw [hu]; exact List.mem_cons_of_mem _ List.mem_cons_self)
      · exact fun u hu => h u (by rw [hu]; simp)
    · rintro ⟨hreports, hcommands, heditors⟩ u hu
      rw [List.mem_cons, List.mem_cons, List.mem_singleton] at hu
      rcases hu with hu | hu | hu
      · exact hreports u hu.symm
      · exact hcommands u hu.symm
      · exact heditors u hu.symm
  rw [hparts, hthree, (reportsTimeout_earliest a).ahead_iff, hc.ahead_iff,
    (devicesTimeout_earliest a).ahead_iff]
  constructor
  · rintro ⟨hreports, hcommands, heditors⟩
    refine ⟨?_, hcommands, ?_⟩
    · exact fun r hr u hu => hreports u ⟨r, hr, hu⟩
    · exact fun d hd heditor u hu => heditors u ⟨d, hd, heditor, hu⟩
  · intro h
    refine ⟨?_, h.commands, ?_⟩
    · rintro u ⟨r, hr, hu⟩
      exact h.reports r hr u hu
    · rintro u ⟨d, hd, heditor, hu⟩
      exact h.editors d hd heditor u hu

/-! ### After the time -/

/-- Each gathering window that has closed by then still has its data set. -/
def Answerable (a : Acsi) (now : Now) : Prop :=
  ∀ r ∈ a.reports, ∀ u, r.block.rcb.due = some u → u ≤ now.mono → r.block.dataSet a.view ≠ none

/-- The blocks whose reservations have run out by then. -/
def lapsing (a : Acsi) (now : Now) : List Bytes :=
  (a.reports.filter fun r => r.block.rcb.reserved.any fun v => v.lapsesAt.any (· ≤ now.mono)).map
    (·.block.reference)

/-- What a timeout does to each part. -/
theorem onTimeout_parts (a : Acsi) (now : Now) :
    (∃ ied : Ied, (∀ b : ControlBlock, b.dataSet ied = b.dataSet a.view) ∧
      (a.onTimeout now).1.reports = a.reports.map fun r =>
        ⟨((r.block.expire now.mono).emitDue ied a.peers now.entry now.mono).1, r.marks⟩) ∧
      (a.onTimeout now).1.devices = a.devices.map (·.next (.timeout now.mono)) ∧
      Control.Controls.SameAuthority
        ((a.control.controls.expire now.mono).wait now.mono) (a.onTimeout now).1.control.controls := by
  let lapsed : Acsi := { a with
    control := a.control.next (.timeout now.mono)
    devices := a.devices.map fun d => d.next (.timeout now.mono) }
  have hauthority := Control.Controls.onTimeout_authority a.control.controls a.control.ied now.mono
  have hparts : (lapsed.trackReleased now).reports = a.reports ∧
      (lapsed.trackReleased now).devices = lapsed.devices ∧
      (lapsed.trackReleased now).peers = a.peers ∧
      (lapsed.trackReleased now).dataSets = a.dataSets ∧
      (lapsed.trackReleased now).control.controls = lapsed.control.controls := by
    unfold trackReleased
    split
    · exact ⟨rfl, rfl, rfl, rfl, rfl⟩
    · exact ⟨rfl, rfl, rfl, rfl, rfl⟩
  obtain ⟨hreports, hdevices, hpeers, hdataSets, hcontrols⟩ := hparts
  refine ⟨⟨((lapsed.trackReleased now).expireReservations now.mono).view, ?_, ?_⟩, ?_, ?_⟩
  · intro b
    rw [ControlBlock.dataSet, ControlBlock.dataSet, view, view, expireReservations, hdataSets]
  · have hexpired : ((lapsed.trackReleased now).expireReservations now.mono).reports =
        a.reports.map fun r => { r with block := r.block.expire now.mono } := by
      rw [expireReservations, hreports]
    have hsame : ((lapsed.trackReleased now).expireReservations now.mono).peers = a.peers := hpeers
    have hmap : (a.onTimeout now).1.reports =
        (((lapsed.trackReleased now).expireReservations now.mono).emitDue
          now.entry now.mono).1.reports := rfl
    rw [hmap, emitDue_fst]
    dsimp only
    rw [hexpired, hsame, List.map_map]
    rfl
  · have hmap : (a.onTimeout now).1.devices =
        (((lapsed.trackReleased now).expireReservations now.mono).emitDue
          now.entry now.mono).1.devices := rfl
    rw [hmap, emitDue_devices]
    exact hdevices
  · have hmap : (a.onTimeout now).1.control =
        (((lapsed.trackReleased now).expireReservations now.mono).emitDue
          now.entry now.mono).1.control.next .takePending := rfl
    rw [hmap, emitDue_fst]
    have hsame : (lapsed.trackReleased now).control.controls =
        (a.control.controls.onTimeout a.control.ied now.mono).1 := hcontrols
    constructor
    · exact (congrArg Control.Controls.selections hsame).trans hauthority.selections
    · exact (congrArg Control.Controls.timed hsame).trans hauthority.timed

/-- After a timeout no deadline has passed, exactly when each window that has closed has its data
set. -/
theorem onTimeout_beyond_iff {now : Now} (hnow : now.mono < u64Max) :
    (a.onTimeout now).1.Beyond now.mono ↔ a.Answerable now := by
  obtain ⟨⟨ied, hset, hreports⟩, hdevices, hauthority⟩ := onTimeout_parts a now
  have hblock : ∀ r : ReportBlock, (∀ u, some u ∈ ReportBlock.deadlines
        ⟨((r.block.expire now.mono).emitDue ied a.peers now.entry now.mono).1, r.marks⟩ →
          now.mono < u) ↔
      ∀ u, r.block.rcb.due = some u → u ≤ now.mono → r.block.dataSet a.view ≠ none := by
    intro r
    rw [← hset r.block]
    exact r.block.timeout_due ied a.peers now.entry hnow
  constructor
  · intro h r hr
    apply (hblock r).mp
    apply h.reports
    rw [hreports]
    exact List.mem_map.mpr ⟨r, hr, rfl⟩
  · intro h
    constructor
    · intro r' hr'
      rw [hreports] at hr'
      obtain ⟨r, hr, rfl⟩ := List.mem_map.mp hr'
      exact (hblock r).mpr (h r hr)
    · rintro u (⟨object, s, hs, rfl⟩ | ⟨t, ht, rfl⟩)
      · rw [hauthority.selections] at hs
        obtain ⟨-, hlt⟩ := Option.filter_eq_some_iff.mp hs
        rw [decide_eq_true_eq] at hlt
        exact hlt
      · rw [hauthority.timed] at ht
        obtain ⟨-, hlt⟩ := List.mem_filter.mp ht
        rw [Bool.not_eq_true', decide_eq_false_iff_not] at hlt
        exact Nat.not_le.mp hlt
    · intro d' hd'
      rw [hdevices] at hd'
      obtain ⟨d, hd, rfl⟩ := List.mem_map.mp hd'
      intro heditor u hu
      exact Device.timeout_editorUntil hu

/-! ### Waiting -/

theorem control_early {t : Instant} (h : ∀ u, a.ControlDeadline u → t < u) :
    a.control.next (.timeout t) = a.control := by
  have hselections : (fun object => (a.control.controls.selections object).filter (t < ·.expires)) =
      a.control.controls.selections := by
    funext object
    cases hs : a.control.controls.selections object with
    | none => rfl
    | some s =>
      rw [Option.filter_some, if_pos]
      rw [decide_eq_true_eq]
      exact h _ (Or.inl ⟨object, s, hs, rfl⟩)
  have hdue : a.control.controls.dueAt t = [] := by
    apply List.filter_eq_nil_iff.mpr
    intro c hc hle
    rw [decide_eq_true_eq] at hle
    exact Nat.not_le.mpr (h _ (Or.inr ⟨c, hc, rfl⟩)) hle
  have hwait : a.control.controls.timed.filter (fun c => !decide (c.due ≤ t)) =
      a.control.controls.timed := by
    apply List.filter_eq_self.mpr
    intro c hc
    rw [Bool.not_eq_true', decide_eq_false_iff_not]
    exact Nat.not_le.mpr (h _ (Or.inr ⟨c, hc, rfl⟩))
  rw [Control.System.next, Control.Controls.onTimeout, hdue, Control.Controls.runAll,
    Control.Controls.wait, Control.Controls.expire]
  dsimp only
  rw [hselections, hwait]

theorem expireReservations_early {t : Instant}
    (h : ∀ r ∈ a.reports, ∀ u, r.block.rcb.reserved.bind (·.lapsesAt) = some u → t < u) :
    a.expireReservations t = a := by
  have hkept : ∀ r ∈ a.reports,
      (r.block.rcb.reserved.any fun v => v.lapsesAt.any (· ≤ t)) = false := by
    intro r hr
    rw [Bool.eq_false_iff]
    intro hlapsed
    obtain ⟨v, hv, hany⟩ := (Option.any_eq_true _ _).mp hlapsed
    obtain ⟨u, hu, hle⟩ := (Option.any_eq_true _ _).mp hany
    rw [decide_eq_true_eq] at hle
    have hbind : r.block.rcb.reserved.bind (·.lapsesAt) = some u := by
      rw [hv]
      exact hu
    exact Nat.not_le.mpr (h r hr u hbind) hle
  have hreports : (a.reports.map fun r => { r with block := r.block.expire t }) = a.reports := by
    apply (List.map_congr_left _).trans (List.map_id _)
    intro r hr
    rw [ControlBlock.expire, hkept r hr]
    rfl
  have hfilter : (a.reports.filter fun r =>
      r.block.rcb.reserved.any fun v => v.lapsesAt.any (· ≤ t)) = [] := by
    apply List.filter_eq_nil_iff.mpr
    intro r hr hlapsed
    rw [hkept r hr] at hlapsed
    cases hlapsed
  unfold expireReservations
  dsimp only
  rw [hreports, hfilter, List.map_nil, List.append_nil]

theorem emitDue_early {t : Instant} (h : ∀ r ∈ a.reports, r.block.AtRest)
    (hearly : ∀ r ∈ a.reports, ∀ u, some u ∈ ReportBlock.deadlines r → t < u) (wall : EntryTime) :
    a.emitDue wall t = (a, []) := by
  have hserved : (a.reports.map fun r => (r, r.block.emitDue a.view a.peers wall t)) =
      a.reports.map fun r => (r, (r.block, [])) := by
    apply List.map_congr_left
    intro r hr
    rw [ControlBlock.emitDue_atRest_eq a.view a.peers wall t (h r hr)]
    · intro u hu
      exact hearly r hr u (by rw [ReportBlock.deadlines, hu]; exact List.mem_cons_self)
    · intro u hu
      exact hearly r hr u (by
        rw [ReportBlock.deadlines, hu]
        exact List.mem_cons_of_mem _ List.mem_cons_self)
  unfold emitDue
  rw [hserved]
  dsimp only
  rw [List.map_map, List.flatMap_map]
  have hreports : (a.reports.map ((fun p : ReportBlock × ControlBlock × List Delivery =>
      { p.1 with block := p.2.1 }) ∘ fun r => (r, r.block, []))) = a.reports := List.map_id _
  rw [hreports]
  dsimp only
  rw [List.flatMap_eq_nil_iff.mpr fun _ _ => rfl]

/-- Before its deadlines a server at rest has nothing to do, but to forget the releases that it does
not record. -/
theorem onTimeout_early {t : Now} (h : a.Rested) (hbeyond : a.Beyond t.mono)
    (hreleased : a.Unrecorded a.released) : a.onTimeout t = ({ a with released := [] }, []) := by
  have hdevices : (a.devices.map fun d => d.next (.timeout t.mono)) = a.devices := by
    apply (List.map_congr_left _).trans (List.map_id _)
    intro d hd
    exact Device.timeout_early (h.devices d hd) (hbeyond.editors d hd)
  unfold onTimeout
  dsimp only
  rw [control_early hbeyond.commands, hdevices, a.trackReleased_still hreleased]
  let forgotten : Acsi := { a with released := [] }
  have hexpired : forgotten.expireReservations t.mono = forgotten := by
    apply expireReservations_early
    intro r hr u hu
    apply hbeyond.reports r hr u
    rw [ReportBlock.deadlines, ← hu]
    simp
  have hemitted : forgotten.emitDue t.entry t.mono = (forgotten, []) :=
    emitDue_early (a := forgotten) h.reports hbeyond.reports t.entry
  have hcontrol : a.control.next .takePending = a.control := by
    rw [Control.System.next, ← h.pending]
  have hpending : forgotten.takePending = (forgotten, []) := by
    unfold takePending
    rw [show forgotten.control = a.control from rfl, hcontrol, h.pending]
    rfl
  rw [show ({ a with released := [] } : Acsi) = forgotten from rfl, hexpired, hemitted]
  dsimp only
  rw [hpending]
  rfl

/-! ### What a timeout leaves to track -/

/-- No block that the server has released, or will have released by then, has a tracking object with
an attribute to record it in. -/
def Silent (a : Acsi) (now : Now) : Prop :=
  ∀ block ∈ a.released ++ a.lapsing now, ∀ tracker,
    a.tracking.select (releaseOf block) = some tracker → a.tracking.Bare a.control.ied tracker

theorem Silent.unrecorded {now : Now} (h : a.Silent now) {c : Acsi}
    (htracking : c.tracking = a.tracking) (htakes : c.control.ied.takes = a.control.ied.takes)
    {blocks : List Bytes} (hblocks : ∀ block ∈ blocks, block ∈ a.released ++ a.lapsing now) :
    c.Unrecorded blocks := by
  intro block hblock tracker hselect
  rw [htracking] at hselect ⊢
  apply Tracking.Bare.still
  intro name hname value
  rw [htakes]
  exact h block (hblocks block hblock) tracker hselect name hname value

/-- After a timeout the releases that are still to be recorded are those of the reservations that
have run out by then. -/
theorem onTimeout_silent {now : Now} (h : a.Silent now) :
    (a.onTimeout now).1.released = a.lapsing now ∧ (a.onTimeout now).1.tracking = a.tracking ∧
      (a.onTimeout now).1.control.ied.takes = a.control.ied.takes := by
  let lapsed : Acsi := { a with
    control := a.control.next (.timeout now.mono)
    devices := a.devices.map fun d => d.next (.timeout now.mono) }
  have htakes : lapsed.control.ied.takes = a.control.ied.takes := by
    have hrun : lapsed.control.ied = (a.control.controls.onTimeout a.control.ied now.mono).2 := rfl
    rw [hrun, Control.Controls.onTimeout, Control.runAll_takes]
  have hsilent : lapsed.Unrecorded lapsed.released :=
    h.unrecorded (c := lapsed) rfl htakes fun block hblock => List.mem_append_left _ hblock
  have htracked := lapsed.trackReleased_still hsilent now
  have hafter : (a.onTimeout now).1 =
      (((lapsed.trackReleased now).expireReservations now.mono).emitDue
        now.entry now.mono).1.takePending.1 := rfl
  rw [hafter, htracked, emitDue_fst]
  exact ⟨List.nil_append _, rfl, htakes⟩

/-! ### The loop -/

/-- An event loop that waits for what the server names as its next deadline neither spins nor misses
one: after a timeout the next deadline is later, and before it, as before the deadline there was, a
timeout sends nothing and leaves the server as it is, but for the list of releases still to be
recorded. -/
structure Sleeps (a : Acsi) (now : Now) : Prop where
  later : ∀ d, (a.onTimeout now).1.NextTimeout d → Ahead now.mono d
  before : ∀ d, a.NextTimeout d → ∀ t : Now, Ahead t.mono d →
    a.onTimeout t = ({ a with released := [] }, [])
  after : ∀ d, (a.onTimeout now).1.NextTimeout d → ∀ t : Now, Ahead t.mono d →
    (a.onTimeout now).1.onTimeout t = ({ (a.onTimeout now).1 with released := [] }, [])

/-- In every state of every run of a server, at a time that does not saturate, and where no release
is recorded late: the loop sleeps exactly when each gathering window that has closed by then still
has its data set. -/
theorem run_sleeps {a b : Acsi} {xs : List LoopEvent} {now : Now} (hstart : a.Started)
    (hb : b ∈ states step a xs) (hnow : now.mono < u64Max) (hsilent : b.Silent now) :
    b.Sleeps now ↔ b.Answerable now := by
  have hrested : b.Rested := states_rested hstart.rested b hb
  constructor
  · intro hsleeps
    obtain ⟨d, hd⟩ := exists_nextTimeout (b.onTimeout now).1
    exact (onTimeout_beyond_iff hnow).mp ((ahead_iff hd).mp (hsleeps.later d hd))
  · intro hanswerable
    obtain ⟨hreleased, htracking, htakes⟩ := onTimeout_silent hsilent
    constructor
    · intro d hd
      exact (ahead_iff hd).mpr ((onTimeout_beyond_iff hnow).mpr hanswerable)
    · intro d hd t ht
      apply onTimeout_early hrested ((ahead_iff hd).mp ht)
      exact hsilent.unrecorded rfl rfl fun block hblock => List.mem_append_left _ hblock
    · intro d hd t ht
      apply onTimeout_early (onTimeout_rested hrested now) ((ahead_iff hd).mp ht)
      apply hsilent.unrecorded htracking htakes
      intro block hblock
      rw [hreleased] at hblock
      exact List.mem_append_right _ hblock

/-- The status of the switch. -/
def statusRef : Reference := ⟨ascii "LD", [ascii "CSWI1", ascii "ST", ascii "Pos", ascii "stVal"]⟩

/-- A server of one switch, with a buffered report control block that names no data set yet. -/
def reportingServer : Acsi where
  control := ⟨.new, Control.switchgear 1 .boolean⟩
  devices := []
  reports := [⟨.engineered ControlBlock.gathering (ascii "LD/LLN0$BR$trip") none true, fun _ => none⟩]
  released := []
  logs := ⟨[], ⟨fun _ => none, 4, Log.four_positive⟩⟩
  dataSets := ⟨[], List.nodup_nil⟩
  tree := ⟨fun _ => true, fun _ => true, fun text => [text], 1⟩
  layout text :=
    if text = ascii "LD/CSWI1$ST$Pos$stVal" then some (.leaf (.data statusRef)) else none
  tracking := ⟨[], fun _ _ => none⟩
  peers := anonymous

theorem reportingServer_started : reportingServer.Started := by
  refine ⟨rfl, ?_, ?_⟩
  · intro d hd
    cases hd
  · intro r hr
    rw [List.mem_singleton.mp hr]
    exact ⟨_, _, _, _, rfl⟩

/-- A client creates a data set of the status and has the block report it. -/
def subscribed : LoopEvent :=
  .request
    [.createDataSet (.domainSpecific (ascii "LD") (ascii "events"))
      [.name (.domainSpecific (ascii "LD") (ascii "CSWI1$ST$Pos$stVal"))],
      .report 0 1 .datSet (.visibleString (ascii "LD/events")) 0] (Control.atSecond 0)

/-- The switch closes, and the gathering window opens. -/
def tripped : LoopEvent := .transaction [(statusRef, .boolean true)] (Control.atSecond 1)

/-- A client deletes the data set. -/
def unsubscribed : LoopEvent :=
  .request [.deleteDataSets deleteScopeSpecific
    [.domainSpecific (ascii "LD") (ascii "events")]] (Control.atSecond 1)

/-- The window closes while its data set is there. -/
theorem run_sleeps_window :
    ((reportingServer.next subscribed).next tripped).Sleeps (Control.atSecond 2) := by
  have hsleeps := @run_sleeps reportingServer ((reportingServer.next subscribed).next tripped)
    [subscribed, tripped] (Control.atSecond 2) reportingServer_started
    (List.mem_cons_of_mem _ (List.mem_cons_of_mem _ List.mem_cons_self)) (by decide +kernel) (by
      intro block hblock
      have hnone : ((reportingServer.next subscribed).next tripped).released ++
          ((reportingServer.next subscribed).next tripped).lapsing (Control.atSecond 2) = [] := by
        decide +kernel
      rw [hnone] at hblock
      cases hblock)
  apply hsleeps.mpr
  intro r hr u _ _
  have hall : (((reportingServer.next subscribed).next tripped).reports.all fun r =>
      (r.block.dataSet ((reportingServer.next subscribed).next tripped).view).isSome) = true := by
    decide +kernel
  have hset := List.all_eq_true.mp hall r hr
  intro hnone
  rw [hnone] at hset
  cases hset

/-- The data set is deleted while the window is open. When the window closes there is nothing to
report, its deadline stays where it is, and the loop that waits for it spins. -/
theorem spins_without_data_set :
    ¬ ∀ (a b : Acsi) (xs : List LoopEvent) (now : Now), a.Started → b ∈ states step a xs →
      now.mono < u64Max → b.Sleeps now := by
  intro hclaim
  let b := ((reportingServer.next subscribed).next tripped).next unsubscribed
  have hsleeps := hclaim reportingServer b [subscribed, tripped, unsubscribed] (Control.atSecond 2)
    reportingServer_started (List.mem_cons_of_mem _ (List.mem_cons_of_mem _
      (List.mem_cons_of_mem _ List.mem_cons_self))) (by decide +kernel)
  obtain ⟨d, hd⟩ := exists_nextTimeout (b.onTimeout (Control.atSecond 2)).1
  have hanswerable : b.Answerable (Control.atSecond 2) :=
    (onTimeout_beyond_iff (by decide +kernel)).mp ((ahead_iff hd).mp (hsleeps.later d hd))
  have hstuck : (b.reports.any fun r => r.block.rcb.due.any (· ≤ (Control.atSecond 2).mono) &&
      (r.block.dataSet b.view).isNone) = true := by
    decide +kernel
  obtain ⟨r, hr, hboth⟩ := List.any_eq_true.mp hstuck
  rw [Bool.and_eq_true, Option.isNone_iff_eq_none] at hboth
  obtain ⟨u, hu, hle⟩ := (Option.any_eq_true _ _).mp hboth.1
  rw [decide_eq_true_eq] at hle
  exact hanswerable r hr u hu hle hboth.2

end Acsi

end Iec61850.Server
