import Iec61850.Server.ControlAuthority
import Iec61850.Server.ControlEffect

/-!
# The order in which commands take effect

Commands that have fallen due run in the order they were accepted, whatever the order of the times
they fell due at. Where the two orders agree at every timeout, commands take effect in the order of
their activation times along the whole run, and the status of an object ends as its latest-due
command wants it.
-/

namespace Iec61850.Server.Control

open Theory Mms

/-! ### What the journal shows -/

/-- The commands that ran, in their order. -/
def ranOf (log : List Event) : List Timed :=
  log.filterMap fun
    | .ran t => some t
    | _ => none

/-- The commands that were accepted to wait, in their order. -/
def armedOf (log : List Event) : List Timed :=
  log.filterMap fun
    | .operated _ _ _ _ armed => armed
    | _ => none

/-- The readings of the clock. -/
def ticksOf (log : List Event) : List Instant :=
  log.filterMap fun
    | .tick now => some now
    | _ => none

theorem ranOf_append (log log' : List Event) : ranOf (log ++ log') = ranOf log ++ ranOf log' :=
  List.filterMap_append

theorem armedOf_append (log log' : List Event) :
    armedOf (log ++ log') = armedOf log ++ armedOf log' := List.filterMap_append

theorem ticksOf_append (log log' : List Event) :
    ticksOf (log ++ log') = ticksOf log ++ ticksOf log' := List.filterMap_append

/-- The commands of one activation time. -/
def dueOn (d : Instant) (ts : List Timed) : List Timed := ts.filter (·.due = d)

/-- Commands have run in the order of their activation times, those of one time in the order they were
accepted. -/
structure InOrder (log : List Event) : Prop where
  due : (ranOf log).Pairwise (·.due ≤ ·.due)
  ties : ∀ d, (dueOn d (ranOf log)).Sublist (dueOn d (armedOf log))

/-- After a timeout the status of an object is the value of the latest-due command for it that has run
then, if the status takes that value. -/
def Settles (s : System) (now : Instant) : Prop :=
  ∀ t, .ran t ∈ events s (.timeout now) →
    (∀ t', .ran t' ∈ events s (.timeout now) → t'.object = t.object → t' = t ∨ t'.due < t.due) →
    ∀ status, statusOf t.object (ascii "stVal") = some status →
      s.ied.takes status t.request.ctlVal = true →
      (s.next (.timeout now)).ied.values status = some t.request.ctlVal

/-- When the clock is read. -/
def Action.clock : Action → Option Instant
  | .write _ _ _ _ now => some now.mono
  | .timeout now => some now
  | _ => none

/-- The clock is monotonic, and an `Instant` is 64 bits wide. -/
def Monotonic (p : System × List Event) (x : Action) : Prop :=
  (x.clock.all fun now => decide (now ≤ u64Max) && (ticksOf p.2).all (· ≤ now)) = true

instance (p : System × List Event) (x : Action) : Decidable (Monotonic p x) :=
  inferInstanceAs (Decidable (_ = true))

/-- What has fallen due when the clock is read was accepted in the order of its activation times. -/
def Punctual (p : System × List Event) (x : Action) : Prop :=
  Monotonic p x ∧ ∀ now ∈ x.clock, (p.1.controls.dueAt now).Pairwise (·.due ≤ ·.due)

instance (p : System × List Event) (x : Action) : Decidable (Punctual p x) :=
  inferInstanceAs (Decidable (_ ∧ ∀ now ∈ x.clock, _))

/-! ### One timeout -/

theorem ranOf_runEvents_sublist (c : Controls) (ied : Store) (ts : List Timed) :
    (ranOf (c.runEvents ied ts)).Sublist ts ∧ armedOf (c.runEvents ied ts) = [] ∧
      ticksOf (c.runEvents ied ts) = [] := by
  induction ts generalizing c ied with
  | nil => exact ⟨.slnil, rfl, rfl⟩
  | cons t ts ih =>
    obtain ⟨hran, harmed, hticks⟩ := ih (c.runTimed ied t).1 (c.runTimed ied t).2
    rw [Controls.runEvents, Controls.timedEvent]
    split
    · exact ⟨hran.cons t, harmed, hticks⟩
    · exact ⟨hran.cons_cons t, harmed, hticks⟩

theorem dueOn_append (d : Instant) (ts ts' : List Timed) :
    dueOn d (ts ++ ts') = dueOn d ts ++ dueOn d ts' := List.filter_append _ _

theorem dueOn_dueAt (c : Controls) (now d : Instant) :
    dueOn d (c.dueAt now) = if d ≤ now then dueOn d c.timed else [] := by
  rw [dueOn, Controls.dueAt, List.filter_filter]
  split
  · rename_i hle
    apply List.filter_congr
    intro t _
    by_cases hd : t.due = d
    · simp [hd, hle]
    · simp [hd]
  · rename_i hnot
    rw [List.filter_eq_nil_iff]
    intro t _ hboth
    rw [Bool.and_eq_true, decide_eq_true_eq, decide_eq_true_eq] at hboth
    exact hnot (hboth.1 ▸ hboth.2)

theorem dueOn_wait (c : Controls) (now d : Instant) :
    dueOn d (c.wait now).timed = if d ≤ now then [] else dueOn d c.timed := by
  rw [dueOn, Controls.wait, List.filter_filter]
  split
  · rename_i hle
    rw [List.filter_eq_nil_iff]
    intro t _ hboth
    rw [Bool.and_eq_true, decide_eq_true_eq, Bool.not_eq_true', decide_eq_false_iff_not] at hboth
    exact hboth.2 (hboth.1.symm ▸ hle)
  · rename_i hnot
    apply List.filter_congr
    intro t _
    by_cases hd : t.due = d
    · simp [hd, hnot]
    · simp [hd]

/-! ### The invariant -/

/-- What has run fell due before the clock was last read, and what waits falls due no earlier. -/
structure Orderly (log : List Event) (c : Controls) : Prop where
  past : ∀ t ∈ ranOf log, ∃ now ∈ ticksOf log, t.due ≤ now
  ahead : ∀ t ∈ c.timed, ∀ now ∈ ticksOf log, now ≤ t.due
  due : (ranOf log).Pairwise (·.due ≤ ·.due)
  ties : ∀ d, (dueOn d (ranOf log ++ c.timed)).Sublist (dueOn d (armedOf log))

variable {log : List Event} {c : Controls} {ied : Store} {t : Timed} {status : Reference}
  {ts : List Timed}

theorem Orderly.inOrder (h : Orderly log c) : InOrder log := by
  refine ⟨h.due, ?_⟩
  intro d
  have hties := h.ties d
  rw [dueOn_append] at hties
  exact (List.sublist_append_left _ _).trans hties

theorem orderly_new : Orderly [] .new := by
  constructor
  · intro t ht
    cases ht
  · intro t ht
    cases ht
  · exact .nil
  · intro d
    exact .slnil

/-- Events that tell of no reading of the clock, of no command that ran and of none that was accepted
to wait, while no command is added to those that wait. -/
theorem Orderly.quiet {log evs : List Event} {c c' : Controls} (h : Orderly log c)
    (hran : ranOf evs = []) (harmed : armedOf evs = []) (hticks : ticksOf evs = [])
    (htimed : c'.timed.Sublist c.timed) : Orderly (log ++ evs) c' := by
  constructor
  · rw [ranOf_append, ticksOf_append, hran, hticks, List.append_nil, List.append_nil]
    exact h.past
  · rw [ticksOf_append, hticks, List.append_nil]
    intro t ht
    exact h.ahead t (htimed.subset ht)
  · rw [ranOf_append, hran, List.append_nil]
    exact h.due
  · intro d
    rw [ranOf_append, armedOf_append, hran, harmed, List.append_nil, List.append_nil]
    exact (((List.Sublist.refl _).append htimed).filter _).trans (h.ties d)

/-- The clock is read, and what has fallen due by then runs in the order of its activation times. -/
theorem Orderly.timeout (h : Orderly log c) {now : Instant}
    (hclock : ∀ earlier ∈ ticksOf log, earlier ≤ now)
    (hsorted : (c.dueAt now).Pairwise (·.due ≤ ·.due)) (ied : Store) :
    Orderly (log ++ c.timeoutEvents ied now) (c.onTimeout ied now).1 := by
  obtain ⟨hran, harmed, hticks⟩ :=
    ranOf_runEvents_sublist ((c.expire now).wait now) ied (c.dueAt now)
  have htimed : (c.onTimeout ied now).1.timed = (c.wait now).timed :=
    (c.onTimeout_authority ied now).timed
  generalize hevs : ((c.expire now).wait now).runEvents ied (c.dueAt now) = evs at hran harmed hticks
  have hlog : log ++ c.timeoutEvents ied now = (log ++ [.tick now]) ++ evs := by
    rw [Controls.timeoutEvents, hevs, List.append_assoc]
    rfl
  have hranOf : ranOf (log ++ c.timeoutEvents ied now) = ranOf log ++ ranOf evs := by
    rw [hlog, ranOf_append, ranOf_append]
    exact congrArg (· ++ ranOf evs) (List.append_nil _)
  have harmedOf : armedOf (log ++ c.timeoutEvents ied now) = armedOf log := by
    rw [hlog, armedOf_append, armedOf_append, harmed, List.append_nil]
    exact List.append_nil _
  have hticksOf : ticksOf (log ++ c.timeoutEvents ied now) = ticksOf log ++ [now] := by
    rw [hlog, ticksOf_append, ticksOf_append, hticks, List.append_nil]
    rfl
  have hdue : ∀ t ∈ ranOf evs, t ∈ c.timed ∧ t.due ≤ now := by
    intro t ht
    obtain ⟨hmem, hle⟩ := List.mem_filter.mp (hran.subset ht)
    exact ⟨hmem, of_decide_eq_true hle⟩
  constructor
  · intro t ht
    rw [hranOf, List.mem_append] at ht
    rw [hticksOf]
    rcases ht with ht | ht
    · obtain ⟨earlier, hearlier, hle⟩ := h.past t ht
      exact ⟨earlier, List.mem_append_left _ hearlier, hle⟩
    · exact ⟨now, List.mem_append_right _ (List.mem_singleton_self now), (hdue t ht).2⟩
  · rw [htimed, hticksOf]
    intro t ht reading hreading
    obtain ⟨ht, hlater⟩ := List.mem_filter.mp ht
    rw [List.mem_append, List.mem_singleton] at hreading
    rcases hreading with hreading | rfl
    · exact h.ahead t ht reading hreading
    · rw [Bool.not_eq_true', decide_eq_false_iff_not] at hlater
      exact Nat.le_of_lt (Nat.lt_of_not_le hlater)
  · rw [hranOf]
    refine List.pairwise_append.mpr ⟨h.due, hsorted.sublist hran, ?_⟩
    intro t ht t' ht'
    obtain ⟨earlier, hearlier, hle⟩ := h.past t ht
    exact hle.trans (h.ahead t' (hdue t' ht').1 earlier hearlier)
  · intro d
    rw [hranOf, harmedOf, htimed, List.append_assoc, dueOn_append]
    refine List.Sublist.trans ?_ (h.ties d)
    rw [dueOn_append d (ranOf log) c.timed]
    refine (List.Sublist.refl _).append ?_
    have hpart : (dueOn d (ranOf evs)).Sublist (dueOn d (c.dueAt now)) := hran.filter _
    rw [dueOn_dueAt] at hpart
    rw [dueOn_append, dueOn_wait]
    -- all commands of one time have fallen due, or none
    by_cases hd : d ≤ now
    · rw [if_pos hd] at hpart
      rw [if_pos hd, List.append_nil]
      exact hpart
    · rw [if_neg hd, List.sublist_nil] at hpart
      rw [if_neg hd, hpart, List.nil_append]

/-- A command is accepted to wait, for a time that the clock has not passed. -/
theorem Orderly.arm {log : List Event} {c : Controls} (h : Orderly log c) {t : Timed}
    (hahead : ∀ now ∈ ticksOf log, now ≤ t.due) (assoc : AssocId) (object : Reference)
    (request : ControlRequest) (model : ControlModel) :
    Orderly (log ++ [.operated object assoc request model (some t)]) (c.arm t) := by
  have hranOf : ranOf (log ++ [.operated object assoc request model (some t)]) = ranOf log := by
    rw [ranOf_append]
    exact List.append_nil _
  have hticksOf : ticksOf (log ++ [.operated object assoc request model (some t)]) =
      ticksOf log := by
    rw [ticksOf_append]
    exact List.append_nil _
  constructor
  · rw [hranOf, hticksOf]
    exact h.past
  · rw [hticksOf]
    intro t' ht'
    rw [Controls.arm, List.mem_append, List.mem_singleton] at ht'
    rcases ht' with ht' | rfl
    · exact h.ahead t' (List.mem_filter.mp ht').1
    · exact hahead
  · rw [hranOf]
    exact h.due
  · intro d
    have hone : armedOf [.operated object assoc request model (some t)] = [t] := rfl
    rw [hranOf, armedOf_append, hone, Controls.arm, ← List.append_assoc, dueOn_append,
      dueOn_append d (armedOf log)]
    refine List.Sublist.append ?_ (List.Sublist.refl _)
    refine List.Sublist.trans ?_ (h.ties d)
    exact ((List.Sublist.refl _).append List.filter_sublist).filter _

/-! ### Every action -/

theorem Orderly.serve (h : Orderly log c) {now : Now} (hmono : now.mono ≤ u64Max)
    (hclock : ∀ earlier ∈ ticksOf log, earlier ≤ now.mono) (assoc : AssocId) (ied : Store)
    (object : Reference) (a : Attribute) (request : ControlRequest) (model : ControlModel) :
    Orderly (log ++ c.serveEvents assoc ied object a request model now)
      (c.serve assoc ied object a request model now).1 := by
  have hrefused : ∀ stage cause,
      Orderly (log ++ []) (c.refuse assoc object request model stage cause).1 := by
    intro stage cause
    apply h.quiet rfl rfl rfl
    rw [(c.sameAuthority_refuse assoc object request model stage cause).timed]
  unfold Controls.serveEvents Controls.serve
  cases hrefusal : Controls.writeRefusal ied object a request with
  | some cause =>
    rw [Option.isSome_some, if_pos rfl]
    exact hrefused _ _
  | none =>
    rw [Option.isSome_none, if_neg (by decide)]
    cases a with
    | oper =>
      dsimp only
      unfold Controls.operate
      cases hoper : c.operRefusal assoc object request model with
      | some cause =>
        rw [Option.isSome_some, if_pos rfl]
        exact hrefused _ _
      | none =>
        rw [Option.isSome_none, if_neg (by decide)]
        dsimp only
        cases hwait : Controls.waitOf request now with
        | some wait =>
          -- the command falls due after the moment it was accepted
          have hremoved : Orderly log (c.remove object) := by
            have hquiet := @Orderly.quiet log [] c (c.remove object) h rfl rfl rfl
              (List.Sublist.refl _)
            rw [List.append_nil] at hquiet
            exact hquiet
          apply hremoved.arm
          intro earlier hearlier
          refine (hclock earlier hearlier).trans ?_
          exact Nat.le_min.mpr ⟨hmono, Nat.le_add_right _ _⟩
        | none =>
          dsimp only
          split
          · exact h.quiet rfl rfl rfl (List.Sublist.refl _)
          · exact h.quiet rfl rfl rfl (List.Sublist.refl _)
    | sbow =>
      dsimp only
      unfold Controls.selectWithValue
      cases hsbow : c.sbowRefusal assoc object request model now with
      | some cause =>
        rw [Option.isSome_some, if_pos rfl]
        exact hrefused _ _
      | none =>
        rw [Option.isSome_none, if_neg (by decide)]
        exact h.quiet rfl rfl rfl (List.Sublist.refl _)
    | sbo => exact h.quiet rfl rfl rfl (List.Sublist.refl _)
    | cancel =>
      dsimp only
      rcases cancel_cases c assoc object request model with
        ⟨code, ts, hresult, hts, hsame⟩ | ⟨hresult, htimed, -⟩
      · rw [hresult]
        apply h.quiet rfl rfl rfl
        rw [hsame.timed]
        exact hts
      · rw [hresult]
        apply h.quiet rfl rfl rfl
        rw [htimed]
        exact List.filter_sublist

theorem Orderly.next {s : System} (h : Orderly log s.controls) {x : Action}
    (hx : Punctual (s, log) x) : Orderly (log ++ events s x) (s.next x).controls := by
  obtain ⟨hmonotonic, hsorted⟩ := hx
  have hclock : ∀ now, x.clock = some now →
      now ≤ u64Max ∧ ∀ earlier ∈ ticksOf log, earlier ≤ now := by
    intro now hnow
    rw [Monotonic, hnow, Option.all_some, Bool.and_eq_true, decide_eq_true_eq,
      List.all_eq_true] at hmonotonic
    exact ⟨hmonotonic.1, fun earlier hearlier => of_decide_eq_true (hmonotonic.2 earlier hearlier)⟩
  cases x with
  | select assoc object now =>
    rw [events, System.next, Controls.select]
    dsimp only
    split
    · exact h.quiet rfl rfl rfl (List.Sublist.refl _)
    · exact h.quiet rfl rfl rfl (List.Sublist.refl _)
  | write assoc object a value now =>
    obtain ⟨hmono, hearlier⟩ := hclock now.mono rfl
    rw [events, System.next, Controls.writeEvents, Controls.write]
    cases modelOf s.ied object with
    | none => exact h.quiet rfl rfl rfl (List.Sublist.refl _)
    | some model =>
      cases ControlRequest.fromValue value with
      | error e => exact h.quiet rfl rfl rfl (List.Sublist.refl _)
      | ok request =>
        have htimeout := h.timeout hearlier (hsorted now.mono rfl) s.ied
        dsimp only
        rw [← List.append_assoc]
        refine htimeout.serve hmono ?_ assoc _ object a request model
        intro earlier hmem
        rw [ticksOf_append, Controls.timeoutEvents, List.mem_append] at hmem
        rcases hmem with hmem | hmem
        · exact hearlier earlier hmem
        · have hone := (ranOf_runEvents_sublist ((s.controls.expire now.mono).wait now.mono)
            s.ied (s.controls.dueAt now.mono)).2.2
          rw [← List.singleton_append, ticksOf_append, hone, List.append_nil] at hmem
          exact Nat.le_of_eq (List.mem_singleton.mp hmem)
  | timeout now =>
    obtain ⟨-, hearlier⟩ := hclock now rfl
    exact h.timeout hearlier (hsorted now rfl) s.ied
  | closed assoc => exact h.quiet rfl rfl rfl List.filter_sublist
  | store ied => exact h.quiet rfl rfl rfl (List.Sublist.refl _)
  | onControl hook => exact h.quiet rfl rfl rfl (List.Sublist.refl _)
  | setSboTimeoutMs ms => exact h.quiet rfl rfl rfl (List.Sublist.refl _)
  | takePending => exact h.quiet rfl rfl rfl (List.Sublist.refl _)
  | takeLastCause => exact h.quiet rfl rfl rfl (List.Sublist.refl _)

/-! ### The status an object ends with -/

/-- A command writes into the status of its own object only, and only when it runs. -/
theorem runTimed_values_other {object : Reference}
    (hstatus : statusOf object (ascii "stVal") = some status)
    (h : c.timedEvent ied t = .ran t → t.object ≠ object) :
    (c.runTimed ied t).2.values status = ied.values status := by
  unfold Controls.timedEvent at h
  unfold Controls.runTimed
  cases hrefusal : c.timedRefusal ied t with
  | some cause => rfl
  | none =>
    rw [hrefusal] at h
    have hother := @apply_values_other ied t.object object t.request t.request.t status
      (h rfl) hstatus
    dsimp only
    split
    · exact hother
    · exact hother

theorem runTimed_values_ran (hstatus : statusOf t.object (ascii "stVal") = some status)
    (hran : c.timedEvent ied t = .ran t) (htakes : ied.takes status t.request.ctlVal = true) :
    (c.runTimed ied t).2.values status = some t.request.ctlVal := by
  have heffect := effect_apply ied t.object t.request t.request.t status hstatus
  rw [if_pos htakes] at heffect
  unfold Controls.timedEvent at hran
  unfold Controls.runTimed
  cases hrefusal : c.timedRefusal ied t with
  | some cause =>
    rw [hrefusal] at hran
    cases hran
  | none =>
    dsimp only
    split
    · exact heffect
    · exact heffect

theorem mem_of_ran (h : .ran t ∈ c.runEvents ied ts) : t ∈ ts :=
  (ranOf_runEvents_sublist c ied ts).1.subset (List.mem_filterMap.mpr ⟨.ran t, h, rfl⟩)

theorem runAll_values_other {object : Reference}
    (hstatus : statusOf object (ascii "stVal") = some status)
    (h : ∀ t, .ran t ∈ c.runEvents ied ts → t.object ≠ object) :
    (Controls.runAll c ied ts).2.values status = ied.values status := by
  induction ts generalizing c ied with
  | nil => rfl
  | cons t ts ih =>
    rw [Controls.runEvents] at h
    rw [Controls.runAll]
    dsimp only
    rw [ih fun t' ht' => h t' (List.mem_cons_of_mem _ ht')]
    apply runTimed_values_other hstatus
    intro hran
    exact h t (hran ▸ List.mem_cons_self)

/-- Of commands that run in the order of their activation times, the latest-due one for an object
leaves its value in the object's status. -/
theorem runAll_values_latest (hsorted : ts.Pairwise (·.due ≤ ·.due))
    (hran : .ran t ∈ c.runEvents ied ts)
    (hlatest : ∀ t', .ran t' ∈ c.runEvents ied ts → t'.object = t.object →
      t' = t ∨ t'.due < t.due) (hstatus : statusOf t.object (ascii "stVal") = some status)
    (htakes : ied.takes status t.request.ctlVal = true) :
    (Controls.runAll c ied ts).2.values status = some t.request.ctlVal := by
  induction ts generalizing c ied with
  | nil => cases hran
  | cons first ts ih =>
    obtain ⟨hfirst, hrest⟩ := List.pairwise_cons.mp hsorted
    rw [Controls.runEvents] at hran hlatest
    rw [Controls.runAll]
    dsimp only
    by_cases hlater : .ran t ∈ Controls.runEvents (c.runTimed ied first).1
        (c.runTimed ied first).2 ts
    · refine ih hrest hlater ?_ ?_
      · intro t' ht'
        exact hlatest t' (List.mem_cons_of_mem _ ht')
      · rw [runTimed_takes]
        exact htakes
    · -- it is the first one, and no other command for the object runs after it
      rw [List.mem_cons] at hran
      have hnow := (hran.resolve_right hlater).symm
      have hsame : first = t := by
        unfold Controls.timedEvent at hnow
        split at hnow
        · cases hnow
        · cases hnow
          rfl
      subst hsame
      rw [runAll_values_other hstatus]
      · exact runTimed_values_ran hstatus hnow htakes
      · intro t' ht' hobject
        rcases hlatest t' (List.mem_cons_of_mem _ ht') hobject with rfl | hlt
        · exact hlater ht'
        · exact absurd hlt (Nat.not_lt.mpr (hfirst t' (mem_of_ran ht')))

theorem settles_of_sorted {s : System} {now : Instant}
    (h : (s.controls.dueAt now).Pairwise (·.due ≤ ·.due)) : Settles s now := by
  intro t hran hlatest status hstatus htakes
  have hmem : ∀ t', .ran t' ∈ events s (.timeout now) →
      .ran t' ∈ Controls.runEvents ((s.controls.expire now).wait now) s.ied
        (s.controls.dueAt now) := by
    intro t' ht'
    rw [events, Controls.timeoutEvents, List.mem_cons] at ht'
    exact ht'.resolve_left (by rintro ⟨⟩)
  refine runAll_values_latest h (hmem t hran) ?_ hstatus htakes
  intro t' ht'
  exact hlatest t' (List.mem_cons_of_mem _ ht')

/-! ### Runs -/

/-- In every run on a monotonic clock in which whatever falls due by the time the clock is read was
accepted in the order of its activation times, commands take effect in the order of their
activation times, those of one time in the order they were accepted; and at such a timeout the
status of an object ends as the latest-due command for it that ran wants it. -/
theorem run_inOrder (ied : Store) {xs : List Action} {s : System}
    (hxs : Meets (journaled step events) Punctual (⟨.new, ied⟩, []) xs)
    (hrun : run step ⟨.new, ied⟩ xs = some s) : InOrder (journal step events ⟨.new, ied⟩ xs) ∧
    ∀ now, (s.controls.dueAt now).Pairwise (·.due ≤ ·.due) → Settles s now := by
  constructor
  · have horderly := journaled_run (J := fun log s => Orderly log s.controls)
      (fun log s x s' hs hx hstep => by
        cases hstep
        exact hs.next hx)
      orderly_new hxs hrun
    exact horderly.inOrder
  · intro now hsorted
    exact settles_of_sorted hsorted

/-- Two clients close and open a switch, at these seconds from the start, and the clock is next read
when both commands have fallen due. -/
def closeAndOpen (closing opening : Nat) : List Action :=
  [.write 1 position .oper (operAt true closing).toValue (atSecond 0),
    .write 2 position .oper (operAt false opening).toValue (atSecond 0),
    .timeout (atSecond 90).mono]

/-- The switch is closed after half a minute and opened after a minute, by commands accepted in that
order. -/
theorem run_inOrder_opened :
    let s₀ : System := ⟨.new, switchgear 1 .boolean⟩
    let s := ((s₀.next (.write 1 position .oper (operAt true 30).toValue (atSecond 0))).next
      (.write 2 position .oper (operAt false 60).toValue (atSecond 0))).next
      (.timeout (atSecond 90).mono)
    InOrder (journal step events s₀ (closeAndOpen 30 60)) ∧
    ∀ now, (s.controls.dueAt now).Pairwise (·.due ≤ ·.due) → Settles s now := by
  exact run_inOrder (switchgear 1 .boolean) (by decide +kernel) rfl

/-- The switch is to open after half a minute and to close after a minute, but the closing command was
accepted first: when both have fallen due it runs first, and the switch ends open. -/
theorem accepted_first_runs_first : ¬ ∀ (ied : Store) (xs : List Action),
      Meets (journaled step events) Monotonic (⟨.new, ied⟩, []) xs →
      InOrder (journal step events ⟨.new, ied⟩ xs) := by
  intro hclaim
  have horder := hclaim (switchgear 1 .boolean) (closeAndOpen 60 30) (by decide +kernel)
  have hdue : (ranOf (journal step events ⟨.new, switchgear 1 .boolean⟩
      (closeAndOpen 60 30))).map (·.due) = [60000000000, 30000000000] := by
    decide +kernel
  have hpairs := List.pairwise_map.mpr horder.due
  rw [hdue] at hpairs
  exact absurd hpairs (by decide)

end Iec61850.Server.Control
