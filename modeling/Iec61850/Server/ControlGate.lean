import Iec61850.Server.ControlAuthority
import Iec61850.Server.ControlEffect

/-!
# The gate before the process

Every command that is applied to the model, with what the logical node and the application say at
that moment, and the acceptance of the `Oper` it goes back to.
-/

namespace Iec61850.Server.Control

open Theory Mms

/-! ### Applications -/

/-- A command that is applied: the hook that is in place, and the values it is applied to. -/
structure Application where
  assoc : AssocId
  object : Reference
  request : ControlRequest
  model : ControlModel
  wall : UtcTime
  hook : Option ControlHook
  ied : Store

namespace Application

variable (a : Application)

/-- The values after it. -/
def after : Store := apply a.ied a.object a.request a.wall

/-- The node takes commands, and those of this kind; the hook accepts this one. -/
structure Passes : Prop where
  commands : (behaviourOf a.ied a.object).acceptsCommands = true
  test : a.request.test = (behaviourOf a.ied a.object).isTest
  accepted : ∀ hook, a.hook = some hook → hook ⟨a.object, .operate, a.request, a.model⟩ = .ok ()

end Application

/-- What a step shows of the commands: an `Oper` that passes every check, with the values of that
moment, and the applications. -/
inductive Moment where
  | accepted (assoc : AssocId) (object : Reference) (request : ControlRequest)
      (model : ControlModel) (ied : Store)
  | applied (a : Application)

namespace Controls

variable (c : Controls)

/-- The command of a client that waited. -/
def timedApplication (ied : Store) (t : Timed) : Application :=
  ⟨t.assoc, t.object, t.request, t.model, t.request.t, c.hook, ied⟩

/-- What the loop of `on_timeout` applies. -/
def runMoments : Controls → Store → List Timed → List Moment
  | _, _, [] => []
  | c, ied, t :: ts =>
    (if (c.timedRefusal ied t).isSome then [] else [.applied (c.timedApplication ied t)]) ++
      runMoments (c.runTimed ied t).1 (c.runTimed ied t).2 ts

def timeoutMoments (ied : Store) (now : Instant) : List Moment :=
  runMoments ((c.expire now).wait now) ied (c.dueAt now)

/-- An `Oper` is accepted, and applied unless it waits. -/
def operMoments (assoc : AssocId) (ied : Store) (object : Reference) (request : ControlRequest)
    (model : ControlModel) (now : Now) : List Moment :=
  if (writeRefusal ied object .oper request).isSome ||
      (c.operRefusal assoc object request model).isSome then []
  else
    .accepted assoc object request model ied ::
      if (waitOf request now).isSome then []
      else [.applied ⟨assoc, object, request, model, now.wall, c.hook, ied⟩]

def writeMoments (assoc : AssocId) (ied : Store) (object : Reference) (a : Attribute)
    (value : Value) (now : Now) : List Moment :=
  match modelOf ied object, ControlRequest.fromValue value with
  | some model, .ok request =>
    c.timeoutMoments ied now.mono ++
      if a = .oper then
        (c.onTimeout ied now.mono).1.operMoments assoc (c.onTimeout ied now.mono).2 object
          request model now
      else []
  | _, _ => []

end Controls

def moments (s : System) : Action → List Moment
  | .write assoc object a value now => s.controls.writeMoments assoc s.ied object a value now
  | .timeout now => s.controls.timeoutMoments s.ied now
  | .select _ _ _ | .closed _ | .store _ | .onControl _ | .setSboTimeoutMs _ | .takePending
  | .takeLastCause => []

/-! ### The served values -/

/-- The values go from one moment to the next, and nothing but the applications changes them. -/
def Through (hook : Option ControlHook) : List Moment → Store → Store → Prop
  | [], ied, ied' => ied' = ied
  | .accepted _ _ _ _ at' :: ms, ied, ied' => at' = ied ∧ Through hook ms ied ied'
  | .applied a :: ms, ied, ied' => a.ied = ied ∧ a.hook = hook ∧ Through hook ms a.after ied'

theorem through_append {hook : Option ControlHook} {ms ms' : List Moment} {ied mid ied' : Store}
    (h : Through hook ms ied mid) (h' : Through hook ms' mid ied') :
    Through hook (ms ++ ms') ied ied' := by
  induction ms generalizing ied with
  | nil =>
    rw [Through] at h
    rw [List.nil_append, ← h]
    exact h'
  | cons m ms ih =>
    rw [List.cons_append]
    cases m with
    | accepted assoc object request model at' => exact ⟨h.1, ih h.2⟩
    | applied a => exact ⟨h.1, h.2.1, ih h.2.2⟩

namespace Controls

variable (c : Controls)

theorem runAll_hook (ied : Store) (ts : List Timed) :
    (runAll c ied ts).1.hook = c.hook := by
  induction ts generalizing c ied with
  | nil => rfl
  | cons t ts ih => exact (ih _ _).trans (c.runTimed_hook ied t)

theorem runTimed_ied {c : Controls} {ied : Store} {t : Timed} (h : c.timedRefusal ied t = none) :
    (c.runTimed ied t).2 = (c.timedApplication ied t).after := by
  unfold runTimed
  rw [h]
  dsimp only
  split
  · rfl
  · rfl

theorem runTimed_ied_of_refused {c : Controls} {ied : Store} {t : Timed} {cause : AddCause}
    (h : c.timedRefusal ied t = some cause) : (c.runTimed ied t).2 = ied := by
  unfold runTimed
  rw [h]

theorem through_runMoments (ied : Store) (ts : List Timed) :
    Through c.hook (runMoments c ied ts) ied (runAll c ied ts).2 := by
  induction ts generalizing c ied with
  | nil => rfl
  | cons t ts ih =>
    have hrest := ih (c.runTimed ied t).1 (c.runTimed ied t).2
    rw [runTimed_hook] at hrest
    rw [runMoments, runAll]
    apply through_append _ hrest
    cases hrefusal : c.timedRefusal ied t with
    | some cause =>
      rw [Option.isSome_some, if_pos rfl, runTimed_ied_of_refused hrefusal]
      rfl
    | none =>
      rw [Option.isSome_none, if_neg (by decide), runTimed_ied hrefusal]
      exact ⟨rfl, rfl, rfl⟩

theorem through_timeout (ied : Store) (now : Instant) :
    Through c.hook (c.timeoutMoments ied now) ied (c.onTimeout ied now).2 :=
  through_runMoments ((c.expire now).wait now) ied (c.dueAt now)

/-- A service leaves the values alone, but for an `Oper` that is accepted and does not wait. -/
theorem through_serve (assoc : AssocId) (ied : Store) (object : Reference)
    (a : Attribute) (request : ControlRequest) (model : ControlModel) (now : Now) :
    Through c.hook (if a = .oper then c.operMoments assoc ied object request model now else [])
      ied (c.serve assoc ied object a request model now).2.1 := by
  unfold serve operMoments
  cases hmode : writeRefusal ied object a request with
  | some cause =>
    by_cases ha : a = .oper
    · subst ha
      rw [if_pos rfl, hmode, Option.isSome_some, Bool.true_or, if_pos rfl]
      rfl
    · rw [if_neg ha]
      rfl
  | none =>
    cases a with
    | oper =>
      rw [if_pos rfl, hmode, Option.isSome_none, Bool.false_or]
      dsimp only
      unfold operate
      cases hoper : c.operRefusal assoc object request model with
      | some cause =>
        rw [Option.isSome_some, if_pos rfl]
        rfl
      | none =>
        rw [Option.isSome_none, if_neg (by decide)]
        refine ⟨rfl, ?_⟩
        dsimp only
        cases hwait : waitOf request now with
        | some wait =>
          rw [Option.isSome_some, if_pos rfl]
          rfl
        | none =>
          rw [Option.isSome_none, if_neg (by decide)]
          refine ⟨rfl, rfl, ?_⟩
          dsimp only
          split
          · rfl
          · rfl
    | sbow => rfl
    | sbo => rfl
    | cancel => rfl

theorem onTimeout_hook (ied : Store) (now : Instant) :
    (c.onTimeout ied now).1.hook = c.hook :=
  runAll_hook ((c.expire now).wait now) ied (c.dueAt now)

end Controls

/-- The engine changes the served values only by applying commands, each to the values that are left
by the one before it and under the hook in place. -/
theorem through_next {s : System} {x : Action} (hx : ∀ ied, x ≠ .store ied) :
    Through s.controls.hook (moments s x) s.ied (s.next x).ied := by
  cases x with
  | write assoc object a value now =>
    rw [moments, Controls.writeMoments, System.next, Controls.write]
    cases hmodel : modelOf s.ied object with
    | none => rfl
    | some model =>
      cases hrequest : ControlRequest.fromValue value with
      | error e => rfl
      | ok request =>
        dsimp only
        apply through_append (s.controls.through_timeout s.ied now.mono)
        have hserve := (s.controls.onTimeout s.ied now.mono).1.through_serve assoc
          (s.controls.onTimeout s.ied now.mono).2 object a request model now
        rw [Controls.onTimeout_hook] at hserve
        exact hserve
  | timeout now => exact s.controls.through_timeout s.ied now
  | store ied => exact absurd rfl (hx ied)
  | select assoc object now => rfl
  | closed assoc => rfl
  | onControl hook => rfl
  | setSboTimeoutMs ms => rfl
  | takePending => rfl
  | takeLastCause => rfl
/-! ### The control model of an object -/

theorem writeStatus_values_configuration (ied : Store) (object : Reference) (name : Bytes)
    (value : Value) (domain ln : Bytes) (path : List Bytes) :
    (writeStatus ied object name value).values ⟨domain, ln :: ascii "CF" :: path⟩ =
      ied.values ⟨domain, ln :: ascii "CF" :: path⟩ := by
  apply writeStatus_values_ne
  intro hstatus
  unfold statusOf at hstatus
  rw [Option.map_eq_some_iff] at hstatus
  obtain ⟨⟨ln', path'⟩, _, heq⟩ := hstatus
  simp only [Reference.mk.injEq, List.cons.injEq] at heq
  exact absurd heq.2.2.1 (by decide)

theorem modelOf_apply (ied : Store) (object object' : Reference) (request : ControlRequest)
    (wall : UtcTime) : modelOf (apply ied object request wall) object' = modelOf ied object' := by
  unfold modelOf
  cases controlPath object' with
  | none => rfl
  | some p =>
    dsimp only [Option.bind_eq_bind, Option.bind_some]
    rw [apply, writeStatus_values_configuration, writeStatus_values_configuration]

theorem modelOf_runTimed (c : Controls) (ied : Store) (t : Timed) (object : Reference) :
    modelOf (c.runTimed ied t).2 object = modelOf ied object := by
  cases hrefusal : c.timedRefusal ied t with
  | some cause => rw [Controls.runTimed_ied_of_refused hrefusal]
  | none =>
    rw [Controls.runTimed_ied hrefusal]
    exact modelOf_apply _ _ _ _ _

theorem modelOf_runAll (c : Controls) (ied : Store) (ts : List Timed) (object : Reference) :
    modelOf (Controls.runAll c ied ts).2 object = modelOf ied object := by
  induction ts generalizing c ied with
  | nil => rfl
  | cons t ts ih => exact (ih _ _).trans (modelOf_runTimed c ied t object)

/-! ### Every application passes the gate -/

theorem passes_of_checks {a : Application} {c : Controls} (hhook : a.hook = c.hook)
    (hmode : modeRefusal (behaviourOf a.ied a.object) a.request.test = none)
    (hasked : causeOf (c.ask a.object .operate a.request a.model) = none) : a.Passes := by
  unfold modeRefusal at hmode
  split at hmode
  · cases hmode
  · rename_i hcommands
    split at hmode
    · cases hmode
    · rename_i htest
      refine ⟨by simpa using hcommands, by simpa using htest, ?_⟩
      intro hook hsome
      rw [Controls.ask, ← hhook, hsome] at hasked
      dsimp only at hasked
      cases hanswer : hook ⟨a.object, .operate, a.request, a.model⟩ with
      | error cause =>
        rw [hanswer] at hasked
        cases hasked
      | ok u => rfl

/-- An acceptance that the command goes back to: the time of acceptance is what it is stamped with. -/
def AcceptedIn (log : List Moment) (assoc : AssocId) (object : Reference) (request : ControlRequest)
    (model : ControlModel) : Prop :=
  ∃ asked ied wall, .accepted assoc object asked model ied ∈ log ∧ request = { asked with t := wall }

/-- What each moment rests on: the control model of the object, when an `Oper` is accepted; an
`Oper` that was accepted, the node and the application, when a command is applied. -/
def Gated (log : List Moment) : Moment → Prop
  | .accepted _ object _ model ied => modelOf ied object = some model ∧ model ≠ .statusOnly
  | .applied a => a.Passes ∧ AcceptedIn log a.assoc a.object a.request a.model

/-- Every command that waits was accepted. -/
def Armed (log : List Moment) (c : Controls) : Prop :=
  ∀ t ∈ c.timed, AcceptedIn log t.assoc t.object t.request t.model

theorem AcceptedIn.mono {log log' : List Moment} {assoc : AssocId} {object : Reference}
    {request : ControlRequest} {model : ControlModel}
    (h : AcceptedIn log assoc object request model) (hsub : log ⊆ log') :
    AcceptedIn log' assoc object request model := by
  obtain ⟨asked, ied, wall, hmem, heq⟩ := h
  exact ⟨asked, ied, wall, hsub hmem, heq⟩

theorem Armed.mono {log log' : List Moment} {c c' : Controls} (h : Armed log c)
    (hsub : log ⊆ log') (htimed : c'.timed ⊆ c.timed) : Armed log' c' := by
  intro t ht
  exact (h t (htimed ht)).mono hsub

namespace Controls

/-- What the loop of `on_timeout` applies passes the gate. -/
theorem gated_runMoments {c : Controls} {ied : Store} {ts : List Timed} {log : List Moment}
    (h : ∀ t ∈ ts, AcceptedIn log t.assoc t.object t.request t.model) :
    ∀ m ∈ runMoments c ied ts, ∀ log', log ⊆ log' → Gated log' m := by
  induction ts generalizing c ied with
  | nil =>
    intro m hm
    cases hm
  | cons t ts ih =>
    rw [List.forall_mem_cons] at h
    obtain ⟨hfirst, hrest⟩ := h
    intro m hm log' hsub
    rw [runMoments, List.mem_append] at hm
    rcases hm with hm | hm
    · cases hrefusal : c.timedRefusal ied t with
      | some cause =>
        rw [hrefusal, Option.isSome_some, if_pos rfl] at hm
        cases hm
      | none =>
        rw [hrefusal, Option.isSome_none, if_neg (by decide), List.mem_singleton] at hm
        subst hm
        unfold timedRefusal at hrefusal
        rw [Option.or_eq_none_iff] at hrefusal
        refine ⟨passes_of_checks (c := c) rfl hrefusal.1 hrefusal.2, ?_⟩
        exact hfirst.mono hsub
    · exact ih hrest m hm log' hsub

theorem timed_of_mem_onTimeout {c : Controls} {ied : Store} {now : Instant} :
    (c.onTimeout ied now).1.timed ⊆ c.timed := by
  rw [(c.onTimeout_authority ied now).timed]
  exact List.filter_subset_self _

/-- What an `Oper` shows passes the gate, each moment with those before it. -/
theorem gated_operMoments {c : Controls} {assoc : AssocId} {ied : Store} {object : Reference}
    {request : ControlRequest} {model : ControlModel} {now : Now}
    (hmodel : modelOf ied object = some model) (log : List Moment) :
    ∀ pre m, pre ++ [m] <+: c.operMoments assoc ied object request model now →
      Gated (log ++ pre) m := by
  intro pre m hbegins
  unfold operMoments at hbegins
  split at hbegins
  · simp at hbegins
  · rename_i hpassed
    rw [Bool.or_eq_true, not_or, Bool.not_eq_true, Bool.not_eq_true, Option.isSome_eq_false_iff,
      Option.isSome_eq_false_iff, Option.isNone_iff_eq_none, Option.isNone_iff_eq_none] at hpassed
    obtain ⟨hmode, hoper⟩ := hpassed
    have hmode' : modeRefusal (behaviourOf ied object) request.test = none := hmode
    unfold operRefusal at hoper
    split at hoper
    · cases hoper
    · rename_i hstatus
      rw [Option.or_eq_none_iff] at hoper
      rcases pre with _ | ⟨first, pre⟩
      · -- the acceptance
        rw [List.nil_append, List.cons_prefix_cons] at hbegins
        rw [hbegins.1]
        exact ⟨hmodel, hstatus⟩
      · rw [List.cons_append, List.cons_prefix_cons] at hbegins
        obtain ⟨rfl, hbegins⟩ := hbegins
        split at hbegins
        · simp at hbegins
        · -- the application follows the acceptance
          rcases pre with _ | ⟨second, pre⟩
          · rw [List.nil_append, List.cons_prefix_cons] at hbegins
            rw [hbegins.1]
            refine ⟨passes_of_checks (c := c) rfl hmode' hoper.2, request, ied, request.t, ?_, rfl⟩
            exact List.mem_append_right _ (List.mem_singleton_self _)
          · simp at hbegins

end Controls

/-! ### Every action -/

variable {log : List Moment} {c : Controls}

theorem Armed.refuse (h : Armed log c) (assoc : AssocId) (object : Reference)
    (request : ControlRequest) (model : ControlModel) (stage : Stage) (cause : AddCause) :
    Armed log (c.refuse assoc object request model stage cause).1 := by
  apply h.mono (List.Subset.refl log)
  rw [(c.sameAuthority_refuse assoc object request model stage cause).timed]
  exact List.Subset.refl _

theorem Armed.operate (h : Armed log c) (assoc : AssocId) {ied : Store} {object : Reference}
    {request : ControlRequest} {model : ControlModel} {now : Now}
    (hmode : Controls.writeRefusal ied object .oper request = none) :
    Armed (log ++ c.operMoments assoc ied object request model now)
      (c.operate assoc ied object request model now).1 := by
  unfold Controls.operMoments Controls.operate
  rw [hmode, Option.isSome_none, Bool.false_or]
  cases hoper : c.operRefusal assoc object request model with
  | some cause =>
    rw [Option.isSome_some, if_pos rfl, List.append_nil]
    exact h.refuse assoc object request model .operate cause
  | none =>
    rw [Option.isSome_none, if_neg (by decide)]
    dsimp only
    cases hwait : Controls.waitOf request now with
    | some wait =>
      intro t ht
      rcases List.mem_append.mp ht with ht | ht
      · exact (h t (List.mem_of_mem_filter ht)).mono (List.subset_append_left _ _)
      · rw [List.mem_singleton.mp ht]
        refine ⟨request, ied, now.wall, ?_, rfl⟩
        exact List.mem_append_right _ List.mem_cons_self
    | none =>
      apply h.mono (List.subset_append_left _ _)
      intro t ht
      dsimp only at ht
      split at ht
      · exact ht
      · exact ht

theorem Armed.serve (h : Armed log c) (assoc : AssocId) (ied : Store) (object : Reference)
    (a : Attribute) (request : ControlRequest) (model : ControlModel) (now : Now) :
    Armed (log ++ if a = .oper then c.operMoments assoc ied object request model now else [])
      (c.serve assoc ied object a request model now).1 := by
  unfold Controls.serve
  cases hmode : Controls.writeRefusal ied object a request with
  | some cause =>
    apply (h.refuse assoc object request model a.stage cause).mono
    · exact List.subset_append_left _ _
    · exact List.Subset.refl _
  | none =>
    cases a with
    | oper =>
      rw [if_pos rfl]
      exact h.operate assoc hmode
    | sbow =>
      rw [if_neg (by decide), List.append_nil]
      dsimp only
      unfold Controls.selectWithValue
      split
      · exact h.refuse assoc object request model .select _
      · exact h.mono (List.Subset.refl _) (List.Subset.refl _)
    | sbo =>
      rw [if_neg (by decide), List.append_nil]
      exact h
    | cancel =>
      rw [if_neg (by decide), List.append_nil]
      apply h.mono (List.Subset.refl _)
      intro t ht
      rcases cancel_cases c assoc object request model with
        ⟨code, ts, -, hts, hsame⟩ | ⟨-, htimed, -⟩
      · dsimp only at ht
        rw [hsame.timed] at ht
        exact hts.subset ht
      · dsimp only at ht
        rw [htimed] at ht
        exact (mem_othersOf ht).1

theorem Armed.timeout (h : Armed log c) (ied : Store) (now : Instant) :
    Armed (log ++ c.timeoutMoments ied now) (c.onTimeout ied now).1 :=
  h.mono (List.subset_append_left _ _) Controls.timed_of_mem_onTimeout

theorem gated_timeout (h : Armed log c) (hlog : Justified Gated log) (ied : Store) (now : Instant) :
    Justified Gated (log ++ c.timeoutMoments ied now) := by
  apply justified_append hlog
  intro pre m hbegins
  have hdue : ∀ t ∈ c.dueAt now, AcceptedIn log t.assoc t.object t.request t.model := by
    intro t ht
    exact h t (List.mem_of_mem_filter ht)
  have hmem : m ∈ c.timeoutMoments ied now :=
    hbegins.subset (List.mem_append_right pre (List.mem_singleton_self m))
  exact Controls.gated_runMoments hdue m hmem _ (List.subset_append_left _ _)

/-- One action keeps the invariant of the commands that wait, and what it shows passes the gate. -/
theorem gated_next {s : System} (h : Armed log s.controls) (hlog : Justified Gated log)
    (x : Action) :
    Armed (log ++ moments s x) (s.next x).controls ∧ Justified Gated (log ++ moments s x) := by
  have hquiet : ∀ {c : Controls}, c.timed ⊆ s.controls.timed →
      Armed (log ++ []) c ∧ Justified Gated (log ++ []) := by
    intro c hsub
    rw [List.append_nil]
    exact ⟨h.mono (List.Subset.refl _) hsub, hlog⟩
  cases x with
  | write assoc object a value now =>
    rw [moments, Controls.writeMoments, System.next, Controls.write]
    cases hmodel : modelOf s.ied object with
    | none => exact hquiet (List.Subset.refl _)
    | some model =>
      cases hrequest : ControlRequest.fromValue value with
      | error e => exact hquiet (List.Subset.refl _)
      | ok request =>
        dsimp only
        rw [← List.append_assoc]
        refine ⟨(h.timeout s.ied now.mono).serve assoc _ object a request model now, ?_⟩
        apply justified_append (gated_timeout h hlog s.ied now.mono)
        intro pre m hbegins
        split at hbegins
        · apply Controls.gated_operMoments _ _ pre m hbegins
          exact (modelOf_runAll _ _ _ _).trans hmodel
        · simp at hbegins
  | timeout now => exact ⟨h.timeout s.ied now, gated_timeout h hlog s.ied now⟩
  | select assoc object now =>
    apply hquiet
    unfold System.next
    dsimp only
    unfold Controls.select
    split
    · exact List.Subset.refl _
    · exact List.Subset.refl _
  | closed assoc => exact hquiet (List.filter_subset_self _)
  | store ied => exact hquiet (List.Subset.refl _)
  | onControl hook => exact hquiet (List.Subset.refl _)
  | setSboTimeoutMs ms => exact hquiet (List.Subset.refl _)
  | takePending => exact hquiet (List.Subset.refl _)
  | takeLastCause => exact hquiet (List.Subset.refl _)

/-! ### A cancel and the node -/

theorem refuse_congr (c c' : Controls) (assoc : AssocId) (object : Reference)
    (request : ControlRequest) (model : ControlModel) (stage : Stage) (cause : AddCause) :
    (c.refuse assoc object request model stage cause).2 =
      (c'.refuse assoc object request model stage cause).2 ∧
    (c.refuse assoc object request model stage cause).1.lastCause =
      (c'.refuse assoc object request model stage cause).1.lastCause := by
  unfold Controls.refuse
  by_cases haccepted : (model.enhancedSecurity && decide (stage = .operate)) = true
  · simp only [if_pos haccepted]
    exact ⟨trivial, rfl⟩
  · simp only [if_neg haccepted]
    exact ⟨trivial, rfl⟩

/-- What a cancel looks at is not the node: two engines with the same hook, selections and waiting
commands answer it alike. -/
theorem cancel_congr {c' : Controls} (hhook : c.hook = c'.hook)
    (hselections : c.selections = c'.selections) (htimed : c.timed = c'.timed)
    (hcause : c.lastCause = c'.lastCause) (assoc : AssocId) (object : Reference)
    (request : ControlRequest) (model : ControlModel) :
    (c.cancel assoc object request model).2 = (c'.cancel assoc object request model).2 ∧
    (c.cancel assoc object request model).1.lastCause =
      (c'.cancel assoc object request model).1.lastCause := by
  unfold Controls.cancel Controls.ask
  rw [hhook, hselections, htimed]
  split
  · exact refuse_congr c c' assoc object request model .cancel _
  · dsimp only
    split
    · exact ⟨rfl, hcause⟩
    · split
      · exact ⟨rfl, hcause⟩
      · exact refuse_congr _ _ assoc object request model .cancel .objectNotSelected

theorem runTimed_lastCause (c : Controls) (ied : Store) (t : Timed) :
    (c.runTimed ied t).1.lastCause = c.lastCause := by
  unfold Controls.runTimed
  split
  · rfl
  · dsimp only
    split
    · rfl
    · rfl

theorem runAll_lastCause (c : Controls) (ied : Store) (ts : List Timed) :
    (Controls.runAll c ied ts).1.lastCause = c.lastCause := by
  induction ts generalizing c ied with
  | nil => rfl
  | cons t ts ih => exact (ih _ _).trans (runTimed_lastCause c ied t)

/-- The answer to a cancel, and the cause of its refusal, are the same whatever the values are, the
behaviour of the node among them, once the object has its control model. -/
theorem cancel_whatever_node (c : Controls) (assoc : AssocId) (object : Reference) (value : Value)
    (now : Now) {ied ied' : Store} (h : modelOf ied object = modelOf ied' object) :
    (c.write assoc ied object .cancel value now).2.2 =
      (c.write assoc ied' object .cancel value now).2.2 ∧
    (c.write assoc ied object .cancel value now).1.lastCause =
      (c.write assoc ied' object .cancel value now).1.lastCause := by
  unfold Controls.write
  rw [h]
  cases modelOf ied' object with
  | none => exact ⟨rfl, rfl⟩
  | some model =>
    cases ControlRequest.fromValue value with
    | error e => exact ⟨rfl, rfl⟩
    | ok request =>
      have hleft := c.onTimeout_authority ied now.mono
      have hright := c.onTimeout_authority ied' now.mono
      apply cancel_congr
      · exact (c.onTimeout_hook ied now.mono).trans (c.onTimeout_hook ied' now.mono).symm
      · exact hleft.selections.trans hright.selections.symm
      · exact hleft.timed.trans hright.timed.symm
      · exact (runAll_lastCause _ _ _).trans (runAll_lastCause _ _ _).symm

/-! ### The cause of a refusal -/

namespace Controls

variable (c : Controls)

/-- Why a `Cancel` is refused, if it is. -/
def cancelRefusal (assoc : AssocId) (object : Reference) (request : ControlRequest)
    (model : ControlModel) : Option AddCause :=
  (causeOf (c.ask object .cancel request model)).or
    (if (c.selections object).any (·.assoc = assoc) ||
        c.timed.any (fun t => t.object = object && t.assoc = assoc) then none
      else some .objectNotSelected)

/-- The cause that a command is refused with, if it is refused with one. -/
def commandCause (assoc : AssocId) (ied : Store) (object : Reference) (a : Attribute)
    (value : Value) (now : Now) : Option AddCause :=
  match modelOf ied object, ControlRequest.fromValue value with
  | some model, .ok request =>
    let (c, ied) := c.onTimeout ied now.mono
    (writeRefusal ied object a request).or
      (match a with
      | .sbow => c.sbowRefusal assoc object request model now
      | .cancel => c.cancelRefusal assoc object request model
      | .oper => c.operRefusal assoc object request model
      | .sbo => none)
  | _, _ => none

variable (assoc : AssocId)

theorem refuse_lastCause (object : Reference) (request : ControlRequest)
    (model : ControlModel) (stage : Stage) (cause : AddCause) :
    (c.refuse assoc object request model stage cause).1.lastCause = some cause := by
  unfold refuse
  dsimp only
  split <;> rfl

theorem cancel_lastCause (object : Reference) (request : ControlRequest)
    (model : ControlModel) : (c.cancel assoc object request model).1.lastCause =
      (c.cancelRefusal assoc object request model).or c.lastCause := by
  unfold cancel cancelRefusal
  cases causeOf (c.ask object .cancel request model) with
  | some cause => exact refuse_lastCause c assoc object request model .cancel cause
  | none =>
    dsimp only
    rw [Option.none_or]
    by_cases hheld : (c.selections object).any (·.assoc = assoc) = true
    · rw [if_pos hheld, hheld, Bool.true_or, if_pos rfl]
      rfl
    · rw [if_neg hheld, Bool.eq_false_iff.mpr hheld, Bool.false_or]
      split
      · rfl
      · exact refuse_lastCause _ assoc object request model .cancel _

theorem operate_lastCause (ied : Store) (object : Reference)
    (request : ControlRequest) (model : ControlModel) (now : Now) :
    (c.operate assoc ied object request model now).1.lastCause =
      (c.operRefusal assoc object request model).or c.lastCause := by
  unfold operate
  cases c.operRefusal assoc object request model with
  | some cause => exact refuse_lastCause c assoc object request model .operate cause
  | none =>
    dsimp only
    split
    · rfl
    · split <;> rfl

/-- A write leaves the cause of its refusal in the slot, and nothing when it is not refused. -/
theorem write_lastCause (ied : Store) (object : Reference) (a : Attribute)
    (value : Value) (now : Now) : (c.write assoc ied object a value now).1.lastCause =
      (c.commandCause assoc ied object a value now).or c.lastCause := by
  unfold write commandCause
  cases modelOf ied object with
  | none => rfl
  | some model =>
    cases ControlRequest.fromValue value with
    | error e => rfl
    | ok request =>
      dsimp only
      have htimeout : (c.onTimeout ied now.mono).1.lastCause = c.lastCause :=
        runAll_lastCause _ _ _
      rw [← htimeout]
      generalize c.onTimeout ied now.mono = p
      obtain ⟨c', ied'⟩ := p
      unfold serve
      cases writeRefusal ied' object a request with
      | some cause => exact refuse_lastCause c' assoc object request model a.stage cause
      | none =>
        rw [Option.none_or]
        cases a with
        | sbow =>
          dsimp only
          unfold selectWithValue
          cases c'.sbowRefusal assoc object request model now with
          | some cause => exact refuse_lastCause c' assoc object request model .select cause
          | none => rfl
        | cancel => exact c'.cancel_lastCause assoc object request model
        | oper => exact c'.operate_lastCause assoc ied' object request model now
        | sbo => rfl

end Controls

/-! ### Runs -/

/-- In every run, whatever the hook and the values become on the way: each `Oper` that is accepted
finds an object whose control model is not status-only; each command that is applied goes back to
an `Oper` that was accepted, its node takes commands of its kind at that moment, and the hook in
place accepts exactly that command at that moment; the engine changes the served values in no
other way. A cancel is answered alike whatever the behaviour of the node. -/
theorem run_gated (ied : Store) (xs : List Action) :
    Justified Gated (journal step moments ⟨.new, ied⟩ xs) ∧
    (∀ s ∈ states step ⟨.new, ied⟩ xs, ∀ x, (∀ ied', x ≠ .store ied') →
      Through s.controls.hook (moments s x) s.ied (s.next x).ied) ∧
    ∀ (c : Controls) assoc object value now ied ied', modelOf ied object = modelOf ied' object →
      (c.write assoc ied object .cancel value now).2.2 =
        (c.write assoc ied' object .cancel value now).2.2 ∧
      (c.write assoc ied object .cancel value now).1.lastCause =
        (c.write assoc ied' object .cancel value now).1.lastCause := by
  refine ⟨?_, ?_, ?_⟩
  · obtain ⟨s, hrun⟩ := @exists_run_of_total _ _ step (fun s x => ⟨s.next x, rfl⟩)
      ⟨.new, ied⟩ xs
    have hinit : Armed [] (System.mk .new ied).controls ∧ Justified Gated [] := by
      refine ⟨?_, justified_nil _⟩
      intro t ht
      cases ht
    have hlog := journal_run (J := fun log s => Armed log s.controls ∧ Justified Gated log)
      (C := fun _ _ => True)
      (fun log s x s' hs _ hstep => by
        cases hstep
        exact gated_next hs.1 hs.2 x)
      hinit (meets_of_forall (fun _ _ => trivial) _ _) hrun
    exact hlog.2
  · intro s _ x hx
    exact through_next hx
  · intro c assoc object value now ied ied' h
    exact cancel_whatever_node c assoc object value now h

end Iec61850.Server.Control
