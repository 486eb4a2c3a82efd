import Iec61850.Server.ControlRuns

/-!
# The effect of a command

A command that takes effect writes its value into the status of its object, where the status is an
attribute whose type accepts the value. Where it is not, the write is dropped, and the command is
answered positively all the same.
-/

namespace Iec61850.Server.Control

open Theory Mms

/-! ### The status of an object -/

theorem controlPath_some {object : Reference} {ln : Bytes} {path : List Bytes}
    (h : controlPath object = some (ln, path)) : object.item = ln :: ascii "CO" :: path := by
  unfold controlPath at h
  split at h
  · rename_i ln' fc name rest hitem
    split at h
    · rename_i hfc
      cases h
      rw [hitem, hfc]
    · cases h
  · cases h

/-- No two objects share an attribute of their status. -/
theorem statusOf_inj {object object' : Reference} {name name' : Bytes} {r : Reference}
    (h : statusOf object name = some r) (h' : statusOf object' name' = some r) :
    object = object' ∧ name = name' := by
  unfold statusOf at h h'
  rw [Option.map_eq_some_iff] at h h'
  obtain ⟨⟨ln, path⟩, hpath, rfl⟩ := h
  obtain ⟨⟨ln', path'⟩, hpath', hr⟩ := h'
  simp only [Reference.mk.injEq, List.cons.injEq, true_and] at hr
  obtain ⟨hdomain, hln, hrest⟩ := hr
  obtain ⟨hp, hname⟩ := List.append_inj' hrest rfl
  have hitem := controlPath_some hpath
  have hitem' := controlPath_some hpath'
  constructor
  · cases object
    cases object'
    simp only at hitem hitem' hdomain
    rw [Reference.mk.injEq, hitem, hitem', hln, hp]
    exact ⟨hdomain.symm, rfl⟩
  · exact (List.singleton_inj.mp hname).symm

theorem statusOf_of_modelOf {ied : Store} {object : Reference} {model : ControlModel}
    (h : modelOf ied object = some model) (name : Bytes) : ∃ r, statusOf object name = some r := by
  unfold modelOf at h
  cases hpath : controlPath object with
  | none =>
    rw [hpath] at h
    cases h
  | some p =>
    unfold statusOf
    rw [hpath]
    exact ⟨_, rfl⟩

theorem writeStatus_takes (ied : Store) (object : Reference) (name : Bytes) (value : Value) :
    (writeStatus ied object name value).takes = ied.takes := by
  unfold writeStatus
  split
  · rfl
  · funext r v
    exact LeafStore.writeLeaf_takes _ _ _ _ _

theorem writeStatus_values_ne {ied : Store} {object : Reference} {name : Bytes} {value : Value}
    {r : Reference} (h : statusOf object name ≠ some r) :
    (writeStatus ied object name value).values r = ied.values r := by
  unfold writeStatus
  split
  · rfl
  · rename_i status hstatus
    apply LeafStore.writeLeaf_values_ne
    rintro rfl
    exact h hstatus

/-! ### Applying a command -/

@[simp] theorem apply_takes (ied : Store) (object : Reference) (request : ControlRequest)
    (wall : UtcTime) : (apply ied object request wall).takes = ied.takes := by
  rw [apply, writeStatus_takes, writeStatus_takes]

theorem runTimed_takes (c : Controls) (ied : Store) (t : Timed) :
    (c.runTimed ied t).2.takes = ied.takes := by
  unfold Controls.runTimed
  split
  · rfl
  · dsimp only
    split
    · exact apply_takes _ _ _ _
    · exact apply_takes _ _ _ _

theorem runAll_takes (c : Controls) (ied : Store) (ts : List Timed) :
    (Controls.runAll c ied ts).2.takes = ied.takes := by
  induction ts generalizing c ied with
  | nil => rfl
  | cons t ts ih => exact (ih _ _).trans (runTimed_takes c ied t)

/-- A command leaves the status of the other objects alone. -/
theorem apply_values_other {ied : Store} {object object' : Reference} {request : ControlRequest}
    {wall : UtcTime} {status : Reference} (hne : object ≠ object')
    (hstatus : statusOf object' (ascii "stVal") = some status) :
    (apply ied object request wall).values status = ied.values status := by
  have hother : ∀ name, statusOf object name ≠ some status := by
    intro name heq
    exact hne (statusOf_inj heq hstatus).1
  rw [apply, writeStatus_values_ne (hother _), writeStatus_values_ne (hother _)]

/-- What a command leaves in the status of its object: its value, where the status takes it. -/
def Effect (object : Reference) (request : ControlRequest) (ied ied' : Store) : Prop :=
  ∀ status, statusOf object (ascii "stVal") = some status →
    ied'.values status =
      if ied.takes status request.ctlVal then some request.ctlVal else ied.values status

theorem effect_apply (ied : Store) (object : Reference) (request : ControlRequest)
    (wall : UtcTime) : Effect object request ied (apply ied object request wall) := by
  intro status hstatus
  have htime : statusOf object (ascii "t") ≠ some status := by
    intro heq
    have hname := (statusOf_inj heq hstatus).2
    exact absurd hname (by decide)
  rw [apply, writeStatus_values_ne htime, writeStatus, hstatus]
  exact LeafStore.writeLeaf_values_self _ _ _

/-! ### What the client is told -/

/-- What is sent of a command that took effect: a positive termination where the model owes one. -/
def terminationOf (assoc : AssocId) (object : Reference) (request : ControlRequest)
    (model : ControlModel) : List Termination :=
  if model.enhancedSecurity then [⟨assoc, positive object request⟩] else []

/-- How an `Oper` ends: refused, with the cause told and nothing written; accepted, to wait; or
answered positively, with its effect. -/
inductive OperEnds (assoc : AssocId) (object : Reference) (request : ControlRequest)
    (model : ControlModel) (now : Now) (before : Controls × Store)
    (after : Controls × Store × Except Int Unit) : Prop where
  | refused (cause : AddCause)
      (told : after.1.pending = before.1.pending ++
        [⟨assoc, negative object request (applError object request cause)⟩])
      (nothing : after.2.1 = before.2)
      (answer : model.enhancedSecurity = true ∨ after.2.2 = .error dataAccessDenied)
  | waits (t : Timed) (mem : t ∈ after.1.timed)
      (same : t.assoc = assoc ∧ t.object = object ∧ t.model = model ∧
        t.request = { request with t := now.wall })
      (told : after.1.pending = before.1.pending)
      (nothing : after.2.1 = before.2)
      (answer : after.2.2 = .ok ())
  | operated (told : after.1.pending =
        before.1.pending ++ terminationOf assoc object request model)
      (effect : Effect object request before.2 after.2.1)
      (answer : after.2.2 = .ok ())

/-- How a command that has fallen due ends: refused, with the cause told and nothing written; or with
its effect. -/
inductive TimedEnds (t : Timed) (before after : Controls × Store) : Prop where
  | refused (cause : AddCause)
      (told : after.1.pending = before.1.pending ++
        [⟨t.assoc, negative t.object t.request (applError t.object t.request cause)⟩])
      (nothing : after.2 = before.2)
  | operated (told : after.1.pending =
        before.1.pending ++ terminationOf t.assoc t.object t.request t.model)
      (effect : Effect t.object t.request before.2 after.2)

theorem refuse_pending (c : Controls) (assoc : AssocId) (object : Reference)
    (request : ControlRequest) (model : ControlModel) (stage : Stage) (cause : AddCause) :
    (c.refuse assoc object request model stage cause).1.pending =
      c.pending ++ [⟨assoc, negative object request (applError object request cause)⟩] ∧
    (model.enhancedSecurity = true ∨
      (c.refuse assoc object request model stage cause).2 = .error dataAccessDenied) := by
  unfold Controls.refuse
  dsimp only
  split
  · rename_i haccepted
    rw [Bool.and_eq_true] at haccepted
    exact ⟨rfl, Or.inl haccepted.1⟩
  · exact ⟨rfl, Or.inr rfl⟩

theorem timedEnds_runTimed (c : Controls) (ied : Store) (t : Timed) :
    TimedEnds t (c, ied) (c.runTimed ied t) := by
  unfold Controls.runTimed
  cases c.timedRefusal ied t with
  | some cause => exact .refused cause rfl rfl
  | none =>
    dsimp only
    by_cases henhanced : t.model.enhancedSecurity = true
    · rw [if_pos henhanced]
      refine .operated ?_ (effect_apply ied t.object t.request t.request.t)
      rw [terminationOf, if_pos henhanced]
      rfl
    · rw [if_neg henhanced]
      refine .operated ?_ (effect_apply ied t.object t.request t.request.t)
      rw [terminationOf, if_neg henhanced, List.append_nil]

theorem operEnds_operate (c : Controls) (assoc : AssocId) (ied : Store) (object : Reference)
    (request : ControlRequest) (model : ControlModel) (now : Now) :
    OperEnds assoc object request model now (c, ied)
      (c.operate assoc ied object request model now) := by
  unfold Controls.operate
  cases c.operRefusal assoc object request model with
  | some cause =>
    obtain ⟨htold, hanswer⟩ := refuse_pending c assoc object request model .operate cause
    exact .refused cause htold rfl hanswer
  | none =>
    dsimp only
    cases Controls.waitOf request now with
    | some wait =>
      refine .waits (Controls.timedOf assoc object request model now wait) ?_
        ⟨rfl, rfl, rfl, rfl⟩ rfl rfl rfl
      exact List.mem_append_right _ (List.mem_singleton_self _)
    | none =>
      dsimp only
      by_cases henhanced : model.enhancedSecurity = true
      · rw [if_pos henhanced]
        refine .operated ?_ (effect_apply ied object request now.wall) rfl
        rw [terminationOf, if_pos henhanced]
        rfl
      · rw [if_neg henhanced]
        refine .operated ?_ (effect_apply ied object request now.wall) rfl
        rw [terminationOf, if_neg henhanced, List.append_nil]
        rfl

/-- Every `Oper` of an object with a control model is refused, waits, or is answered positively with its
effect, and so is every command that falls due: after a positive answer or termination the
object has a status, and it is the commanded value wherever it takes that value; where it does
not, it is what it was, and the answer is the same. -/
theorem oper_effect (c : Controls) (ied : Store) :
    (∀ assoc object value now model request, modelOf ied object = some model →
      ControlRequest.fromValue value = .ok request →
      (∃ status, statusOf object (ascii "stVal") = some status) ∧
      OperEnds assoc object request model now (c.onTimeout ied now.mono)
        (c.write assoc ied object .oper value now)) ∧
    ∀ t, TimedEnds t (c, ied) (c.runTimed ied t) := by
  constructor
  · intro assoc object value now model request hmodel hrequest
    refine ⟨statusOf_of_modelOf hmodel _, ?_⟩
    rw [Controls.write, hmodel, hrequest]
    dsimp only
    unfold Controls.serve
    cases hrefusal : Controls.writeRefusal (c.onTimeout ied now.mono).2 object .oper request with
    | some cause =>
      obtain ⟨htold, hanswer⟩ := refuse_pending (c.onTimeout ied now.mono).1 assoc object request
        model (Attribute.stage .oper) cause
      exact .refused cause htold rfl hanswer
    | none => exact operEnds_operate _ assoc _ object request model now
  · intro t
    exact timedEnds_runTimed c ied t

/-- A switch whose status is a double point is closed with a boolean: the answer is positive, and the
status is not written. -/
theorem boolean_dropped :
    ¬ ∀ (ied : Store) (assoc : AssocId) (object : Reference) (request : ControlRequest) (now : Now)
        (status : Reference), modelOf ied object = some .directNormal → request.operTm = none →
      statusOf object (ascii "stVal") = some status →
      (Controls.new.write assoc ied object .oper request.toValue now).2.2 = .ok () →
      (Controls.new.write assoc ied object .oper request.toValue now).2.1.values status =
        some request.ctlVal := by
  intro hclaim
  have heffect := hclaim (switchgear 1 .dbpos) 1 position
    (.new (.boolean true) 1 ⟨0, 0, .synchronized⟩) (atSecond 0)
    ⟨ascii "LD", [ascii "CSWI1", ascii "ST", ascii "Pos", ascii "stVal"]⟩
    (by decide +kernel) rfl (by decide +kernel) (by decide +kernel)
  have hnone : ((Controls.new.write 1 (switchgear 1 .dbpos) position .oper
      (ControlRequest.new (.boolean true) 1 ⟨0, 0, .synchronized⟩).toValue
      (atSecond 0)).2.1.values
        ⟨ascii "LD", [ascii "CSWI1", ascii "ST", ascii "Pos", ascii "stVal"]⟩).isNone = true := by
    decide +kernel
  rw [heffect] at hnone
  cases hnone

end Iec61850.Server.Control
