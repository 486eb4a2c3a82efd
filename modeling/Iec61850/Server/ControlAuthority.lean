import Iec61850.Server.ControlRuns

/-!
# The authority of a command

A select-before-operate object is operated on the authority of a selection that its holder made
since the object was last operated, and that has neither expired nor been withdrawn; and a
time-activated command runs on the authority of the operate that was accepted. The journal of every
run shows it.
-/

namespace Iec61850.Server.Control

open Theory Mms

/-! ### What the journal shows -/

/-- The event leaves the selection of an object as it is. -/
def Leaves (object : Reference) (s : Selection) : Event → Prop
  | .tick now => now < s.expires
  | .selected object' _ => object' ≠ object
  | .operated object' _ _ _ _ => object' ≠ object
  | .cancelled object' assoc => object' = object → assoc ≠ s.assoc
  | .closed assoc => assoc ≠ s.assoc
  | .ran _ => True
  | .dropped _ => True

/-- The selection was made, and since then the object has been neither selected again nor operated;
its holder has neither cancelled nor gone; and no reading of the clock has reached its deadline. -/
def Held (log : List Event) (object : Reference) (s : Selection) : Prop :=
  Since (fun _ ev => ev = .selected object s) (Leaves object s) log

/-- The selection authorises the request: it is of the same association, for the same value if it was
made with one, and under the same control number if it was made under one. -/
structure Matches (s : Selection) (assoc : AssocId) (request : ControlRequest) : Prop where
  holder : s.assoc = assoc
  value : ∀ v, s.value = some v → v.equals request.ctlVal = true
  number : s.ctlNum ≠ 0 → s.ctlNum = request.ctlNum

/-- Both commands are of the same association for the same object. -/
def SameSlot (t t' : Timed) : Prop := t.object = t'.object ∧ t.assoc = t'.assoc

/-- The operate was accepted as a command that falls due later. -/
def Arms (t : Timed) : Event → Prop
  | .operated object assoc request model armed =>
    object = t.object ∧ assoc = t.assoc ∧ model = t.model ∧ armed = some t ∧
      t.request = { request with t := t.request.t }
  | _ => False

/-- The event leaves a command that waits as it is. -/
def Spares (t : Timed) : Event → Prop
  | .operated object assoc _ _ armed =>
    armed.isSome = true → ¬ (object = t.object ∧ assoc = t.assoc)
  | .cancelled object assoc => ¬ (object = t.object ∧ assoc = t.assoc)
  | .closed assoc => assoc ≠ t.assoc
  | .ran t' => ¬ SameSlot t' t
  | .dropped t' => ¬ SameSlot t' t
  | .tick _ => True
  | .selected _ _ => True

/-- The command was accepted, and since then its association has neither cancelled it, nor replaced
it, nor gone; and it has not run. -/
def Waits (log : List Event) (t : Timed) : Prop :=
  Since (fun _ ev => Arms t ev) (Spares t) log

/-- What an event rests on. -/
def Authorised (log : List Event) : Event → Prop
  | .operated object assoc request model _ =>
    model.needsSelect = true → ∃ s, Held log object s ∧ Matches s assoc request
  | .ran t => Waits log t
  | .dropped t => Waits log t
  | _ => True

/-- The event is of a command that takes effect. -/
def Event.Acts : Event → Prop
  | .ran _ => True
  | .operated _ _ _ _ none => True
  | _ => False

/-! ### The invariant -/

/-- What the engine holds is what the journal shows. -/
structure Kept (log : List Event) (c : Controls) : Prop where
  selections : ∀ object s, c.selections object = some s → Held log object s
  timed : ∀ t ∈ c.timed, Waits log t
  slots : c.timed.Pairwise fun t t' => ¬ SameSlot t t'
  authorised : Justified Authorised log

theorem kept_new : Kept [] .new := by
  constructor
  · intro object s hs
    cases hs
  · intro t ht
    cases ht
  · exact .nil
  · exact justified_nil _

variable {log : List Event} {c : Controls} {ts : List Timed} {assoc : AssocId} {object : Reference}
  {request : ControlRequest} {model : ControlModel}

theorem Kept.of_sameAuthority {c' : Controls} (h : Kept log c) (hsame : c.SameAuthority c') :
    Kept log c' := by
  obtain ⟨hselections, htimed⟩ := hsame
  constructor
  · rw [hselections]
    exact h.selections
  · rw [htimed]
    exact h.timed
  · rw [htimed]
    exact h.slots
  · exact h.authorised

theorem Kept.fewer (h : Kept log c) (hts : ts.Sublist c.timed) :
    Kept log { c with timed := ts } := by
  constructor
  · exact h.selections
  · intro t ht
    exact h.timed t (hts.subset ht)
  · exact h.slots.sublist hts
  · exact h.authorised

/-! ### Time -/

theorem Kept.expire (h : Kept log c) (now : Instant) :
    Kept (log ++ [.tick now]) (c.expire now) := by
  constructor
  · intro object s hs
    rw [Controls.expire] at hs
    dsimp only at hs
    rw [Option.filter_eq_some_iff, decide_eq_true_eq] at hs
    obtain ⟨hs, hlt⟩ := hs
    exact since_concat.mpr (Or.inr ⟨h.selections object s hs, hlt⟩)
  · intro t ht
    exact since_concat.mpr (Or.inr ⟨h.timed t ht, trivial⟩)
  · exact h.slots
  · exact justified_concat.mpr ⟨h.authorised, trivial⟩

theorem Kept.runEvents (h : Kept log { c with timed := ts ++ c.timed }) (d : Controls)
    (ied : Store) :
    Kept (log ++ d.runEvents ied ts) c := by
  induction ts generalizing log d ied with
  | nil =>
    rw [Controls.runEvents, List.append_nil]
    exact h
  | cons t ts ih =>
    have hev : d.timedEvent ied t = .ran t ∨ d.timedEvent ied t = .dropped t := by
      unfold Controls.timedEvent
      split
      · exact Or.inr rfl
      · exact Or.inl rfl
    have hslots := List.pairwise_cons.mp h.slots
    rw [Controls.runEvents, List.append_cons]
    apply ih
    constructor
    · intro object s hs
      refine since_concat.mpr (Or.inr ⟨h.selections object s hs, ?_⟩)
      rcases hev with hev | hev
      · rw [hev]
        trivial
      · rw [hev]
        trivial
    · intro t' ht'
      refine since_concat.mpr (Or.inr ⟨h.timed t' (List.mem_cons_of_mem t ht'), ?_⟩)
      rcases hev with hev | hev
      · rw [hev]
        exact hslots.1 t' ht'
      · rw [hev]
        exact hslots.1 t' ht'
    · exact hslots.2
    · refine justified_concat.mpr ⟨h.authorised, ?_⟩
      have hwaits := h.timed t List.mem_cons_self
      rcases hev with hev | hev
      · rw [hev]
        exact hwaits
      · rw [hev]
        exact hwaits

theorem Kept.timeout (h : Kept log c) (ied : Store) (now : Instant) :
    Kept (log ++ c.timeoutEvents ied now) (c.onTimeout ied now).1 := by
  have hexpired := h.expire now
  have hperm : (c.dueAt now ++ c.timed.filter fun t => !decide (t.due ≤ now)).Perm c.timed :=
    List.filter_append_perm (fun t : Timed => decide (t.due ≤ now)) c.timed
  have hloop : Kept (log ++ [.tick now])
      { (c.expire now).wait now with timed := c.dueAt now ++ ((c.expire now).wait now).timed } := by
    constructor
    · exact hexpired.selections
    · intro t ht
      exact hexpired.timed t (hperm.subset ht)
    · refine (hperm.pairwise_iff ?_).mpr h.slots
      intro t t' hdistinct hsame
      exact hdistinct ⟨hsame.1.symm, hsame.2.symm⟩
    · exact hexpired.authorised
  rw [Controls.timeoutEvents, List.append_cons]
  exact (hloop.runEvents _ ied).of_sameAuthority (c.onTimeout_authority ied now)

/-! ### Selecting, and the end of an association -/

theorem Kept.insert (h : Kept log c) (object : Reference) (s : Selection) :
    Kept (log ++ [.selected object s]) (c.insert object s) := by
  constructor
  · intro object' s' hs'
    rw [Controls.insert] at hs'
    dsimp only at hs'
    by_cases hobject : object' = object
    · subst hobject
      rw [Function.update_self, Option.some.injEq] at hs'
      subst hs'
      exact since_concat.mpr (Or.inl rfl)
    · rw [Function.update_of_ne hobject] at hs'
      exact since_concat.mpr (Or.inr ⟨h.selections object' s' hs', Ne.symm hobject⟩)
  · intro t ht
    exact since_concat.mpr (Or.inr ⟨h.timed t ht, trivial⟩)
  · exact h.slots
  · exact justified_concat.mpr ⟨h.authorised, trivial⟩

theorem Kept.closed (h : Kept log c) (assoc : AssocId) :
    Kept (log ++ [.closed assoc]) (c.onAssociationClosed assoc) := by
  constructor
  · intro object s hs
    rw [Controls.onAssociationClosed] at hs
    dsimp only at hs
    rw [Option.filter_eq_some_iff, decide_eq_true_eq] at hs
    obtain ⟨hs, hne⟩ := hs
    exact since_concat.mpr (Or.inr ⟨h.selections object s hs, Ne.symm hne⟩)
  · intro t ht
    obtain ⟨ht, hne⟩ := List.mem_filter.mp ht
    rw [decide_eq_true_eq] at hne
    exact since_concat.mpr (Or.inr ⟨h.timed t ht, Ne.symm hne⟩)
  · exact h.slots.sublist List.filter_sublist
  · exact justified_concat.mpr ⟨h.authorised, trivial⟩

/-! ### Cancelling -/

/-- The commands that do not wait for this association and this object. -/
def othersOf (assoc : AssocId) (object : Reference) (ts : List Timed) : List Timed :=
  ts.filter fun t => !(t.object = object && t.assoc = assoc)

theorem mem_othersOf {assoc : AssocId} {object : Reference} {ts : List Timed} {t : Timed}
    (h : t ∈ othersOf assoc object ts) : t ∈ ts ∧ ¬ (object = t.object ∧ assoc = t.assoc) := by
  obtain ⟨ht, hother⟩ := List.mem_filter.mp h
  refine ⟨ht, ?_⟩
  rintro ⟨rfl, rfl⟩
  simp at hother

/-- A cancel that is refused withdraws nothing but commands of its own; one that is granted withdraws
the association's commands for the object, and its selection of it. -/
theorem cancel_cases (c : Controls) (assoc : AssocId) (object : Reference)
    (request : ControlRequest) (model : ControlModel) :
    (∃ code ts, (c.cancel assoc object request model).2 = .error code ∧ ts.Sublist c.timed ∧
      Controls.SameAuthority { c with timed := ts } (c.cancel assoc object request model).1) ∨
    ((c.cancel assoc object request model).2 = .ok () ∧
      (c.cancel assoc object request model).1.timed = othersOf assoc object c.timed ∧
      ∀ object' s, (c.cancel assoc object request model).1.selections object' = some s →
        c.selections object' = some s ∧ (object' = object → assoc ≠ s.assoc)) := by
  have hrefused : ∀ (d : Controls) (cause : AddCause), ∃ code,
      (d.refuse assoc object request model .cancel cause).2 = .error code := by
    intro d cause
    unfold Controls.refuse
    exact ⟨dataAccessDenied, by simp⟩
  unfold Controls.cancel
  split
  · rename_i cause _
    left
    obtain ⟨code, hcode⟩ := hrefused c cause
    exact ⟨code, c.timed, hcode, List.Sublist.refl _, c.sameAuthority_refuse _ _ _ _ _ _⟩
  · dsimp only
    split
    · rename_i hheld
      right
      refine ⟨rfl, rfl, ?_⟩
      intro object' s hs
      rw [Controls.remove] at hs
      dsimp only at hs
      by_cases hobject : object' = object
      · subst hobject
        rw [Function.update_self] at hs
        cases hs
      · rw [Function.update_of_ne hobject] at hs
        exact ⟨hs, fun heq => absurd heq hobject⟩
    · rename_i hfree
      split
      · right
        refine ⟨rfl, rfl, ?_⟩
        intro object' s hs
        refine ⟨hs, ?_⟩
        rintro rfl rfl
        apply hfree
        dsimp only at hs ⊢
        rw [hs, Option.any_some, decide_eq_true_eq]
      · left
        obtain ⟨code, hcode⟩ := hrefused
          { c with timed := othersOf assoc object c.timed } .objectNotSelected
        exact ⟨code, othersOf assoc object c.timed, hcode, List.filter_sublist,
          Controls.sameAuthority_refuse _ _ _ _ _ _ _⟩

theorem Kept.cancel (h : Kept log c) (assoc : AssocId) (object : Reference)
    (request : ControlRequest) (model : ControlModel) :
    Kept (log ++ if (c.cancel assoc object request model).2.isOk then [.cancelled object assoc]
      else []) (c.cancel assoc object request model).1 := by
  rcases cancel_cases c assoc object request model with
    ⟨code, ts, hresult, hts, hsame⟩ | ⟨hresult, htimed, hselections⟩
  · rw [hresult]
    simp only [Except.isOk, Except.toBool, Bool.false_eq_true, if_false, List.append_nil]
    exact (h.fewer hts).of_sameAuthority hsame
  · rw [hresult]
    simp only [Except.isOk, Except.toBool, if_true]
    constructor
    · intro object' s hs
      obtain ⟨hs, hother⟩ := hselections object' s hs
      refine since_concat.mpr (Or.inr ⟨h.selections object' s hs, ?_⟩)
      intro hobject
      exact hother hobject.symm
    · intro t ht
      rw [htimed] at ht
      obtain ⟨ht, hother⟩ := mem_othersOf ht
      exact since_concat.mpr (Or.inr ⟨h.timed t ht, hother⟩)
    · rw [htimed]
      exact h.slots.sublist List.filter_sublist
    · exact justified_concat.mpr ⟨h.authorised, trivial⟩

/-! ### Operating -/

theorem matches_of_selectionRefusal (h : c.selectionRefusal assoc object request = none) :
    ∃ s, c.selections object = some s ∧ Matches s assoc request := by
  unfold Controls.selectionRefusal at h
  split at h
  · cases h
  · rename_i s hs
    split at h
    · cases h
    · rename_i hholder
      split at h
      · cases h
      · rename_i hvalue
        split at h
        · cases h
        · rename_i hnumber
          refine ⟨s, hs, not_not.mp hholder, ?_, ?_⟩
          · intro v hv
            rw [hv, Option.any_some, Bool.not_eq_true, Bool.not_eq_false'] at hvalue
            exact hvalue
          · intro hne
            by_contra hdiffers
            apply hnumber
            rw [Bool.and_eq_true, decide_eq_true_eq, decide_eq_true_eq]
            exact ⟨hne, hdiffers⟩

/-- An operate that is accepted is authorised by a selection, where the model needs one. -/
theorem authorised_operated (h : Kept log c)
    (hgranted : c.operRefusal assoc object request model = none) (armed : Option Timed) :
    Authorised log (.operated object assoc request model armed) := by
  intro hneeds
  rw [Controls.operRefusal, hneeds, if_pos rfl] at hgranted
  split at hgranted
  · cases hgranted
  · rw [Option.or_eq_none_iff] at hgranted
    obtain ⟨s, hs, hmatches⟩ := matches_of_selectionRefusal hgranted.1
    exact ⟨s, h.selections object s hs, hmatches⟩

/-- After an operate the object is not selected. -/
theorem Kept.remove (h : Kept log c)
    (hauthorised : Authorised log (.operated object assoc request model none)) :
    Kept (log ++ [.operated object assoc request model none]) (c.remove object) := by
  constructor
  · intro object' s hs
    rw [Controls.remove] at hs
    dsimp only at hs
    by_cases hobject : object' = object
    · subst hobject
      rw [Function.update_self] at hs
      cases hs
    · rw [Function.update_of_ne hobject] at hs
      exact since_concat.mpr (Or.inr ⟨h.selections object' s hs, Ne.symm hobject⟩)
  · intro t ht
    refine since_concat.mpr (Or.inr ⟨h.timed t ht, ?_⟩)
    intro harmed
    cases harmed
  · exact h.slots
  · exact justified_concat.mpr ⟨h.authorised, hauthorised⟩

/-- A command that is to wait takes the place of the one its association has waiting. -/
theorem Kept.arm {log : List Event} {c : Controls} (h : Kept log c) {assoc : AssocId}
    {object : Reference} {request : ControlRequest} {model : ControlModel} {t : Timed}
    (hauthorised : Authorised log (.operated object assoc request model (some t)))
    (harms : Arms t (.operated object assoc request model (some t))) :
    Kept (log ++ [.operated object assoc request model (some t)]) ((c.remove object).arm t) := by
  obtain ⟨hobject, hassoc, -⟩ := id harms
  constructor
  · intro object' s hs
    rw [Controls.arm, Controls.remove] at hs
    dsimp only at hs
    by_cases hsame : object' = object
    · rw [hsame, Function.update_self] at hs
      cases hs
    · rw [Function.update_of_ne hsame] at hs
      exact since_concat.mpr (Or.inr ⟨h.selections object' s hs, Ne.symm hsame⟩)
  · intro t' ht'
    rw [Controls.arm, List.mem_append, List.mem_singleton] at ht'
    rcases ht' with ht' | rfl
    · obtain ⟨ht', hother⟩ := @mem_othersOf t.assoc t.object c.timed t' ht'
      refine since_concat.mpr (Or.inr ⟨h.timed t' ht', ?_⟩)
      intro _
      rw [hobject, hassoc]
      exact hother
    · exact since_concat.mpr (Or.inl harms)
  · rw [Controls.arm]
    refine List.pairwise_append.mpr ⟨h.slots.sublist List.filter_sublist,
      List.pairwise_singleton _ _, ?_⟩
    intro t' ht' t'' ht''
    rw [List.mem_singleton] at ht''
    subst ht''
    obtain ⟨-, hother⟩ := @mem_othersOf t''.assoc t''.object c.timed t' ht'
    rintro ⟨hobject', hassoc'⟩
    exact hother ⟨hobject'.symm, hassoc'.symm⟩
  · exact justified_concat.mpr ⟨h.authorised, hauthorised⟩

theorem Kept.operate (h : Kept log c) (assoc : AssocId) (ied : Store) (object : Reference)
    (request : ControlRequest) (model : ControlModel) (now : Now) :
    Kept (log ++ if (c.operRefusal assoc object request model).isSome then []
      else [.operated object assoc request model
        ((Controls.waitOf request now).map (Controls.timedOf assoc object request model now))])
      (c.operate assoc ied object request model now).1 := by
  unfold Controls.operate
  cases hrefusal : c.operRefusal assoc object request model with
  | some cause =>
    rw [Option.isSome_some, if_pos rfl, List.append_nil]
    exact h.of_sameAuthority (c.sameAuthority_refuse _ _ _ _ _ _)
  | none =>
    rw [Option.isSome_none, if_neg (by decide)]
    dsimp only
    cases hwait : Controls.waitOf request now with
    | some wait =>
      have hauthorised := authorised_operated h hrefusal
        (some (Controls.timedOf assoc object request model now wait))
      exact @Kept.arm log c h assoc object request model
        (Controls.timedOf assoc object request model now wait) hauthorised
        ⟨rfl, rfl, rfl, rfl, rfl⟩
    | none =>
      have hremoved := h.remove (authorised_operated h hrefusal none)
      dsimp only
      split
      · exact hremoved.of_sameAuthority ⟨rfl, rfl⟩
      · exact hremoved

/-! ### Every action -/

theorem Kept.serve (h : Kept log c) (assoc : AssocId) (ied : Store) (object : Reference)
    (a : Attribute) (request : ControlRequest) (model : ControlModel) (now : Now) :
    Kept (log ++ c.serveEvents assoc ied object a request model now)
      (c.serve assoc ied object a request model now).1 := by
  unfold Controls.serveEvents Controls.serve
  cases hrefusal : Controls.writeRefusal ied object a request with
  | some cause =>
    rw [Option.isSome_some, if_pos rfl, List.append_nil]
    exact h.of_sameAuthority (c.sameAuthority_refuse _ _ _ _ _ _)
  | none =>
    rw [Option.isSome_none, if_neg (by decide)]
    cases a with
    | oper => exact h.operate assoc ied object request model now
    | sbow =>
      dsimp only
      unfold Controls.selectWithValue
      cases hsbow : c.sbowRefusal assoc object request model now with
      | some cause =>
        rw [Option.isSome_some, if_pos rfl, List.append_nil]
        exact h.of_sameAuthority (c.sameAuthority_refuse _ _ _ _ _ _)
      | none =>
        rw [Option.isSome_none, if_neg (by decide)]
        exact h.insert object _
    | sbo =>
      rw [List.append_nil]
      exact h
    | cancel => exact h.cancel assoc object request model

theorem Kept.next {s : System} (h : Kept log s.controls) (x : Action) :
    Kept (log ++ events s x) (s.next x).controls := by
  cases x with
  | select assoc object now =>
    rw [events, System.next, Controls.select]
    dsimp only
    split
    · rw [List.append_nil]
      exact h
    · exact h.insert object _
  | write assoc object a value now =>
    rw [events, System.next, Controls.writeEvents, Controls.write]
    cases modelOf s.ied object with
    | none =>
      dsimp only
      rw [List.append_nil]
      exact h
    | some model =>
      cases ControlRequest.fromValue value with
      | error e =>
        dsimp only
        rw [List.append_nil]
        exact h
      | ok request =>
        dsimp only
        rw [← List.append_assoc]
        exact (h.timeout s.ied now.mono).serve assoc _ object a request model now
  | timeout now => exact h.timeout s.ied now
  | closed assoc => exact h.closed assoc
  | store ied =>
    rw [events, List.append_nil]
    exact h
  | onControl hook =>
    rw [events, List.append_nil]
    exact h.of_sameAuthority ⟨rfl, rfl⟩
  | setSboTimeoutMs ms =>
    rw [events, List.append_nil]
    exact h.of_sameAuthority ⟨rfl, rfl⟩
  | takePending =>
    rw [events, List.append_nil]
    exact h.of_sameAuthority ⟨rfl, rfl⟩
  | takeLastCause =>
    rw [events, List.append_nil]
    exact h.of_sameAuthority ⟨rfl, rfl⟩

/-! ### Nothing else takes effect -/

theorem runAll_ied {ied : Store} (h : ∀ ev ∈ c.runEvents ied ts, ¬ ev.Acts) :
    (Controls.runAll c ied ts).2 = ied := by
  induction ts generalizing c ied with
  | nil => rfl
  | cons t ts ih =>
    rw [Controls.runEvents, List.forall_mem_cons] at h
    obtain ⟨hfirst, hrest⟩ := h
    have hstays : (c.runTimed ied t).2 = ied := by
      unfold Controls.timedEvent at hfirst
      unfold Controls.runTimed
      cases hrefusal : c.timedRefusal ied t with
      | some cause => rfl
      | none =>
        rw [hrefusal] at hfirst
        exact absurd trivial hfirst
    rw [Controls.runAll]
    dsimp only
    rw [ih hrest, hstays]

theorem serve_ied {ied : Store} {a : Attribute} {now : Now}
    (h : ∀ ev ∈ c.serveEvents assoc ied object a request model now, ¬ ev.Acts) :
    (c.serve assoc ied object a request model now).2.1 = ied := by
  unfold Controls.serveEvents at h
  unfold Controls.serve
  cases hrefusal : Controls.writeRefusal ied object a request with
  | some cause => rfl
  | none =>
    rw [hrefusal, Option.isSome_none, if_neg (by decide)] at h
    cases a with
    | oper =>
      dsimp only at h ⊢
      unfold Controls.operate
      cases hoper : c.operRefusal assoc object request model with
      | some cause => rfl
      | none =>
        rw [hoper, Option.isSome_none, if_neg (by decide)] at h
        dsimp only
        cases hwait : Controls.waitOf request now with
        | some wait => rfl
        | none =>
          rw [hwait, List.forall_mem_singleton] at h
          exact absurd trivial h
    | sbow => rfl
    | sbo => rfl
    | cancel => rfl

theorem next_ied {s : System} {x : Action} (hx : ∀ ied, x ≠ .store ied)
    (h : ∀ ev ∈ events s x, ¬ ev.Acts) : (s.next x).ied = s.ied := by
  have htimeout : ∀ now, (∀ ev ∈ s.controls.timeoutEvents s.ied now, ¬ ev.Acts) →
      (s.controls.onTimeout s.ied now).2 = s.ied := by
    intro now hnone
    exact runAll_ied fun ev hev => hnone ev (List.mem_cons_of_mem _ hev)
  cases x with
  | select assoc object now => rfl
  | write assoc object a value now =>
    rw [events, Controls.writeEvents] at h
    rw [System.next, Controls.write]
    cases hmodel : modelOf s.ied object with
    | none => rfl
    | some model =>
      cases hrequest : ControlRequest.fromValue value with
      | error e => rfl
      | ok request =>
        rw [hmodel, hrequest] at h
        dsimp only at h ⊢
        rw [List.forall_mem_append] at h
        obtain ⟨hbefore, hserve⟩ := h
        rw [serve_ied hserve, htimeout now.mono hbefore]
  | timeout now => exact htimeout now h
  | closed assoc => rfl
  | store ied => exact absurd rfl (hx ied)
  | onControl hook => rfl
  | setSboTimeoutMs ms => rfl
  | takePending => rfl
  | takeLastCause => rfl

/-! ### Runs -/

/-- In every run, each operate of a select-before-operate object rests on a selection of the same
association, made since the object was last operated, for the value and under the number it was
made with, that has neither expired nor been cancelled and whose holder has not gone; each
command that runs when it falls due rests on an operate that was accepted, which has neither
been cancelled or replaced by its association, nor run, and whose association has not gone; and
nothing else is written into the served values. -/
theorem run_authorised (ied : Store) (xs : List Action) :
    Justified Authorised (journal step events ⟨.new, ied⟩ xs) ∧
    ∀ s ∈ states step ⟨.new, ied⟩ xs, ∀ x, (∀ ied', x ≠ .store ied') →
      (∀ ev ∈ events s x, ¬ ev.Acts) → (s.next x).ied = s.ied := by
  constructor
  · obtain ⟨s, hrun⟩ := @exists_run_of_total _ _ step (fun s x => ⟨s.next x, rfl⟩)
      ⟨.new, ied⟩ xs
    have hkept := journal_run (J := fun log s => Kept log s.controls) (C := fun _ _ => True)
      (fun log s x s' hs _ hstep => by
        cases hstep
        exact hs.next x)
      kept_new (meets_of_forall (fun _ _ => trivial) _ _) hrun
    exact hkept.authorised
  · intro s _ x hx hnone
    exact next_ied hx hnone

/-- The switch is selected, and a command is accepted that falls due after a minute. -/
def later : List Action :=
  [.select 1 position (atSecond 0), .write 1 position .oper (operAt true 60).toValue (atSecond 0),
    .timeout (atSecond 60).mono]

/-- What is read off an event: of what kind it is, and when. -/
def Event.outline : Event → Nat × Nat
  | .tick now => (0, now)
  | .selected _ s => (1, s.expires)
  | .operated _ _ _ _ _ => (2, 0)
  | .cancelled _ _ => (3, 0)
  | .closed _ => (4, 0)
  | .ran t => (if t.model.needsSelect then 5 else 6, t.due)
  | .dropped t => (7, t.due)

theorem ran_of_outline {ev : Event} {due : Instant} (h : ev.outline = (5, due)) :
    ∃ t, ev = .ran t ∧ t.model.needsSelect = true := by
  cases ev with
  | ran t =>
    rw [Event.outline, Prod.mk.injEq] at h
    refine ⟨t, rfl, ?_⟩
    by_contra hnot
    rw [if_neg hnot] at h
    exact absurd h.1 (by decide)
  | _ => cases h

theorem tick_of_outline {ev : Event} {now : Instant} (h : ev.outline = (0, now)) :
    ev = .tick now := by
  cases ev with
  | tick now' =>
    cases h
    rfl
  | ran t =>
    rw [Event.outline, Prod.mk.injEq] at h
    split at h
    · exact absurd h.1 (by decide)
    · exact absurd h.1 (by decide)
  | _ => cases h

/-- A selection of thirty seconds authorises a command that falls due after a minute, and the command
runs then: it does not end with the selection. -/
theorem outlives_selection : ¬ ∀ (ied : Store) (xs : List Action), Justified
      (fun log ev => ∀ t, ev = .ran t → t.model.needsSelect = true →
        ∃ s, Since (fun before ev => Arms t ev ∧ Held before t.object s)
          (fun ev => ∀ now, ev = .tick now → now < s.expires) log)
      (journal step events ⟨.new, ied⟩ xs) := by
  intro hclaim
  have houtline : (journal step events ⟨.new, switchgear 2 .boolean⟩ later).map Event.outline =
      [(1, 30000000000), (0, 0), (2, 0), (0, 60000000000), (5, 60000000000)] := by
    decide +kernel
  have hjustified := hclaim (switchgear 2 .boolean) later
  generalize journal step events ⟨.new, switchgear 2 .boolean⟩ later = log at houtline hjustified
  obtain ⟨log, ev, rfl⟩ := (List.eq_nil_or_concat' log).resolve_left (by
    rintro rfl
    cases houtline)
  have hsplit : log.map Event.outline ++ [ev.outline] =
      [(1, 30000000000), (0, 0), (2, 0), (0, 60000000000)] ++ [(5, 60000000000)] := by
    rw [List.map_append] at houtline
    exact houtline
  obtain ⟨hlog, hev⟩ := List.append_inj' hsplit rfl
  -- the last event is of a command that runs
  obtain ⟨t, rfl, hneeds⟩ := ran_of_outline (List.singleton_inj.mp hev)
  obtain ⟨s, before, armed, after, rfl, ⟨harms, hheld⟩, hafter⟩ :=
    hjustified log (.ran t) (List.prefix_refl _) t rfl hneeds
  have harmed : armed.outline = (2, 0) := by
    cases armed <;> first | rfl | exact harms.elim
  rw [List.map_append, List.map_cons, harmed] at hlog
  -- the operate comes after the selection and the reading of the clock
  rcases before with _ | ⟨first, _ | ⟨second, _ | ⟨third, _ | ⟨fourth, before⟩⟩⟩⟩ <;>
    simp at hlog
  obtain ⟨hfirst, hsecond, last, rfl, hlast⟩ := hlog
  -- the selection the operate rests on is the one that was made
  have hselected : s.expires = 30000000000 := by
    rcases since_concat.mp (show Held ([first] ++ [second]) t.object s from hheld) with
      hnow | ⟨hbefore, -⟩
    · rw [hnow] at hsecond
      cases hsecond
    · rcases since_concat.mp (show Held ([] ++ [first]) t.object s from hbefore) with
        hnow | ⟨hnil, -⟩
      · rw [hnow] at hfirst
        exact (Prod.mk.inj hfirst).2
      · exact absurd hnil (not_since_nil _ _)
  have hlt := hafter last List.mem_cons_self 60000000000 (tick_of_outline hlast)
  rw [hselected] at hlt
  exact absurd hlt (by decide)

end Iec61850.Server.Control
