import Iec61850.Server.ControlGate

/-!
# The end of a command

The ledger of the `Oper`s of enhanced objects: each that is accepted is terminated, withdrawn or
goes on waiting. What is sent of another refusal looks like a termination as well, and is entered
beside them.
-/

namespace Iec61850.Server.Control

open Theory Mms

/-! ### The ledger -/

/-- What a client tells its commands apart by. -/
structure Command where
  assoc : AssocId
  object : Reference
  ctlNum : UInt8
  deriving DecidableEq

def Timed.command (t : Timed) : Command := ⟨t.assoc, t.object, t.request.ctlNum⟩

/-- What an association is told of a request: that it took effect, or why it did not. -/
structure Told where
  assoc : AssocId
  object : Reference
  request : ControlRequest
  cause : Option AddCause

namespace Told

variable (m : Told)

def command : Command := ⟨m.assoc, m.object, m.request.ctlNum⟩

/-- What is sent. -/
def termination : Termination :=
  match m.cause with
  | none => ⟨m.assoc, positive m.object m.request⟩
  | some cause => ⟨m.assoc, negative m.object m.request (applError m.object m.request cause)⟩

end Told

/-- An entry of the ledger. What is told is owed when it is the end of an `Oper` of an enhanced
object; the others are told of a request whose `Write` is answered with an error, or of an object
without enhanced security. -/
inductive Entry where
  | accepted (command : Command)
  | told (m : Told) (owed : Bool)
  | withdrawn (t : Timed)
  | replaced (t : Timed)

namespace Controls

variable (c : Controls)

/-- The commands that wait for this association and this object. -/
def slotOf (assoc : AssocId) (object : Reference) : List Timed :=
  c.timed.filter fun t => t.object = object && t.assoc = assoc

/-- What is told of a command that has fallen due. -/
def timedEntries (ied : Store) (t : Timed) : List Entry :=
  match c.timedRefusal ied t with
  | some cause => [.told ⟨t.assoc, t.object, t.request, some cause⟩ t.model.enhancedSecurity]
  | none =>
    if t.model.enhancedSecurity then [.told ⟨t.assoc, t.object, t.request, none⟩ true] else []

def runEntries : Controls → Store → List Timed → List Entry
  | _, _, [] => []
  | c, ied, t :: ts =>
    c.timedEntries ied t ++ runEntries (c.runTimed ied t).1 (c.runTimed ied t).2 ts

def timeoutEntries (ied : Store) (now : Instant) : List Entry :=
  runEntries ((c.expire now).wait now) ied (c.dueAt now)

/-- Whether a cancel finds nothing of the association to withdraw. -/
def idle (assoc : AssocId) (object : Reference) : Bool :=
  !(c.selections object).any (·.assoc = assoc) &&
    !c.timed.any fun t => t.object = object && t.assoc = assoc

def cancelEntries (assoc : AssocId) (object : Reference) (request : ControlRequest)
    (model : ControlModel) : List Entry :=
  match causeOf (c.ask object .cancel request model) with
  | some cause => [.told ⟨assoc, object, request, some cause⟩ false]
  | none =>
    (c.slotOf assoc object).map .withdrawn ++
      if c.idle assoc object then [.told ⟨assoc, object, request, some .objectNotSelected⟩ false]
      else []

def operEntries (assoc : AssocId) (object : Reference) (request : ControlRequest)
    (model : ControlModel) (now : Now) : List Entry :=
  match c.operRefusal assoc object request model with
  | some cause => [.told ⟨assoc, object, request, some cause⟩ model.enhancedSecurity]
  | none =>
    if (waitOf request now).isSome then (c.slotOf assoc object).map .replaced
    else if model.enhancedSecurity then [.told ⟨assoc, object, request, none⟩ true]
    else []

def serveEntries (assoc : AssocId) (ied : Store) (object : Reference) (a : Attribute)
    (request : ControlRequest) (model : ControlModel) (now : Now) : List Entry :=
  match writeRefusal ied object a request with
  | some cause =>
    [.told ⟨assoc, object, request, some cause⟩ (model.enhancedSecurity && a = .oper)]
  | none =>
    match a with
    | .sbow =>
      ((c.sbowRefusal assoc object request model now).map fun cause =>
        .told ⟨assoc, object, request, some cause⟩ false).toList
    | .cancel => c.cancelEntries assoc object request model
    | .oper => c.operEntries assoc object request model now
    | .sbo => []

/-- The `Oper` of an enhanced object whose `Write` is answered with success. -/
def acceptedEntries (assoc : AssocId) (ied : Store) (object : Reference) (a : Attribute)
    (request : ControlRequest) (model : ControlModel) (now : Now) : List Entry :=
  if a = .oper && model.enhancedSecurity &&
      (c.serve assoc ied object a request model now).2.2.isOk then
    [.accepted ⟨assoc, object, request.ctlNum⟩]
  else []

def writeEntries (assoc : AssocId) (ied : Store) (object : Reference) (a : Attribute)
    (value : Value) (now : Now) : List Entry :=
  match modelOf ied object, ControlRequest.fromValue value with
  | some model, .ok request =>
    let c' := (c.onTimeout ied now.mono).1
    let ied' := (c.onTimeout ied now.mono).2
    c.timeoutEntries ied now.mono ++
      (c'.acceptedEntries assoc ied' object a request model now ++
        c'.serveEntries assoc ied' object a request model now)
  | _, _ => []

end Controls

/-- What an action enters in the ledger. -/
def entries (s : System) : Action → List Entry
  | .write assoc object a value now => s.controls.writeEntries assoc s.ied object a value now
  | .timeout now => s.controls.timeoutEntries s.ied now
  | .closed assoc => (s.controls.timed.filter fun t => t.assoc = assoc).map .withdrawn
  | .select _ _ _ | .store _ | .onControl _ | .setSboTimeoutMs _ | .takePending
  | .takeLastCause => []

/-! ### Accounts -/

/-- The commands of enhanced objects in a list of those that wait. -/
def owedOf (ts : List Timed) : List Command :=
  (ts.filter (·.model.enhancedSecurity)).map Timed.command

namespace Entry

/-- The `Oper`s that were accepted. -/
def opened : Entry → List Command
  | .accepted command => [command]
  | _ => []

/-- Whom something was told. -/
def ended : Entry → List Command
  | .told m _ => [m.command]
  | _ => []

/-- Whom something was told that is no end of an `Oper` of an enhanced object. -/
def stray : Entry → List Command
  | .told m false => [m.command]
  | _ => []

/-- The commands that were withdrawn before they fell due. -/
def left : Entry → List Command
  | .withdrawn t => owedOf [t]
  | _ => []

/-- The commands another took the place of. -/
def lost : Entry → List Command
  | .replaced t => owedOf [t]
  | _ => []

/-- Whom it was told that the command took effect. -/
def done : Entry → List Command
  | .told ⟨assoc, object, request, none⟩ _ => [⟨assoc, object, request.ctlNum⟩]
  | _ => []

/-- What is sent. -/
def sent : Entry → List Termination
  | .told m _ => [m.termination]
  | _ => []

end Entry

/-- How often a command is in an account of the ledger. -/
def tally (account : Entry → List Command) (k : Command) (log : List Entry) : Nat :=
  (log.flatMap account).count k

/-- How often a command of an enhanced object waits. -/
def waiting (k : Command) (ts : List Timed) : Nat := (owedOf ts).count k

/-- The commands of enhanced objects that are applied. -/
def Moment.effects : Moment → List Command
  | .applied a =>
    if a.model.enhancedSecurity then [⟨a.assoc, a.object, a.request.ctlNum⟩] else []
  | _ => []

variable (account : Entry → List Command)

@[simp] theorem tally_nil (k : Command) :
    tally account k [] = 0 := rfl

theorem tally_append (k : Command) (log log' : List Entry) :
    tally account k (log ++ log') = tally account k log + tally account k log' := by
  unfold tally
  rw [List.flatMap_append, List.count_append]

theorem tally_cons (k : Command) (e : Entry) (log : List Entry) :
    tally account k (e :: log) = (account e).count k + tally account k log := by
  unfold tally
  rw [List.flatMap_cons, List.count_append]

theorem waiting_append (k : Command) (ts ts' : List Timed) :
    waiting k (ts ++ ts') = waiting k ts + waiting k ts' := by
  unfold waiting owedOf
  rw [List.filter_append, List.map_append, List.count_append]

variable {ts : List Timed} {k : Command} {s : System} {x : Action}

theorem waiting_perm (k : Command) {ts' : List Timed} (h : ts.Perm ts') :
    waiting k ts = waiting k ts' :=
  ((h.filter _).map _).count_eq k

theorem waiting_cons (k : Command) (t : Timed) (ts : List Timed) :
    waiting k (t :: ts) = (owedOf [t]).count k + waiting k ts := by
  rw [← List.singleton_append, waiting_append]
  rfl

theorem waiting_filter (k : Command) (ts : List Timed) (p : Timed → Bool) :
    waiting k (ts.filter p) + waiting k (ts.filter fun t => !p t) = waiting k ts := by
  rw [← waiting_append]
  exact waiting_perm k (List.filter_append_perm p ts)

/-- What a step does to the ledger: an `Oper` that is accepted is ended, withdrawn, replaced or goes on
waiting, and nothing else is told but what is not owed. -/
def Balanced (k : Command) (log : List Entry) (before after : List Timed) : Prop :=
  tally Entry.ended k log + tally Entry.left k log + tally Entry.lost k log + waiting k after =
    tally Entry.opened k log + tally Entry.stray k log + waiting k before

theorem balanced_nil (k : Command) (ts : List Timed) : Balanced k [] ts ts := by
  unfold Balanced
  simp only [tally_nil]

theorem Balanced.append {log log' : List Entry} {mid ts' : List Timed} (h : Balanced k log ts mid)
    (h' : Balanced k log' mid ts') : Balanced k (log ++ log') ts ts' := by
  unfold Balanced at h h' ⊢
  simp only [tally_append]
  omega

/-! ### Time -/

theorem owedOf_singleton (t : Timed) :
    owedOf [t] = if t.model.enhancedSecurity then [t.command] else [] := by
  unfold owedOf
  rw [List.filter_singleton]
  cases t.model.enhancedSecurity with
  | true => rfl
  | false => rfl

theorem balanced_timedEntries (k : Command) (c : Controls) (ied : Store) (t : Timed)
    (ts : List Timed) : Balanced k (c.timedEntries ied t) (t :: ts) ts := by
  unfold Balanced Controls.timedEntries
  rw [waiting_cons, owedOf_singleton]
  cases c.timedRefusal ied t with
  | some cause =>
    dsimp only
    cases t.model.enhancedSecurity with
    | true =>
      simp [tally, Entry.ended, Entry.left, Entry.lost, Entry.opened, Entry.stray, Told.command,
        Timed.command]
    | false =>
      simp [tally, Entry.ended, Entry.left, Entry.lost, Entry.opened, Entry.stray, Told.command]
  | none =>
    dsimp only
    cases t.model.enhancedSecurity with
    | true =>
      simp [tally, Entry.ended, Entry.left, Entry.lost, Entry.opened, Entry.stray, Told.command,
        Timed.command]
    | false => simp [tally]

theorem balanced_runEntries (k : Command) (c : Controls) (ied : Store) (ts rest : List Timed) :
    Balanced k (c.runEntries ied ts) (ts ++ rest) rest := by
  induction ts generalizing c ied with
  | nil => exact balanced_nil k rest
  | cons t ts ih =>
    rw [Controls.runEntries, List.cons_append]
    exact (balanced_timedEntries k c ied t (ts ++ rest)).append (ih _ _)

theorem balanced_timeout (k : Command) (c : Controls) (ied : Store) (now : Instant) :
    Balanced k (c.timeoutEntries ied now) c.timed (c.onTimeout ied now).1.timed := by
  have hsplit := waiting_filter k c.timed fun t => decide (t.due ≤ now)
  have hloop := balanced_runEntries k ((c.expire now).wait now) ied (c.dueAt now)
    ((c.expire now).wait now).timed
  rw [(c.onTimeout_authority ied now).timed]
  unfold Balanced at hloop ⊢
  rw [waiting_append] at hloop
  have hbefore : waiting k (c.dueAt now) + waiting k ((c.expire now).wait now).timed =
      waiting k c.timed := hsplit
  rw [hbefore] at hloop
  exact hloop

/-! ### Services -/

theorem tally_withdrawn (account : Entry → List Command) (k : Command) (ts : List Timed)
    (f : Timed → Entry) (hf : ∀ t, account (f t) = owedOf [t]) :
    tally account k (ts.map f) = waiting k ts := by
  induction ts with
  | nil => rfl
  | cons t ts ih => rw [List.map_cons, tally_cons, hf, ih, waiting_cons]

theorem tally_none (account : Entry → List Command) (k : Command) (ts : List Timed)
    (f : Timed → Entry) (hf : ∀ t, account (f t) = []) : tally account k (ts.map f) = 0 := by
  induction ts with
  | nil => rfl
  | cons t ts ih => rw [List.map_cons, tally_cons, hf, ih, List.count_nil]

theorem balanced_withdrawn (k : Command) (ts : List Timed) (p : Timed → Bool) :
    Balanced k ((ts.filter p).map .withdrawn) ts (ts.filter fun t => !p t) := by
  unfold Balanced
  rw [tally_none Entry.ended k _ _ fun _ => rfl, tally_withdrawn Entry.left k _ _ fun _ => rfl,
    tally_none Entry.lost k _ _ fun _ => rfl, tally_none Entry.opened k _ _ fun _ => rfl,
    tally_none Entry.stray k _ _ fun _ => rfl, ← waiting_filter k ts p]
  omega

theorem balanced_stray (k : Command) (m : Told) (ts : List Timed) :
    Balanced k [.told m false] ts ts := by
  unfold Balanced
  simp only [tally_cons, tally_nil, Entry.ended, Entry.left, Entry.lost, Entry.opened, Entry.stray,
    List.count_nil]
  omega

variable (c : Controls)

theorem refuse_timed (assoc : AssocId) (object : Reference)
    (request : ControlRequest) (model : ControlModel) (stage : Stage) (cause : AddCause) :
    (c.refuse assoc object request model stage cause).1.timed = c.timed :=
  (c.sameAuthority_refuse assoc object request model stage cause).timed

theorem balanced_cancel (k : Command) (c : Controls) (assoc : AssocId) (object : Reference)
    (request : ControlRequest) (model : ControlModel) :
    Balanced k (c.cancelEntries assoc object request model) c.timed
      (c.cancel assoc object request model).1.timed := by
  unfold Controls.cancelEntries Controls.cancel
  cases causeOf (c.ask object .cancel request model) with
  | some cause =>
    dsimp only
    rw [refuse_timed]
    exact balanced_stray k _ _
  | none =>
    dsimp only
    apply (balanced_withdrawn k c.timed fun t => t.object = object && t.assoc = assoc).append
    unfold Controls.idle
    by_cases hheld : ((c.selections object).any fun s => decide (s.assoc = assoc)) = true
    · simp only [hheld, if_true, Bool.not_true, Bool.false_and, Bool.false_eq_true, if_false]
      exact balanced_nil k _
    · rw [Bool.not_eq_true] at hheld
      by_cases hwaits : (c.timed.any fun t => decide (t.object = object) &&
          decide (t.assoc = assoc)) = true
      · simp only [hheld, hwaits, if_true, Bool.not_true, Bool.and_false, Bool.false_eq_true,
          if_false]
        exact balanced_nil k _
      · rw [Bool.not_eq_true] at hwaits
        simp only [hheld, hwaits, if_true, Bool.not_false, Bool.and_true, Bool.false_eq_true,
          if_false, refuse_timed]
        exact balanced_stray k _ _

theorem balanced_opened (k : Command) (m : Told) (ts : List Timed) :
    Balanced k [.accepted m.command, .told m true] ts ts := by
  unfold Balanced
  simp only [tally_cons, tally_nil, Entry.ended, Entry.left, Entry.lost, Entry.opened, Entry.stray,
    List.count_nil]
  omega

/-- An `Oper` that waits takes the place of those of its association on the object. -/
theorem balanced_armed (k : Command) (c : Controls) (t : Timed) :
    Balanced k ((if t.model.enhancedSecurity then [.accepted t.command] else []) ++
      (c.slotOf t.assoc t.object).map .replaced) c.timed (c.arm t).timed := by
  have hsplit := waiting_filter k c.timed fun t' => t'.object = t.object && t'.assoc = t.assoc
  have hafter : waiting k (c.arm t).timed =
      waiting k (c.timed.filter fun t' => !(t'.object = t.object && t'.assoc = t.assoc)) +
        (owedOf [t]).count k := by
    rw [Controls.arm]
    exact waiting_append k _ _
  unfold Balanced
  rw [tally_append, tally_append, tally_append, tally_append, tally_append,
    tally_none Entry.ended k _ _ fun _ => rfl, tally_none Entry.left k _ _ fun _ => rfl,
    tally_withdrawn Entry.lost k _ _ fun _ => rfl, tally_none Entry.opened k _ _ fun _ => rfl,
    tally_none Entry.stray k _ _ fun _ => rfl, hafter, owedOf_singleton, ← hsplit]
  unfold Controls.slotOf
  cases t.model.enhancedSecurity with
  | true =>
    simp only [if_pos, tally_cons, tally_nil, Entry.ended, Entry.left, Entry.lost, Entry.opened,
      Entry.stray, List.count_nil]
    omega
  | false =>
    simp only [Bool.false_eq_true, if_false, tally_nil, List.count_nil]
    omega

/-- A refused operate of an enhanced object is answered with success, every other refusal with an
error; what is told is owed accordingly. -/
theorem balanced_refused (k : Command) (c : Controls) (assoc : AssocId) (object : Reference)
    (a : Attribute) (request : ControlRequest) (model : ControlModel) (cause : AddCause) :
    Balanced k ((if a = .oper && model.enhancedSecurity &&
          (c.refuse assoc object request model a.stage cause).2.isOk then
        [.accepted ⟨assoc, object, request.ctlNum⟩] else []) ++
        [.told ⟨assoc, object, request, some cause⟩ (model.enhancedSecurity && a = .oper)])
      c.timed (c.refuse assoc object request model a.stage cause).1.timed := by
  rw [refuse_timed]
  cases henhanced : model.enhancedSecurity with
  | false =>
    rw [Bool.and_false, Bool.false_and, if_neg Bool.false_ne_true]
    exact balanced_stray k _ _
  | true =>
    by_cases ha : a = .oper
    · subst ha
      have hok : (c.refuse assoc object request model (Attribute.stage .oper) cause).2.isOk = true := by
        unfold Controls.refuse
        rw [henhanced]
        rfl
      rw [hok]
      exact balanced_opened k ⟨assoc, object, request, some cause⟩ _
    · simp only [ha, decide_false, Bool.false_and, Bool.and_false, Bool.false_eq_true, if_false]
      exact balanced_stray k _ _

theorem balanced_operate (k : Command) (c : Controls) (assoc : AssocId) (ied : Store)
    (object : Reference) (request : ControlRequest) (model : ControlModel) (now : Now) : Balanced k
      ((if model.enhancedSecurity && (c.operate assoc ied object request model now).2.2.isOk then
        [.accepted ⟨assoc, object, request.ctlNum⟩] else []) ++
        c.operEntries assoc object request model now)
      c.timed (c.operate assoc ied object request model now).1.timed := by
  unfold Controls.operEntries Controls.operate
  cases hrefusal : c.operRefusal assoc object request model with
  | some cause =>
    have h := balanced_refused k c assoc object .oper request model cause
    simp only [decide_true, Bool.true_and, Bool.and_true] at h
    exact h
  | none =>
    dsimp only
    cases hwait : Controls.waitOf request now with
    | some wait =>
      simp only [Option.isSome_some, if_true]
      have h := balanced_armed k (c.remove object)
        (Controls.timedOf assoc object request model now wait)
      simp only [Except.isOk, Except.toBool, Bool.and_true]
      exact h
    | none =>
      simp only [Option.isSome_none, Bool.false_eq_true, if_false]
      cases model.enhancedSecurity with
      | true => exact balanced_opened k ⟨assoc, object, request, none⟩ _
      | false => exact balanced_nil k _

/-- Every service keeps the accounts. -/
theorem balanced_serve (k : Command) (c : Controls) (assoc : AssocId) (ied : Store)
    (object : Reference) (a : Attribute) (request : ControlRequest) (model : ControlModel)
    (now : Now) : Balanced k (c.acceptedEntries assoc ied object a request model now ++
        c.serveEntries assoc ied object a request model now)
      c.timed (c.serve assoc ied object a request model now).1.timed := by
  unfold Controls.acceptedEntries Controls.serveEntries Controls.serve
  cases hmode : Controls.writeRefusal ied object a request with
  | some cause => exact balanced_refused k c assoc object a request model cause
  | none =>
    cases a with
    | oper =>
      have h := balanced_operate k c assoc ied object request model now
      simp only [decide_true, Bool.true_and]
      exact h
    | sbow =>
      rw [if_neg (by simp), List.nil_append]
      dsimp only
      unfold Controls.selectWithValue
      cases c.sbowRefusal assoc object request model now with
      | some cause =>
        dsimp only
        rw [refuse_timed]
        exact balanced_stray k _ _
      | none => exact balanced_nil k _
    | cancel =>
      rw [if_neg (by simp), List.nil_append]
      exact balanced_cancel k c assoc object request model
    | sbo =>
      rw [if_neg (by simp), List.nil_append]
      exact balanced_nil k _

theorem balanced_next (k : Command) (s : System) (x : Action) :
    Balanced k (entries s x) s.controls.timed (s.next x).controls.timed := by
  cases x with
  | write assoc object a value now =>
    rw [entries, Controls.writeEntries, System.next, Controls.write]
    cases modelOf s.ied object with
    | none => exact balanced_nil k _
    | some model =>
      cases ControlRequest.fromValue value with
      | error e => exact balanced_nil k _
      | ok request =>
        exact (balanced_timeout k s.controls s.ied now.mono).append
          (balanced_serve k _ assoc _ object a request model now)
  | timeout now => exact balanced_timeout k s.controls s.ied now
  | closed assoc =>
    have h := balanced_withdrawn k s.controls.timed fun t => decide (t.assoc = assoc)
    rw [entries, System.next]
    unfold Controls.onAssociationClosed
    simp only [decide_not]
    exact h
  | select assoc object now =>
    rw [entries, System.next]
    dsimp only
    unfold Controls.select
    split
    · exact balanced_nil k _
    · exact balanced_nil k _
  | store ied => exact balanced_nil k _
  | onControl hook => exact balanced_nil k _
  | setSboTimeoutMs ms => exact balanced_nil k _
  | takePending => exact balanced_nil k _
  | takeLastCause => exact balanced_nil k _

/-! ### What is sent, and of what -/

theorem sent_timedEntries (ied : Store) (t : Timed) :
    (c.runTimed ied t).1.pending = c.pending ++ (c.timedEntries ied t).flatMap Entry.sent := by
  unfold Controls.runTimed Controls.timedEntries
  cases c.timedRefusal ied t with
  | some cause => rfl
  | none =>
    dsimp only
    cases t.model.enhancedSecurity with
    | true => rfl
    | false =>
      rw [if_neg Bool.false_ne_true, if_neg Bool.false_ne_true, List.flatMap_nil,
        List.append_nil]

theorem sent_runEntries (ied : Store) (ts : List Timed) :
    (Controls.runAll c ied ts).1.pending =
      c.pending ++ (c.runEntries ied ts).flatMap Entry.sent := by
  induction ts generalizing c ied with
  | nil => exact (List.append_nil c.pending).symm
  | cons t ts ih =>
    have hrest := ih (c.runTimed ied t).1 (c.runTimed ied t).2
    rw [sent_timedEntries] at hrest
    rw [Controls.runEntries, List.flatMap_append, ← List.append_assoc]
    exact hrest

theorem sent_timeout (ied : Store) (now : Instant) :
    (c.onTimeout ied now).1.pending = c.pending ++ (c.timeoutEntries ied now).flatMap Entry.sent :=
  sent_runEntries ((c.expire now).wait now) ied (c.dueAt now)

theorem sent_map_nil {f : Timed → Entry} (hf : ∀ t, (f t).sent = []) (ts : List Timed) :
    (ts.map f).flatMap Entry.sent = [] := by
  rw [List.flatMap_eq_nil_iff]
  intro e he
  obtain ⟨t, _, rfl⟩ := List.mem_map.mp he
  exact hf t

theorem refuse_sent (assoc : AssocId) (object : Reference)
    (request : ControlRequest) (model : ControlModel) (stage : Stage) (cause : AddCause)
    (owed : Bool) : (c.refuse assoc object request model stage cause).1.pending =
      c.pending ++ (Entry.told ⟨assoc, object, request, some cause⟩ owed).sent :=
  (refuse_pending c assoc object request model stage cause).1

theorem sent_cancel (assoc : AssocId) (object : Reference)
    (request : ControlRequest) (model : ControlModel) :
    (c.cancel assoc object request model).1.pending =
      c.pending ++ (c.cancelEntries assoc object request model).flatMap Entry.sent := by
  unfold Controls.cancelEntries Controls.cancel
  cases causeOf (c.ask object .cancel request model) with
  | some cause => exact refuse_sent c assoc object request model .cancel cause false
  | none =>
    dsimp only
    rw [List.flatMap_append, sent_map_nil (fun _ => rfl), List.nil_append]
    unfold Controls.idle
    by_cases hheld : ((c.selections object).any fun s => decide (s.assoc = assoc)) = true
    · simp only [hheld, if_true, Bool.not_true, Bool.false_and, Bool.false_eq_true, if_false]
      exact (List.append_nil c.pending).symm
    · rw [Bool.not_eq_true] at hheld
      by_cases hwaits : (c.timed.any fun t => decide (t.object = object) &&
          decide (t.assoc = assoc)) = true
      · simp only [hheld, hwaits, if_true, Bool.not_true, Bool.and_false, Bool.false_eq_true,
          if_false]
        exact (List.append_nil c.pending).symm
      · rw [Bool.not_eq_true] at hwaits
        simp only [hheld, hwaits, if_true, Bool.not_false, Bool.and_true, Bool.false_eq_true,
          if_false]
        exact refuse_sent _ assoc object request model .cancel .objectNotSelected false

theorem sent_operate (assoc : AssocId) (ied : Store) (object : Reference)
    (request : ControlRequest) (model : ControlModel) (now : Now) :
    (c.operate assoc ied object request model now).1.pending =
      c.pending ++ (c.operEntries assoc object request model now).flatMap Entry.sent := by
  unfold Controls.operEntries Controls.operate
  cases c.operRefusal assoc object request model with
  | some cause =>
    exact refuse_sent c assoc object request model .operate cause model.enhancedSecurity
  | none =>
    dsimp only
    cases Controls.waitOf request now with
    | some wait =>
      simp only [Option.isSome_some, if_true]
      rw [sent_map_nil (fun _ => rfl), List.append_nil]
      rfl
    | none =>
      simp only [Option.isSome_none, Bool.false_eq_true, if_false]
      cases model.enhancedSecurity with
      | true => rfl
      | false => exact (List.append_nil c.pending).symm

theorem sent_serve (assoc : AssocId) (ied : Store) (object : Reference)
    (a : Attribute) (request : ControlRequest) (model : ControlModel) (now : Now) :
    (c.serve assoc ied object a request model now).1.pending =
      c.pending ++ (c.serveEntries assoc ied object a request model now).flatMap Entry.sent := by
  unfold Controls.serveEntries Controls.serve
  cases Controls.writeRefusal ied object a request with
  | some cause =>
    exact refuse_sent c assoc object request model a.stage cause
      (model.enhancedSecurity && decide (a = .oper))
  | none =>
    cases a with
    | oper => exact sent_operate c assoc ied object request model now
    | sbow =>
      dsimp only
      unfold Controls.selectWithValue
      cases c.sbowRefusal assoc object request model now with
      | some cause => exact refuse_sent c assoc object request model .select cause false
      | none => exact (List.append_nil c.pending).symm
    | cancel => exact sent_cancel c assoc object request model
    | sbo => exact (List.append_nil c.pending).symm

theorem sent_next (hx : x ≠ .takePending) :
    (s.next x).controls.pending = s.controls.pending ++ (entries s x).flatMap Entry.sent := by
  cases x with
  | write assoc object a value now =>
    rw [entries, Controls.writeEntries, System.next, Controls.write]
    cases modelOf s.ied object with
    | none => exact (List.append_nil _).symm
    | some model =>
      cases ControlRequest.fromValue value with
      | error e => exact (List.append_nil _).symm
      | ok request =>
        dsimp only
        have haccepted : ((s.controls.onTimeout s.ied now.mono).1.acceptedEntries assoc
            (s.controls.onTimeout s.ied now.mono).2 object a request model now).flatMap
            Entry.sent = [] := by
          unfold Controls.acceptedEntries
          split
          · rfl
          · rfl
        rw [sent_serve, sent_timeout, List.flatMap_append, List.flatMap_append, haccepted,
          List.nil_append, List.append_assoc]
  | timeout now => exact sent_timeout s.controls s.ied now
  | closed assoc =>
    rw [entries, sent_map_nil (fun _ => rfl), List.append_nil]
    rfl
  | select assoc object now =>
    rw [entries, System.next, List.flatMap_nil, List.append_nil]
    dsimp only
    unfold Controls.select
    split
    · rfl
    · rfl
  | store ied => exact (List.append_nil _).symm
  | onControl hook => exact (List.append_nil _).symm
  | setSboTimeoutMs ms => exact (List.append_nil _).symm
  | takePending => exact absurd rfl hx
  | takeLastCause => exact (List.append_nil _).symm

/-! ### What takes effect -/

theorem done_map_nil {f : Timed → Entry} (hf : ∀ t, (f t).done = []) (ts : List Timed) :
    (ts.map f).flatMap Entry.done = [] := by
  rw [List.flatMap_eq_nil_iff]
  intro e he
  obtain ⟨t, _, rfl⟩ := List.mem_map.mp he
  exact hf t

theorem done_runEntries (ied : Store) (ts : List Timed) :
    (c.runEntries ied ts).flatMap Entry.done =
      (Controls.runMoments c ied ts).flatMap Moment.effects := by
  induction ts generalizing c ied with
  | nil => rfl
  | cons t ts ih =>
    rw [Controls.runEntries, Controls.runMoments, List.flatMap_append, List.flatMap_append, ih]
    congr 1
    unfold Controls.timedEntries
    cases c.timedRefusal ied t with
    | some cause => rfl
    | none =>
      have heffects : (Moment.applied (c.timedApplication ied t)).effects =
          if t.model.enhancedSecurity then [t.command] else [] := rfl
      simp only [Option.isSome_none, Bool.false_eq_true, if_false]
      rw [List.flatMap_singleton, heffects]
      cases t.model.enhancedSecurity with
      | true => rfl
      | false => rfl

theorem done_operate (assoc : AssocId) {ied : Store} (object : Reference)
    {request : ControlRequest} (model : ControlModel) (now : Now)
    (hmode : Controls.writeRefusal ied object .oper request = none) :
    (c.operEntries assoc object request model now).flatMap Entry.done =
      (c.operMoments assoc ied object request model now).flatMap Moment.effects := by
  unfold Controls.operEntries Controls.operMoments
  rw [hmode, Option.isSome_none, Bool.false_or]
  cases c.operRefusal assoc object request model with
  | some cause => rfl
  | none =>
    simp only [Option.isSome_none, Bool.false_eq_true, if_false]
    cases Controls.waitOf request now with
    | some wait =>
      simp only [Option.isSome_some, if_true]
      exact done_map_nil (fun _ => rfl) _
    | none =>
      simp only [Option.isSome_none, Bool.false_eq_true, if_false]
      have heffects : (Moment.applied
          ⟨assoc, object, request, model, now.wall, c.hook, ied⟩).effects =
          if model.enhancedSecurity then [⟨assoc, object, request.ctlNum⟩] else [] := rfl
      rw [List.flatMap_cons, List.flatMap_singleton, heffects]
      cases model.enhancedSecurity with
      | true => rfl
      | false => rfl

theorem done_serve (assoc : AssocId) (ied : Store) (object : Reference)
    (a : Attribute) (request : ControlRequest) (model : ControlModel) (now : Now) :
    (c.serveEntries assoc ied object a request model now).flatMap Entry.done =
      (if a = .oper then c.operMoments assoc ied object request model now else []).flatMap
        Moment.effects := by
  unfold Controls.serveEntries
  cases hmode : Controls.writeRefusal ied object a request with
  | some cause =>
    by_cases ha : a = .oper
    · subst ha
      unfold Controls.operMoments
      rw [if_pos rfl, hmode, Option.isSome_some, Bool.true_or, if_pos rfl]
      rfl
    · rw [if_neg ha]
      rfl
  | none =>
    cases a with
    | oper =>
      rw [if_pos rfl]
      exact done_operate c assoc object model now hmode
    | sbow =>
      dsimp only
      cases c.sbowRefusal assoc object request model now with
      | some cause => rfl
      | none => rfl
    | cancel =>
      dsimp only
      unfold Controls.cancelEntries
      cases causeOf (c.ask object .cancel request model) with
      | some cause => rfl
      | none =>
        dsimp only
        rw [List.flatMap_append, done_map_nil (fun _ => rfl), List.nil_append]
        split
        · rfl
        · rfl
    | sbo => rfl

/-- A positive termination is sent of the commands of enhanced objects that are applied, and of no
others. -/
theorem done_next (s : System) (x : Action) :
    (entries s x).flatMap Entry.done = (moments s x).flatMap Moment.effects := by
  cases x with
  | write assoc object a value now =>
    rw [entries, Controls.writeEntries, moments, Controls.writeMoments]
    cases modelOf s.ied object with
    | none => rfl
    | some model =>
      cases ControlRequest.fromValue value with
      | error e => rfl
      | ok request =>
        dsimp only
        have haccepted : ((s.controls.onTimeout s.ied now.mono).1.acceptedEntries assoc
            (s.controls.onTimeout s.ied now.mono).2 object a request model now).flatMap
            Entry.done = [] := by
          unfold Controls.acceptedEntries
          split
          · rfl
          · rfl
        rw [List.flatMap_append, List.flatMap_append, List.flatMap_append, haccepted,
          List.nil_append, done_serve]
        congr 1
        exact done_runEntries _ _ _
  | timeout now => exact done_runEntries _ _ _
  | closed assoc => exact done_map_nil (fun _ => rfl) _
  | select assoc object now => rfl
  | store ied => rfl
  | onControl hook => rfl
  | setSboTimeoutMs ms => rfl
  | takePending => rfl
  | takeLastCause => rfl

/-! ### Who withdraws -/

theorem mem_runEntries {c : Controls} {ied : Store} {e : Entry} (h : e ∈ c.runEntries ied ts) :
    ∃ m owed, e = .told m owed := by
  induction ts generalizing c ied with
  | nil => cases h
  | cons t ts ih =>
    rw [Controls.runEntries, List.mem_append] at h
    rcases h with h | h
    · unfold Controls.timedEntries at h
      split at h
      · exact ⟨_, _, List.mem_singleton.mp h⟩
      · split at h
        · exact ⟨_, _, List.mem_singleton.mp h⟩
        · cases h
    · exact ih h

theorem withdrawn_by {t : Timed} (h : .withdrawn t ∈ entries s x) :
    (∃ value now, x = .write t.assoc t.object .cancel value now ∧ now.mono < t.due) ∨
      x = .closed t.assoc := by
  cases x with
  | write assoc object a value now =>
    left
    rw [entries, Controls.writeEntries] at h
    split at h
    · rename_i model request _ _
      dsimp only at h
      rw [List.mem_append, List.mem_append] at h
      rcases h with h | h | h
      · obtain ⟨m, owed, heq⟩ := mem_runEntries h
        cases heq
      · unfold Controls.acceptedEntries at h
        split at h
        · cases List.mem_singleton.mp h
        · cases h
      · unfold Controls.serveEntries at h
        split at h
        · cases List.mem_singleton.mp h
        · cases a with
          | cancel =>
            dsimp only at h
            unfold Controls.cancelEntries at h
            split at h
            · cases List.mem_singleton.mp h
            · rw [List.mem_append] at h
              rcases h with h | h
              · obtain ⟨t', ht', heq⟩ := List.mem_map.mp h
                cases heq
                obtain ⟨hmem, hslot⟩ := List.mem_filter.mp ht'
                rw [Bool.and_eq_true, decide_eq_true_eq, decide_eq_true_eq] at hslot
                rw [(s.controls.onTimeout_authority s.ied now.mono).timed] at hmem
                obtain ⟨-, hwaits⟩ := List.mem_filter.mp hmem
                simp only [Bool.not_eq_true', decide_eq_false_iff_not, not_le] at hwaits
                exact ⟨value, now, by rw [hslot.1, hslot.2], hwaits⟩
              · split at h
                · cases List.mem_singleton.mp h
                · cases h
          | oper =>
            dsimp only at h
            unfold Controls.operEntries at h
            split at h
            · cases List.mem_singleton.mp h
            · split at h
              · obtain ⟨t', _, heq⟩ := List.mem_map.mp h
                cases heq
              · split at h
                · cases List.mem_singleton.mp h
                · cases h
          | sbow =>
            dsimp only at h
            rw [Option.mem_toList] at h
            obtain ⟨cause, _, heq⟩ := Option.map_eq_some_iff.mp h
            cases heq
          | sbo => cases h
    · cases h
  | closed assoc =>
    right
    obtain ⟨t', ht', heq⟩ := List.mem_map.mp h
    cases heq
    obtain ⟨-, hassoc⟩ := List.mem_filter.mp ht'
    rw [of_decide_eq_true hassoc]
  | timeout now =>
    obtain ⟨m, owed, heq⟩ := mem_runEntries h
    cases heq
  | select assoc object now => cases h
  | store ied => cases h
  | onControl hook => cases h
  | setSboTimeoutMs ms => cases h
  | takePending => cases h
  | takeLastCause => cases h

/-! ### Runs -/

/-- A step spares a command: no `Oper` that is to wait takes its place, and no refusal that its
`Write` is answered with, or of an object without enhanced security, is told under its number. -/
def Spared (k : Command) (s : System) (x : Action) : Prop :=
  ∀ e ∈ entries s x, k ∉ e.lost ∧ k ∉ e.stray

instance (k : Command) (s : System) (x : Action) : Decidable (Spared k s x) :=
  inferInstanceAs (Decidable (∀ e ∈ entries s x, k ∉ e.lost ∧ k ∉ e.stray))

theorem tally_eq_zero {account : Entry → List Command} {log : List Entry}
    (h : ∀ e ∈ log, k ∉ account e) : tally account k log = 0 := by
  unfold tally
  rw [List.count_eq_zero, List.mem_flatMap]
  rintro ⟨e, he, hk⟩
  exact h e he hk

/-- The accounts of a step that spares the command. -/
def Settled (k : Command) (log : List Entry) (before after : List Timed) : Prop :=
  tally Entry.ended k log + tally Entry.left k log + waiting k after =
    tally Entry.opened k log + waiting k before

theorem settled_next (h : Spared k s x) :
    Settled k (entries s x) s.controls.timed (s.next x).controls.timed := by
  have hbalanced := balanced_next k s x
  have hlost : tally Entry.lost k (entries s x) = 0 := tally_eq_zero fun e he => (h e he).1
  have hstray : tally Entry.stray k (entries s x) = 0 := tally_eq_zero fun e he => (h e he).2
  unfold Balanced at hbalanced
  unfold Settled
  omega

/-- From any state, in every run whose steps all spare the command, each `Oper` of an enhanced object
that is accepted under it is told once of its end, is withdrawn, or waits at the last; it is told
that the command took effect exactly as often as it did; and what is told is what is sent, a
command being withdrawn only by its client before it falls due and by the end of its association. -/
theorem run_terminated {k : Command} {s s' : System} {xs : List Action}
    (hspared : Meets step (Spared k) s xs) (hrun : run step s xs = some s') :
    Settled k (journal step entries s xs) s.controls.timed s'.controls.timed ∧
    ∀ t x, (entries t x).flatMap Entry.done = (moments t x).flatMap Moment.effects ∧
      (x ≠ .takePending → (t.next x).controls.pending =
        t.controls.pending ++ (entries t x).flatMap Entry.sent) ∧ ∀ w, .withdrawn w ∈ entries t x →
        (∃ value now, x = .write w.assoc w.object .cancel value now ∧ now.mono < w.due) ∨
          x = .closed w.assoc := by
  constructor
  · have hstart : Settled k [] s.controls.timed s.controls.timed := by simp [Settled]
    have hmark : ∀ log mid x mid', Settled k log s.controls.timed mid.controls.timed →
        Spared k mid x → step mid x = some mid' →
        Settled k (log ++ entries mid x) s.controls.timed mid'.controls.timed := by
      intro log mid x mid' hmid hx hstep
      cases hstep
      have hnext := settled_next hx
      unfold Settled at hmid hnext ⊢
      rw [tally_append, tally_append, tally_append]
      omega
    have hlog := journal_run
      (J := fun log mid => Settled k log s.controls.timed mid.controls.timed)
      hmark hstart hspared hrun
    exact hlog
  · intro t x
    exact ⟨done_next t x, sent_next, fun w hw => withdrawn_by hw⟩

/-- Two commands for the switch under two numbers, which fall due after one and after two minutes. -/
def twice : List Action :=
  [.write 1 position .oper (operAt true 60).toValue (atSecond 0),
    .write 1 position .oper { operAt true 120 with ctlNum := 2 }.toValue (atSecond 1),
    .timeout (atSecond 120).mono]

/-- One command for the switch, which falls due after a minute, and one at once. -/
def onceEach : List Action :=
  [.write 1 position .oper (operAt true 60).toValue (atSecond 0),
    .write 1 position .oper { operAt true 0 with ctlNum := 2 }.toValue (atSecond 1),
    .timeout (atSecond 60).mono]

/-- The command that waits is told of its end when it falls due. -/
theorem run_terminated_onceEach : ∃ s', run step ⟨.new, switchgear 3 .boolean⟩ onceEach = some s' ∧
      Settled ⟨1, position, 1⟩ (journal step entries ⟨.new, switchgear 3 .boolean⟩ onceEach) []
        s'.controls.timed := by
  obtain ⟨s', hrun⟩ := @exists_run_of_total _ _ step (fun s x => ⟨s.next x, rfl⟩)
    ⟨.new, switchgear 3 .boolean⟩ onceEach
  exact ⟨s', hrun, (run_terminated (by decide +kernel) hrun).1⟩

/-- The second command takes the place of the first, which is accepted and never told of its end. -/
theorem replaced_untold : ¬ ∀ (ied : Store) (xs : List Action) (k : Command) (s' : System),
      run step ⟨.new, ied⟩ xs = some s' →
      tally Entry.left k (journal step entries ⟨.new, ied⟩ xs) = 0 → waiting k s'.controls.timed = 0 →
      tally Entry.ended k (journal step entries ⟨.new, ied⟩ xs) =
        tally Entry.opened k (journal step entries ⟨.new, ied⟩ xs) := by
  intro hclaim
  obtain ⟨s', hrun⟩ := @exists_run_of_total _ _ step (fun s x => ⟨s.next x, rfl⟩)
    ⟨.new, switchgear 3 .boolean⟩ twice
  have hwaiting : (run step ⟨.new, switchgear 3 .boolean⟩ twice).map
      (fun s => waiting ⟨1, position, 1⟩ s.controls.timed) = some 0 := by
    decide +kernel
  rw [hrun, Option.map_some, Option.some.injEq] at hwaiting
  have hequal := hclaim (switchgear 3 .boolean) twice ⟨1, position, 1⟩ s' hrun
    (by decide +kernel) hwaiting
  exact absurd hequal (by decide +kernel)

end Iec61850.Server.Control
