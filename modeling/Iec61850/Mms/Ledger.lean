import Iec61850.Mms.AssociationRuns
import Iec61850.Theory.History

/-!
# The ledger of outstanding requests

What happens to the requests of an association, told without its table: a request is called, a
PDU is delivered, a deadline passes, the association closes. A request is live from its call
until the first happening that ends it. The table of the association is that ledger
(`outstanding_until_ended`), and the event that ends a live request is emitted once, with the
happening that ends it.

A PDU that does not decode, or that rejects something, is taken for the answer to a request of
ours even when it is about the peer's own PDUs; the runs here are those in which no such PDU
names a live request (`NoStray`).
-/

namespace Iec61850.Mms

open Theory Ber

/-- The event ends the request `id`. -/
def AssociationEvent.terminates (e : AssociationEvent) (id : Int) : Bool :=
  match e with
  | .response i _ | .timeout i | .cancelled i => i == id
  | .rejected i _ => i == some id
  | .malformed i _ => i == some id
  | .closed _ => true
  | _ => false

/-- What can happen that requests are about. -/
inductive Happening where
  | called (id : Int)
  | delivered (pdu : Bytes)
  | due (id : Int)
  | finished
  /-- Something that ends no request, such as the refusal of a handshake. -/
  | aside

namespace Association

/-- A confirmed-response or confirmed-error PDU, whether it decodes or not. -/
def isAnswer (pdu : Bytes) : Bool :=
  match (Cursor.new pdu).nextRequired with
  | .ok (top, _) => decide (top.tag.cls = .context ∧ (top.tag.number = 1 ∨ top.tag.number = 2))
  | .error _ => false

/-- The PDU ends the request `id`: it answers it, rejects it or says that it was cancelled, it
is an answer that does not decode, or it ends the association. -/
def pduEnds (limits : Limits) (pdu : Bytes) (id : Int) : Bool :=
  match Pdu.parse pdu limits with
  | .ok (.confirmedResponse i _) | .ok (.confirmedError i _ _) | .ok (.cancelResponse i) => i == id
  | .ok (.reject ⟨i, .confirmedRequest _⟩) => i == some id
  | .ok .concludeRequest | .ok .concludeResponse => true
  | .ok _ => false
  | .error _ => isAnswer pdu && peekInvokeId pdu == some id

/-- The happening ends the request `id`. -/
def Ended (limits : Limits) (h : Happening) (id : Int) : Bool :=
  match h with
  | .called _ | .aside => false
  | .delivered pdu => pduEnds limits pdu id
  | .due i => i == id
  | .finished => true

/-- The request is live: it was called, and nothing has ended it since. -/
def live (limits : Limits) (hs : List Happening) (id : Int) : Bool :=
  hs.foldl (fun on h => match h with
    | .called i => on || i == id
    | h => on && !Ended limits h id) false

@[simp] theorem live_concat (limits : Limits) (hs : List Happening) (h : Happening) (id : Int) :
    live limits (hs ++ [h]) id =
      match h with
      | .called i => live limits hs id || i == id
      | h => live limits hs id && !Ended limits h id := by
  cases h <;> simp [live]

/-- The request that a stray PDU names: one that does not decode and is not an answer, or a
reject of something else than a confirmed request. -/
def stray (limits : Limits) (pdu : Bytes) : Option Int :=
  match Pdu.parse pdu limits with
  | .ok (.reject ⟨_, .confirmedRequest _⟩) => none
  | .ok (.reject r) => r.originalInvokeId
  | .ok _ => none
  | .error _ => if isAnswer pdu then none else peekInvokeId pdu

/-- No stray PDU names a request that is outstanding. -/
def NoStray (a : Association) (tpdu : Bytes) : Prop :=
  ∀ p ∈ deliveredBy a tpdu, ∀ id ∈ stray a.cfg.limits p, id ∉ a.outstanding

instance NoStray.decidable (a : Association) (tpdu : Bytes) : Decidable (NoStray a tpdu) :=
  inferInstanceAs (Decidable (∀ p ∈ deliveredBy a tpdu, ∀ id ∈ stray a.cfg.limits p,
    id ∉ a.outstanding))

/-! ### The happenings of a run -/

/-- The happenings of an operation other than `on_bytes`. -/
def opHappenings (a : Association) : Op → List Happening
  | .call now service =>
    match (call now service a).1 with
    | .ok id => [.called id]
    | .error _ => []
  | .onTimeout now => if connectExpired now a then [] else (a.due now).map .due
  | _ => []

/-- The calls, PDUs and deadlines of a run, in order. -/
def happenings (a : Association) (ops : List Op) : List Happening :=
  journal perform (marks (fun a tpdu => (deliveredBy a tpdu).map .delivered) opHappenings) a ops

/-- The happenings that a run is asked for; the others are for the association to tell. -/
def observed : Happening → Bool
  | .called _ | .delivered _ | .due _ => true
  | .finished | .aside => false

/-! ### The ledger -/

/-- A happening and the events it gave rise to. -/
abbrev Entry := Happening × List AssociationEvent

/-- The happening ends a live request exactly when one of its events does. -/
def EndsOnce (limits : Limits) (pre : List Entry) (entry : Entry) : Prop :=
  ∀ id, live limits (pre.map Prod.fst) id = true →
    entry.2.countP (fun e => e.terminates id) = if Ended limits entry.1 id then 1 else 0

/-- The ledger and the core tell the same: the events, and which requests are outstanding. -/
structure Balanced (limits : Limits) (log : List Entry) (c : Core) : Prop where
  events : log.flatMap Prod.snd = c.history
  table : ∀ id, id ∈ c.outstanding ↔ live limits (log.map Prod.fst) id = true
  once : Justified (EndsOnce limits) log
  finished : ∀ entry ∈ log, entry.1 = .finished → ∃ r, .closed r ∈ entry.2
  closedEmpty : c.state = .closed → ∀ id, id ∉ c.outstanding

variable {limits : Limits} {log : List Entry} {c d : Core} {T : List Happening} {es : List Effect}

theorem Balanced.same (h : Balanced limits log c) (hhistory : d.history = c.history)
    (houtstanding : d.outstanding = c.outstanding) (hstate : d.state = .closed → c.state = .closed) :
    Balanced limits log d := by
  refine ⟨?_, fun id => ?_, h.once, h.finished, fun hclosed => ?_⟩
  · rw [hhistory]
    exact h.events
  · rw [houtstanding]
    exact h.table id
  · rw [houtstanding]
    exact h.closedEmpty (hstate hclosed)

/-- One more entry: its events are the new ones, they end what the happening ends, and what it
does not end stays. -/
theorem Balanced.concat (h : Balanced limits log c) (happening : Happening)
    (es : List AssociationEvent) (hcalled : ∀ id, happening ≠ .called id)
    (hhistory : d.history = c.history ++ es) (hcount : ∀ id ∈ c.outstanding,
      es.countP (fun e => e.terminates id) = if Ended limits happening id then 1 else 0)
    (htable : ∀ id, id ∈ d.outstanding ↔ id ∈ c.outstanding ∧ Ended limits happening id = false)
    (hfinished : happening = .finished → ∃ r, .closed r ∈ es)
    (hclosed : d.state = .closed → c.state = .closed ∨ ∀ id, id ∉ d.outstanding) :
    Balanced limits (log ++ [(happening, es)]) d := by
  refine ⟨?_, fun id => ?_, ?_, fun entry hentry hfin => ?_, fun hd id hid => ?_⟩
  · rw [List.flatMap_append, h.events, hhistory]
    simp
  · rw [htable id, h.table id, List.map_append, List.map_singleton, live_concat]
    cases happening with
    | called i => exact absurd rfl (hcalled i)
    | _ => simp
  · rw [justified_concat]
    exact ⟨h.once, fun id hlive => hcount id ((h.table id).mpr hlive)⟩
  · rcases List.mem_append.mp hentry with hentry | hentry
    · exact h.finished entry hentry hfin
    · rw [List.mem_singleton] at hentry
      subst hentry
      exact hfinished hfin
  · rcases hclosed hd with hc | hnone
    · exact h.closedEmpty hc id ((htable id).mp hid).1
    · exact hnone id hid

/-- An event that is about no request. -/
theorem Balanced.aside (h : Balanced limits log c) {ev : AssociationEvent}
    (hev : ∀ id, ev.terminates id = false) (hhistory : d.history = c.history ++ [ev])
    (houtstanding : d.outstanding = c.outstanding) (hstate : d.state = .closed → c.state = .closed) :
    Balanced limits (log ++ [(.aside, [ev])]) d := by
  refine h.concat .aside [ev] (fun id => Happening.noConfusion) hhistory (fun id hid => ?_)
    (fun id => ?_) Happening.noConfusion (fun hd => Or.inl (hstate hd))
  · simp [hev id, Ended]
  · rw [houtstanding]
    simp [Ended]

theorem mem_erase_iff {outstanding : Outstanding} {i id : Int} :
    id ∈ outstanding.erase i ↔ id ∈ outstanding ∧ (i == id) = false := by
  simp [Std.ExtTreeMap.mem_erase, and_comm]

/-- An event that ends the request it names. -/
theorem Balanced.answer (h : Balanced limits log c) (happening : Happening)
    (hcalled : ∀ id, happening ≠ .called id) (hfinished : happening ≠ .finished) (i : Int)
    (ev : AssociationEvent) (hev : ∀ id, ev.terminates id = (i == id))
    (hends : ∀ id ∈ c.outstanding, Ended limits happening id = (i == id)) :
    Balanced limits (log ++ [(happening, [ev])]) ((c.releaseSlot i).emit ev) := by
  refine h.concat happening [ev] hcalled rfl (fun id hid => ?_) (fun id => ?_)
    (fun hfin => absurd hfin hfinished) Or.inl
  · rw [hends id hid]
    simp [hev id, List.countP_cons]
  · change id ∈ c.outstanding.erase i ↔ _
    rw [mem_erase_iff]
    constructor
    · rintro ⟨hid, hne⟩
      exact ⟨hid, by rw [hends id hid]; exact hne⟩
    · rintro ⟨hid, hends'⟩
      rw [hends id hid] at hends'
      exact ⟨hid, hends'⟩

/-- A PDU that ends no live request. -/
theorem Balanced.passed (h : Balanced limits log c) (pdu : Bytes) (ev : AssociationEvent)
    (hev : ∀ id ∈ c.outstanding, ev.terminates id = false)
    (hends : ∀ id ∈ c.outstanding, pduEnds limits pdu id = false) :
    Balanced limits (log ++ [(.delivered pdu, [ev])]) (c.emit ev) := by
  refine h.concat (.delivered pdu) [ev] (fun id => Happening.noConfusion) rfl (fun id hid => ?_)
    (fun id => ?_) Happening.noConfusion Or.inl
  · simp [hev id hid, Ended, hends id hid]
  · change id ∈ c.outstanding ↔ _
    constructor
    · intro hid
      exact ⟨hid, hends id hid⟩
    · rintro ⟨hid, -⟩
      exact hid

theorem Balanced.closing (h : Balanced limits log c) (happening : Happening)
    (hcalled : ∀ id, happening ≠ .called id) (hends : ∀ id, Ended limits happening id = true)
    (hopen : c.state ≠ .closed) (r : CloseReason) :
    Balanced limits (log ++ [(happening, [.closed r])]) (c.after [.close r]) := by
  simp only [Core.after_cons, Core.after_nil, Effect.apply, if_neg hopen]
  refine h.concat happening [.closed r] hcalled rfl (fun id hid => ?_) (fun id => ?_)
    (fun _ => ⟨r, List.mem_cons_self⟩) (fun _ => Or.inr fun id => Std.ExtTreeMap.not_mem_empty)
  · simp [hends id, AssociationEvent.terminates]
  · constructor
    · intro hid
      exact absurd hid Std.ExtTreeMap.not_mem_empty
    · rintro ⟨-, hfalse⟩
      rw [hends id] at hfalse
      cases hfalse

/-- A PDU is one entry of the ledger. -/
theorem Balanced.delivered (h : Balanced limits log c) (p : Bytes)
    (hstray : ∀ id ∈ stray limits p, id ∉ c.outstanding) :
    ∃ es, Balanced limits (log ++ [(.delivered p, es)]) (c.after (mmsEffects limits p)) := by
  have hanswer : ∀ (i : Int) (ev : AssociationEvent), (∀ id, ev.terminates id = (i == id)) →
      (∀ id ∈ c.outstanding, pduEnds limits p id = (i == id)) →
      Balanced limits (log ++ [(.delivered p, [ev])]) ((c.releaseSlot i).emit ev) :=
    fun i ev hev hends => h.answer (.delivered p) (fun id => Happening.noConfusion)
      Happening.noConfusion i ev hev hends
  have hclose : (∀ id, pduEnds limits p id = true) → ∀ r,
      ∃ es, Balanced limits (log ++ [(.delivered p, es)]) (c.after [.close r]) := by
    intro hends r
    by_cases hclosed : c.state = .closed
    · refine ⟨[], ?_⟩
      simp only [Core.after_cons, Core.after_nil, Effect.apply, if_pos hclosed]
      exact h.concat (.delivered p) [] (fun id => Happening.noConfusion) (List.append_nil _).symm
        (fun id hid => absurd hid (h.closedEmpty hclosed id))
        (fun id => ⟨fun hid => absurd hid (h.closedEmpty hclosed id),
          fun hid => absurd hid.1 (h.closedEmpty hclosed id)⟩) Happening.noConfusion Or.inl
    · exact ⟨_, h.closing (.delivered p) (fun id => Happening.noConfusion) hends hclosed r⟩
  unfold stray at hstray
  unfold pduEnds at hanswer hclose
  unfold mmsEffects
  have hpassed := fun (ev : AssociationEvent) => h.passed p ev
  unfold pduEnds at hpassed
  cases hp : Pdu.parse p limits with
  | error e =>
    simp only [hp] at hstray hanswer hpassed
    simp only [Core.after_cons, Core.after_nil, Effect.apply]
    cases hpeek : peekInvokeId p with
    | none =>
      refine ⟨_, hpassed (.malformed none e) (fun id _ => rfl) fun id _ => ?_⟩
      simp [hpeek]
    | some i =>
      by_cases hi : i ∈ c.outstanding
      · have hisAnswer : isAnswer p = true := by
          cases hans : isAnswer p with
          | true => rfl
          | false =>
            rw [hans, hpeek] at hstray
            exact absurd hi (hstray i rfl)
        simp only [Option.filter, Std.ExtTreeMap.contains_iff_mem.mpr hi, if_true]
        refine ⟨_, hanswer i (.malformed (some i) e) (fun id => rfl) fun id _ => ?_⟩
        rw [hisAnswer, hpeek]
        rfl
      · have hcontains : c.outstanding.contains i = false := by
          cases hc : c.outstanding.contains i with
          | false => rfl
          | true => exact absurd (Std.ExtTreeMap.contains_iff_mem.mp hc) hi
        simp only [Option.filter, hcontains, Bool.false_eq_true, if_false]
        refine ⟨_, hpassed (.malformed none e) (fun id _ => rfl) fun id hid => ?_⟩
        have hne : (some i == some id) = false := by
          rw [beq_eq_false_iff_ne]
          rintro heq
          cases heq
          exact hi hid
        rw [hpeek, hne, Bool.and_false]
  | ok pdu =>
    simp only [hp] at hstray hanswer hclose hpassed
    cases pdu with
    | confirmedResponse i service =>
      exact ⟨_, hanswer i (.response i p) (fun id => rfl) fun id _ => rfl⟩
    | confirmedError i modifier error =>
      exact ⟨_, hanswer i (.response i p) (fun id => rfl) fun id _ => rfl⟩
    | cancelResponse i => exact ⟨_, hanswer i (.cancelled i) (fun id => rfl) fun id _ => rfl⟩
    | concludeRequest => exact hclose (fun id => rfl) _
    | concludeResponse => exact hclose (fun id => rfl) _
    | reject r =>
      obtain ⟨original, reason⟩ := r
      cases original with
      | none =>
        refine ⟨_, hpassed (.rejected none ⟨none, reason⟩) (fun id _ => rfl) fun id _ => ?_⟩
        cases reason <;> rfl
      | some i =>
        by_cases hi : i ∈ c.outstanding
        · -- the reject names a live request, so it rejects that request
          obtain ⟨code, rfl⟩ : ∃ code, reason = .confirmedRequest code := by
            cases reason with
            | confirmedRequest code => exact ⟨code, rfl⟩
            | _ => exact absurd hi (hstray i rfl)
          exact ⟨_, hanswer i (.rejected (some i) ⟨some i, .confirmedRequest code⟩)
            (fun id => rfl) fun id _ => rfl⟩
        · have hne : ∀ id ∈ c.outstanding, (some i == some id) = false := by
            intro id hid
            rw [beq_eq_false_iff_ne]
            rintro heq
            cases heq
            exact hi hid
          have hkeep : c.outstanding.erase i = c.outstanding := by
            refine Std.ExtTreeMap.ext_getElem? fun k => ?_
            rw [Std.ExtTreeMap.getElem?_erase]
            split
            · rename_i heq
              rw [Std.LawfulEqCmp.compare_eq_iff_eq] at heq
              subst heq
              exact (Std.ExtTreeMap.getElem?_eq_none hi).symm
            · rfl
          refine ⟨[.rejected (some i) ⟨some i, reason⟩], ?_⟩
          have hentry := hpassed (.rejected (some i) ⟨some i, reason⟩) hne fun id hid => by
            cases reason with
            | confirmedRequest code => exact hne id hid
            | _ => rfl
          exact hentry.same rfl hkeep id
    | _ => exact ⟨_, hpassed _ (fun id _ => rfl) fun id _ => rfl⟩

/-! ### The ledger of a run -/

/-- The invariant of a run: there is a ledger with the happenings so far. -/
def Kept (limits : Limits) (T : List Happening) (c : Core) : Prop :=
  ∃ log : List Entry, Balanced limits log c ∧ (log.map Prod.fst).filter observed = T

theorem kept_of_aside {entry : Entry} (hlog : (log.map Prod.fst).filter observed = T)
    (hentry : observed entry.1 = false) (h : Balanced limits (log ++ [entry]) c) :
    Kept limits T c := by
  refine ⟨log ++ [entry], h, ?_⟩
  rw [List.map_append, List.filter_append, hlog, List.map_singleton,
    List.filter_cons_of_neg (by rw [hentry]; exact Bool.false_ne_true), List.filter_nil,
    List.append_nil]

theorem kept_of_observed {entry : Entry} (hlog : (log.map Prod.fst).filter observed = T)
    (hentry : observed entry.1 = true) (h : Balanced limits (log ++ [entry]) c) :
    Kept limits (T ++ [entry.1]) c := by
  refine ⟨log ++ [entry], h, ?_⟩
  rw [List.map_append, List.filter_append, hlog, List.map_singleton,
    List.filter_cons_of_pos hentry, List.filter_nil]

theorem Kept.close (h : Kept limits T c) (r : CloseReason) :
    Kept limits T (c.after [.close r]) := by
  obtain ⟨log, hbalanced, hlog⟩ := h
  by_cases hclosed : c.state = .closed
  · simp only [Core.after_cons, Core.after_nil, Effect.apply, if_pos hclosed]
    exact ⟨log, hbalanced, hlog⟩
  · exact kept_of_aside hlog rfl (hbalanced.closing .finished (fun id => Happening.noConfusion)
      (fun id => rfl) hclosed r)

theorem Kept.same (h : Kept limits T c) (hhistory : d.history = c.history)
    (houtstanding : d.outstanding = c.outstanding) (hstate : d.state = .closed → c.state = .closed) :
    Kept limits T d := by
  obtain ⟨log, hbalanced, hlog⟩ := h
  exact ⟨log, hbalanced.same hhistory houtstanding hstate, hlog⟩

theorem Kept.aside (h : Kept limits T c) {ev : AssociationEvent}
    (hev : ∀ id, ev.terminates id = false) (hhistory : d.history = c.history ++ [ev])
    (houtstanding : d.outstanding = c.outstanding) (hstate : d.state = .closed → c.state = .closed) :
    Kept limits T d := by
  obtain ⟨log, hbalanced, hlog⟩ := h
  exact kept_of_aside hlog rfl (hbalanced.aside hev hhistory houtstanding hstate)

theorem Kept.ends (h : Kept limits T c) (hes : Ends es) : Kept limits T (c.after es) := by
  have hemit : ∀ ev : AssociationEvent, (∀ id, ev.terminates id = false) →
      Kept limits T (c.emit ev) := fun ev hev => h.aside hev rfl rfl id
  cases hes with
  | closed r => exact h.close r
  | refused layer code r => exact (hemit (.refused layer code) fun _ => rfl).close r
  | failed e r => exact (hemit (.malformed none e) fun _ => rfl).close r

/-- A walk over user data: one entry for each PDU, by induction on what is delivered. -/
theorem Kept.delivered (h : Kept limits T c) {ps : List Bytes}
    (hstray : ∀ p ∈ ps, ∀ id ∈ stray limits p, id ∉ c.outstanding) :
    Kept limits (T ++ ps.map .delivered) (c.after (ps.flatMap (mmsEffects limits))) := by
  induction ps generalizing T c with
  | nil =>
    rw [List.map_nil, List.append_nil]
    exact h
  | cons p ps ih =>
    obtain ⟨log, hbalanced, hlog⟩ := h
    obtain ⟨es, hentry⟩ := hbalanced.delivered p (hstray p List.mem_cons_self)
    have hkept : Kept limits (T ++ [.delivered p]) (c.after (mmsEffects limits p)) :=
      kept_of_observed hlog rfl hentry
    have hcalm := calmer_after (passive_mmsEffects limits p) c
    have hrest := ih hkept fun q hq id hid hin =>
      hstray q (List.mem_cons_of_mem p hq) id hid (hcalm.outstanding id hin)
    rw [List.flatMap_cons, Core.after_append, List.map_cons]
    rwa [List.append_assoc, List.singleton_append] at hrest

theorem kept_tpdu {a : Association} {tpdu : Bytes} (hlimits : a.cfg.limits = limits)
    (hopen : a.state ≠ .closed) (h : Kept limits T a.core) (hC : NoStray a tpdu)
    (hes : Causes a tpdu es) :
    Kept limits (T ++ (deliveredBy a tpdu).map .delivered) (a.core.after es) := by
  have hopen' : a.core.state ≠ .closed := hopen
  have hquiet : ∀ d, deliveredBy a tpdu = [] → Kept limits T d →
      Kept limits (T ++ (deliveredBy a tpdu).map .delivered) d := by
    intro d hnone hd
    rw [hnone, List.map_nil, List.append_nil]
    exact hd
  cases hes with
  | nothing hnone => exact hquiet _ hnone h
  | ends hends hnone => exact hquiet _ hnone (h.ends hends)
  | endsAfterContexts k hends hnone =>
    have hin : Kept limits T (a.core.after [.contexts k]) := h.same rfl rfl id
    exact hquiet _ hnone (hin.ends hends)
  | connects size hconnects htail hnone =>
    have hin : Kept limits T (a.core.after [.resize size, .enter .associating]) :=
      h.same rfl rfl fun hclosed => (by cases hclosed)
    rcases htail with rfl | hends
    · exact hquiet _ hnone hin
    · exact hquiet _ hnone (hin.ends hends)
  | connectFails size hconnects hends hnone =>
    have hin : Kept limits T (a.core.after [.resize size]) := h.same rfl rfl id
    exact hquiet _ hnone (hin.ends hends)
  | completes k n hcompletes hsize hnone =>
    have hin : Kept limits T (a.core.after [.contexts k, .establish n]) :=
      h.aside (fun _ => rfl) rfl rfl fun hclosed => (by cases hclosed)
    exact hquiet _ hnone hin
  | carries hcarried =>
    obtain ⟨tail, htail, rfl⟩ := hcarried
    rw [hlimits, Core.after_append]
    have hstray : ∀ p ∈ deliveredBy a tpdu, ∀ id ∈ stray limits p, id ∉ a.core.outstanding := by
      rw [← hlimits]
      exact hC
    have hin := h.delivered hstray
    rcases htail with rfl | ⟨r, rfl⟩
    · exact hin
    · exact hin.close r

theorem Kept.timeouts (h : Kept limits T c) (ids : List Int) :
    Kept limits (T ++ ids.map .due) (c.after (ids.map timeoutEffect)) := by
  induction ids generalizing T c with
  | nil =>
    rw [List.map_nil, List.append_nil]
    exact h
  | cons i ids ih =>
    obtain ⟨log, hbalanced, hlog⟩ := h
    have hentry := hbalanced.answer (.due i) (fun id => Happening.noConfusion)
      Happening.noConfusion i (.timeout i) (fun id => rfl) (fun id _ => rfl)
    have hrest := ih (kept_of_observed hlog rfl hentry)
    rwa [List.append_assoc, List.singleton_append] at hrest

/-- A call that succeeds is an entry without events. -/
theorem Kept.issue (h : Kept limits T c) (i : Int) (deadline : Instant)
    (hhistory : d.history = c.history)
    (houtstanding : d.outstanding = c.outstanding.insert i deadline) (hstate : d.state ≠ .closed) :
    Kept limits (T ++ [.called i]) d := by
  obtain ⟨log, hbalanced, hlog⟩ := h
  have hentry : observed ((.called i, []) : Entry).1 = true := rfl
  refine kept_of_observed hlog hentry ⟨?_, fun id => ?_, ?_, ?_, ?_⟩
  · rw [List.flatMap_append, hbalanced.events, hhistory]
    simp
  · rw [houtstanding, Std.ExtTreeMap.mem_insert, hbalanced.table id, List.map_append,
      List.map_singleton, live_concat, Std.LawfulEqCmp.compare_eq_iff_eq]
    simp only [Bool.or_eq_true, beq_iff_eq]
    exact Or.comm
  · rw [justified_concat]
    exact ⟨hbalanced.once, fun id _ => rfl⟩
  · intro entry hentry hfin
    rcases List.mem_append.mp hentry with hentry | hentry
    · exact hbalanced.finished entry hentry hfin
    · rw [List.mem_singleton] at hentry
      subst hentry
      cases hfin
  · intro hclosed
    exact absurd hclosed hstate

theorem kept_op {a : Association} {op : Op} (h : Kept limits T a.core) (hes : OpCauses a op es) :
    Kept limits (T ++ opHappenings a op) (a.core.after es) := by
  have hquiet : ∀ d, opHappenings a op = [] → Kept limits T d →
      Kept limits (T ++ opHappenings a op) d := by
    intro d hnone hd
    rw [hnone, List.append_nil]
    exact hd
  cases hes with
  | nothing op hop =>
    refine hquiet _ ?_ h
    cases op with
    | call now service => exact hop.elim
    | onTimeout now => exact hop.elim
    | pollEvent => exact hop.elim
    | _ => rfl
  | starts now hrole hidle =>
    exact hquiet _ rfl (h.same rfl rfl fun hclosed => (by cases hclosed))
  | expires now hdeadline =>
    simp only [opHappenings, hdeadline, Bool.false_eq_true, if_false]
    exact h.timeouts _
  | timesOut now r hdeadline hopen =>
    exact hquiet _ (by simp only [opHappenings, hdeadline, if_true]) (h.close r)
  | refused now service f hcall => exact hquiet _ (by simp only [opHappenings, hcall]) h
  | draws now service f hcall hstate hsize =>
    exact hquiet _ (by simp only [opHappenings, hcall]) (h.same rfl rfl id)
  | calls now service hcall hstate hsize deadline =>
    simp only [opHappenings, hcall]
    refine h.issue a.takeInvokeId.1 deadline rfl rfl ?_
    change a.state ≠ .closed
    rw [hstate]
    exact Phase.noConfusion
  | releases now hstate => exact hquiet _ rfl (h.same rfl rfl fun hclosed => (by cases hclosed))
  | aborts r => exact hquiet _ rfl (h.close r)
  | polls => exact hquiet _ rfl (h.same rfl rfl id)

theorem kept_new (cfg : AssociationConfig) (role : Role) :
    Kept cfg.limits [] (new cfg role).core := by
  refine ⟨[], ⟨rfl, fun id => ?_, justified_nil _, fun _ he => (by cases he), fun h => ?_⟩, rfl⟩
  · constructor
    · intro hid
      exact absurd hid Std.ExtTreeMap.not_mem_empty
    · intro hlive
      cases hlive
  · cases h

/-- In a run in which no stray PDU names an outstanding request, the requests outstanding are
those that were called and not ended since, and each of them is ended by one event, emitted
with the happening that ends it: an answer, a reject of a confirmed request or the response to
a cancel that names it, an answer naming it that does not decode, its deadline, or the end of
the association. -/
theorem outstanding_until_ended (cfg : AssociationConfig) (role : Role) (ops : List Op)
    (a : Association) (hC : Meets perform (EachVisit NoStray) (new cfg role) ops)
    (hrun : run perform (new cfg role) ops = some a) : ∃ log : List Entry,
      (log.map Prod.fst).filter observed = happenings (new cfg role) ops ∧
      log.flatMap Prod.snd = a.events.history ∧
      (∀ id, id ∈ a.outstanding ↔ live cfg.limits (log.map Prod.fst) id = true) ∧
      Justified (EndsOnce cfg.limits) log ∧
      ∀ entry ∈ log, entry.1 = .finished → ∃ r, .closed r ∈ entry.2 := by
  have hstep : ∀ T s op s', (s.core.cfg.limits = cfg.limits ∧ Kept cfg.limits T s.core) →
      EachVisit NoStray s op → perform s op = some s' →
      s'.core.cfg.limits = cfg.limits ∧ Kept cfg.limits (T ++ marks (fun a tpdu =>
        (deliveredBy a tpdu).map .delivered) opHappenings s op) s'.core := by
    intro T s op s' hs hCs hs'
    refine perform_journal (J := fun T c => c.cfg.limits = cfg.limits ∧ Kept cfg.limits T c)
      (fun T c hc => ⟨?_, hc.2.close _⟩) (fun T a tpdu es hopen hJ hCa hes => ⟨?_, ?_⟩)
      (fun _ _ _ => rfl) (fun T a es hJ hes => ⟨?_, kept_op hJ.2 hes⟩) hs hCs hs'
    · rw [(after_const _ _).1]
      exact hc.1
    · rw [(after_const _ _).1]
      exact hJ.1
    · exact kept_tpdu hJ.1 hopen hJ.2 hCa hes
    · rw [(after_const _ _).1]
      exact hJ.1
  have hkept := (journal_run hstep ⟨rfl, kept_new cfg role⟩ hC hrun).2
  rw [List.nil_append] at hkept
  obtain ⟨log, hbalanced, hlog⟩ := hkept
  exact ⟨log, hlog, hbalanced.events, hbalanced.table, hbalanced.once, hbalanced.finished⟩

/-- A client with one request in flight. -/
def oneCallRun : List Op :=
  [.start 0, .onBytes 0 ccPacket, .onBytes 0 (acceptPacket {}), .call 0 .identify]

theorem outstanding_until_ended_one_call :
    ∃ a, run perform (client {}) oneCallRun = some a ∧ ∃ log : List Entry,
      (log.map Prod.fst).filter observed = happenings (client {}) oneCallRun ∧
      log.flatMap Prod.snd = a.events.history ∧ (∀ id, id ∈ a.outstanding ↔
        live ({} : AssociationConfig).limits (log.map Prod.fst) id = true) ∧
      Justified (EndsOnce ({} : AssociationConfig).limits) log ∧
      ∀ entry ∈ log, entry.1 = .finished → ∃ r, .closed r ∈ entry.2 := by
  have hsome : (run perform (client {}) oneCallRun).isSome = true := by decide +kernel
  obtain ⟨a, ha⟩ := Option.isSome_iff_exists.mp hsome
  exact ⟨a, ha, outstanding_until_ended {} .client oneCallRun a (by decide +kernel) ha⟩

/-- The response to a cancel is one more PDU that releases the request it names. -/
theorem released_by_cancel_response :
    ¬ ∀ (cfg : AssociationConfig) (role : Role) (ops : List Op) (a b : Association)
      (pdu : Bytes) (id : Int), run perform (new cfg role) ops = some a → id ∈ a.outstanding →
      perform a (.onBytes 0 (mmsPacket [pdu])) = some b → b.state ≠ .closed → id ∉ b.outstanding →
      pduEnds cfg.limits pdu id = true ∧
        ∀ i, Pdu.parse pdu cfg.limits ≠ .ok (.cancelResponse i) := by
  intro h
  have hrun : ((run perform (new {} .client) oneCallRun).bind fun a =>
      (perform a (.onBytes 0 (mmsPacket [[0x86, 1, 1]]))).map fun b =>
        (a.outstanding.contains 1, b.outstanding.contains 1, b.state)) =
      some (true, false, .established) := by decide +kernel
  obtain ⟨a, ha, hb⟩ := Option.bind_eq_some_iff.mp hrun
  obtain ⟨b, hb, heq⟩ := Option.map_eq_some_iff.mp hb
  simp only [Prod.mk.injEq] at heq
  obtain ⟨hin, hout, hstate⟩ := heq
  have hclaimed := h {} .client oneCallRun a b [0x86, 1, 1] 1 ha
    (Std.ExtTreeMap.contains_iff_mem.mp hin) hb (by rw [hstate]; exact Phase.noConfusion)
    (fun hmem => by
      rw [Std.ExtTreeMap.contains_iff_mem.mpr hmem] at hout
      cases hout)
  exact hclaimed.2 1 rfl

end Association

end Iec61850.Mms
