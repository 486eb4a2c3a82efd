import Iec61850.Mms.HandedOver

/-!
# An association moves forward only

The handshake state follows its order, what was negotiated stays, `Established` comes once and
`Closed` is the last event. The handlers of the handshake PDUs do not all look at the state
they are in, so this holds of the runs in which the peer replays nothing: the condition
`NothingReplayed` on each TPDU says exactly what it must not send.
-/

namespace Iec61850.Mms.Association

open Theory

/-! ### The order -/

/-- The order of the handshake states. -/
def rank : Phase → Nat
  | .idle => 0
  | .connecting => 1
  | .associating => 2
  | .established => 3
  | .releasing => 4
  | .closed => 5

/-- `Established` comes once. -/
def EstablishedOnce (pre : List AssociationEvent) (e : AssociationEvent) : Prop :=
  e.isEstablished = true → ∀ n, .established n ∉ pre

/-- Nothing comes after `Closed`, another `Closed` included. -/
def NotAfterClosed (pre : List AssociationEvent) (_ : AssociationEvent) : Prop :=
  ∀ r, .closed r ∉ pre

/-- From one moment of a run to a later one: the state moves forward, and what was negotiated
stays once `Established` was emitted. -/
structure Forward (c d : Core) : Prop where
  state : rank c.state ≤ rank d.state
  frozen : (∃ n, .established n ∈ c.history) →
    d.negotiated = c.negotiated ∧ d.tpduData = c.tpduData
  history : c.history <+: d.history

theorem Forward.refl (c : Core) : Forward c c :=
  ⟨Nat.le_refl _, fun _ => ⟨rfl, rfl⟩, List.prefix_refl _⟩

variable {c d : Core} {es : List Effect} {a : Association}

theorem Forward.trans {e : Core} (h : Forward c d) (h' : Forward d e) : Forward c e := by
  refine ⟨Nat.le_trans h.state h'.state, ?_, h.history.trans h'.history⟩
  rintro ⟨n, hn⟩
  obtain ⟨hneg, hsize⟩ := h.frozen ⟨n, hn⟩
  obtain ⟨hneg', hsize'⟩ := h'.frozen ⟨n, h.history.subset hn⟩
  exact ⟨hneg'.trans hneg, hsize'.trans hsize⟩

theorem rank_le_closed (p : Phase) : rank p ≤ rank .closed := by
  cases p <;> decide

theorem Calmer.forward (h : Calmer c d) (hhistory : c.history <+: d.history) : Forward c d := by
  refine ⟨?_, fun _ => ⟨h.negotiated, h.tpduData⟩, hhistory⟩
  rcases h.state with heq | hclosed
  · exact Nat.le_of_eq (by rw [heq])
  · rw [hclosed]
    exact rank_le_closed _

theorem forward_passive (hes : ∀ e ∈ es, e.passive = true) (c : Core) : Forward c (c.after es) :=
  (calmer_after hes c).forward (history_prefix_after c es)

/-- What has to hold of a TPDU for the association to move forward only: an association that is
up is not connected or established again, and behind a conclude there is nothing but another. -/
structure NothingReplayed (a : Association) (tpdu : Bytes) : Prop where
  handshake : a.state = .established ∨ a.state = .releasing →
    connects a.core tpdu = false ∧ completes a tpdu = none
  lastWords : ∀ p ∈ afterConclude a.cfg.limits (deliveredBy a tpdu),
    concludes a.cfg.limits p = true

instance NothingReplayed.decidable (a : Association) (tpdu : Bytes) :
    Decidable (NothingReplayed a tpdu) :=
  decidable_of_iff
    ((a.state = .established ∨ a.state = .releasing →
        connects a.core tpdu = false ∧ completes a tpdu = none) ∧
      ∀ p ∈ afterConclude a.cfg.limits (deliveredBy a tpdu), concludes a.cfg.limits p = true)
    ⟨fun h => ⟨h.1, h.2⟩, fun h => ⟨h.1, h.2⟩⟩

/-- The invariant of an association that moved forward only. -/
structure InOrder (c : Core) : Prop where
  established : ∀ n, .established n ∈ c.history → 3 ≤ rank c.state
  closed : ∀ r, .closed r ∈ c.history → c.state = .closed
  closedEmpty : c.state = .closed → ∀ id, id ∉ c.outstanding
  once : Justified EstablishedOnce c.history
  last : Justified NotAfterClosed c.history

theorem InOrder.notClosed (h : InOrder c) (hopen : c.state ≠ .closed) :
    ∀ r, .closed r ∉ c.history := fun r hr => hopen (h.closed r hr)

/-- An event of an open association, other than the two that mark its life. -/
theorem InOrder.emit (h : InOrder c) (hopen : c.state ≠ .closed) {ev : AssociationEvent}
    (hhistory : d.history = c.history ++ [ev]) (hstate : d.state = c.state)
    (hest : ev.isEstablished = false) (hclosed : ev.isClosed = false) : InOrder d := by
  constructor
  · intro n hn
    rw [hhistory, List.mem_append, List.mem_singleton] at hn
    rw [hstate]
    rcases hn with hn | rfl
    · exact h.established n hn
    · cases hest
  · intro r hr
    rw [hhistory, List.mem_append, List.mem_singleton] at hr
    rcases hr with hr | rfl
    · exact absurd hr (h.notClosed hopen r)
    · cases hclosed
  · intro hclosed'
    rw [hstate] at hclosed'
    exact absurd hclosed' hopen
  · rw [hhistory, justified_concat]
    refine ⟨h.once, fun hreport => ?_⟩
    rw [hest] at hreport
    cases hreport
  · rw [hhistory, justified_concat]
    exact ⟨h.last, h.notClosed hopen⟩

/-- A step that emits nothing and does not leave a later state for an earlier one. -/
theorem InOrder.quiet {c d : Core} (h : InOrder c) (hopen : c.state ≠ .closed)
    (hhistory : d.history = c.history) (hstate : rank c.state ≤ rank d.state)
    (hopen' : d.state ≠ .closed) : InOrder d := by
  refine ⟨fun n hn => ?_, fun r hr => ?_, fun hclosed => absurd hclosed hopen', ?_, ?_⟩
  · rw [hhistory] at hn
    exact Nat.le_trans (h.established n hn) hstate
  · rw [hhistory] at hr
    exact absurd hr (h.notClosed hopen r)
  · rw [hhistory]
    exact h.once
  · rw [hhistory]
    exact h.last

theorem InOrder.close (h : InOrder c) (r : CloseReason) : InOrder (c.after [.close r]) := by
  simp only [Core.after_cons, Core.after_nil, Effect.apply]
  split
  · exact h
  · rename_i hopen
    refine ⟨fun n _ => ?_, fun _ _ => rfl, fun _ id => Std.ExtTreeMap.not_mem_empty, ?_, ?_⟩
    · change 3 ≤ rank .closed
      decide
    · exact justified_concat.mpr ⟨h.once, fun hreport => by cases hreport⟩
    · exact justified_concat.mpr ⟨h.last, h.notClosed hopen⟩

theorem InOrder.ends (h : InOrder c) (hopen : c.state ≠ .closed) (hes : Ends es) :
    InOrder (c.after es) := by
  cases hes with
  | closed r => exact h.close r
  | refused layer code r =>
    exact (h.emit (d := c.emit (.refused layer code)) hopen rfl rfl rfl rfl).close r
  | failed e r => exact (h.emit (d := c.emit (.malformed none e)) hopen rfl rfl rfl rfl).close r

theorem after_concludes {limits : Limits} {ps : List Bytes} (hclosed : c.state = .closed)
    (hps : ∀ p ∈ ps, concludes limits p = true) : c.after (ps.flatMap (mmsEffects limits)) = c := by
  induction ps with
  | nil => rfl
  | cons p ps ih =>
    obtain ⟨r, hr⟩ := mmsEffects_of_concludes (hps p List.mem_cons_self)
    rw [List.flatMap_cons, Core.after_append, hr]
    simp only [Core.after_cons, Core.after_nil, Effect.apply, if_pos hclosed]
    exact ih fun q hq => hps q (List.mem_cons_of_mem p hq)

theorem state_after_close (c : Core) (r : CloseReason) : (c.after [.close r]).state = .closed := by
  simp only [Core.after_cons, Core.after_nil, Effect.apply]
  split
  · assumption
  · rfl

/-- A walk over user data, by induction on what it delivers. -/
theorem InOrder.delivered {limits : Limits} {ps : List Bytes} (h : InOrder c)
    (hopen : c.state ≠ .closed)
    (hafter : ∀ p ∈ afterConclude limits ps, concludes limits p = true) :
    InOrder (c.after (ps.flatMap (mmsEffects limits))) := by
  induction ps generalizing c with
  | nil => exact h
  | cons p ps ih =>
    rw [List.flatMap_cons, Core.after_append]
    rw [afterConclude_cons] at hafter
    cases hconcludes : concludes limits p with
    | true =>
      obtain ⟨r, hr⟩ := mmsEffects_of_concludes hconcludes
      simp only [hconcludes, if_true] at hafter
      rw [hr, after_concludes (state_after_close c r) hafter]
      exact h.close r
    | false =>
      obtain ⟨ev, hdelivery⟩ := delivery_of_not_concludes hconcludes c
      simp only [hconcludes, Bool.false_eq_true, if_false] at hafter
      have hfields := hdelivery.eq
      generalize hd : c.after (mmsEffects limits p) = d at hdelivery hfields
      have hstate : d.state = c.state := by rw [hfields]
      have hstep : InOrder d := h.emit hopen (by rw [hfields]; rfl) hstate
        hdelivery.notEstablished hdelivery.notClosed
      exact ih hstep (by rw [hstate]; exact hopen) hafter

/-- What a step or a TPDU has to do for the run to stay in order. -/
def KeepsOrder (c d : Core) : Prop := InOrder d ∧ Forward c d

theorem KeepsOrder.trans {e : Core} (h : KeepsOrder c d) (h' : KeepsOrder d e) :
    KeepsOrder c e := ⟨h'.1, h.2.trans h'.2⟩

theorem keepsOrder_close (h : InOrder c) (r : CloseReason) : KeepsOrder c (c.after [.close r]) :=
  ⟨h.close r, forward_passive (Ends.closed r).passive c⟩

theorem keepsOrder_ends (h : InOrder c) (hopen : c.state ≠ .closed) (hes : Ends es) :
    KeepsOrder c (c.after es) :=
  ⟨h.ends hopen hes, forward_passive hes.passive c⟩

/-- A move to a later state that is not the closed one, before anything was negotiated or with
everything negotiated left as it is. -/
theorem keepsOrder_move (h : InOrder c) (hopen : c.state ≠ .closed)
    (hhistory : d.history = c.history) (hstate : rank c.state ≤ rank d.state)
    (hopen' : d.state ≠ .closed)
    (hfrozen : rank c.state < 3 ∨ (d.negotiated = c.negotiated ∧ d.tpduData = c.tpduData)) :
    KeepsOrder c d := by
  refine ⟨h.quiet hopen hhistory hstate hopen', hstate, ?_, hhistory ▸ List.prefix_refl _⟩
  rintro ⟨n, hn⟩
  rcases hfrozen with hlow | hsame
  · have := h.established n hn
    omega
  · exact hsame

theorem rank_lt_of_early {p : Phase} (hopen : p ≠ .closed)
    (h : ¬ (p = .established ∨ p = .releasing)) : rank p < 3 := by
  cases p <;> simp_all [rank]

theorem keepsOrder_establish (h : InOrder c) (hopen : c.state ≠ .closed) (hearly : rank c.state < 3)
    (n : Negotiated) : KeepsOrder c (c.after [.establish n]) := by
  have hnone : ∀ m, .established m ∉ c.history := by
    intro m hm
    have := h.established m hm
    omega
  refine ⟨⟨fun _ _ => ?_, fun r hr => ?_, fun hclosed => ?_, ?_, ?_⟩, ?_, ?_, ?_⟩
  · change 3 ≤ rank .established
    decide
  · rcases List.mem_append.mp hr with hr | hr
    · exact absurd hr (h.notClosed hopen r)
    · rw [List.mem_singleton] at hr
      cases hr
  · cases hclosed
  · exact justified_concat.mpr ⟨h.once, fun _ => hnone⟩
  · exact justified_concat.mpr ⟨h.last, h.notClosed hopen⟩
  · change rank c.state ≤ rank .established
    exact Nat.le_of_lt hearly
  · rintro ⟨m, hm⟩
    exact absurd hm (hnone m)
  · exact List.prefix_append _ _

theorem keepsOrder_tpdu {tpdu : Bytes} (hopen : a.state ≠ .closed) (h : InOrder a.core)
    (hC : NothingReplayed a tpdu) (hes : Causes a tpdu es) :
    KeepsOrder a.core (a.core.after es) := by
  have hopen' : a.core.state ≠ .closed := hopen
  cases hes with
  | nothing => exact ⟨h, Forward.refl _⟩
  | ends hends => exact keepsOrder_ends h hopen' hends
  | endsAfterContexts k hends =>
    have hin : KeepsOrder a.core (a.core.after [.contexts k]) :=
      keepsOrder_move h hopen' rfl (Nat.le_refl _) hopen' (Or.inr ⟨rfl, rfl⟩)
    exact hin.trans (keepsOrder_ends hin.1 hopen' hends)
  | connects size hconnects htail =>
    have hearly : rank a.core.state < 3 := rank_lt_of_early hopen' fun hup => by
      rw [(hC.handshake hup).1] at hconnects
      cases hconnects
    have hin : KeepsOrder a.core (a.core.after [.resize size, .enter .associating]) := by
      refine keepsOrder_move h hopen' rfl ?_ ?_ (Or.inl hearly)
      · change rank a.core.state ≤ rank .associating
        exact Nat.le_of_lt_succ hearly
      · exact Phase.noConfusion
    rcases htail with rfl | hends
    · exact hin
    · exact hin.trans (keepsOrder_ends hin.1 Phase.noConfusion hends)
  | connectFails size hconnects hends =>
    have hearly : rank a.core.state < 3 := rank_lt_of_early hopen' fun hup => by
      rw [(hC.handshake hup).1] at hconnects
      cases hconnects
    have hin : KeepsOrder a.core (a.core.after [.resize size]) :=
      keepsOrder_move h hopen' rfl (Nat.le_refl _) hopen' (Or.inl hearly)
    exact hin.trans (keepsOrder_ends hin.1 hopen' hends)
  | completes k n hcompletes hsize =>
    have hearly : rank a.core.state < 3 := rank_lt_of_early hopen' fun hup => by
      rw [(hC.handshake hup).2] at hcompletes
      cases hcompletes
    have hin : KeepsOrder a.core (a.core.after [.contexts k]) :=
      keepsOrder_move h hopen' rfl (Nat.le_refl _) hopen' (Or.inr ⟨rfl, rfl⟩)
    exact hin.trans (keepsOrder_establish hin.1 hopen' hearly n)
  | carries hcarried =>
    refine ⟨?_, forward_passive hcarried.passive _⟩
    obtain ⟨tail, htail, rfl⟩ := hcarried
    have hin := h.delivered hopen' hC.lastWords
    rw [Core.after_append]
    rcases htail with rfl | ⟨r, rfl⟩
    · exact hin
    · exact hin.close r

theorem InOrder.timeouts (h : InOrder c) (hopen : c.state ≠ .closed) (ids : List Int) :
    InOrder (c.after (ids.map timeoutEffect)) := by
  induction ids generalizing c with
  | nil => exact h
  | cons id ids ih =>
    exact ih (h.emit (d := (timeoutEffect id).apply c) hopen rfl rfl rfl rfl) hopen

theorem keepsOrder_op {op : Op} (h : InOrder a.core) (hes : OpCauses a op es) :
    KeepsOrder a.core (a.core.after es) := by
  cases hes with
  | nothing => exact ⟨h, Forward.refl _⟩
  | starts now hrole hidle =>
    have hidle' : a.core.state = .idle := hidle
    refine keepsOrder_move h ?_ rfl ?_ Phase.noConfusion (Or.inr ⟨rfl, rfl⟩)
    · rw [hidle']
      exact Phase.noConfusion
    · rw [hidle']
      exact Nat.zero_le _
  | expires now hdeadline =>
    refine ⟨?_, forward_passive (passive_timeouts _) _⟩
    by_cases hclosed : a.core.state = .closed
    · -- a closed association has no request left that could expire
      have hnone : a.due now = [] := List.eq_nil_iff_forall_not_mem.mpr fun id hid =>
        h.closedEmpty hclosed id (mem_outstanding_of_due hid)
      rw [hnone]
      exact h
    · exact h.timeouts hclosed _
  | timesOut now r hdeadline hopen => exact keepsOrder_close h r
  | refused => exact ⟨h, Forward.refl _⟩
  | draws now service f hcall hstate hsize =>
    have hstate' : a.core.state = .established := hstate
    have hopen : a.core.state ≠ .closed := by
      rw [hstate']
      exact Phase.noConfusion
    exact keepsOrder_move h hopen rfl (Nat.le_refl _) hopen (Or.inr ⟨rfl, rfl⟩)
  | calls now service hcall hstate hsize deadline =>
    have hstate' : a.core.state = .established := hstate
    have hopen : a.core.state ≠ .closed := by
      rw [hstate']
      exact Phase.noConfusion
    exact keepsOrder_move h hopen rfl (Nat.le_refl _) hopen (Or.inr ⟨rfl, rfl⟩)
  | releases now hstate =>
    have hstate' : a.core.state = .established := hstate
    have hopen : a.core.state ≠ .closed := by
      rw [hstate']
      exact Phase.noConfusion
    refine keepsOrder_move h hopen rfl ?_ Phase.noConfusion (Or.inr ⟨rfl, rfl⟩)
    rw [hstate']
    change rank .established ≤ rank .releasing
    decide
  | aborts r => exact keepsOrder_close h r
  | polls =>
    refine ⟨⟨h.established, h.closed, h.closedEmpty, h.once, h.last⟩, Nat.le_refl _,
      fun _ => ⟨rfl, rfl⟩, List.prefix_refl _⟩

/-- The association before each operation, and before each TPDU of a chunk. -/
def moments (a : Association) (ops : List Op) : List Association :=
  journal perform (marks (fun a _ => [a]) (fun a op => match op with
    | .onBytes _ _ => []
    | _ => [a])) a ops

/-- The invariant of a run: everything so far is in order, up to the present. -/
structure OrderJournal (T : List Association) (c : Core) : Prop where
  order : InOrder c
  pairwise : T.Pairwise (fun s t => Forward s.core t.core)
  present : ∀ s ∈ T, Forward s.core c

theorem OrderJournal.step {T : List Association} (h : OrderJournal T a.core)
    (hkeeps : KeepsOrder a.core d) : OrderJournal (T ++ [a]) d := by
  refine ⟨hkeeps.1, ?_, ?_⟩
  · rw [List.pairwise_append]
    refine ⟨h.pairwise, List.pairwise_singleton _ _, fun s hs t ht => ?_⟩
    rw [List.mem_singleton.mp ht]
    exact h.present s hs
  · intro s hs
    rcases List.mem_append.mp hs with hs | hs
    · exact (h.present s hs).trans hkeeps.2
    · rw [List.mem_singleton.mp hs]
      exact hkeeps.2

theorem OrderJournal.forward {T : List Association} (h : OrderJournal T c)
    (hkeeps : KeepsOrder c d) : OrderJournal T d :=
  ⟨hkeeps.1, h.pairwise, fun s hs => (h.present s hs).trans hkeeps.2⟩

theorem inOrder_new (cfg : AssociationConfig) (role : Role) : InOrder (new cfg role).core :=
  ⟨fun _ hn => (by cases hn), fun _ hr => (by cases hr), fun h => (by cases h), justified_nil _,
    justified_nil _⟩

/-- In a run in which no handshake PDU is replayed on an association that is up, and nothing
stands behind a conclude, the state only moves forward, what was negotiated stays,
`Established` comes at most once and nothing comes after `Closed`. -/
theorem moves_forward_only (cfg : AssociationConfig) (role : Role) (ops : List Op)
    (a : Association) (hC : Meets perform (EachVisit NothingReplayed) (new cfg role) ops)
    (hrun : run perform (new cfg role) ops = some a) :
    (moments (new cfg role) ops ++ [a]).Pairwise (fun s t => Forward s.core t.core) ∧
      Justified EstablishedOnce a.events.history ∧ Justified NotAfterClosed a.events.history := by
  have hstep : ∀ T s op s', OrderJournal T s.core → EachVisit NothingReplayed s op →
      perform s op = some s' → OrderJournal (T ++ marks (fun a _ => [a]) (fun a op => match op with
        | .onBytes _ _ => []
        | _ => [a]) s op) s'.core := by
    intro T s op s' hs hCs hs'
    refine perform_journal (fun T c hc => hc.forward (keepsOrder_close hc.order _))
      (fun T a tpdu es hopen hJ hCa hes => hJ.step (keepsOrder_tpdu hopen hJ.order hCa hes))
      (fun _ _ _ => rfl) ?_ hs hCs hs'
    intro T a es hJ hes
    have hkeeps := keepsOrder_op hJ.order hes
    cases op with
    | onBytes now bytes =>
      simp only [List.append_nil]
      exact hJ.forward hkeeps
    | _ => exact hJ.step hkeeps
  have hnew : OrderJournal [] (new cfg role).core :=
    ⟨inOrder_new cfg role, List.Pairwise.nil, fun s hs => (by cases hs)⟩
  have hJ := journal_run hstep hnew hC hrun
  rw [List.nil_append] at hJ
  refine ⟨?_, hJ.order.once, hJ.order.last⟩
  rw [List.pairwise_append]
  refine ⟨hJ.pairwise, List.pairwise_singleton _ _, fun s hs t ht => ?_⟩
  rw [List.mem_singleton.mp ht]
  exact hJ.present s hs

theorem moves_forward_only_served : ∃ a, run perform (server {}) servedRun = some a ∧
      (moments (server {}) servedRun ++ [a]).Pairwise (fun s t => Forward s.core t.core) ∧
      Justified EstablishedOnce a.events.history ∧ Justified NotAfterClosed a.events.history := by
  have hsome : (run perform (server {}) servedRun).isSome = true := by decide +kernel
  obtain ⟨a, ha⟩ := Option.isSome_iff_exists.mp hsome
  exact ⟨a, ha, moves_forward_only {} .server servedRun a (by decide +kernel) ha⟩

/-- A server that is connected and established, and connected again. -/
def reconnectedRun : List Op :=
  [.onBytes 0 crPacket, .onBytes 0 (connectPacket {}), .onBytes 0 crPacket]

/-- A second CR takes an established server back to the handshake. -/
theorem established_connected_again :
    ¬ ∀ (cfg : AssociationConfig) (role : Role) (ops : List Op) (a : Association),
      run perform (new cfg role) ops = some a →
        (moments (new cfg role) ops ++ [a]).Pairwise (fun s t => Forward s.core t.core) ∧
        Justified EstablishedOnce a.events.history ∧ Justified NotAfterClosed a.events.history := by
  intro h
  have hranks : (run perform (new {} .server) reconnectedRun).map (fun a =>
      (moments (new {} .server) reconnectedRun ++ [a]).map (fun s => rank s.core.state)) =
      some [0, 2, 3, 2] := by decide +kernel
  obtain ⟨a, ha, hlist⟩ := Option.map_eq_some_iff.mp hranks
  have hpairwise : ((moments (new {} .server) reconnectedRun ++ [a]).map
      (fun s => rank s.core.state)).Pairwise (· ≤ ·) :=
    List.pairwise_map.mpr ((h {} .server _ a ha).1.imp fun hforward => hforward.state)
  rw [hlist] at hpairwise
  exact absurd hpairwise (by decide)

end Iec61850.Mms.Association
