import Iec61850.Mms.AssociationRuns
import Iec61850.Theory.Wraparound

/-!
# Invoke identifiers and the budget of outstanding requests

An identifier is taken from a counter that wraps around at `u32::MAX` and skips what is in
flight. Both ends keep to the negotiated budget unless a handshake is completed again with a
smaller one while requests are in flight; `BudgetKept` is the condition that it is not.
-/

namespace Iec61850.Mms.Association

open Theory

/-! ### Taking an identifier -/

/-- The identifiers of the source run from `1` to `u32::MAX`. -/
def ValidId (id : Int) : Prop := 1 ≤ id ∧ id ≤ (u32Max : Int)

theorem takeInvokeIdLoop_spec (outstanding : Outstanding) (tries : Nat) {next : Int}
    (h : ValidId next) : ValidId (takeInvokeIdLoop outstanding tries next).1 ∧
    ValidId (takeInvokeIdLoop outstanding tries next).2 ∧
    ((takeInvokeIdLoop outstanding tries next).1 ∉ outstanding ∨
      ∀ k < tries, wrapAt u32Max next k ∈ outstanding) := by
  induction tries generalizing next with
  | zero => exact ⟨h, h, Or.inr fun k hk => absurd hk (Nat.not_lt_zero k)⟩
  | succ tries ih =>
    have hnext : ValidId (wrapNext u32Max next) := wrapNext_range (by decide) h
    have hunfold : takeInvokeIdLoop outstanding (tries + 1) next =
        if outstanding.contains next then
          takeInvokeIdLoop outstanding tries (wrapNext u32Max next)
        else (next, wrapNext u32Max next) := rfl
    rw [hunfold]
    by_cases hused : next ∈ outstanding
    · rw [if_pos (Std.ExtTreeMap.contains_iff_mem.mpr hused)]
      obtain ⟨hid, hafter, hfree⟩ := ih hnext
      refine ⟨hid, hafter, hfree.imp_right fun hall k hk => ?_⟩
      cases k with
      | zero =>
        rw [wrapAt_zero h]
        exact hused
      | succ k =>
        rw [← wrapAt_wrapNext h k]
        exact hall k (Nat.lt_of_succ_lt_succ hk)
    · rw [if_neg (fun hc => hused (Std.ExtTreeMap.contains_iff_mem.mp hc))]
      exact ⟨h, hnext, Or.inl hused⟩

variable {a : Association} {c : Core} {es : List Effect}

/-- The identifier taken is valid and free: one attempt more than there are requests in flight
is enough, by the pigeonhole principle. -/
theorem takeInvokeId_free (h : ValidId a.nextInvoke) (hsize : a.outstanding.size < u32Max) :
    ValidId a.takeInvokeId.1 ∧ a.takeInvokeId.1 ∉ a.outstanding ∧
      ValidId a.takeInvokeId.2.nextInvoke := by
  obtain ⟨hid, hnext, hfree⟩ :=
    takeInvokeIdLoop_spec a.outstanding (a.outstanding.size + 1) h
  refine ⟨hid, ?_, hnext⟩
  rcases hfree with hfree | hall
  · exact hfree
  · have hlength : a.outstanding.keys.length < a.outstanding.size + 1 := by
      rw [Std.ExtTreeMap.length_keys]
      exact Nat.lt_succ_self _
    obtain ⟨k, hk, hfreeAt⟩ := exists_free (M := (u32Max : Int)) (n := a.nextInvoke)
      (by omega) hlength
    exact absurd (Std.ExtTreeMap.mem_keys.mpr (hall k hk)) hfreeAt

/-! ### The budget -/

/-- What has to hold of a TPDU for the budget to be kept: a handshake that completes, completes
with room for what is in flight. -/
def BudgetKept (a : Association) (tpdu : Bytes) : Prop :=
  ∀ k, completes a tpdu = some k → a.outstanding.size ≤ k

instance BudgetKept.decidable (a : Association) (tpdu : Bytes) : Decidable (BudgetKept a tpdu) :=
  match h : completes a tpdu with
  | none => isTrue fun k hk => by
      rw [h] at hk
      cases hk
  | some k => decidable_of_iff (a.outstanding.size ≤ k)
      ⟨fun hle j hj => by
        rw [h, Option.some.injEq] at hj
        exact hj ▸ hle, fun hall => hall k h⟩

/-- The invariant of the budget. -/
structure Budget (c : Core) : Prop where
  next : ValidId c.nextInvoke
  kept : ∀ n, c.negotiated = some n → c.outstanding.size ≤ n.maxOutstanding
  small : ∀ n, c.negotiated = some n → n.maxOutstanding ≤ 255
  unset : c.negotiated = none → c.outstanding.size = 0
  up : c.state = .established → c.negotiated.isSome = true

theorem Budget.calmer {d : Core} (h : Budget c) (hcalm : Calmer c d) : Budget d := by
  refine ⟨?_, fun n hn => ?_, fun n hn => ?_, fun hn => ?_, fun hstate => ?_⟩
  · rw [hcalm.nextInvoke]
    exact h.next
  · rw [hcalm.negotiated] at hn
    exact Nat.le_trans hcalm.size (h.kept n hn)
  · rw [hcalm.negotiated] at hn
    exact h.small n hn
  · rw [hcalm.negotiated] at hn
    have := h.unset hn
    have := hcalm.size
    omega
  · rw [hcalm.negotiated]
    rcases hcalm.state with heq | hclosed
    · rw [heq] at hstate
      exact h.up hstate
    · rw [hclosed] at hstate
      cases hstate

theorem Budget.passive (h : Budget c) (hes : ∀ e ∈ es, e.passive = true) :
    Budget (c.after es) := h.calmer (calmer_after hes c)

theorem completion_le {tsdu : Bytes} {k : Nat} (h : completion c tsdu = some k) : k ≤ 255 := by
  have hmax : c.cfg.maxOutstanding.toNat ≤ 255 := by
    have := c.cfg.maxOutstanding.toNat_lt
    omega
  unfold completion at h
  cases hrole : c.role with
  | server =>
    simp only [hrole] at h
    split at h
    · split at h
      · simp only [serverOutstanding, Option.some.injEq] at h
        omega
      · cases h
    · cases h
  | client =>
    simp only [hrole] at h
    split at h
    · unfold clamp at h
      split at h
      · simp only [Option.some.injEq] at h
        omega
      · cases h
    · cases h

theorem completes_le {tpdu : Bytes} {k : Nat} (h : completes a tpdu = some k) : k ≤ 255 := by
  unfold completes at h
  obtain ⟨tsdu, -, hcompletion⟩ := Option.bind_eq_some_iff.mp h
  exact completion_le hcompletion

theorem Budget.tpdu {tpdu : Bytes} (h : Budget a.core) (hC : BudgetKept a tpdu)
    (hes : Causes a tpdu es) : Budget (a.core.after es) := by
  cases hes with
  | nothing => exact h
  | ends hends => exact h.passive hends.passive
  | endsAfterContexts k hends =>
    have hin : Budget (a.core.after [.contexts k]) := ⟨h.next, h.kept, h.small, h.unset, h.up⟩
    exact hin.passive hends.passive
  | connects size hconnects htail =>
    have hin : Budget (a.core.after [.resize size, .enter .associating]) :=
      ⟨h.next, h.kept, h.small, h.unset, fun hstate => (by cases hstate)⟩
    rcases htail with rfl | hends
    · exact hin
    · exact hin.passive hends.passive
  | connectFails size hconnects hends =>
    have hin : Budget (a.core.after [.resize size]) := ⟨h.next, h.kept, h.small, h.unset, h.up⟩
    exact hin.passive hends.passive
  | completes k n hcompletes hsize =>
    refine ⟨h.next, fun m hm => ?_, fun m hm => ?_, fun hm => (by cases hm), fun _ => rfl⟩
    · cases hm
      exact hC _ hcompletes
    · cases hm
      exact completes_le hcompletes
  | carries hcarried => exact h.passive hcarried.passive

theorem allowed_le (h : Budget a.core) (hstate : a.state = .established) :
    ∃ n, a.negotiated = some n ∧ a.allowed = n.maxOutstanding ∧ a.allowed ≤ 255 := by
  obtain ⟨n, hn⟩ := Option.isSome_iff_exists.mp (h.up hstate)
  have hn' : a.negotiated = some n := hn
  have hallowed : a.allowed = n.maxOutstanding := by simp only [allowed, hn']
  exact ⟨n, hn', hallowed, by rw [hallowed]; exact h.small n hn⟩

theorem Budget.op {op : Op} (h : Budget a.core) (hes : OpCauses a op es) :
    Budget (a.core.after es) := by
  cases hes with
  | nothing => exact h
  | starts now hrole hidle => exact ⟨h.next, h.kept, h.small, h.unset, fun hstate => (by cases hstate)⟩
  | expires now hdeadline =>
    refine h.passive ?_
    intro e he
    obtain ⟨id, -, rfl⟩ := List.mem_map.mp he
    rfl
  | timesOut now r hdeadline hopen => exact h.passive (Ends.closed r).passive
  | refused => exact h
  | draws now service f hcall hstate hsize =>
    obtain ⟨n, -, -, hle⟩ := allowed_le h hstate
    have hfree := takeInvokeId_free h.next (Nat.lt_of_lt_of_le hsize (Nat.le_trans hle (by decide)))
    exact ⟨hfree.2.2, h.kept, h.small, h.unset, h.up⟩
  | calls now service hcall hstate hsize deadline =>
    obtain ⟨n, hn, hallowed, hle⟩ := allowed_le h hstate
    have hfree := takeInvokeId_free h.next (Nat.lt_of_lt_of_le hsize (Nat.le_trans hle (by decide)))
    have hn' : a.core.negotiated = some n := hn
    refine ⟨hfree.2.2, fun m hm => ?_, h.small, fun hnone => ?_, h.up⟩
    · have hm' : a.core.negotiated = some m := hm
      rw [hn', Option.some.injEq] at hm'
      subst hm'
      change (a.outstanding.insert a.takeInvokeId.1 deadline).size ≤ n.maxOutstanding
      rw [Std.ExtTreeMap.size_insert]
      rw [hallowed] at hsize
      split <;> omega
    · have hnone' : a.core.negotiated = none := hnone
      rw [hn'] at hnone'
      cases hnone'
  | releases now hstate => exact ⟨h.next, h.kept, h.small, h.unset, fun hs => (by cases hs)⟩
  | aborts r => exact h.passive (Ends.closed r).passive
  | polls => exact ⟨h.next, h.kept, h.small, h.unset, h.up⟩

theorem budget_new (cfg : AssociationConfig) (role : Role) : Budget (new cfg role).core := by
  have hfirst : ValidId 1 := ⟨by decide, by decide⟩
  exact ⟨hfirst, fun n hn => (by cases hn), fun n hn => (by cases hn), fun _ => rfl,
    fun h => (by cases h)⟩

/-! ### What a call does -/

theorem call_ok {now : Instant} {service : ConfirmedRequest} {id : Int} (h : Budget a.core)
    (hcall : (call now service a).1 = .ok id) : ValidId id ∧ id ∉ a.outstanding := by
  obtain ⟨es, hes, -⟩ := call_causes now service a
  cases hes with
  | nothing op hquiet => exact hquiet.elim
  | refused now service f hrefused =>
    rw [hrefused] at hcall
    cases hcall
  | draws now service f hrefused hstate hsize =>
    rw [hrefused] at hcall
    cases hcall
  | calls now service hcalled hstate hsize deadline =>
    rw [hcalled, Except.ok.injEq] at hcall
    subst hcall
    obtain ⟨n, -, -, hle⟩ := allowed_le h hstate
    have hfree := takeInvokeId_free h.next
      (Nat.lt_of_lt_of_le hsize (Nat.le_trans hle (by decide)))
    exact ⟨hfree.1, hfree.2.1⟩

/-- A call that is refused leaves the requests in flight, the state and the queue of packets as
they were: what was drawn from the counter is all that is lost. -/
theorem call_refused {now : Instant} {service : ConfirmedRequest} {f : Fault}
    (hcall : (call now service a).1 = .error f) :
    ∃ next, (call now service a).2 = { a with nextInvoke := next } := by
  by_cases hstate : a.state = .established
  · by_cases hsize : a.outstanding.size < a.allowed
    · rw [call_eq now service hstate hsize] at hcall ⊢
      have hsent := send_onlySent (.confirmedRequest a.takeInvokeId.1 service) a.takeInvokeId.2
      generalize send (.confirmedRequest a.takeInvokeId.1 service) a.takeInvokeId.2 = o
        at hsent hcall ⊢
      cases hsent with
      | sent packets => cases hcall
      | failed e => exact ⟨_, rfl⟩
    · refine ⟨a.nextInvoke, ?_⟩
      unfold call
      rw [if_neg (by simp [hstate]), if_pos (Nat.not_lt.mp hsize)]
  · refine ⟨a.nextInvoke, ?_⟩
    unfold call
    rw [if_pos hstate]

/-- In a run in which every handshake that completes leaves room for what is in flight, the
requests in flight never exceed the negotiated maximum, every identifier a call returns is
valid and free, and a refused call changes nothing but the counter. -/
theorem budget_never_exceeded (cfg : AssociationConfig) (role : Role) (ops : List Op)
    (a : Association) (hC : Meets perform (EachVisit BudgetKept) (new cfg role) ops)
    (hrun : run perform (new cfg role) ops = some a) :
    (∀ n, a.negotiated = some n → a.outstanding.size ≤ n.maxOutstanding) ∧
    (∀ now service id, (call now service a).1 = .ok id →
      (1 ≤ id ∧ id ≤ (u32Max : Int)) ∧ id ∉ a.outstanding) ∧
    ∀ now service f, (call now service a).1 = .error f →
      (call now service a).2.outstanding = a.outstanding ∧
      (call now service a).2.state = a.state ∧ (call now service a).2.out = a.out := by
  have hstep : ∀ s op s', Budget s.core → EachVisit BudgetKept s op → perform s op = some s' →
      Budget s'.core := by
    intro s op s' hs hCs hs'
    have h := perform_keeps (R := fun _ _ => True) (fun _ => trivial) (fun _ _ _ _ _ => trivial)
      (fun c hc => ⟨hc.passive (Ends.closed _).passive, trivial⟩)
      (fun a tpdu es _ hJ hCa hes => ⟨hJ.tpdu hCa hes, trivial⟩)
      (fun a es hJ hes => ⟨hJ.op hes, trivial⟩) hs hCs hs'
    exact h.1
  have hbudget : Budget a.core := invariant_run hstep (budget_new cfg role) hC hrun
  refine ⟨hbudget.kept, fun now service id hcall => call_ok hbudget hcall, ?_⟩
  intro now service f hcall
  obtain ⟨next, heq⟩ := call_refused hcall
  rw [heq]
  exact ⟨rfl, rfl, rfl⟩

/-- A client with two requests in flight. -/
def calledRun : List Op :=
  [.start 0, .onBytes 0 ccPacket, .onBytes 0 (acceptPacket { maxOutstanding := 2 }),
    .call 0 .identify, .call 0 .identify]

theorem budget_never_exceeded_called : ∃ a, run perform (client {}) calledRun = some a ∧
    (∀ n, a.negotiated = some n → a.outstanding.size ≤ n.maxOutstanding) ∧
    (∀ now service id, (call now service a).1 = .ok id →
      (1 ≤ id ∧ id ≤ (u32Max : Int)) ∧ id ∉ a.outstanding) ∧
    ∀ now service f, (call now service a).1 = .error f →
      (call now service a).2.outstanding = a.outstanding ∧
      (call now service a).2.state = a.state ∧ (call now service a).2.out = a.out := by
  have hsome : (run perform (client {}) calledRun).isSome = true := by decide +kernel
  obtain ⟨a, ha⟩ := Option.isSome_iff_exists.mp hsome
  exact ⟨a, ha, budget_never_exceeded {} .client calledRun a (by decide +kernel) ha⟩

/-- A second ACCEPT lowers the budget of a client below what it has in flight. -/
theorem budget_exceeded :
    ¬ ∀ (cfg : AssociationConfig) (role : Role) (ops : List Op) (a : Association),
      run perform (new cfg role) ops = some a →
        ∀ n, a.negotiated = some n → a.outstanding.size ≤ n.maxOutstanding := by
  intro h
  have hfinal : (run perform (new {} .client)
      (calledRun ++ [.onBytes 0 (acceptPacket { maxOutstanding := 1 })])).map
      (fun a => (a.negotiated.map Negotiated.maxOutstanding, a.outstanding.size)) =
      some (some 1, 2) := by decide +kernel
  obtain ⟨a, ha, hsizes⟩ := Option.map_eq_some_iff.mp hfinal
  simp only [Prod.mk.injEq, Option.map_eq_some_iff] at hsizes
  obtain ⟨⟨n, hn, hmax⟩, hsize⟩ := hsizes
  have hle := h {} .client _ a ha n hn
  omega

end Iec61850.Mms.Association
