import Iec61850.Goose.Rejection
import Iec61850.Theory.History

/-!
# The order of acceptance

While a subscription stays live, every accepted frame follows the one accepted before it by
the rule of `judge` (`Takes`). Each such step ascends, `stNum` first, or is a wrap; so a pair
comes back only after a wrap (`acceptances_chain`). Across a wrap the rule is symmetric: it
takes the low number after the high one as a wrap, and the high one after the low one because
it is larger (`takes_both_iff`).
-/

namespace Iec61850.Goose

open Theory Ber Link

/-- `stNum` and `sqNum` of the last accepted frame. -/
def Accepted.pair (a : Accepted) : Nat × Nat := (a.stNum, a.sqNum)

namespace Subscriber

/-! ### The rule -/

/-- `q` is accepted while `p` is live. -/
def Takes (p q : Nat × Nat) : Prop :=
  ∀ last : Accepted, last.pair = p → judge last q.1 q.2 ≠ .replay

/-- The step from `p` to `q` is a wrap of `sqNum` or of `stNum`. -/
def IsWrap (p q : Nat × Nat) : Prop :=
  (q.1 = p.1 ∧ wrapped p.2 q.2 = true) ∨ (q.1 ≠ p.1 ∧ wrapped p.1 q.1 = true)

/-- One of the two pairs is just before a wrap and the other just behind it. -/
def AcrossWrap (p q : Nat × Nat) : Prop := IsWrap p q ∨ IsWrap q p

/-- The order of the pairs, `stNum` first. -/
def Ascends (p q : Nat × Nat) : Prop := p.1 < q.1 ∨ (p.1 = q.1 ∧ p.2 < q.2)

instance : Trans Ascends Ascends Ascends where
  trans := by
    intro a b c hab hbc
    unfold Ascends at *
    omega

theorem ascends_irrefl (p : Nat × Nat) : ¬ Ascends p p := by
  unfold Ascends
  omega

theorem judge_ne_replay (last : Accepted) (stNum sqNum : Nat) : judge last stNum sqNum ≠ .replay ↔
      Ascends last.pair (stNum, sqNum) ∨ IsWrap last.pair (stNum, sqNum) := by
  unfold judge Ascends IsWrap Accepted.pair
  by_cases hst : stNum = last.stNum
  · rw [if_pos hst]
    split
    · rename_i hsq
      simp only [ne_eq, reduceCtorEq, not_false_eq_true, true_iff]
      rcases hsq with hgt | hwrap
      · exact Or.inl (Or.inr ⟨hst.symm, hgt⟩)
      · exact Or.inr (Or.inl ⟨hst, hwrap⟩)
    · rename_i hsq
      simp only [ne_eq, not_true_eq_false, false_iff]
      rintro ((hlt | ⟨-, hlt⟩) | (⟨-, hwrap⟩ | ⟨hne, -⟩))
      · exact absurd hst (Nat.ne_of_gt hlt)
      · exact hsq (Or.inl hlt)
      · exact hsq (Or.inr hwrap)
      · exact hne hst
  · rw [if_neg hst]
    split
    · rename_i hgt
      simp only [ne_eq, reduceCtorEq, not_false_eq_true, true_iff]
      rcases hgt with hgt | hwrap
      · exact Or.inl (Or.inl hgt)
      · exact Or.inr (Or.inr ⟨hst, hwrap⟩)
    · rename_i hle
      simp only [ne_eq, not_true_eq_false, false_iff]
      rintro ((hlt | ⟨heq, -⟩) | (⟨heq, -⟩ | ⟨-, hwrap⟩))
      · exact hle (Or.inl hlt)
      · exact hst heq.symm
      · exact hst heq
      · exact hle (Or.inr hwrap)

theorem takes_iff (p q : Nat × Nat) : Takes p q ↔ Ascends p q ∨ IsWrap p q := by
  constructor
  · intro h
    have hjudge := h ⟨p.1, p.2, 0, ⟨0, 0, .synchronized⟩, 0⟩ rfl
    exact (judge_ne_replay _ q.1 q.2).mp hjudge
  · rintro h last rfl
    exact (judge_ne_replay last q.1 q.2).mpr h

theorem IsWrap.ascends_back {p q : Nat × Nat} (h : IsWrap p q) : Ascends q p := by
  have hdown : ∀ {last new : Nat}, wrapped last new = true → new < last := by
    intro last new hwrap
    have hbounds := of_decide_eq_true hwrap
    simp only [u32Max, seqWrapWindow] at hbounds
    omega
  rcases h with ⟨heq, hwrap⟩ | ⟨-, hwrap⟩
  · exact Or.inr ⟨heq, hdown hwrap⟩
  · exact Or.inl (hdown hwrap)

theorem takes_both_iff (p q : Nat × Nat) : Takes p q ∧ Takes q p ↔ AcrossWrap p q := by
  rw [takes_iff, takes_iff]
  constructor
  · rintro ⟨hpq | hwrap, hqp | hwrap'⟩
    · exact absurd (Trans.trans hpq hqp) (ascends_irrefl p)
    · exact Or.inr hwrap'
    · exact Or.inl hwrap
    · exact Or.inl hwrap
  · rintro (hwrap | hwrap)
    · exact ⟨Or.inr hwrap, Or.inl hwrap.ascends_back⟩
    · exact ⟨Or.inl hwrap.ascends_back, Or.inr hwrap⟩

/-! ### A live period -/

/-- The subscription is live before and during the call: the last accepted state does not
expire and no other source takes over. -/
def StaysLive (s : Subscriber) : Op → Prop
  | .frame now bytes => s.isLive = true ∧ s.due now = false ∧
      (s.onFrame now bytes).simulationActive = s.simulationActive
  | .timeout now => s.isLive = true ∧ s.due now = false
  | .poll => s.isLive = true
  | .resetSimulation => False

instance (s : Subscriber) (op : Op) : Decidable (StaysLive s op) := by
  cases op <;> unfold StaysLive <;> infer_instance

/-- The pair a call accepts. -/
def acceptance (s : Subscriber) : Op → List (Nat × Nat)
  | .frame now bytes =>
    if (raised s (s.onFrame now bytes)).any SubscriberEvent.isAcceptance then
      ((s.onFrame now bytes).state.map Accepted.pair).toList
    else []
  | _ => []

variable {s : Subscriber} {now : Instant} {bytes : Bytes} {last : Accepted}

theorem acceptance_of_quiet (h : Quiet s (s.onFrame now bytes)) :
    acceptance s (.frame now bytes) = [] := by
  rw [acceptance, if_neg]
  rw [List.any_eq_true]
  rintro ⟨e, he, haccept⟩
  rw [h.raised e he] at haccept
  cases haccept

theorem acceptance_of_mem {e : SubscriberEvent} {a : Accepted}
    (he : e ∈ raised s (s.onFrame now bytes)) (haccept : e.isAcceptance = true)
    (hstate : (s.onFrame now bytes).state = some a) :
    acceptance s (.frame now bytes) = [a.pair] := by
  rw [acceptance, if_pos (List.any_eq_true.mpr ⟨e, he, haccept⟩), hstate]
  rfl

theorem noteCommissioning_beliefs (ndsCom : Bool) (s : Subscriber) :
    (s.noteCommissioning ndsCom).beliefs = { s.beliefs with ndsCom } := by
  unfold noteCommissioning
  split
  · rename_i hsame
    rw [hsame]
    rfl
  · simp only
    split <;> rfl

theorem countMissedStates_beliefs (stNum : Nat) (s : Subscriber) :
    (s.countMissedStates stNum).beliefs = s.beliefs := by
  unfold countMissedStates
  split
  · simp only
    split <;> rfl
  · rfl

theorem acceptNew_beliefs (now : Instant) (pdu : GoosePduView) (values : List Value)
    (s : Subscriber) : (s.acceptNew now pdu values).beliefs =
      ⟨some (accepted now pdu), pdu.ndsCom, s.simulationActive, some now, false⟩ := by
  have hactive := congrArg Beliefs.simulationActive (countMissedStates_beliefs pdu.stNum s)
  rw [acceptNew, accept, noteCommissioning_beliefs]
  simp only [beliefs, emit] at hactive ⊢
  rw [hactive]
  rfl

theorem acceptRetransmission_beliefs (now : Instant) (pdu : GoosePduView) (s : Subscriber) :
    (s.acceptRetransmission now pdu).beliefs =
      ⟨some (accepted now pdu), pdu.ndsCom, s.simulationActive, s.stateChangedAt, false⟩ := by
  rw [acceptRetransmission, accept, noteCommissioning_beliefs]
  rfl

/-- The beliefs behind the simulation policy, while the subscription stays live. -/
theorem beliefs_live {simulated active : Bool} (hlive : s.isLive = true) (hdue : s.due now = false)
    (hactive : ((s.checkExpiry now).simulationPolicyAdmits simulated).2.simulationActive = active)
    (hsame : active = s.simulationActive) :
    ((s.checkExpiry now).simulationPolicyAdmits simulated).2.beliefs = s.beliefs := by
  have hexpired : s.expired = false := by
    simp only [isLive, Bool.and_eq_true, Bool.not_eq_true'] at hlive
    exact hlive.2
  have hcheck : (s.checkExpiry now).beliefs = s.beliefs := by
    rw [checkExpiry_beliefs, hdue, hexpired]
    simp [beliefs, hexpired]
  have hsim := simulationPolicyAdmits_beliefs simulated (s.checkExpiry now)
  have hbefore : (s.checkExpiry now).simulationActive = s.simulationActive :=
    congrArg Beliefs.simulationActive hcheck
  rw [hsim]
  split
  · rename_i htakes
    -- a takeover would have changed the mode
    rw [if_pos htakes] at hsim
    have hon : ((s.checkExpiry now).simulationPolicyAdmits simulated).2.simulationActive = true :=
      congrArg Beliefs.simulationActive hsim
    rw [hactive, hsame, ← hbefore, htakes.2.1] at hon
    cases hon
  · exact hcheck

/-- A verdict of the live state, read off the pairs. -/
theorem takes_of_verdict {u : Subscriber} {pdu : GoosePduView} (hbeliefs : u.beliefs = s.beliefs)
    (hstate : s.state = some last) (hlive : s.isLive = true) (hverdict : u.verdict pdu ≠ .replay) :
    Takes last.pair (pdu.stNum, pdu.sqNum) := by
  have hlast : u.state = some last := (congrArg Beliefs.state hbeliefs).trans hstate
  have hexpired : u.expired = false := by
    simp only [isLive, Bool.and_eq_true, Bool.not_eq_true'] at hlive
    exact (congrArg Beliefs.expired hbeliefs).trans hlive.2
  rw [verdict, hlast, hexpired] at hverdict
  exact (takes_iff _ _).mpr ((judge_ne_replay last _ _).mp hverdict)

/-- One frame of a live period: the pair it accepts, if it accepts one, follows the last one. -/
theorem onFrame_live (hstate : s.state = some last) (hlive : StaysLive s (.frame now bytes)) :
    (acceptance s (.frame now bytes) = [] ∧ (s.onFrame now bytes).state = some last) ∨
      ∃ a, acceptance s (.frame now bytes) = [a.pair] ∧ (s.onFrame now bytes).state = some a ∧
        Takes last.pair a.pair := by
  obtain ⟨hnow, hdue, hactive⟩ := hlive
  have heffect := onFrame_effect now bytes s
  generalize hs' : s.onFrame now bytes = s' at heffect hactive ⊢
  cases heffect with
  | unseen _ _ hquiet hbeliefs =>
    refine Or.inl ⟨acceptance_of_quiet (hs' ▸ hquiet), ?_⟩
    have hkept := congrArg Beliefs.state (hbeliefs.trans (checkExpiry_beliefs now s))
    exact hkept.trans hstate
  | dropped pdu _ _ hquiet hbeliefs =>
    refine Or.inl ⟨acceptance_of_quiet (hs' ▸ hquiet), ?_⟩
    have hsim := congrArg Beliefs.simulationActive hbeliefs
    have hkept := hbeliefs.trans (beliefs_live hnow hdue hsim.symm hactive)
    exact (congrArg Beliefs.state hkept).trans hstate
  | newState pdu u values _ hjudging hverdict =>
    have hafter := acceptNew_beliefs now pdu values u
    have hsim := congrArg Beliefs.simulationActive hjudging.beliefs
    have hu : u.simulationActive = s.simulationActive :=
      (congrArg Beliefs.simulationActive hafter).symm.trans hactive
    have hkept := hjudging.beliefs.trans (beliefs_live hnow hdue hsim.symm hu)
    obtain ⟨more, hmore⟩ := acceptNew_history now pdu values u
    have hraised := mem_raised hjudging.quiet.grows hmore
    have hstate' := congrArg Beliefs.state hafter
    rw [← hs'] at hraised hstate' ⊢
    exact Or.inr ⟨accepted now pdu, acceptance_of_mem hraised rfl hstate', hstate',
      takes_of_verdict hkept hstate hnow (by rw [hverdict]; simp)⟩
  | retransmission pdu u _ hjudging hverdict =>
    have hafter := acceptRetransmission_beliefs now pdu u
    have hsim := congrArg Beliefs.simulationActive hjudging.beliefs
    have hu : u.simulationActive = s.simulationActive :=
      (congrArg Beliefs.simulationActive hafter).symm.trans hactive
    have hkept := hjudging.beliefs.trans (beliefs_live hnow hdue hsim.symm hu)
    obtain ⟨more, hmore⟩ := acceptRetransmission_history now pdu u
    have hraised := mem_raised hjudging.quiet.grows hmore
    have hstate' := congrArg Beliefs.state hafter
    rw [← hs'] at hraised hstate' ⊢
    exact Or.inr ⟨accepted now pdu, acceptance_of_mem hraised rfl hstate', hstate',
      takes_of_verdict hkept hstate hnow (by rw [hverdict]; simp)⟩

/-- One call of a live period. -/
theorem step_live {s' : Subscriber} {op : Op} (hstate : s.state = some last)
    (hlive : StaysLive s op) (hstep : step s op = some s') :
    (acceptance s op = [] ∧ s'.state = some last) ∨
      ∃ a, acceptance s op = [a.pair] ∧ s'.state = some a ∧ Takes last.pair a.pair := by
  cases op with
  | frame now bytes =>
    cases hstep
    exact onFrame_live hstate hlive
  | timeout now =>
    cases hstep
    exact Or.inl ⟨rfl, (congrArg Beliefs.state (checkExpiry_beliefs now s)).trans hstate⟩
  | poll =>
    cases hstep
    exact Or.inl ⟨rfl, hstate⟩
  | resetSimulation => exact hlive.elim

/-- The pairs accepted in a live period, the last one before it included: each follows the one
before it. -/
theorem acceptances_chain (ops : List Op) :
    ∀ (s : Subscriber) (last : Accepted), s.state = some last → Meets step StaysLive s ops →
      (last.pair :: journal step acceptance s ops).IsChain Takes := by
  induction ops with
  | nil =>
    intro s last _ _
    exact List.isChain_singleton _
  | cons op ops ih =>
    intro s last hstate hlive
    obtain ⟨hhere, hrest⟩ := hlive
    rw [journal]
    cases hstep : step s op with
    | none => cases op <;> cases hstep
    | some s' =>
      simp only
      rcases step_live hstate hhere hstep with ⟨hnone, hstate'⟩ | ⟨a, hone, hstate', htakes⟩
      · rw [hnone, List.nil_append]
        exact ih s' last hstate' (hrest s' hstep)
      · rw [hone, List.singleton_append, List.isChain_cons_cons]
        exact ⟨htakes, ih s' a hstate' (hrest s' hstep)⟩

/-- The order of acceptance in a live period. A pair comes back only after a wrap; and two
pairs are each accepted after the other, so that a subscriber can be kept flipping between
them, exactly when they lie across a wrap. -/
theorem acceptance_order (s : Subscriber) (last : Accepted) (ops : List Op)
    (hstate : s.state = some last) (hlive : Meets step StaysLive s ops) :
    (∀ pre x mid post, last.pair :: journal step acceptance s ops = pre ++ x :: mid ++ x :: post →
      ∃ a b front back, x :: mid ++ [x] = front ++ a :: b :: back ∧ IsWrap a b) ∧ (∀ pre p q post,
      last.pair :: journal step acceptance s ops = pre ++ p :: q :: p :: post → AcrossWrap p q) ∧
    ∀ p q, ¬ (Takes p q ∧ Takes q p) ↔ ¬ AcrossWrap p q := by
  have hchain := acceptances_chain ops s last hstate hlive
  refine ⟨?_, ?_, fun p q => not_congr (takes_both_iff p q)⟩
  · intro pre x mid post hsplit
    refine repetition_steps ascends_irrefl (hchain.imp fun a b hab => ?_) hsplit
    exact (takes_iff a b).mp hab
  · intro pre p q post hsplit
    rw [hsplit] at hchain
    have hpart := hchain.right_of_append
    rw [List.isChain_cons_cons, List.isChain_cons_cons] at hpart
    exact (takes_both_iff p q).mp ⟨hpart.1, hpart.2.1⟩

/-- Two frames captured on either side of a wrap of `stNum`, played in turns: all of them are
accepted, as one live period. -/
theorem acceptance_flips :
    let s := (new { key := ⟨.gooseBase, 1, ascii "ref"⟩ }).onFrame 0
      (sampleFrame 4294967295 0 false 1)
    let before := Op.frame 0 (sampleFrame 4294967295 0 false 1)
    let behind := Op.frame 0 (sampleFrame 1 0 false 1)
    let ops := [behind, before, behind, before]
    Meets step StaysLive s ops ∧
      journal step acceptance s ops =
        [(1, 0), (4294967295, 0), (1, 0), (4294967295, 0)] := by
  decide +kernel

/-- The order in which two retransmissions are accepted. -/
theorem acceptance_order_retransmissions :
    let s := (new { key := ⟨.gooseBase, 1, ascii "ref"⟩ }).onFrame 0 (sampleFrame 5 0 false 1)
    let ops := [Op.frame 1 (sampleFrame 5 1 false 1), Op.frame 2 (sampleFrame 5 2 false 1)]
    ∀ pre x mid post, (5, 0) :: journal step acceptance s ops = pre ++ x :: mid ++ x :: post →
      ∃ a b front back, x :: mid ++ [x] = front ++ a :: b :: back ∧ IsWrap a b := by
  intro s ops
  exact (acceptance_order s ⟨5, 0, 0, ⟨100, 0, .synchronized⟩, 100000000⟩ ops (by decide +kernel)
    (by decide +kernel)).1

end Subscriber

end Iec61850.Goose
