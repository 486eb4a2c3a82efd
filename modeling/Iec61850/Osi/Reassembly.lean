import Iec61850.Osi.Transport
import Iec61850.Theory.Runs

/-!
# The bound of the reassembler

A reassembler never holds more than its limit. What it hands back is held against the limit
only when it was assembled: a TSDU that arrives whole, in one TPDU and with nothing held, is
handed back at any length (`push_returns`). So a run hands back nothing over the limit exactly
when no TSDU over the limit arrives whole (`reassembly_bounded`).
-/

namespace Iec61850.Osi.Cotp.Reassembler

open Theory

/-- What is done with a reassembler. -/
inductive Op where
  | push (eot : Bool) (payload : Bytes)
  | take
  | reset
  deriving DecidableEq, Repr

/-- One call. A refused `push` leaves the parts as they were. -/
def step (r : Reassembler) : Op → Option Reassembler
  | .push eot payload =>
    match r.push eot payload with
    | .ok (_, r') => some r'
    | .error _ => some r
  | .take => some r.take
  | .reset => some r.reset

/-- The TSDU a call hands back. -/
def returned (r : Reassembler) : Op → List Bytes
  | .push eot payload =>
    match r.push eot payload with
    | .ok (some tsdu, _) => [tsdu]
    | _ => []
  | _ => []

/-- The call is not one that brings a whole TSDU over the limit while nothing is held. -/
def InLimit (r : Reassembler) : Op → Prop
  | .push eot payload => r.parts = [] → eot = true → payload.length ≤ r.limit
  | _ => True

instance (r : Reassembler) (op : Op) : Decidable (InLimit r op) := by
  cases op <;> unfold InLimit <;> infer_instance

/-- What a `push` does: a whole TSDU passes, anything else is held or refused by the limit. -/
theorem push_cases (r : Reassembler) (eot : Bool) (payload : Bytes) :
    (r.parts = [] ∧ eot = true ∧ r.push eot payload = .ok (some payload, r)) ∨
      (¬ (r.parts = [] ∧ eot = true) ∧ r.parts.length + payload.length ≤ r.limit ∧
        r.push eot payload =
          .ok (if eot then some (r.parts ++ payload) else none,
            { r with parts := r.parts ++ payload })) ∨
      (¬ (r.parts = [] ∧ eot = true) ∧ r.limit < r.parts.length + payload.length ∧
        r.push eot payload =
          .error (.limitExceeded "max_tsdu" (r.parts.length + payload.length))) := by
  have hempty : r.parts.isEmpty = true ∧ eot = true ↔ r.parts = [] ∧ eot = true := by
    rw [List.isEmpty_iff]
  unfold push
  by_cases hwhole : r.parts = [] ∧ eot = true
  · exact Or.inl ⟨hwhole.1, hwhole.2, if_pos (hempty.mpr hwhole)⟩
  · rw [if_neg (fun h => hwhole (hempty.mp h))]
    by_cases hover : r.parts.length + payload.length > r.limit
    · exact Or.inr (Or.inr ⟨hwhole, hover, if_pos hover⟩)
    · rw [if_neg hover]
      exact Or.inr (Or.inl ⟨hwhole, by omega, rfl⟩)

theorem push_limit {r r' : Reassembler} {eot : Bool} {payload : Bytes} {tsdu : Option Bytes}
    (h : r.push eot payload = .ok (tsdu, r')) : r'.limit = r.limit := by
  rcases push_cases r eot payload with ⟨-, -, hpush⟩ | ⟨-, -, hpush⟩ | ⟨-, -, hpush⟩
  · rw [hpush, Except.ok.injEq, Prod.mk.injEq] at h
    rw [← h.2]
  · rw [hpush, Except.ok.injEq, Prod.mk.injEq] at h
    rw [← h.2]
  · rw [hpush] at h
    cases h

/-- The limit never changes, and what is held stays below it. -/
structure Bounded (limit : Nat) (r : Reassembler) : Prop where
  limit_eq : r.limit = limit
  held : r.buffered ≤ limit

theorem bounded_new (limit : Nat) : Bounded limit (new limit) := ⟨rfl, Nat.zero_le _⟩

theorem bounded_step {limit : Nat} {r r' : Reassembler} {op : Op} (h : Bounded limit r)
    (hstep : step r op = some r') : Bounded limit r' := by
  have hempty : Bounded limit { r with parts := [] } := ⟨h.limit_eq, Nat.zero_le _⟩
  cases op with
  | push eot payload =>
    rw [step] at hstep
    rcases push_cases r eot payload with ⟨-, -, hpush⟩ | ⟨-, hle, hpush⟩ | ⟨-, -, hpush⟩
    · rw [hpush, Option.some.injEq] at hstep
      exact hstep ▸ h
    · rw [hpush, Option.some.injEq] at hstep
      subst hstep
      refine ⟨h.limit_eq, ?_⟩
      rw [buffered, List.length_append, ← h.limit_eq]
      exact hle
    · rw [hpush, Option.some.injEq] at hstep
      exact hstep ▸ h
  | take =>
    cases hstep
    exact hempty
  | reset =>
    cases hstep
    exact hempty

theorem returned_le_iff (r : Reassembler) (op : Op) :
    (∀ tsdu ∈ returned r op, tsdu.length ≤ r.limit) ↔ InLimit r op := by
  cases op with
  | push eot payload =>
    rw [returned, InLimit]
    rcases push_cases r eot payload with ⟨hparts, heot, hpush⟩ | ⟨hpart, hle, hpush⟩ | ⟨hpart, -, hpush⟩
    · rw [hpush]
      simp [hparts, heot]
    · have hvacuous : r.parts = [] → eot = true → payload.length ≤ r.limit :=
        fun hparts heot => absurd ⟨hparts, heot⟩ hpart
      rw [hpush]
      cases eot with
      | true => simpa [hle] using fun hparts => hvacuous hparts rfl
      | false => simp
    · rw [hpush]
      exact ⟨fun _ hparts heot => absurd ⟨hparts, heot⟩ hpart, fun _ => by simp⟩
  | take => simp [returned, InLimit]
  | reset => simp [returned, InLimit]

theorem journal_le_iff {limit : Nat} {r : Reassembler} (h : Bounded limit r) (ops : List Op) :
    (∀ tsdu ∈ journal step returned r ops, tsdu.length ≤ limit) ↔ Meets step InLimit r ops := by
  induction ops generalizing r with
  | nil => simp [journal, Meets]
  | cons op ops ih =>
    have hhere := returned_le_iff r op
    rw [h.limit_eq] at hhere
    rw [journal, Meets]
    simp only [List.mem_append, or_imp, forall_and]
    rw [hhere]
    refine and_congr_right fun _ => ?_
    cases hstep : step r op with
    | none => simp
    | some r' =>
      rw [ih (bounded_step h hstep)]
      simp

/-- In every run of a reassembler: what it holds is never over the limit, and what it hands
back is never over it exactly when no TSDU over the limit arrives whole. -/
theorem reassembly_bounded (limit : Nat) (ops : List Op) :
    (∀ r ∈ states step (new limit) ops, r.buffered ≤ limit) ∧
      ((∀ tsdu ∈ journal step returned (new limit) ops, tsdu.length ≤ limit) ↔
        Meets step InLimit (new limit) ops) := by
  refine ⟨?_, journal_le_iff (bounded_new limit) ops⟩
  intro r hr
  have hall : Meets step (fun _ _ => True) (new limit) ops := meets_of_forall (fun _ _ => trivial) _ _
  exact (invariant_states (fun _ _ _ hI _ => bounded_step hI) (bounded_new limit) hall r hr).held

/-- One TPDU with the end mark brings nine octets past a limit of eight. -/
theorem reassembly_over_limit :
    ¬ ∀ tsdu ∈ journal step returned (new 8) [.push true (List.replicate 9 0)],
      tsdu.length ≤ 8 := by
  decide

end Iec61850.Osi.Cotp.Reassembler
