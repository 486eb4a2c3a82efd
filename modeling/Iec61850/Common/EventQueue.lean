import Iec61850.Theory.BoundedQueue
import Iec61850.Common.Basic

/-!
# The event queue

`EventQueue` of `common/machine.rs`: a bounded FIFO that drops its oldest event when it is
full and counts what was lost. The bound is a field of the type, so that a queue longer than
its capacity cannot be built. The field `history` is not in the source: it is the sequence of
all events ever pushed, which is what statements about emitted events are about.
-/

namespace Iec61850

open Theory

/-- `saturating_add(1)` on a `u64`. -/
def satInc (n : Nat) : Nat := min u64Max (n + 1)

structure EventQueue (α : Type) where
  items : List α
  capacity : Nat
  dropped : Nat
  history : List α
  capacity_pos : 0 < capacity
  length_le : items.length ≤ capacity
  dropped_le : dropped ≤ u64Max

namespace EventQueue

variable {α : Type}

/-- `EventQueue::new`: at least one event fits. -/
def new (capacity : Nat) : EventQueue α where
  items := []
  capacity := max capacity 1
  dropped := 0
  history := []
  capacity_pos := by omega
  length_le := Nat.zero_le _
  dropped_le := Nat.zero_le _

def push (q : EventQueue α) (item : α) : EventQueue α where
  items := pushDropping q.capacity q.items item
  capacity := q.capacity
  dropped := if q.items.length ≥ q.capacity then satInc q.dropped else q.dropped
  history := q.history ++ [item]
  capacity_pos := q.capacity_pos
  length_le := pushDropping_length_le q.capacity_pos q.length_le item
  dropped_le := by
    have h := q.dropped_le
    unfold satInc
    split <;> omega

/-- `EventQueue::pop`: take the oldest event. -/
def pop (q : EventQueue α) : Option α × EventQueue α :=
  (q.items.head?, { q with
    items := q.items.tail
    length_le := by
      have h := q.length_le
      simp only [List.length_tail]
      omega })

variable (q : EventQueue α)

@[simp] theorem push_history (item : α) :
    (q.push item).history = q.history ++ [item] := rfl

@[simp] theorem push_capacity (item : α) :
    (q.push item).capacity = q.capacity := rfl

@[simp] theorem pop_history : q.pop.2.history = q.history := rfl

@[simp] theorem pop_capacity : q.pop.2.capacity = q.capacity := rfl

@[simp] theorem new_history (capacity : Nat) : (new capacity : EventQueue α).history = [] := rfl

theorem foldl_push_items (es : List α) :
    (es.foldl push q).items = lastN q.capacity (q.items ++ es) := by
  rw [← foldl_pushDropping q.capacity_pos es q.length_le]
  induction es generalizing q with
  | nil => rfl
  | cons e es ih =>
    simp only [List.foldl_cons]
    exact ih (q.push e)

@[simp] theorem foldl_push_capacity (es : List α) :
    (es.foldl push q).capacity = q.capacity := by
  induction es generalizing q with
  | nil => rfl
  | cons e es ih => exact ih (q.push e)

@[simp] theorem foldl_push_history (es : List α) :
    (es.foldl push q).history = q.history ++ es := by
  induction es generalizing q with
  | nil => simp
  | cons e es ih => simp [ih]

theorem foldl_push_dropped (es : List α) : (es.foldl push q).dropped =
      min u64Max (q.dropped + (q.items.length + es.length - q.capacity)) := by
  induction es generalizing q with
  | nil =>
    have hle := q.length_le
    have hd := q.dropped_le
    simp only [List.foldl_nil, List.length_nil]
    omega
  | cons e es ih =>
    have hle := q.length_le
    have hpos := q.capacity_pos
    have hd := q.dropped_le
    rw [List.foldl_cons, ih (q.push e), List.length_cons]
    by_cases hfull : q.items.length ≥ q.capacity
    · have hlen : (q.push e).items.length = q.items.length := by
        simp only [push, pushDropping, hfull, if_true, List.length_append, List.length_tail,
          List.length_cons, List.length_nil]
        omega
      have hdrop : (q.push e).dropped = satInc q.dropped := by simp [push, hfull]
      rw [hlen, hdrop, push_capacity, satInc]
      omega
    · have hlen : (q.push e).items.length = q.items.length + 1 := by
        simp [push, pushDropping, hfull]
      have hdrop : (q.push e).dropped = q.dropped := by simp [push, hfull]
      rw [hlen, hdrop, push_capacity]
      omega

/-! ### Conservation -/

/-- Every event pushed was dropped, was taken (`polled` of them) or is still held; the counter
of the dropped ones saturates. -/
def Conserved (polled : Nat) (q : EventQueue α) : Prop :=
  ∃ lost, q.dropped = min u64Max lost ∧ lost + polled + q.items.length = q.history.length

theorem conserved_new (capacity : Nat) : Conserved 0 (new capacity : EventQueue α) :=
  ⟨0, rfl, rfl⟩

theorem Conserved.push {polled : Nat} {q : EventQueue α} (h : Conserved polled q) (item : α) :
    Conserved polled (q.push item) := by
  obtain ⟨lost, hdropped, hsum⟩ := h
  have hpos := q.capacity_pos
  by_cases hfull : q.items.length ≥ q.capacity
  · refine ⟨lost + 1, ?_, ?_⟩
    · have : (q.push item).dropped = satInc q.dropped := by simp [EventQueue.push, hfull]
      rw [this, satInc, hdropped]
      omega
    · have : (q.push item).items.length = q.items.length := by
        simp only [EventQueue.push, pushDropping, hfull, if_true, List.length_append,
          List.length_tail, List.length_cons, List.length_nil]
        omega
      rw [this, push_history, List.length_append, List.length_singleton]
      omega
  · refine ⟨lost, ?_, ?_⟩
    · have : (q.push item).dropped = q.dropped := by simp [EventQueue.push, hfull]
      rw [this, hdropped]
    · have : (q.push item).items.length = q.items.length + 1 := by
        simp [EventQueue.push, pushDropping, hfull]
      rw [this, push_history, List.length_append, List.length_singleton]
      omega

theorem Conserved.pop {polled : Nat} {q : EventQueue α} (h : Conserved polled q) :
    Conserved (polled + q.pop.1.toList.length) q.pop.2 := by
  obtain ⟨lost, hdropped, hsum⟩ := h
  refine ⟨lost, hdropped, ?_⟩
  change lost + (polled + q.items.head?.toList.length) + q.items.tail.length = q.history.length
  cases hitems : q.items with
  | nil =>
    rw [hitems] at hsum
    exact hsum
  | cons e es =>
    rw [hitems] at hsum
    simp only [List.head?_cons, Option.toList_some, List.tail_cons, List.length_cons,
      List.length_nil] at hsum ⊢
    omega

end EventQueue

end Iec61850
