import Iec61850.Ber.Reread

/-!
# How much a read consumes

An element that was read and what is left behind it are no longer than what there was, so a cursor
yields no more elements than it has octets.
-/

namespace Iec61850.Ber

open Theory Cursor

variable {pos next : Nat} {bs rest : Bytes} {tag : Tag} {c c' : Cursor} {t : Tlv}

theorem highTag_length {start left number : Nat} {isFirst : Bool} {result : Nat}
    (h : Cursor.highTag start left isFirst number pos bs = .ok (result, next, rest)) :
    rest.length ≤ bs.length := by
  induction left generalizing isFirst number pos bs with
  | zero => cases h
  | succ left ih =>
    cases bs with
    | nil => cases h
    | cons b bs =>
      rw [Cursor.highTag] at h
      split at h
      · cases h
      · split at h
        · cases h
        · dsimp only at h
          split at h
          · cases h
            exact Nat.le_succ _
          · exact Nat.le_succ_of_le (ih h)

theorem readTag_length (h : Cursor.readTag pos bs = .ok (tag, next, rest)) :
    rest.length < bs.length := by
  cases bs with
  | nil => cases h
  | cons first bs =>
    rw [Cursor.readTag] at h
    dsimp only at h
    split at h
    · obtain ⟨⟨number, after, more⟩, hhigh, h⟩ := bind_ok h
      dsimp only at h
      split at h
      · cases h
      · cases h
        exact Nat.lt_succ_of_le (highTag_length hhigh)
    · cases h
      exact Nat.lt_succ_self _

theorem readLength_length {len : Nat} (h : Cursor.readLength pos bs = .ok (len, next, rest)) :
    rest.length < bs.length := by
  cases bs with
  | nil => cases h
  | cons first bs =>
    rw [Cursor.readLength] at h
    dsimp only at h
    split at h
    · cases h
      exact Nat.lt_succ_self _
    · split at h
      · cases h
      · split at h
        · cases h
        · split at h
          · cases h
          · cases h
            rw [List.length_drop, List.length_cons]
            omega

theorem nextInner_length (h : c.nextInner = .ok (t, c')) :
    t.value.length + 2 + c'.rest.length ≤ c.rest.length := by
  obtain ⟨⟨tag, pos, rest⟩, htag, h⟩ := bind_ok h
  obtain ⟨⟨len, pos', rest'⟩, hlen, h⟩ := bind_ok h
  dsimp only at hlen h
  split at h
  · cases h
  · cases h
    have htagLength := readTag_length htag
    have hlenLength := readLength_length hlen
    rw [List.length_take, List.length_drop]
    omega

theorem nextRequired_length (h : c.nextRequired = .ok (t, c')) :
    t.value.length + c'.rest.length ≤ c.rest.length := by
  rw [Cursor.nextRequired] at h
  split at h
  · cases h
  · have hlength := nextInner_length h
    omega

theorem nextTag_length (h : c.nextTag tag = .ok (t, c')) :
    t.value.length + c'.rest.length ≤ c.rest.length := by
  obtain ⟨⟨u, d⟩, hnext, h⟩ := bind_ok h
  obtain ⟨v, hexpect, h⟩ := bind_ok h
  cases h
  rw [Tlv.expect] at hexpect
  split at hexpect
  · cases hexpect
    exact nextRequired_length hnext
  · cases hexpect

theorem nextIfTag_length {t : Option Tlv} (h : c.nextIfTag tag = .ok (t, c')) :
    c'.rest.length ≤ c.rest.length := by
  rw [Cursor.nextIfTag] at h
  split at h
  · obtain ⟨⟨u, d⟩, hnext, h⟩ := bind_ok h
    cases h
    have hlength := nextRequired_length hnext
    omega
  · cases h
    exact Nat.le_refl _

theorem itemsFuel_length (fuel : Nat) (c : Cursor) : (Cursor.itemsFuel fuel c).length ≤ fuel := by
  induction fuel generalizing c with
  | zero => exact Nat.le_refl 0
  | succ fuel ih =>
    rw [Cursor.itemsFuel]
    split
    · exact Nat.zero_le _
    · exact Nat.succ_le_succ (Nat.zero_le _)
    · exact Nat.succ_le_succ (ih _)

theorem items_length (c : Cursor) : c.items.length ≤ c.rest.length := itemsFuel_length _ c

theorem next_length (h : c.next = some (.ok t, c')) :
    t.value.length + 2 + c'.rest.length ≤ c.rest.length := by
  rw [Cursor.next] at h
  split at h
  · cases h
  · split at h
    · rename_i hnext
      cases h
      exact nextInner_length hnext
    · cases h

/-- A loop ends at an element its body refuses. -/
theorem collectItems_error {α : Type} {limit : String} {max : Nat} {c c' : Cursor} {t : Tlv}
    {f : Tlv → Except Error α} {e : Error} (hnext : c.nextRequired = .ok (t, c'))
    (h : f t = .error e) : ∃ e', collectItems limit max c f = .error e' := by
  have hlength := next_length (next_of_nextRequired hnext)
  obtain ⟨n, hn⟩ := Nat.exists_eq_succ_of_ne_zero (n := c.rest.length) (by omega)
  rw [collectItems, Cursor.items, hn, Cursor.itemsFuel, next_of_nextRequired hnext]
  dsimp only
  rw [List.foldlM_cons]
  split
  · exact ⟨_, rfl⟩
  · dsimp only [bind, Except.bind]
    rw [h]
    exact ⟨_, rfl⟩

/-- The elements a cursor yields are found among its octets, each behind its tag and its length. -/
theorem itemsFuel_contents {α : Type} {weight : α → Nat} {k fuel : Nat} {as : List α}
    (h : List.Forall₂ (fun item a => ∃ t, item = .ok t ∧ weight a ≤ k * (t.value.length + 2))
      (Cursor.itemsFuel fuel c) as) : (as.map weight).sum ≤ k * c.rest.length := by
  induction fuel generalizing c as with
  | zero =>
    cases h
    exact Nat.zero_le _
  | succ fuel ih =>
    rw [Cursor.itemsFuel] at h
    split at h
    · cases h
      exact Nat.zero_le _
    · cases h with
      | cons hhead _ =>
        obtain ⟨t, ht, -⟩ := hhead
        cases ht
    · rename_i t c' hnext
      cases h with
      | cons hhead htail =>
        obtain ⟨u, hu, hweight⟩ := hhead
        cases hu
        have hrest := ih htail
        have hlength := Nat.mul_le_mul_left k (next_length hnext)
        rw [Nat.mul_add] at hlength
        rw [List.map_cons, List.sum_cons]
        omega

theorem items_contents {α : Type} {weight : α → Nat} {k : Nat} {as : List α}
    (h : List.Forall₂ (fun item a => ∃ t, item = .ok t ∧ weight a ≤ k * (t.value.length + 2))
      c.items as) : (as.map weight).sum ≤ k * c.rest.length := itemsFuel_contents h

end Iec61850.Ber
