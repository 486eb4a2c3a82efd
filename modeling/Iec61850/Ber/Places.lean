import Iec61850.Ber.Reread

/-!
# Reading at another place

An element that is kept whole, or octets that are copied, are read again at another place of
another buffer. A reader that looks at tags and contents only returns the same there; offsets
show up in errors and nowhere else.
-/

namespace Iec61850.Ber

open Theory

/-! ### Contents -/

/-- The reader looks at nothing but the contents. -/
def Placeless {α : Type} (f : Tlv → Except Error α) : Prop :=
  ∀ t t' a, t'.value = t.value → f t = .ok a → f t' = .ok a

theorem placeless_boolean : Placeless Tlv.boolean := by
  intro t t' a hvalue h
  unfold Tlv.boolean at h ⊢
  rw [hvalue]
  split at h
  · exact h
  · cases h

theorem placeless_bitString : Placeless Tlv.bitString := by
  intro t t' a hvalue h
  unfold Tlv.bitString at h ⊢
  rw [hvalue]
  split at h
  · split at h
    · rename_i hcond
      rw [if_pos hcond]
      exact h
    · cases h
  · cases h

theorem placeless_integerI64 : Placeless Tlv.integerI64 := by
  intro t t' a hvalue h
  unfold Tlv.integerI64 at h ⊢
  rw [hvalue]
  split at h
  · cases h
  · rename_i hcond
    rw [if_neg hcond]
    exact h

theorem placeless_unsignedLenientU64 : Placeless Tlv.unsignedLenientU64 := by
  intro t t' a hvalue h
  unfold Tlv.unsignedLenientU64 at h ⊢
  rw [hvalue]
  split at h
  · split at h
    · rename_i hcond
      rw [if_pos hcond]
      exact h
    · rename_i hcond
      rw [if_neg hcond]
      split at h
      · rename_i hcond
        rw [if_pos hcond]
        exact h
      · cases h
  · cases h
  · split at h
    · rename_i hcond
      rw [if_pos hcond]
      exact h
    · cases h

theorem placeless_visibleString : Placeless Tlv.visibleString := by
  intro t t' a hvalue h
  unfold Tlv.visibleString at h ⊢
  rw [hvalue]
  split at h
  · rename_i hcond
    rw [if_pos hcond]
    exact h
  · cases h

/-! ### Cursors at other places -/

variable {pos next : Nat} {bs rest : Bytes}

theorem highTag_placeless {start left number : Nat} {isFirst : Bool} {n : Nat}
    (h : Cursor.highTag start left isFirst number pos bs = .ok (n, next, rest))
    (start' pos' : Nat) :
    ∃ next', Cursor.highTag start' left isFirst number pos' bs = .ok (n, next', rest) := by
  fun_induction Cursor.highTag start left isFirst number pos bs generalizing pos' with
  | case1 => cases h
  | case2 => cases h
  | case3 => cases h
  | case4 => cases h
  | case5 =>
    rename_i hfirst hbig value hlast
    rw [Except.ok.injEq, Prod.mk.injEq, Prod.mk.injEq] at h
    rw [Cursor.highTag, if_neg hfirst, if_neg hbig]
    simp only
    rw [if_pos hlast, ← h.1, ← h.2.2]
    exact ⟨_, rfl⟩
  | case6 =>
    rename_i hfirst hbig value hmore ih
    rw [Cursor.highTag, if_neg hfirst, if_neg hbig]
    simp only
    rw [if_neg hmore]
    exact ih h _

theorem readTag_placeless {tag : Tag} (h : Cursor.readTag pos bs = .ok (tag, next, rest))
    (pos' : Nat) : ∃ next', Cursor.readTag pos' bs = .ok (tag, next', rest) := by
  cases bs with
  | nil => cases h
  | cons first bs =>
    rw [Cursor.readTag] at h ⊢
    simp only at h ⊢
    split at h
    · rename_i hhigh
      obtain ⟨⟨number, next', rest'⟩, hread, hrest⟩ := bind_ok h
      obtain ⟨next'', hread'⟩ := highTag_placeless hread pos' (pos' + 1)
      rw [if_pos hhigh, hread']
      simp only [bind, Except.bind] at hrest ⊢
      split at hrest
      · cases hrest
      · rename_i hbig
        cases hrest
        rw [if_neg hbig]
        exact ⟨_, rfl⟩
    · rename_i hlow
      cases h
      rw [if_neg hlow]
      exact ⟨_, rfl⟩

theorem readLength_placeless {len : Nat} (h : Cursor.readLength pos bs = .ok (len, next, rest))
    (pos' : Nat) : ∃ next', Cursor.readLength pos' bs = .ok (len, next', rest) := by
  cases bs with
  | nil => cases h
  | cons first bs =>
    rw [Cursor.readLength] at h ⊢
    split at h
    · rename_i hshort
      cases h
      rw [if_pos hshort]
      exact ⟨_, rfl⟩
    · rename_i hlong
      rw [if_neg hlong]
      simp only at h ⊢
      split at h
      · cases h
      split at h
      · cases h
      split at h
      · cases h
      · rename_i h0 h4 hlen
        cases h
        rw [if_neg h0, if_neg h4, if_neg hlen]
        exact ⟨_, rfl⟩

theorem nextInner_placeless {c c' d : Cursor} {t : Tlv} (h : c.nextInner = .ok (t, c'))
    (hd : d.rest = c.rest) :
    ∃ u d', d.nextInner = .ok (u, d') ∧ u.tag = t.tag ∧ u.value = t.value ∧ d'.rest = c'.rest := by
  obtain ⟨⟨tag, pos, rest⟩, htag, hrest⟩ := bind_ok h
  dsimp only at hrest
  obtain ⟨⟨len, pos', rest'⟩, hlen, hrest⟩ := bind_ok hrest
  dsimp only at hrest
  obtain ⟨next, htag'⟩ := readTag_placeless htag d.offset
  obtain ⟨next', hlen'⟩ := readLength_placeless hlen next
  rw [Cursor.nextInner, hd, htag']
  simp only [bind, Except.bind, hlen']
  split at hrest
  · cases hrest
  · rename_i hfits
    cases hrest
    rw [if_neg hfits]
    exact ⟨_, _, rfl, rfl, rfl, rfl⟩

/-- A loop that looks at tags and contents only ends in the same state at another place. -/
theorem forItems_placeless {σ : Type} {f : σ → Tlv → Except Error σ}
    (hf : ∀ s t u s', u.tag = t.tag → u.value = t.value → f s t = .ok s' → f s u = .ok s')
    {c d : Cursor} {s s' : σ} (h : forItems c s f = .ok s') (hd : d.rest = c.rest) :
    forItems d s f = .ok s' := by
  unfold forItems Cursor.items at h ⊢
  rw [hd]
  generalize c.rest.length = fuel at h ⊢
  induction fuel generalizing c d s with
  | zero => exact h
  | succ fuel ih =>
    rw [Cursor.itemsFuel, Cursor.next] at h ⊢
    have hempty : d.isEmpty = c.isEmpty := by rw [Cursor.isEmpty, Cursor.isEmpty, hd]
    rw [hempty]
    by_cases hc : c.isEmpty = true
    · rw [if_pos hc] at h ⊢
      exact h
    rw [if_neg hc] at h ⊢
    cases hinner : c.nextInner with
    | error e =>
      rw [hinner] at h
      cases h
    | ok read =>
      obtain ⟨t, c'⟩ := read
      obtain ⟨u, d', hread, htag, hvalue, hd'⟩ := nextInner_placeless hinner hd
      rw [hinner] at h
      rw [hread]
      simp only [List.foldlM_cons] at h ⊢
      obtain ⟨s₁, hstep, hrest⟩ := bind_ok h
      have hstep' : f s u = .ok s₁ := hf s t u s₁ htag hvalue hstep
      exact gets_eq_iff.mp (gets_bind (P := (· = s₁)) ⟨s₁, hstep', rfl⟩ (by
        rintro _ rfl
        exact gets_eq_iff.mpr (ih hd' hrest)))

end Iec61850.Ber
