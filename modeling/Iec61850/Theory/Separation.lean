import Mathlib.Data.List.Basic

/-!
# Events that are kept apart

In a history that grows at its end, any two events of one kind (`P`) have an event of another
kind (`Q`) between them. The histories to which a further `P` may be added are the settled
ones, in which a `Q` follows every `P`.
-/

namespace Theory

variable {α : Type*} {P Q : α → Prop} {h : List α} {e : α}

/-- Between any two `P` there is a `Q`. -/
def Separated (P Q : α → Prop) (h : List α) : Prop :=
  ∀ pre x mid y post, h = pre ++ x :: mid ++ y :: post → P x → P y → ∃ z ∈ mid, Q z

/-- After every `P` there is a `Q`. -/
def Settled (P Q : α → Prop) (h : List α) : Prop :=
  ∀ pre x post, h = pre ++ x :: post → P x → ∃ z ∈ post, Q z

theorem separated_nil : Separated P Q [] := by
  intro pre x mid y post hnil
  simp at hnil

theorem settled_nil : Settled P Q [] := by
  intro pre x post hnil
  simp at hnil

theorem concat_split {pre post : List α} {x : α} (hsplit : h ++ [e] = pre ++ x :: post) :
    (post = [] ∧ x = e ∧ h = pre) ∨ ∃ post', post = post' ++ [e] ∧ h = pre ++ x :: post' := by
  rcases List.eq_nil_or_concat post with rfl | ⟨post', last, rfl⟩
  · obtain ⟨hpre, hx⟩ := List.append_inj' hsplit rfl
    exact Or.inl ⟨rfl, (List.cons.inj hx).1.symm, hpre⟩
  · rw [List.concat_eq_append] at hsplit ⊢
    rw [← List.cons_append, ← List.append_assoc] at hsplit
    obtain ⟨hpre, hlast⟩ := List.append_inj' hsplit rfl
    obtain rfl := (List.cons.inj hlast).1
    exact Or.inr ⟨post', rfl, hpre⟩

theorem Settled.concat (hs : Settled P Q h) (he : ¬ P e) : Settled P Q (h ++ [e]) := by
  intro pre x post hsplit hx
  rcases concat_split hsplit with ⟨-, rfl, -⟩ | ⟨post', rfl, hold⟩
  · exact absurd hx he
  · obtain ⟨z, hz, hQ⟩ := hs pre x post' hold hx
    exact ⟨z, List.mem_append_left _ hz, hQ⟩

theorem settled_concat (hQ : Q e) (he : ¬ P e) : Settled P Q (h ++ [e]) := by
  intro pre x post hsplit hx
  rcases concat_split hsplit with ⟨-, rfl, -⟩ | ⟨post', rfl, -⟩
  · exact absurd hx he
  · exact ⟨e, by simp, hQ⟩

theorem Separated.concat (hs : Separated P Q h) (he : ¬ P e) : Separated P Q (h ++ [e]) := by
  intro pre x mid y post hsplit hx hy
  rcases concat_split hsplit with ⟨-, rfl, -⟩ | ⟨post', -, hold⟩
  · exact absurd hy he
  · exact hs pre x mid y post' hold hx hy

theorem Separated.concat_settled (hs : Separated P Q h) (hsettled : Settled P Q h) :
    Separated P Q (h ++ [e]) := by
  intro pre x mid y post hsplit hx hy
  rcases concat_split hsplit with ⟨-, -, hold⟩ | ⟨post', -, hold⟩
  · exact hsettled pre x mid hold hx
  · exact hs pre x mid y post' hold hx hy

end Theory
