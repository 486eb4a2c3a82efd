import Mathlib.Data.List.Chain
import Mathlib.Data.List.Induction

/-!
# Histories whose entries are justified by what came before

`Justified P h` says that every entry of a history meets `P` at the moment it was made, that
is, together with the entries before it. Temporal properties of a log (something happens only
after, never after, at most once) are instances, and a log that grows at its end keeps them
when the new entry is justified (`justified_concat`). `Since P Q h` says that an entry of the
history meets `P`, and that every entry after it meets `Q`.
-/

namespace Theory

variable {α : Type*}

/-- Entries that are selected only where the earlier ones are make up a first part of the
history. -/
theorem filter_prefix {p : α → Bool} {h : List α}
    (hp : h.Pairwise fun a b => p b = true → p a = true) : h.filter p <+: h := by
  induction h with
  | nil => exact List.prefix_refl _
  | cons a h ih =>
    rw [List.pairwise_cons] at hp
    by_cases ha : p a = true
    · rw [List.filter_cons_of_pos ha, List.prefix_cons_inj]
      exact ih hp.2
    · have hnone : (a :: h).filter p = [] := by
        rw [List.filter_eq_nil_iff]
        intro b hb
        rcases List.mem_cons.mp hb with rfl | hb
        · exact ha
        · exact fun hpb => ha (hp.1 b hb hpb)
      rw [hnone]
      exact List.nil_prefix

/-- Every entry meets `P` together with the entries before it. -/
def Justified (P : List α → α → Prop) (h : List α) : Prop :=
  ∀ pre e, pre ++ [e] <+: h → P pre e

theorem justified_nil (P : List α → α → Prop) : Justified P [] := by
  intro pre e h
  simp at h

theorem justified_concat {P : List α → α → Prop} {h : List α} {e : α} :
    Justified P (h ++ [e]) ↔ Justified P h ∧ P h e := by
  constructor
  · intro hj
    exact ⟨fun pre x hpre => hj pre x (hpre.trans (List.prefix_append h [e])),
      hj h e (List.prefix_refl _)⟩
  · rintro ⟨hj, he⟩ pre x hpre
    rw [List.prefix_concat_iff] at hpre
    rcases hpre with heq | hpre
    · obtain ⟨rfl, hx⟩ := List.append_inj' heq rfl
      cases hx
      exact he
    · exact hj pre x hpre

/-- A history that grows by several entries keeps a property of its entries when each of them is
justified by what was there and by those before it. -/
theorem justified_append {P : List α → α → Prop} {h es : List α} (hj : Justified P h)
    (hes : ∀ pre e, pre ++ [e] <+: es → P (h ++ pre) e) : Justified P (h ++ es) := by
  induction es using List.reverseRecOn with
  | nil =>
    rw [List.append_nil]
    exact hj
  | append_singleton es e ih =>
    rw [← List.append_assoc, justified_concat]
    refine ⟨ih ?_, hes es e (List.prefix_refl _)⟩
    intro pre x hpre
    exact hes pre x (hpre.trans (List.prefix_append es [e]))

/-- Some entry meets `P` together with the entries before it, and those after it all meet `Q`. -/
def Since (P : List α → α → Prop) (Q : α → Prop) (h : List α) : Prop :=
  ∃ pre e post, h = pre ++ e :: post ∧ P pre e ∧ ∀ x ∈ post, Q x

theorem not_since_nil (P : List α → α → Prop) (Q : α → Prop) : ¬ Since P Q [] := by
  rintro ⟨pre, e, post, h, -⟩
  simp at h

theorem since_concat {P : List α → α → Prop} {Q : α → Prop} {h : List α} {e : α} :
    Since P Q (h ++ [e]) ↔ P h e ∨ Since P Q h ∧ Q e := by
  constructor
  · rintro ⟨pre, x, post, heq, hx, hpost⟩
    rcases List.eq_nil_or_concat post with rfl | ⟨post, y, rfl⟩
    · obtain ⟨rfl, hxe⟩ := List.append_inj' heq rfl
      cases hxe
      exact Or.inl hx
    · rw [List.concat_eq_append] at heq hpost
      rw [← List.cons_append, ← List.append_assoc] at heq
      obtain ⟨rfl, hye⟩ := List.append_inj' heq rfl
      cases hye
      refine Or.inr ⟨⟨pre, x, post, rfl, hx, fun z hz => hpost z ?_⟩, hpost e ?_⟩
      · exact List.mem_append_left _ hz
      · exact List.mem_append_right _ List.mem_cons_self
  · rintro (he | ⟨⟨pre, x, post, rfl, hx, hpost⟩, he⟩)
    · exact ⟨h, e, [], rfl, he, fun x hx => absurd hx List.not_mem_nil⟩
    · refine ⟨pre, x, post ++ [e], by simp, hx, ?_⟩
      intro z hz
      rw [List.mem_append, List.mem_singleton] at hz
      rcases hz with hz | rfl
      · exact hpost z hz
      · exact he

theorem since_append {P : List α → α → Prop} {Q : α → Prop} {h es : List α}
    (hP : ∀ e ∈ es, ∀ pre, ¬ P pre e) (hQ : ∀ e ∈ es, Q e) : Since P Q (h ++ es) ↔ Since P Q h := by
  induction es generalizing h with
  | nil => rw [List.append_nil]
  | cons e es ih =>
    rw [List.append_cons, ih (fun x hx => hP x (List.mem_cons_of_mem e hx))
      (fun x hx => hQ x (List.mem_cons_of_mem e hx)), since_concat]
    constructor
    · rintro (he | ⟨hsince, -⟩)
      · exact absurd he (hP e List.mem_cons_self h)
      · exact hsince
    · intro hsince
      exact Or.inr ⟨hsince, hQ e List.mem_cons_self⟩

/-! ### Repetition -/

/-- Where each step either ascends in a strict order or is of another kind, an element occurs twice
only with a step of the other kind in between. -/
theorem repetition_steps {R W : α → α → Prop} [Trans R R R] (hirrefl : ∀ a, ¬ R a a) {l : List α}
    (hchain : l.IsChain fun a b => R a b ∨ W a b) {pre mid post : List α} {x : α}
    (hl : l = pre ++ x :: mid ++ x :: post) :
    ∃ a b front back, x :: mid ++ [x] = front ++ a :: b :: back ∧ W a b := by
  by_contra hnone
  have hpart : (x :: mid ++ [x]).IsChain fun a b => R a b ∨ W a b :=
    hchain.infix ⟨pre, post, by simp [hl]⟩
  have hascends : (x :: mid ++ [x]).IsChain R := by
    rw [List.isChain_iff_forall_rel_of_append_cons_cons] at hpart ⊢
    intro a b front back hsplit
    rcases hpart hsplit with hR | hW
    · exact hR
    · exact absurd ⟨a, b, front, back, hsplit, hW⟩ hnone
  exact hirrefl x (hascends.rel_cons (by simp))

end Theory
