import Iec61850.Ber.Fields
import Iec61850.Theory.Results

/-!
# Loops that collect elements

The source reads lists of members, of items and of `Data` with a loop that checks a limit and
reads one element after the other. What such a loop returns was read element by element
(`collectItems_ok`), and over written elements it returns what each of them is read as
(`collectItems_elements`).
-/

namespace Iec61850.Ber

open Theory

/-! ### What a cursor yields -/

theorem highTag_le {start : Nat} {left : Nat} {isFirst : Bool} {number pos : Nat} {rest : Bytes}
    {n next : Nat} {rest' : Bytes}
    (h : Cursor.highTag start left isFirst number pos rest = .ok (n, next, rest')) : n ≤ u32Max := by
  fun_induction Cursor.highTag start left isFirst number pos rest with
  | case5 =>
    rename_i number _ b _ _ h2 _ _
    simp only [Except.ok.injEq, Prod.mk.injEq] at h
    rw [← h.1]
    change number * 128 + b.toNat % 128 ≤ u32Max
    simp only [u32Max] at h2 ⊢
    omega
  | case6 _ _ _ _ _ _ _ _ _ _ ih => exact ih h
  | _ => cases h

theorem readTag_number_le {pos : Nat} {bs rest : Bytes} {tag : Tag} {next : Nat}
    (h : Cursor.readTag pos bs = .ok (tag, next, rest)) : tag.number ≤ u32Max := by
  cases bs with
  | nil => cases h
  | cons first bs =>
    rw [Cursor.readTag] at h
    simp only at h
    split at h
    · rename_i hhigh
      cases htag : Cursor.highTag pos 5 true 0 (pos + 1) bs with
      | error e =>
        rw [htag] at h
        cases h
      | ok read =>
        obtain ⟨number, next', rest'⟩ := read
        have hle := highTag_le htag
        rw [htag] at h
        simp only [bind, Except.bind] at h
        split at h
        · cases h
        · cases h
          exact hle
    · cases h
      simp only [u32Max]
      omega

theorem nextInner_number_le {c c' : Cursor} {t : Tlv} (h : c.nextInner = .ok (t, c')) :
    t.tag.number ≤ u32Max := by
  rw [Cursor.nextInner] at h
  cases htag : Cursor.readTag c.offset c.rest with
  | error e =>
    rw [htag] at h
    cases h
  | ok read =>
    obtain ⟨tag, pos, rest⟩ := read
    have hle := readTag_number_le htag
    rw [htag] at h
    simp only [bind, Except.bind] at h
    cases hlength : Cursor.readLength pos rest with
    | error e =>
      rw [hlength] at h
      cases h
    | ok read =>
      rw [hlength] at h
      simp only at h
      split at h
      · cases h
      · cases h
        exact hle

theorem items_number_le {c : Cursor} {t : Tlv} (h : .ok t ∈ c.items) : t.tag.number ≤ u32Max := by
  rw [Cursor.items] at h
  generalize c.rest.length = fuel at h
  induction fuel generalizing c with
  | zero => simp [Cursor.itemsFuel] at h
  | succ fuel ih =>
    rw [Cursor.itemsFuel, Cursor.next] at h
    cases hinner : c.nextInner with
    | error e =>
      rw [hinner] at h
      split at h
      · simp at h
      · simp at h
      · rename_i hnext
        split at hnext
        · cases hnext
        · cases hnext
    | ok read =>
      obtain ⟨t', c'⟩ := read
      rw [hinner] at h
      split at h
      · simp at h
      · rename_i hnext
        split at hnext <;> cases hnext
      · rename_i t'' c'' hnext
        split at hnext
        · cases hnext
        · cases hnext
          rw [List.mem_cons] at h
          rcases h with h | h
          · cases h
            exact nextInner_number_le hinner
          · exact ih h

/-! ### The loop -/

section Collect

variable {α : Type} {limit : String} {max : Nat} {f : Tlv → Except Error α}

theorem collect_tlvs {es : List (Tag × Bytes)} {as : List α} (offset : Nat) (out : List α)
    (hread : List.Forall₂ (fun t a => f t = .ok a) (tlvsAt offset es) as)
    (hmax : out.length + as.length ≤ max) :
    ((tlvsAt offset es).map Except.ok).foldlM (fun out item =>
      if out.length ≥ max then Except.error (Error.limitExceeded limit (out.length + 1))
      else do
        let t ← item
        let a ← f t
        .ok (out ++ [a])) out = .ok (out ++ as) := by
  generalize tlvsAt offset es = ts at hread
  induction hread generalizing out with
  | nil => simp [pure, Except.pure]
  | cons hhead htail ih =>
    rename_i t a ts as
    rw [List.length_cons] at hmax
    rw [List.map_cons, List.foldlM_cons, if_neg (by omega)]
    simp only [bind, Except.bind, hhead]
    have hrest := ih (out ++ [a]) (by
      rw [List.length_append, List.length_singleton]
      omega)
    rwa [List.append_assoc] at hrest

/-- A loop over written elements collects what each of them is read as. -/
theorem collectItems_elements {es : List (Tag × Bytes)} {as : List α} (hfit : ∀ e ∈ es, Fitting e)
    (offset : Nat) (hread : List.Forall₂ (fun t a => f t = .ok a) (tlvsAt offset es) as)
    (hmax : as.length ≤ max) : collectItems limit max ⟨elements es, offset⟩ f = .ok as := by
  rw [collectItems, items_elements hfit]
  exact collect_tlvs offset [] hread (by simpa using hmax)

theorem collect_fold {items : List (Except Error Tlv)} {out as : List α}
    (h : items.foldlM (fun out item =>
      if out.length ≥ max then Except.error (Error.limitExceeded limit (out.length + 1))
      else do
        let t ← item
        let a ← f t
        .ok (out ++ [a])) out = .ok as) (hmax : out.length ≤ max) :
    as.length ≤ max ∧ ∃ more, as = out ++ more ∧
      List.Forall₂ (fun item a => ∃ t, item = .ok t ∧ f t = .ok a) items more := by
  induction items generalizing out with
  | nil =>
    simp only [List.foldlM_nil, pure, Except.pure, Except.ok.injEq] at h
    subst h
    exact ⟨hmax, [], by simp, .nil⟩
  | cons item items ih =>
    rw [List.foldlM_cons] at h
    by_cases hfull : out.length ≥ max
    · rw [if_pos hfull] at h
      cases h
    rw [if_neg hfull] at h
    cases item with
    | error e => cases h
    | ok t =>
      cases ha : f t with
      | error e =>
        simp only [bind, Except.bind, ha] at h
        cases h
      | ok a =>
        simp only [bind, Except.bind, ha] at h
        obtain ⟨hlen, more, hmore, hall⟩ := ih h (by
          rw [List.length_append, List.length_singleton]
          omega)
        refine ⟨hlen, a :: more, by rw [hmore, List.append_assoc]; rfl, ?_⟩
        exact .cons ⟨t, rfl, ha⟩ hall

theorem collectItems_ok {c : Cursor} {as : List α} (h : collectItems limit max c f = .ok as) :
    as.length ≤ max ∧ List.Forall₂ (fun item a => ∃ t, item = .ok t ∧ f t = .ok a) c.items as := by
  obtain ⟨hlen, more, hmore, hall⟩ := collect_fold h (Nat.zero_le _)
  rw [hmore]
  exact ⟨by rwa [← hmore], hall⟩

end Collect

/-! ### Writes that are collected again -/

/-- The one failure of a write that refuses nothing. -/
def lengthExceeded : Error := .encode "length exceeds u32"

theorem encodeLength_error {len : Nat} {e : Error} (h : encodeLength len = .error e) :
    e = lengthExceeded := by
  unfold encodeLength at h
  split at h
  · cases h
  · split at h
    · cases h
      rfl
    · cases h

theorem primitive_error {tag : Tag} {contents : Bytes} {e : Error}
    (h : primitive tag contents = .error e) : e = lengthExceeded := by
  unfold primitive at h
  cases hlen : encodeLength contents.length with
  | error e' =>
    rw [hlen] at h
    cases h
    exact encodeLength_error hlen
  | ok len =>
    rw [hlen] at h
    cases h

/-- What is written is read back element by element, unless it outgrows a length field. -/
def Renders {α : Type} (f : Tlv → Except Error α) (w : Except Error Bytes) (as : List α) : Prop :=
  match w with
  | .ok bs => ∃ es, Spells bs es ∧
      ∀ offset, List.Forall₂ (fun t a => f t = .ok a) (tlvsAt offset es) as
  | .error e => e = lengthExceeded

section Renders

variable {α : Type} {f : Tlv → Except Error α} {w : Except Error Bytes} {as : List α} {tag : Tag}

theorem renders_nothing : Renders f (.ok []) [] := ⟨[], spells_nil, fun _ => .nil⟩

theorem renders_primitive {value : Bytes} {a : α} (htag : tag.number ≤ u32Max)
    (h : ∀ offset, f (tlvAt offset tag value) = .ok a) : Renders f (primitive tag value) [a] := by
  unfold Renders
  cases hw : primitive tag value with
  | error e => exact primitive_error hw
  | ok bs =>
    obtain ⟨hlen, rfl⟩ := primitive_ok hw
    exact ⟨[(tag, value)], spells_element htag hlen, fun offset => .cons (h offset) .nil⟩

theorem renders_constructed {children : Except Error Bytes} {a : α} (htag : tag.number ≤ u32Max)
    (herror : ∀ e, children = .error e → e = lengthExceeded)
    (h : ∀ contents offset, children = .ok contents → f (tlvAt offset tag contents) = .ok a) :
    Renders f (constructed tag children) [a] := by
  cases hchildren : children with
  | error e => exact herror e hchildren
  | ok contents => exact renders_primitive htag fun offset => h contents offset hchildren

theorem Renders.append {w' : Except Error Bytes} {as' : List α} (h : Renders f w as)
    (h' : Renders f w' as') :
    Renders f (do let here ← w; let rest ← w'; .ok (here ++ rest)) (as ++ as') := by
  cases w with
  | error e => exact h
  | ok bs =>
    cases w' with
    | error e => exact h'
    | ok bs' =>
      obtain ⟨es, hspells, hread⟩ := h
      obtain ⟨es', hspells', hread'⟩ := h'
      refine ⟨es ++ es', hspells.append hspells', fun offset => ?_⟩
      rw [tlvsAt_append]
      exact List.rel_append (hread offset) (hread' _)

theorem Renders.error (h : Renders f w as) {e : Error} (hw : w = .error e) :
    e = lengthExceeded := by
  rw [hw] at h
  exact h

/-- A loop over what was written collects it. -/
theorem Renders.collects (h : Renders f w as) {bs : Bytes} (hw : w = .ok bs) (offset : Nat)
    (limit : String) {max : Nat} (hmax : as.length ≤ max) :
    collectItems limit max ⟨bs, offset⟩ f = .ok as := by
  rw [hw] at h
  obtain ⟨es, ⟨rfl, hfit⟩, hread⟩ := h
  exact collectItems_elements hfit offset (hread offset) hmax

end Renders

end Iec61850.Ber
