import Iec61850.Server.Ied
import Mathlib.Logic.Function.Basic

/-!
# The values a served IED keeps

`server/ied.rs` as the controls and the setting groups work with it: the nodes of the tree by their
references, the values of the leaves, and the two ways a value is written.
-/

namespace Iec61850

open Theory

/-! ### Equality of values -/

/-- `==` of floating-point numbers on their bits: not-a-number equals nothing, and the two zeros equal
each other. -/
def floatEq (exponent fraction : Nat) (a b : Nat) : Bool :=
  let magnitude (x : Nat) := x % 2 ^ (exponent + fraction)
  let infinity := (2 ^ exponent - 1) * 2 ^ fraction
  decide (magnitude a ≤ infinity) && decide (magnitude b ≤ infinity) &&
    (decide (a = b) || decide (magnitude a = 0) && decide (magnitude b = 0))

mutual

/-- `==` of values: as the numbers they are, for floating-point ones. -/
def Value.equals : Value → Value → Bool
  | .array m, .array m' => Value.equalsAll m m'
  | .structure m, .structure m' => Value.equalsAll m m'
  | .boolean b, .boolean b' => decide (b = b')
  | .bitString u bs, .bitString u' bs' => decide (u = u') && decide (bs = bs')
  | .integer i, .integer i' => decide (i = i')
  | .unsigned n, .unsigned n' => decide (n = n')
  | .float32 a, .float32 b => floatEq 8 23 a b
  | .float64 a, .float64 b => floatEq 11 52 a b
  | .octetString bs, .octetString bs' => decide (bs = bs')
  | .visibleString s, .visibleString s' => decide (s = s')
  | .mmsString s, .mmsString s' => decide (s = s')
  | .utcTime t, .utcTime t' => decide (t = t')
  | .binaryTime bs, .binaryTime bs' => decide (bs = bs')
  | .other t c bs, .other t' c' bs' => decide (t = t') && decide (c = c') && decide (bs = bs')
  | _, _ => false

def Value.equalsAll : List Value → List Value → Bool
  | [], [] => true
  | v :: vs, w :: ws => v.equals w && Value.equalsAll vs ws
  | _, _ => false

end

namespace Server

open Mms

/-! ### The store -/

/-- A full MMS reference: the domain before the `/`, and the names between the `$` of the item. -/
structure Reference where
  domain : Bytes
  item : List Bytes
  deriving DecidableEq, Repr

/-- What the tree has at a reference: a leaf, or a node with nodes below it. -/
inductive Node where
  | leaf (btype : BType)
  | composite
  deriving DecidableEq, Repr

/-- `Ied`: `node_at`, the values, and what has been written since the last commit, over the
references of the part of the tree at hand. -/
structure LeafStore (ρ : Type) where
  node : ρ → Option Node
  values : ρ → Option Value
  dirty : ρ → Option TrgOps

/-- The leaves of a whole IED. -/
abbrev Store := LeafStore Reference

/-- `or_bits`, read back. -/
def orBits (x y : TrgOps) : TrgOps :=
  fromBitString 6 (orInto (toBitString x).2 (toBitString y).2)

namespace LeafStore

variable {ρ : Type} [DecidableEq ρ] (s : LeafStore ρ) (r : ρ) (v : Value)

/-- The triggers a write of the value raises: a change of its quality or of its data, or an update
when it is what is there already. -/
def triggers (btype : BType) : TrgOps :=
  if (s.values r).any (·.equals v) then withBit 0 bitDataUpdate true
  else if btype = .quality then withBit 0 bitQualityChange true
  else withBit 0 bitDataChange true

/-- `Ied::write_leaf`. -/
def writeLeaf : LeafStore ρ × Except Int Unit :=
  match s.node r with
  | none => (s, .error dataAccessNonExistent)
  | some .composite => (s, .error dataAccessTypeInconsistent)
  | some (.leaf btype) =>
    if accepts btype v then
      let entry := orBits ((s.dirty r).getD 0) (s.triggers r v btype)
      ({ s with
        values := Function.update s.values r (some v)
        dirty := Function.update s.dirty r (some entry) }, .ok ())
    else (s, .error dataAccessTypeInconsistent)

/-- `Ied::set_internal`: a write of the server's own, which marks nothing. -/
def setInternal : LeafStore ρ × Except Int Unit :=
  match s.node r with
  | none => (s, .error dataAccessNonExistent)
  | some .composite => (s, .error dataAccessTypeInconsistent)
  | some (.leaf btype) =>
    if accepts btype v then ({ s with values := Function.update s.values r (some v) }, .ok ())
    else (s, .error dataAccessTypeInconsistent)

/-- The reference is of a leaf whose type accepts the value. -/
def takes : Bool :=
  match s.node r with
  | some (.leaf btype) => accepts btype v
  | _ => false

@[simp] theorem writeLeaf_node : (s.writeLeaf r v).1.node = s.node := by
  unfold writeLeaf
  split
  · rfl
  · rfl
  · split <;> rfl

@[simp] theorem setInternal_node : (s.setInternal r v).1.node = s.node := by
  unfold setInternal
  split
  · rfl
  · rfl
  · split <;> rfl

@[simp] theorem setInternal_dirty : (s.setInternal r v).1.dirty = s.dirty := by
  unfold setInternal
  split
  · rfl
  · rfl
  · split <;> rfl

theorem writeLeaf_values : (s.writeLeaf r v).1.values =
    if s.takes r v then Function.update s.values r (some v) else s.values := by
  unfold writeLeaf takes
  split
  · rename_i hnode
    simp [hnode]
  · rename_i hnode
    simp [hnode]
  · rename_i btype hnode
    rw [hnode]
    by_cases haccepts : accepts btype v = true
    · rw [if_pos haccepts, if_pos haccepts]
    · rw [if_neg haccepts, if_neg haccepts]

theorem setInternal_values : (s.setInternal r v).1.values =
    if s.takes r v then Function.update s.values r (some v) else s.values := by
  unfold setInternal takes
  split
  · rename_i hnode
    simp [hnode]
  · rename_i hnode
    simp [hnode]
  · rename_i btype hnode
    rw [hnode]
    by_cases haccepts : accepts btype v = true
    · rw [if_pos haccepts, if_pos haccepts]
    · rw [if_neg haccepts, if_neg haccepts]

theorem writeLeaf_ok : (s.writeLeaf r v).2 = .ok () ↔ s.takes r v = true := by
  unfold writeLeaf takes
  split
  · rename_i hnode
    simp [hnode]
  · rename_i hnode
    simp [hnode]
  · rename_i btype hnode
    rw [hnode]
    by_cases haccepts : accepts btype v = true
    · simp [haccepts]
    · simp [haccepts]

theorem writeLeaf_refused (h : ¬ s.takes r v = true) : ∃ e, s.writeLeaf r v = (s, .error e) := by
  unfold takes at h
  unfold writeLeaf
  split
  · exact ⟨_, rfl⟩
  · exact ⟨_, rfl⟩
  · rename_i btype hnode
    rw [hnode] at h
    rw [if_neg h]
    exact ⟨_, rfl⟩

theorem writeLeaf_values_ne {r' : ρ} (h : r' ≠ r) :
    (s.writeLeaf r v).1.values r' = s.values r' := by
  rw [writeLeaf_values]
  split
  · rw [Function.update_of_ne h]
  · rfl

theorem setInternal_values_ne {r' : ρ} (h : r' ≠ r) :
    (s.setInternal r v).1.values r' = s.values r' := by
  rw [setInternal_values]
  split
  · rw [Function.update_of_ne h]
  · rfl

theorem writeLeaf_values_self : (s.writeLeaf r v).1.values r =
    if s.takes r v then some v else s.values r := by
  rw [writeLeaf_values]
  split
  · rw [Function.update_self]
  · rfl

theorem setInternal_values_self : (s.setInternal r v).1.values r =
    if s.takes r v then some v else s.values r := by
  rw [setInternal_values]
  split
  · rw [Function.update_self]
  · rfl

@[simp] theorem writeLeaf_takes (r' : ρ) (v' : Value) :
    (s.writeLeaf r v).1.takes r' v' = s.takes r' v' := by
  rw [takes, takes, writeLeaf_node]

@[simp] theorem setInternal_takes (r' : ρ) (v' : Value) :
    (s.setInternal r v).1.takes r' v' = s.takes r' v' := by
  rw [takes, takes, setInternal_node]

/-- Every leaf has a value of its type. -/
def Typed (s : LeafStore ρ) : Prop :=
  ∀ k btype, s.node k = some (.leaf btype) → ∃ w, s.values k = some w ∧ accepts btype w = true

variable {s}

/-- A value put where it is taken is of the type of its leaf. -/
theorem Typed.update (h : s.Typed) {s' : LeafStore ρ} (hnode : s'.node = s.node)
    (hvalues : s'.values =
      if s.takes r v then Function.update s.values r (some v) else s.values) : s'.Typed := by
  intro k btype hk
  rw [hnode] at hk
  rw [hvalues]
  split
  · rename_i htakes
    by_cases hkr : k = r
    · subst hkr
      rw [takes, hk] at htakes
      exact ⟨v, Function.update_self .., htakes⟩
    · rw [Function.update_of_ne hkr]
      exact h k btype hk
  · exact h k btype hk

theorem Typed.writeLeaf (h : s.Typed) : (s.writeLeaf r v).1.Typed :=
  h.update r v (s.writeLeaf_node r v) (s.writeLeaf_values r v)

theorem Typed.setInternal (h : s.Typed) : (s.setInternal r v).1.Typed :=
  h.update r v (s.setInternal_node r v) (s.setInternal_values r v)

end LeafStore

end Server

end Iec61850
