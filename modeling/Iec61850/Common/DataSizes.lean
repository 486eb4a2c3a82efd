import Iec61850.Ber.Consumed
import Iec61850.Common.DataRoundTrip
import Mathlib.Algebra.Order.BigOperators.Group.List

/-!
# How long an encoding gets

A value that was read is encoded in a constant factor of the octets it was read from
(`room_le_of_read`), and what is within some limits is within wider ones.
-/

namespace Iec61850

open Theory Ber

/-! ### Room for an encoding -/

mutual

/-- Octets that hold the encoding of a value. -/
def Value.room : Value → Nat
  | .array m => Value.roomAll m + 11
  | .structure m => Value.roomAll m + 11
  | .boolean _ => 12
  | .bitString _ bytes => bytes.length + 12
  | .integer _ => 19
  | .unsigned _ => 20
  | .float32 _ => 16
  | .float64 _ => 20
  | .octetString b => b.length + 11
  | .visibleString s => s.length + 11
  | .mmsString s => s.length + 11
  | .utcTime _ => 19
  | .binaryTime b => b.length + 11
  | .other _ _ bytes => bytes.length + 11

/-- Octets that hold the encodings of the values. -/
def Value.roomAll : List Value → Nat
  | [] => 0
  | v :: vs => v.room + Value.roomAll vs

end

theorem Value.roomAll_eq (vs : List Value) : Value.roomAll vs = (vs.map Value.room).sum := by
  induction vs with
  | nil => rfl
  | cons v vs ih => rw [Value.roomAll, ih, List.map_cons, List.sum_cons]

theorem Value.AllWithin.mem {limits : Limits} {left : Nat} {values : List Value}
    (h : Value.AllWithin limits left values) {v : Value} (hv : v ∈ values) :
    v.Within limits (left - 1) := by
  induction values with
  | nil => cases hv
  | cons w values ih =>
    rw [Value.AllWithin] at h
    rcases List.mem_cons.mp hv with rfl | hv
    · exact h.2.1
    · exact ih h.2.2 hv

theorem Value.room_le_of_mem {values : List Value} {v : Value} (hv : v ∈ values) :
    v.room ≤ Value.roomAll values := by
  rw [Value.roomAll_eq]
  exact List.le_sum_of_mem (List.mem_map_of_mem hv)

section Fits

variable {limits : Limits}

mutual

theorem Value.fits_encode : ∀ (v : Value) (left : Nat), v.Within limits left → v.room ≤ u32Max →
    Fits v.encode v.room
  | .array m, left, h, hroom => by
      rw [Value.Within] at h
      rw [Value.room] at hroom ⊢
      rw [Value.encode]
      exact fits_constructed (Value.fits_encodeAll m left h.2 (by omega)) (by omega)
  | .structure m, left, h, hroom => by
      rw [Value.Within] at h
      rw [Value.room] at hroom ⊢
      rw [Value.encode]
      exact fits_constructed (Value.fits_encodeAll m left h.2 (by omega)) (by omega)
  | .boolean b, _, _, _ => by
      rw [Value.encode, Value.room]
      exact fits_boolean _ b
  | .bitString unused bytes, _, h, hroom => by
      rw [Value.Within] at h
      rw [Value.room] at hroom ⊢
      rw [Value.encode]
      exact fits_bitString h.1.1 h.1.2 (by omega)
  | .integer i, _, _, _ => by
      rw [Value.encode, Value.room]
      exact fits_integer _ i
  | .unsigned u, _, _, _ => by
      rw [Value.encode, Value.room]
      exact fits_unsigned _ u
  | .float32 bits, _, _, _ => by
      rw [Value.encode, Value.room]
      exact fits_primitive (n := 5) (by rw [List.length_cons, beBytes_length]) (by decide)
  | .float64 bits, _, _, _ => by
      rw [Value.encode, Value.room]
      exact fits_primitive (n := 9) (by rw [List.length_cons, beBytes_length]) (by decide)
  | .octetString b, _, _, hroom => by
      rw [Value.room] at hroom ⊢
      rw [Value.encode]
      exact fits_primitive (Nat.le_refl _) (by omega)
  | .visibleString s, _, h, hroom => by
      rw [Value.Within] at h
      rw [Value.room] at hroom ⊢
      rw [Value.encode]
      exact fits_visibleString h.1 (Nat.le_refl _) (by omega)
  | .mmsString s, _, _, hroom => by
      rw [Value.room] at hroom ⊢
      rw [Value.encode]
      exact fits_primitive (Nat.le_refl _) (by omega)
  | .utcTime t, _, _, _ => by
      rw [Value.encode, Value.room]
      exact fits_primitive (n := 8) (by simp [UtcTime.toOctets, beBytes_length]) (by decide)
  | .binaryTime b, _, _, hroom => by
      rw [Value.room] at hroom ⊢
      rw [Value.encode]
      exact fits_primitive (Nat.le_refl _) (by omega)
  | .other n isConstructed bytes, _, _, hroom => by
      rw [Value.room] at hroom ⊢
      rw [Value.encode]
      exact fits_primitive (Nat.le_refl _) (by omega)

theorem Value.fits_encodeAll : ∀ (vs : List Value) (left : Nat), Value.AllWithin limits left vs →
    Value.roomAll vs ≤ u32Max → Fits (Value.encodeAll vs) (Value.roomAll vs)
  | [], _, _, _ => by
      rw [Value.encodeAll, Value.roomAll]
      exact fits_ok (Nat.le_refl 0)
  | v :: vs, left, h, hroom => by
      rw [Value.AllWithin] at h
      rw [Value.roomAll] at hroom ⊢
      obtain ⟨here, hhere, hlen⟩ := Value.fits_encode v (left - 1) h.2.1 (by omega)
      obtain ⟨rest, hrest, hlens⟩ := Value.fits_encodeAll vs left h.2.2 (by omega)
      refine ⟨here ++ rest, by rw [Value.encodeAll, hhere, hrest]; rfl, ?_⟩
      rw [List.length_append]
      omega

end

end Fits

/-! ### Room for what was read -/

section Read

variable {limits : Limits}

variable {t : Tlv} {view : DataView} {v : Value} {members : Cursor}

theorem DataView.room_le_of_leaf (hview : DataView.fromTlv t = .ok view)
    (h : view.leafToOwned limits = .ok v) : v.room ≤ t.value.length + 20 := by
  unfold DataView.fromTlv at hview
  split at hview
  · cases hview
  split at hview
  · cases hview
    cases h
    simp [Value.room, Value.roomAll]
  · cases hview
    cases h
    simp [Value.room, Value.roomAll]
  · obtain ⟨b, -, rfl⟩ := map_ok hview
    cases h
    simp [Value.room]
  · obtain ⟨⟨unused, bytes⟩, hbits, hview⟩ := bind_ok hview
    cases hview
    obtain ⟨-, rfl⟩ := checked_ok h
    rw [Value.room]
    unfold Tlv.bitString at hbits
    split at hbits
    · rename_i hvalue
      split at hbits
      · cases hbits
        rw [hvalue, List.length_cons]
        omega
      · cases hbits
    · cases hbits
  · obtain ⟨i, -, rfl⟩ := map_ok hview
    cases h
    simp [Value.room]
  · obtain ⟨u, -, rfl⟩ := map_ok hview
    cases h
    simp [Value.room]
  · obtain ⟨⟨double, bits⟩, -, hview⟩ := bind_ok hview
    cases hview
    cases double <;> cases h <;> simp [Value.room]
  · cases hview
    obtain ⟨-, rfl⟩ := checked_ok h
    simp [Value.room]
  · obtain ⟨text, htext, rfl⟩ := map_ok hview
    obtain ⟨-, rfl⟩ := checked_ok h
    unfold Tlv.visibleString at htext
    split at htext
    · cases htext
      simp [Value.room]
    · cases htext
  · obtain ⟨text, htext, rfl⟩ := map_ok hview
    obtain ⟨-, rfl⟩ := checked_ok h
    unfold utf8String at htext
    split at htext
    · cases htext
      simp [Value.room]
    · cases htext
  · obtain ⟨time, -, rfl⟩ := map_ok hview
    cases h
    simp [Value.room]
  · cases hview
    obtain ⟨-, rfl⟩ := checked_ok h
    simp [Value.room]
  · cases hview
    obtain ⟨-, rfl⟩ := checked_ok h
    simp [Value.room]

theorem DataView.array_children (h : DataView.fromTlv t = .ok (.array members)) :
    members = t.children := by
  unfold DataView.fromTlv at h
  split at h
  · cases h
  split at h
  case h_1 =>
    cases h
    rfl
  case h_4 =>
    obtain ⟨read, -, h⟩ := bind_ok h
    cases h
  case h_7 =>
    obtain ⟨⟨double, bits⟩, -, h⟩ := bind_ok h
    cases double <;> cases h
  all_goals first | cases h | (obtain ⟨read, -, h⟩ := map_ok h; cases h)

theorem DataView.structure_children (h : DataView.fromTlv t = .ok (.structure members)) :
    members = t.children := by
  unfold DataView.fromTlv at h
  split at h
  · cases h
  split at h
  case h_2 =>
    cases h
    rfl
  case h_4 =>
    obtain ⟨read, -, h⟩ := bind_ok h
    cases h
  case h_7 =>
    obtain ⟨⟨double, bits⟩, -, h⟩ := bind_ok h
    cases double <;> cases h
  all_goals first | cases h | (obtain ⟨read, -, h⟩ := map_ok h; cases h)

/-- A value is encoded in a constant factor of the octets it was read from, when its members are. -/
theorem DataView.room_le_of_owned {left : Nat}
    (hmembers : ∀ (c : Cursor) (vs : List Value), collectDepth limits left c = .ok vs →
      Value.roomAll vs ≤ 10 * c.rest.length) (hview : DataView.fromTlv t = .ok view)
    (h : view.ownedAt limits left = .ok v) : v.room ≤ 10 * (t.value.length + 2) := by
  unfold DataView.ownedAt at h
  split at h
  · obtain ⟨m, hm, rfl⟩ := map_ok h
    have hroom := hmembers _ _ hm
    rw [DataView.array_children hview, Tlv.children] at hroom
    rw [Value.room]
    dsimp only at hroom
    omega
  · obtain ⟨m, hm, rfl⟩ := map_ok h
    have hroom := hmembers _ _ hm
    rw [DataView.structure_children hview, Tlv.children] at hroom
    rw [Value.room]
    dsimp only at hroom
    omega
  · have hroom := DataView.room_le_of_leaf hview h
    omega

theorem roomAll_le_of_collect : ∀ (left : Nat) (c : Cursor) (vs : List Value),
    collectDepth limits left c = .ok vs → Value.roomAll vs ≤ 10 * c.rest.length := by
  intro left
  induction left with
  | zero =>
    intro c vs h
    rw [collectDepth_eq] at h
    obtain ⟨-, hall⟩ := collectItems_ok h
    rw [Value.roomAll_eq]
    refine items_contents (hall.imp ?_)
    rintro item v ⟨t, -, hv⟩
    obtain ⟨view, -, hv⟩ := bind_ok hv
    cases hv
  | succ left ih =>
    intro c vs h
    rw [collectDepth_eq] at h
    obtain ⟨-, hall⟩ := collectItems_ok h
    rw [Value.roomAll_eq]
    refine items_contents (hall.imp ?_)
    rintro item v ⟨t, ht, hv⟩
    obtain ⟨view, hview, hv⟩ := bind_ok hv
    exact ⟨t, ht, DataView.room_le_of_owned ih hview hv⟩

theorem DataView.toOwned_eq (limits : Limits) (view : DataView) :
    view.toOwned limits = view.ownedAt limits limits.maxDepth := by
  cases view <;> rfl

/-- What an element was read as is within the limits, and is encoded in a constant factor of the
octets of the element. -/
theorem DataView.within_of_toOwned (htag : t.tag.number ≤ u32Max)
    (hview : DataView.fromTlv t = .ok view) (h : view.toOwned limits = .ok v) :
    v.Within limits limits.maxDepth ∧ v.room ≤ 10 * (t.value.length + 2) := by
  rw [DataView.toOwned_eq] at h
  refine ⟨?_, DataView.room_le_of_owned (roomAll_le_of_collect limits.maxDepth) hview h⟩
  unfold DataView.ownedAt at h
  split at h
  · obtain ⟨m, hm, rfl⟩ := map_ok h
    rw [Value.Within]
    exact collectDepth_within _ _ _ hm
  · obtain ⟨m, hm, rfl⟩ := map_ok h
    rw [Value.Within]
    exact collectDepth_within _ _ _ hm
  · exact DataView.leafToOwned_within (DataView.fromTlv_inRange hview htag) h _

end Read

/-! ### Wider limits -/

/-- The limits that matter for values are no narrower. -/
structure Limits.Covers (wide narrow : Limits) : Prop where
  maxDepth : narrow.maxDepth ≤ wide.maxDepth
  maxDatasetMembers : narrow.maxDatasetMembers ≤ wide.maxDatasetMembers
  maxPrimitiveLen : narrow.maxPrimitiveLen ≤ wide.maxPrimitiveLen

section Covers

variable {wide narrow : Limits}

mutual

theorem Value.Within.covered (hcovers : wide.Covers narrow) : ∀ (v : Value) (left more : Nat),
    left ≤ more → v.Within narrow left → v.Within wide more
  | .array m, left, more, hmore, h => by
      rw [Value.Within] at h ⊢
      exact ⟨Nat.le_trans h.1 hcovers.maxDatasetMembers,
        Value.AllWithin.covered hcovers m left more hmore h.2⟩
  | .structure m, left, more, hmore, h => by
      rw [Value.Within] at h ⊢
      exact ⟨Nat.le_trans h.1 hcovers.maxDatasetMembers,
        Value.AllWithin.covered hcovers m left more hmore h.2⟩
  | .bitString _ _, _, _, _, h => by
      rw [Value.Within] at h ⊢
      exact ⟨h.1, Nat.le_trans h.2 hcovers.maxPrimitiveLen⟩
  | .octetString _, _, _, _, h => by
      rw [Value.Within] at h ⊢
      exact Nat.le_trans h hcovers.maxPrimitiveLen
  | .visibleString _, _, _, _, h => by
      rw [Value.Within] at h ⊢
      exact ⟨h.1, Nat.le_trans h.2 hcovers.maxPrimitiveLen⟩
  | .mmsString _, _, _, _, h => by
      rw [Value.Within] at h ⊢
      exact ⟨h.1, Nat.le_trans h.2 hcovers.maxPrimitiveLen⟩
  | .binaryTime _, _, _, _, h => by
      rw [Value.Within] at h ⊢
      exact Nat.le_trans h hcovers.maxPrimitiveLen
  | .other _ _ _, _, _, _, h => by
      rw [Value.Within] at h ⊢
      exact ⟨h.1, Nat.le_trans h.2 hcovers.maxPrimitiveLen⟩
  | .boolean _, _, _, _, h | .integer _, _, _, _, h | .unsigned _, _, _, _, h
  | .float32 _, _, _, _, h | .float64 _, _, _, _, h | .utcTime _, _, _, _, h => by
      rw [Value.Within] at h ⊢
      exact h

theorem Value.AllWithin.covered (hcovers : wide.Covers narrow) : ∀ (vs : List Value)
    (left more : Nat), left ≤ more → Value.AllWithin narrow left vs →
      Value.AllWithin wide more vs
  | [], _, _, _, _ => by
      rw [Value.AllWithin]
      trivial
  | v :: vs, left, more, hmore, h => by
      rw [Value.AllWithin] at h ⊢
      exact ⟨by omega, Value.Within.covered hcovers v (left - 1) (more - 1) (by omega) h.2.1,
        Value.AllWithin.covered hcovers vs left more hmore h.2.2⟩

end

end Covers

end Iec61850
