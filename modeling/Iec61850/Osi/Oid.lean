import Iec61850.Common.Basic

/-!
# Object identifiers

`osi/oid.rs`: the arcs of an object identifier and its contents octets. The first two arcs are one
subidentifier, every further arc is one, and a subidentifier is a number in groups of seven bits.
What the octets of any peer are read as is compared with the numbers they spell (`arcs_eq`).
-/

namespace Iec61850.Osi

open Theory

/-! ### Writing -/

/-- The groups of `push` from the one at `7 * shift` bits on; leading zeros are not written. -/
def pushFrom (value : Nat) : Nat → Bool → Bytes
  | 0, _ => [UInt8.ofNat (value % 128)]
  | shift + 1, started =>
    let group := value / 128 ^ (shift + 1) % 128
    if group ≠ 0 ∨ started then UInt8.ofNat (group + 128) :: pushFrom value shift true
    else pushFrom value shift false

/-- `push`: a `u32` has five groups. -/
def push (value : Nat) : Bytes := pushFrom value 4 false

def encode : List UInt32 → Option Bytes
  | first :: second :: rest =>
    if first.toNat > 2 ∨ (first.toNat < 2 ∧ second.toNat ≥ 40) then none
    else if first.toNat * 40 > u32Max ∨ first.toNat * 40 + second.toNat > u32Max then none
    else some (push (first.toNat * 40 + second.toNat) ++ rest.flatMap fun arc => push arc.toNat)
  | _ => none

/-! ### Reading -/

structure Arcs where
  rest : Bytes
  pending : Option Nat
  first : Bool

/-- The loop of `Arcs::next` over the groups of one subidentifier. -/
def subidentifier : Nat → Bytes → Option (Nat × Bytes)
  | _, [] => none
  | value, byte :: tail =>
    if value * 128 > u32Max ∨ value * 128 + byte.toNat % 128 > u32Max then none
    else if byte.toNat < 128 then some (value * 128 + byte.toNat % 128, tail)
    else subidentifier (value * 128 + byte.toNat % 128) tail

/-- The first two arcs, which are one subidentifier. -/
def roots (value : Nat) : Nat × Nat :=
  if value ≥ 80 then (2, value - 80) else (value / 40, value % 40)

def Arcs.next (a : Arcs) : Option (Nat × Arcs) :=
  match a.pending with
  | some second => some (second, { a with pending := none })
  | none =>
    match subidentifier 0 a.rest with
    | none => none
    | some (value, rest) =>
      if a.first then some ((roots value).1, ⟨rest, some (roots value).2, false⟩)
      else some (value, ⟨rest, none, false⟩)

/-- What the iteration of `Arcs` yields, up to `fuel` arcs. -/
def Arcs.collect : Nat → Arcs → List Nat
  | 0, _ => []
  | fuel + 1, a =>
    match a.next with
    | none => []
    | some (arc, a) => arc :: collect fuel a

/-- `Oid::arcs`: an octet ends at most one subidentifier, and the first one is two arcs. -/
def arcs (oid : Bytes) : List Nat := Arcs.collect (oid.length + 1) ⟨oid, none, true⟩

/-! ### The subidentifiers of some octets -/

/-- The numbers some octets spell, as large as they may be, after groups of the value `value`; the last
one is left out when it does not end. -/
def spelt : Nat → Bytes → List Nat
  | _, [] => []
  | value, byte :: tail =>
    if byte.toNat < 128 then (value * 128 + byte.toNat % 128) :: spelt 0 tail
    else spelt (value * 128 + byte.toNat % 128) tail

/-- The numbers up to the first that is not a `u32`. -/
def fitting (values : List Nat) : List Nat := values.takeWhile (· ≤ u32Max)

/-- The arcs of subidentifiers. -/
def arcsOf : List Nat → List Nat
  | [] => []
  | value :: values => (roots value).1 :: (roots value).2 :: values

theorem le_of_mem_spelt {value : Nat} {octets : Bytes} :
    ∀ v, (spelt value octets).head? = some v → value ≤ v := by
  induction octets generalizing value with
  | nil =>
    intro v hv
    cases hv
  | cons byte tail ih =>
    intro v hv
    rw [spelt] at hv
    split at hv
    · cases hv
      omega
    · have hle := ih v hv
      omega

/-- One subidentifier is read as it is spelt, or it is the first that does not fit or does not end. -/
theorem subidentifier_spec (value : Nat) (octets : Bytes) :
    match subidentifier value octets with
    | none => fitting (spelt value octets) = []
    | some (v, rest) => v ≤ u32Max ∧ spelt value octets = v :: spelt 0 rest := by
  induction octets generalizing value with
  | nil => rfl
  | cons byte tail ih =>
    rw [subidentifier, spelt]
    by_cases hover : value * 128 > u32Max ∨ value * 128 + byte.toNat % 128 > u32Max
    · rw [if_pos hover]
      have hlarge : u32Max < value * 128 + byte.toNat % 128 := by omega
      dsimp only
      split
      · rw [fitting, List.takeWhile_cons_of_neg]
        simpa using hlarge
      · cases hspelt : spelt (value * 128 + byte.toNat % 128) tail with
        | nil => rfl
        | cons v vs =>
          have hhead : (spelt (value * 128 + byte.toNat % 128) tail).head? = some v := by
            rw [hspelt]
            rfl
          have hle := le_of_mem_spelt v hhead
          rw [fitting, List.takeWhile_cons_of_neg]
          simpa using Nat.lt_of_lt_of_le hlarge hle
    · rw [if_neg hover]
      by_cases hlast : byte.toNat < 128
      · rw [if_pos hlast, if_pos hlast]
        exact ⟨by omega, rfl⟩
      · rw [if_neg hlast, if_neg hlast]
        have hrest := ih (value * 128 + byte.toNat % 128)
        split
        · rename_i hnone
          rw [hnone] at hrest
          exact hrest
        · rename_i v rest hsome
          rw [hsome] at hrest
          exact hrest

/-- What is left of the iteration, as the octets spell it. -/
def Arcs.remaining (a : Arcs) : List Nat :=
  a.pending.toList ++
    if a.first then arcsOf (fitting (spelt 0 a.rest)) else fitting (spelt 0 a.rest)

theorem fitting_cons {v : Nat} {vs : List Nat} (h : v ≤ u32Max) :
    fitting (v :: vs) = v :: fitting vs := by
  rw [fitting, List.takeWhile_cons_of_pos (by simpa using h)]
  rfl

theorem Arcs.next_spec (a : Arcs) :
    match a.next with
    | none => a.remaining = []
    | some (arc, b) => a.remaining = arc :: b.remaining := by
  obtain ⟨rest, pending, first⟩ := a
  cases pending with
  | some second => rfl
  | none =>
    have hread := subidentifier_spec 0 rest
    unfold next remaining
    dsimp only
    split
    · rename_i h
      split at h
      · rename_i hnone
        rw [hnone] at hread
        rw [hread]
        cases first <;> rfl
      · split at h <;> cases h
    · rename_i arc b h
      split at h
      · cases h
      · rename_i v tail hsome
        rw [hsome] at hread
        obtain ⟨hfits, hspelt⟩ := hread
        rw [hspelt, fitting_cons hfits]
        split at h
        · rename_i hfirst
          cases h
          rw [if_pos hfirst]
          rfl
        · rename_i hfirst
          cases h
          rw [if_neg hfirst]
          rfl

theorem spelt_length_le (value : Nat) (octets : Bytes) :
    (spelt value octets).length ≤ octets.length := by
  induction octets generalizing value with
  | nil => exact Nat.le_refl 0
  | cons byte tail ih =>
    rw [spelt]
    split
    · exact Nat.succ_le_succ (ih 0)
    · exact Nat.le_succ_of_le (ih _)

theorem Arcs.collect_eq {fuel : Nat} {a : Arcs} (h : a.remaining.length ≤ fuel) :
    a.collect fuel = a.remaining := by
  induction fuel generalizing a with
  | zero =>
    rw [List.length_eq_zero_iff.mp (Nat.le_zero.mp h)]
    rfl
  | succ fuel ih =>
    have hnext := a.next_spec
    rw [collect]
    split
    · rename_i hnone
      rw [hnone] at hnext
      exact hnext.symm
    · rename_i arc b hsome
      rw [hsome] at hnext
      dsimp only at hnext
      rw [hnext] at h ⊢
      rw [ih (Nat.le_of_succ_le_succ h)]

/-- The octets of any identifier are read as the numbers they spell, up to the first that is too large
or does not end: no number is read that is not there. -/
theorem arcs_eq (oid : Bytes) : arcs oid = arcsOf (fitting (spelt 0 oid)) := by
  have hremaining : (⟨oid, none, true⟩ : Arcs).remaining = arcsOf (fitting (spelt 0 oid)) := rfl
  have hfitting : (fitting (spelt 0 oid)).length ≤ oid.length :=
    Nat.le_trans (List.takeWhile_prefix _).length_le (spelt_length_le 0 oid)
  have hlength : (arcsOf (fitting (spelt 0 oid))).length ≤ (fitting (spelt 0 oid)).length + 1 := by
    cases fitting (spelt 0 oid) with
    | nil => exact Nat.zero_le _
    | cons v vs => exact Nat.le_refl _
  rw [arcs, Arcs.collect_eq, hremaining]
  rw [hremaining]
  omega

theorem roots_le {value : Nat} (h : value ≤ u32Max) :
    (roots value).1 ≤ u32Max ∧ (roots value).2 ≤ u32Max := by
  unfold roots
  split
  · dsimp only
    rw [u32Max] at h ⊢
    omega
  · dsimp only
    omega

theorem mem_arcs_le {oid : Bytes} {arc : Nat} (h : arc ∈ arcs oid) : arc ≤ u32Max := by
  have hfits : ∀ v ∈ fitting (spelt 0 oid), v ≤ u32Max := fun v hv =>
    of_decide_eq_true (List.all_eq_true.mp List.all_takeWhile v hv)
  rw [arcs_eq] at h
  cases hvalues : fitting (spelt 0 oid) with
  | nil =>
    rw [hvalues] at h
    cases h
  | cons v vs =>
    rw [hvalues, List.forall_mem_cons] at hfits
    rw [hvalues, arcsOf, List.mem_cons, List.mem_cons] at h
    rcases h with rfl | rfl | h
    · exact (roots_le hfits.1).1
    · exact (roots_le hfits.1).2
    · exact hfits.2 arc h

/-! ### What was written is read -/

/-- The groups from a place on are read behind those above it. -/
theorem spelt_pushFrom {value shift : Nat} {started : Bool}
    (h : started = true ∨ value / 128 ^ (shift + 1) = 0) (rest : Bytes) :
    spelt (value / 128 ^ (shift + 1)) (pushFrom value shift started ++ rest) =
      value :: spelt 0 rest := by
  induction shift generalizing started with
  | zero =>
    have hbyte : (UInt8.ofNat (value % 128)).toNat = value % 128 := by
      rw [toNat_ofNat8]
      omega
    rw [pushFrom, List.singleton_append, spelt, hbyte, if_pos (Nat.mod_lt _ (by decide))]
    congr 1
    omega
  | succ shift ih =>
    have hgroup : value / 128 ^ (shift + 2) * 128 + value / 128 ^ (shift + 1) % 128 =
        value / 128 ^ (shift + 1) := by
      rw [Nat.pow_succ 128 (shift + 1), ← Nat.div_div_eq_div_mul]
      omega
    rw [pushFrom]
    split
    · have hbyte : (UInt8.ofNat (value / 128 ^ (shift + 1) % 128 + 128)).toNat =
          value / 128 ^ (shift + 1) % 128 + 128 := by
        rw [toNat_ofNat8]
        omega
      rw [List.cons_append, spelt, hbyte, if_neg (by omega), Nat.add_mod_right,
        Nat.mod_mod, hgroup]
      exact ih (Or.inl rfl)
    · rename_i hzero
      rw [not_or, not_not] at hzero
      have habove : value / 128 ^ (shift + 2) = 0 := h.resolve_left hzero.2
      have hhere : value / 128 ^ (shift + 1) = 0 := by
        rw [habove, hzero.1] at hgroup
        exact hgroup.symm
      have hrest := @ih false (Or.inr hhere)
      rw [hhere] at hrest
      rw [habove]
      exact hrest

theorem spelt_push {value : Nat} (h : value ≤ u32Max) (rest : Bytes) :
    spelt 0 (push value ++ rest) = value :: spelt 0 rest := by
  have htop : value / 128 ^ 5 = 0 := by
    apply Nat.div_eq_of_lt
    rw [u32Max] at h
    omega
  have hspelt := @spelt_pushFrom value 4 false (Or.inr htop) rest
  rwa [htop] at hspelt

theorem spelt_flatMap_push (rest : List UInt32) :
    spelt 0 (rest.flatMap fun arc => push arc.toNat) = rest.map UInt32.toNat := by
  induction rest with
  | nil => rfl
  | cons arc rest ih =>
    have hle : arc.toNat ≤ u32Max := Nat.le_of_lt_succ arc.toNat_lt
    rw [List.flatMap_cons, spelt_push hle, ih, List.map_cons]

theorem fitting_map (rest : List UInt32) : fitting (rest.map UInt32.toNat) = rest.map UInt32.toNat := by
  induction rest with
  | nil => rfl
  | cons arc rest ih =>
    rw [List.map_cons, fitting_cons (Nat.le_of_lt_succ arc.toNat_lt), ih]

theorem roots_combined {first second : Nat} (hfirst : first ≤ 2)
    (hsecond : first = 2 ∨ second < 40) : roots (first * 40 + second) = (first, second) := by
  unfold roots
  split
  · have htwo : first = 2 := by omega
    subst htwo
    congr 1
    omega
  · congr 1
    · omega
    · omega

/-- The arcs that are an object identifier: there are two, the first is one of the three roots and the
second below forty under the first two of them, and the two of them combined are a `u32`. -/
def Legal (as : List UInt32) : Prop :=
  ∃ first second rest, as = first :: second :: rest ∧ first.toNat ≤ 2 ∧
    (first.toNat = 2 ∨ second.toNat < 40) ∧ first.toNat * 40 + second.toNat ≤ u32Max

theorem encode_eq_some {as : List UInt32} {oid : Bytes} (h : encode as = some oid) :
    ∃ first second rest, as = first :: second :: rest ∧ first.toNat ≤ 2 ∧
      (first.toNat = 2 ∨ second.toNat < 40) ∧ first.toNat * 40 + second.toNat ≤ u32Max ∧
      oid = push (first.toNat * 40 + second.toNat) ++ rest.flatMap fun arc => push arc.toNat := by
  unfold encode at h
  split at h
  · rename_i first second rest
    split at h
    · cases h
    · split at h
      · cases h
      · cases h
        exact ⟨first, second, rest, rfl, by omega, by omega, by omega, rfl⟩
  · cases h

theorem isSome_encode_iff {as : List UInt32} : (encode as).isSome = true ↔ Legal as := by
  constructor
  · intro h
    obtain ⟨oid, hoid⟩ := Option.isSome_iff_exists.mp h
    obtain ⟨first, second, rest, has, hroot, hsecond, hfits, -⟩ := encode_eq_some hoid
    exact ⟨first, second, rest, has, hroot, hsecond, hfits⟩
  · rintro ⟨first, second, rest, rfl, hroot, hsecond, hfits⟩
    rw [encode, if_neg (by omega), if_neg (by omega)]
    rfl

theorem arcs_encode {as : List UInt32} {oid : Bytes} (h : encode as = some oid) :
    arcs oid = as.map UInt32.toNat := by
  obtain ⟨first, second, rest, rfl, hroot, hsecond, hfits, rfl⟩ := encode_eq_some h
  rw [arcs_eq, spelt_push hfits, spelt_flatMap_push, fitting_cons hfits, fitting_map, arcsOf,
    roots_combined hroot hsecond]
  rfl

/-- Exactly the arcs of an object identifier are encoded, and they are read back; the arcs any octets are
read as are numbers these octets spell, and none of them is too large. -/
theorem oid_faithful (as : List UInt32) (octets : Bytes) : ((encode as).isSome = true ↔ Legal as) ∧
      (∀ oid, encode as = some oid → arcs oid = as.map UInt32.toNat) ∧
      arcs octets = arcsOf (fitting (spelt 0 octets)) ∧ ∀ arc ∈ arcs octets, arc ≤ u32Max :=
  ⟨isSome_encode_iff, fun _ h => arcs_encode h, arcs_eq octets, fun _ h => mem_arcs_le h⟩

/-- The MMS abstract syntax. -/
example : (encode [1, 0, 9506, 2, 1]).map arcs = some [1, 0, 9506, 2, 1] := by decide

end Iec61850.Osi
