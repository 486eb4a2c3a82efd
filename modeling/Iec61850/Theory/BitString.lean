import Iec61850.Theory.Octets

/-!
# Bit strings packed into octets

The bits of a bit string, numbered from the most significant bit of the first octet, with the
reading of one bit (`bitAt`), the setting of some (`setBits`), and their law: a bit reads as set
when it was set before, or is among those set now.
-/

namespace Theory

/-- Bit `i` of a packed bit string; past its end every bit reads as clear. -/
def bitAt (bytes : Bytes) (i : Nat) : Bool :=
  match bytes[i / 8]? with
  | some b => b.toNat.testBit (7 - i % 8)
  | none => false

/-- Set bit `i`, if the string has it. -/
def setBit (bytes : Bytes) (i : Nat) : Bytes :=
  bytes.modify (i / 8) fun b => b ||| UInt8.ofNat (2 ^ (7 - i % 8))

/-- Set the bits of a list, one after the other. -/
def setBits (bytes : Bytes) (is : List Nat) : Bytes := is.foldl setBit bytes

@[simp] theorem setBit_length (bytes : Bytes) (i : Nat) : (setBit bytes i).length = bytes.length := by
  simp [setBit]

@[simp] theorem setBits_length (bytes : Bytes) (is : List Nat) :
    (setBits bytes is).length = bytes.length := by
  induction is generalizing bytes with
  | nil => rfl
  | cons i is ih => rw [setBits, List.foldl_cons, ← setBits, ih, setBit_length]

theorem testBit_or_bit (b : UInt8) {s : Nat} (hs : s < 8) (t : Nat) :
    (b ||| UInt8.ofNat (2 ^ s)).toNat.testBit t = (b.toNat.testBit t || decide (s = t)) := by
  have hpow : 2 ^ s % 256 = 2 ^ s := Nat.mod_eq_of_lt (Nat.pow_lt_pow_right (by decide) hs)
  rw [UInt8.toNat_or, toNat_ofNat8, hpow, Nat.testBit_or, Nat.testBit_two_pow]

theorem position_eq_iff (i j : Nat) : i = j ↔ i / 8 = j / 8 ∧ 7 - i % 8 = 7 - j % 8 := by
  constructor
  · rintro rfl
    exact ⟨rfl, rfl⟩
  · rintro ⟨hdiv, hmod⟩
    omega

variable {i width : Nat}

theorem bitAt_setBit {bytes : Bytes} (hi : i < bytes.length * 8) (j : Nat) :
    bitAt (setBit bytes i) j = (bitAt bytes j || decide (i = j)) := by
  have hoctet : i / 8 < bytes.length := by omega
  by_cases hsame : i / 8 = j / 8
  · have hmod : (7 - i % 8 = 7 - j % 8) ↔ i = j := by
      rw [position_eq_iff i j]
      exact ⟨fun h => ⟨hsame, h⟩, fun h => h.2⟩
    rw [hsame] at hoctet
    simp only [bitAt, setBit, hsame, List.getElem?_modify_eq, List.getElem?_eq_getElem hoctet,
      Option.map_eq_map, Option.map_some]
    rw [testBit_or_bit _ (by omega), decide_eq_decide.mpr hmod]
  · have hne : i ≠ j := fun h => hsame (by rw [h])
    simp [bitAt, setBit, List.getElem?_modify_ne _ _ hsame, hne]

theorem bitAt_setBits {bytes : Bytes} {is : List Nat} (his : ∀ i ∈ is, i < bytes.length * 8)
    (j : Nat) : bitAt (setBits bytes is) j = (bitAt bytes j || decide (j ∈ is)) := by
  induction is generalizing bytes with
  | nil => simp [setBits]
  | cons i is ih =>
    obtain ⟨hi, hrest⟩ := List.forall_mem_cons.mp his
    have hstep : bitAt (setBits bytes (i :: is)) j = bitAt (setBits (setBit bytes i) is) j := rfl
    rw [hstep, ih (by rwa [setBit_length]), bitAt_setBit hi, Bool.or_assoc]
    have hmem : decide (j ∈ i :: is) = (decide (i = j) || decide (j ∈ is)) := by
      rw [← Bool.decide_or, decide_eq_decide, List.mem_cons, eq_comm]
    rw [hmem]

theorem bitAt_zeros (octets j : Nat) : bitAt (List.replicate octets 0) j = false := by
  unfold bitAt
  rw [List.getElem?_replicate]
  split
  · rename_i b hb
    split at hb
    · cases hb
      exact Nat.zero_testBit _
    · cases hb
  · rfl

/-- The octets a bit string of `total` bits takes. -/
def octetsFor (total : Nat) : Nat := (total + 7) / 8

theorem lt_octetsFor {total : Nat} (h : i < total) : i < octetsFor total * 8 := by
  unfold octetsFor
  omega

/-- A bit string of clear bits in which some are set reads as those bits. -/
theorem bitAt_setBits_zeros {total : Nat} {is : List Nat} (his : ∀ i ∈ is, i < total) (j : Nat) :
    bitAt (setBits (List.replicate (octetsFor total) 0) is) j = decide (j ∈ is) := by
  have hfit : ∀ i ∈ is, i < (List.replicate (octetsFor total) (0 : UInt8)).length * 8 := by
    intro i hi
    rw [List.length_replicate]
    exact lt_octetsFor (his i hi)
  rw [bitAt_setBits hfit, bitAt_zeros, Bool.false_or]

/-- The bits of the second string set in the first, as far as both go. -/
def orInto : Bytes → Bytes → Bytes
  | a :: as, b :: bs => (a ||| b) :: orInto as bs
  | as, _ => as

theorem getElem?_orInto {as bs : Bytes} (hlen : as.length = bs.length) (n : Nat) :
    (orInto as bs)[n]? = as[n]?.bind fun a => bs[n]?.map fun b => a ||| b := by
  induction as generalizing bs n with
  | nil =>
    have hnil : bs = [] := List.length_eq_zero_iff.mp hlen.symm
    rw [hnil]
    rfl
  | cons a as ih =>
    cases bs with
    | nil => cases hlen
    | cons b bs =>
      rw [orInto]
      cases n with
      | zero => rfl
      | succ n =>
        rw [List.getElem?_cons_succ, List.getElem?_cons_succ, List.getElem?_cons_succ]
        exact ih (Nat.succ_inj.mp hlen) n

theorem bitAt_orInto {as bs : Bytes} (hlen : as.length = bs.length) (i : Nat) :
    bitAt (orInto as bs) i = (bitAt as i || bitAt bs i) := by
  unfold bitAt
  rw [getElem?_orInto hlen]
  by_cases hi : i / 8 < as.length
  · have hi' : i / 8 < bs.length := hlen ▸ hi
    rw [List.getElem?_eq_getElem hi, List.getElem?_eq_getElem hi']
    simp only [Option.bind_some, Option.map_some]
    rw [UInt8.toNat_or, Nat.testBit_or]
  · have hi' : bs.length ≤ i / 8 := hlen ▸ Nat.le_of_not_lt hi
    rw [List.getElem?_eq_none (Nat.le_of_not_lt hi), List.getElem?_eq_none hi']
    rfl

theorem orInto_setBit {as bs : Bytes} (hlen : as.length = bs.length) (i : Nat) :
    orInto as (setBit bs i) = setBit (orInto as bs) i := by
  apply List.ext_getElem?
  intro n
  rw [getElem?_orInto (by rwa [setBit_length]), setBit, setBit, List.getElem?_modify,
    List.getElem?_modify, getElem?_orInto hlen]
  cases as[n]? with
  | none => rfl
  | some a =>
    cases bs[n]? with
    | none => rfl
    | some b =>
      by_cases hn : i / 8 = n
      · simp [hn, UInt8.or_assoc]
      · simp [hn]

theorem orInto_setBits {as bs : Bytes} (hlen : as.length = bs.length) (is : List Nat) :
    orInto as (setBits bs is) = setBits (orInto as bs) is := by
  induction is generalizing bs with
  | nil => rfl
  | cons i is ih =>
    rw [setBits, List.foldl_cons, ← setBits, ih (by rwa [setBit_length]), orInto_setBit hlen]
    rfl

theorem orInto_zeros (as : Bytes) : orInto as (List.replicate as.length 0) = as := by
  induction as with
  | nil => rfl
  | cons a as ih => rw [List.length_cons, List.replicate_succ, orInto, ih, UInt8.or_zero]

/-! ### Packed flags -/

/-- The flags read off a bit string: flag `i` is its bit `i`. -/
def fromBitString (width : Nat) (bytes : Bytes) : BitVec width :=
  (List.range width).foldl (fun v bit => if bitAt bytes bit then v ||| BitVec.twoPow width bit else v) 0

/-- The unused bits and the octets of the flags, most significant bit first. -/
def toBitString {width : Nat} (v : BitVec width) : UInt8 × Bytes :=
  (UInt8.ofNat (octetsFor width * 8 - width),
    setBits (List.replicate (octetsFor width) 0) ((List.range width).filter v.getLsbD))

theorem getLsbD_foldl_or (bytes : Bytes) (bits : List Nat) (hbits : ∀ b ∈ bits, b < width)
    (v : BitVec width) (i : Nat) :
    (bits.foldl (fun v bit => if bitAt bytes bit then v ||| BitVec.twoPow width bit else v)
      v).getLsbD i = (v.getLsbD i || decide (i ∈ bits) && bitAt bytes i) := by
  induction bits generalizing v with
  | nil => simp
  | cons b bits ih =>
    obtain ⟨hb, hrest⟩ := List.forall_mem_cons.mp hbits
    rw [List.foldl_cons, ih hrest]
    by_cases hbi : b = i
    · subst hbi
      by_cases hset : bitAt bytes b <;> simp [hset, hb]
    · have hib : i ≠ b := fun h => hbi h.symm
      by_cases hset : bitAt bytes b <;> simp [hset, hbi, hib, BitVec.getLsbD_twoPow]

theorem getLsbD_fromBitString (hi : i < width) (bytes : Bytes) :
    (fromBitString width bytes).getLsbD i = bitAt bytes i := by
  have h := getLsbD_foldl_or bytes (List.range width) (fun b hb => List.mem_range.mp hb) 0 i
  rw [fromBitString, h]
  simp [hi]

theorem fromBitString_toBitString (v : BitVec width) :
    fromBitString width (toBitString v).2 = v := by
  apply BitVec.eq_of_getLsbD_eq
  intro i hi
  have hmem : ∀ b ∈ (List.range width).filter v.getLsbD, b < width := by
    intro b hb
    exact List.mem_range.mp (List.mem_of_mem_filter hb)
  rw [getLsbD_fromBitString hi, toBitString, bitAt_setBits_zeros hmem]
  simp [hi]

theorem bitAt_toBitString (hi : i < width) (v : BitVec width) :
    bitAt (toBitString v).2 i = v.getLsbD i := by
  rw [← getLsbD_fromBitString hi, fromBitString_toBitString]

theorem toBitString_length (v : BitVec width) : (toBitString v).2.length = octetsFor width := by
  simp [toBitString]

theorem fromBitString_orInto (v w : BitVec width) :
    fromBitString width (orInto (toBitString v).2 (toBitString w).2) = v ||| w := by
  have hlen : (toBitString v).2.length = (toBitString w).2.length := by
    rw [toBitString_length, toBitString_length]
  apply BitVec.eq_of_getLsbD_eq
  intro i hi
  rw [getLsbD_fromBitString hi, bitAt_orInto hlen, bitAt_toBitString hi, bitAt_toBitString hi,
    BitVec.getLsbD_or]

end Theory
