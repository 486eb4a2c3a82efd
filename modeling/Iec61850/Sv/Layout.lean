import Iec61850.Ber.Reread
import Iec61850.Common.DataRoundTrip
import Iec61850.Common.Quality
import Iec61850.Link.RoundTrip
import Iec61850.Sv.Publisher
import Iec61850.Sv.Subscriber
import Iec61850.Theory.FloatFormats
import Mathlib.Tactic.IntervalCases

/-!
# The layout of a sample block

`proto/sv/layout.rs`: a sample is the values of its channels back to back, each in the width of its
type, and a layout says which octets are whose. What is written to a channel is read back if the
channel can hold it, and the other channels keep their values; so a block is decoded as what was
written last to each of its channels (`decode_fill`).
-/

namespace Iec61850.Sv

open Theory Link

/-! ### Channels -/

inductive ChannelType where
  | boolean
  | int (width : Nat)
  | unsigned (width : Nat)
  | enum
  | float32
  | float64
  | quality
  | timestamp
  deriving DecidableEq, Repr

def ChannelType.width : ChannelType → Nat
  | .boolean => 1
  | .int w | .unsigned w => if w = 0 then 1 else if w > 8 then 8 else w
  | .enum | .float32 | .quality => 4
  | .float64 | .timestamp => 8

/-- `ChannelValue`. A floating-point number is its 64 bits. -/
inductive ChannelValue where
  | boolean (b : Bool)
  | int (v : Int)
  | unsigned (v : Nat)
  | float (bits : Nat)
  | quality (q : Quality)
  | timestamp (t : UtcTime)
  deriving DecidableEq, Repr

structure Channel where
  name : Bytes
  kind : ChannelType
  offset : Nat
  deriving DecidableEq, Repr

/-- The channels stand one after the other, from an offset on to the end of the block. -/
def Tiled : Nat → List Channel → Nat → Prop
  | start, [], len => start = len
  | start, c :: cs, len => c.offset = start ∧ Tiled (start + c.kind.width) cs len

/-- `SampleLayout`, with its channels. -/
structure ChannelLayout extends SampleLayout where
  channels : List Channel
  tiled : Tiled 0 channels len

/-- The channels of these types from an offset on, and where they end. -/
def place (offset : Nat) : List (Bytes × ChannelType) → List Channel × Nat
  | [] => ([], offset)
  | (name, kind) :: channels =>
    let rest := place (offset + kind.width) channels
    (⟨name, kind, offset⟩ :: rest.1, rest.2)

theorem place_tiled (channels : List (Bytes × ChannelType)) (offset : Nat) :
    Tiled offset (place offset channels).1 (place offset channels).2 := by
  induction channels generalizing offset with
  | nil => rfl
  | cons c channels ih => exact ⟨rfl, ih (offset + c.2.width)⟩

/-- `SampleLayout::new`. -/
def ChannelLayout.new (channels : List (Bytes × ChannelType)) : ChannelLayout where
  channels := (place 0 channels).1
  len := (place 0 channels).2
  tiled := place_tiled channels 0

/-! ### Reading -/

/-- An unsigned number of this many bits, as the signed one. -/
def twosComplement (bits n : Nat) : Int := if n < 2 ^ (bits - 1) then n else (n : Int) - 2 ^ bits

/-- `read`. The shift to the right is that of a signed number. -/
def readChannel (kind : ChannelType) (bytes : Bytes) : ChannelValue :=
  let unsigned := beNat bytes
  match kind with
  | .boolean => .boolean (unsigned ≠ 0)
  | .int w =>
    let bits := 64 - 8 * (ChannelType.int w).width
    .int (twosComplement 64 (unsigned * 2 ^ bits % 2 ^ 64) / 2 ^ bits)
  | .enum => .int (twosComplement 32 (unsigned % 2 ^ 32))
  | .unsigned _ => .unsigned unsigned
  | .float32 => .float (doubleOfSingle (unsigned % 2 ^ 32))
  | .float64 => .float unsigned
  | .quality => .quality (Quality.fromBitsMsb (unsigned % 2 ^ 32))
  | .timestamp => .timestamp ((UtcTime.fromOctets (beBytes 8 unsigned)).getD defaultTime)

/-- `SampleLayout::value`. -/
def ChannelLayout.value (l : ChannelLayout) (sample : Bytes) (i : Nat) : Option ChannelValue :=
  match l.channels[i]? with
  | none => none
  | some c => (slice sample c.offset (c.offset + c.kind.width)).map (readChannel c.kind)

/-- The loop of `decode`. -/
def ChannelLayout.decodeFrom (l : ChannelLayout) (sample : Bytes) :
    Nat → List Channel → List (Channel × ChannelValue)
  | _, [] => []
  | i, c :: cs =>
    match l.value sample i with
    | none => []
    | some v => (c, v) :: decodeFrom l sample (i + 1) cs

/-- `SampleLayout::decode`. -/
def ChannelLayout.decode (l : ChannelLayout) (sample : Bytes) : List (Channel × ChannelValue) :=
  l.decodeFrom sample 0 l.channels

/-! ### Writing -/

/-- The number a value is written as, in eight octets. -/
def wordOf : ChannelType → ChannelValue → Except Error Bytes
  | .boolean, .boolean b => .ok (beBytes 8 b.toNat)
  | .int _, .int v | .enum, .int v => .ok (beBytes 8 (v % 2 ^ 64).toNat)
  | .unsigned _, .unsigned v => .ok (beBytes 8 v)
  | .quality, .quality q => .ok (beBytes 8 q.toBitsMsb)
  | _, _ => .error (.invalidValue "value does not match the channel type")

/-- The octets in front of a number that needs fewer than eight. -/
def signExtension : ChannelValue → UInt8
  | .int v => if v < 0 then 0xFF else 0x00
  | _ => 0x00

def fitsSigned (bytes : Bytes) (width : Nat) : Bool :=
  match bytes[8 - width]? with
  | some first =>
    decide (128 ≤ first.toNat) == bytes.head?.any fun b => decide (128 ≤ b.toNat)
  | none => false

/-- The types a number has a sign in. -/
def ChannelType.isSigned : ChannelType → Bool
  | .int _ | .enum => true
  | _ => false

/-- What `write` puts into the octets of the channel. -/
def octetsOf (kind : ChannelType) (value : ChannelValue) : Except Error Bytes :=
  match kind, value with
  | .float32, .float bits => .ok (beBytes 4 (singleOfDouble bits))
  | .float64, .float bits => .ok (beBytes 8 bits)
  | .timestamp, .timestamp t => .ok t.toOctets
  | kind, value => do
      let bytes ← wordOf kind value
      if (bytes.take (8 - kind.width)).any (fun b => b != signExtension value) ||
          (kind.isSigned && !fitsSigned bytes kind.width) then
        .error (.invalidValue "value does not fit the channel width")
      else .ok (bytes.drop (8 - kind.width))

/-- `SampleLayout::write`: the result, and the block as it is afterwards. -/
def ChannelLayout.write (l : ChannelLayout) (sample : Bytes) (i : Nat) (value : ChannelValue) :
    Except Error Unit × Bytes :=
  match l.channels[i]? with
  | none => (.error (.invalidValue "no such channel"), sample)
  | some c =>
    match slice sample c.offset (c.offset + c.kind.width) with
    | none => (.error (.invalidValue "sample block is shorter than the layout"), sample)
    | some _ =>
      match octetsOf c.kind value with
      | .error e => (.error e, sample)
      | .ok octets => (.ok (), splice sample c.offset octets)

/-! ### What a channel can hold -/

/-- The values of the types that the source has. -/
def ChannelValue.InRange : ChannelValue → Prop
  | .boolean _ | .quality _ => True
  | .int v => -2 ^ 63 ≤ v ∧ v < 2 ^ 63
  | .unsigned v => v < 2 ^ 64
  | .float bits => bits < 2 ^ 64
  | .timestamp t => t.seconds < 2 ^ 32 ∧ t.fraction < 2 ^ 32 ∧ t.quality.accuracy < 2 ^ 8

/-- The value is of the type, and its width holds it. -/
def ChannelType.Fits : ChannelType → ChannelValue → Prop
  | .boolean, .boolean _ => True
  | .int w, .int v =>
    -2 ^ (8 * (ChannelType.int w).width - 1) ≤ v ∧ v < 2 ^ (8 * (ChannelType.int w).width - 1)
  | .enum, .int v => -2 ^ 31 ≤ v ∧ v < 2 ^ 31
  | .unsigned w, .unsigned v => v < 2 ^ (8 * (ChannelType.unsigned w).width)
  | .float32, .float bits => ∃ single < 2 ^ 32, doubleOfSingle single = bits
  | .float64, .float _ => True
  | .quality, .quality _ => True
  | .timestamp, .timestamp t => t.Exact
  | _, _ => False

/-- The value is of the type and is cut to the width of it without a check. -/
def ChannelType.Cuts : ChannelType → ChannelValue → Prop
  | .float32, .float bits => ¬ ∃ single < 2 ^ 32, doubleOfSingle single = bits
  | .timestamp, .timestamp t => ¬ t.Exact
  | _, _ => False

theorem ChannelType.Fits.not_cuts {kind : ChannelType} {v : ChannelValue} :
    kind.Fits v → ¬ kind.Cuts v := by
  cases kind <;> cases v
  all_goals first
    | exact not_not.mpr
    | exact fun _ h => h

/-! ### Octets of a number -/

theorem beBytes_append (a b n : Nat) :
    beBytes (a + b) n = beBytes a (n / 256 ^ b) ++ beBytes b n := by
  induction a with
  | zero => simp [beBytes]
  | succ a ih =>
    rw [Nat.succ_add, beBytes, beBytes, ih, Nat.div_div_eq_div_mul, ← Nat.pow_add,
      Nat.add_comm b a]
    rfl

/-- All octets of a number are zero, or all are 255. -/
theorem any_beBytes (width n : Nat) :
    ((beBytes width n).any (fun b => b != 0x00) = false ↔ n % 256 ^ width = 0) ∧
      ((beBytes width n).any (fun b => b != 0xFF) = false ↔ n % 256 ^ width = 256 ^ width - 1) := by
  induction width with
  | zero => simp [beBytes, Nat.mod_one]
  | succ width ih =>
    have hfirst : ∀ b : UInt8, (UInt8.ofNat (n / 256 ^ width) != b) = false ↔
        n / 256 ^ width % 256 = b.toNat := by
      intro b
      rw [bne_eq_false_iff_eq, ← UInt8.toNat_inj, toNat_ofNat8]
    have hsplit : n % 256 ^ (width + 1) =
        n % 256 ^ width + 256 ^ width * (n / 256 ^ width % 256) := by
      rw [Nat.pow_succ, Nat.mod_mul]
    have hpos : 0 < 256 ^ width := Nat.pow_pos (by decide)
    have hlt : n % 256 ^ width < 256 ^ width := Nat.mod_lt _ hpos
    have hle : n / 256 ^ width % 256 ≤ 255 := Nat.le_of_lt_succ (Nat.mod_lt _ (by decide))
    rw [beBytes, List.any_cons, List.any_cons, Bool.or_eq_false_iff, Bool.or_eq_false_iff,
      hfirst, hfirst, ih.1, ih.2, hsplit, Nat.pow_succ]
    generalize n / 256 ^ width % 256 = first at *
    generalize n % 256 ^ width = rest at *
    generalize 256 ^ width = top at *
    constructor
    · constructor
      · rintro ⟨h, h'⟩
        rw [h, h']
        rfl
      · intro h
        have hmul : top * first = 0 := by
          omega
        rcases Nat.mul_eq_zero.mp hmul with h | h
        · omega
        · exact ⟨h, by omega⟩
    · constructor
      · rintro ⟨h, h'⟩
        rw [h, h']
        change top - 1 + top * 255 = top * 256 - 1
        omega
      · intro h
        by_cases hfull : first = 255
        · subst hfull
          exact ⟨rfl, by omega⟩
        · have hmul : top * first ≤ top * 254 := Nat.mul_le_mul_left _ (by omega)
          omega

variable {width start : Nat} {kind : ChannelType} {v : ChannelValue} {octets : Bytes}

theorem take_drop_beBytes (h : width ≤ 8) (n : Nat) :
    (beBytes 8 n).take (8 - width) = beBytes (8 - width) (n / 256 ^ width) ∧
      (beBytes 8 n).drop (8 - width) = beBytes width n := by
  have happend : beBytes 8 n = beBytes (8 - width) (n / 256 ^ width) ++ beBytes width n := by
    rw [← beBytes_append, Nat.sub_add_cancel h]
  rw [happend]
  exact ⟨List.take_left' (beBytes_length _ _), List.drop_left' (beBytes_length _ _)⟩

theorem fitsSigned_beBytes (hpos : 0 < width) (h : width ≤ 8) (n : Nat) :
    fitsSigned (beBytes 8 n) width =
      (decide (128 ≤ n / 256 ^ (width - 1) % 256) == decide (128 ≤ n / 256 ^ 7 % 256)) := by
  have hfirst : (beBytes 8 n)[8 - width]? = some (UInt8.ofNat (n / 256 ^ (width - 1))) := by
    rw [← List.head?_drop, (take_drop_beBytes h n).2]
    obtain ⟨width, rfl⟩ := Nat.exists_eq_succ_of_ne_zero (Nat.pos_iff_ne_zero.mp hpos)
    rfl
  rw [fitsSigned, hfirst]
  simp only [beBytes, List.head?_cons, Option.any_some, toNat_ofNat8]

theorem beNat_inj {bs bs' : Bytes} (hlen : bs.length = bs'.length)
    (h : beNat bs = beNat bs') : bs = bs' := by
  induction bs generalizing bs' with
  | nil => exact (List.length_eq_zero_iff.mp hlen.symm).symm
  | cons b bs ih =>
    cases bs' with
    | nil => cases hlen
    | cons b' bs' =>
      have hlen' : bs.length = bs'.length := Nat.succ.inj hlen
      have hlt := beNat_lt bs
      have hlt' := beNat_lt bs'
      rw [beNat_cons, beNat_cons, hlen'] at h
      rw [hlen'] at hlt
      have hpos : 0 < 256 ^ bs'.length := Nat.pow_pos (by decide)
      have hfirst : b.toNat = b'.toNat := by
        have hdiv := congrArg (· / 256 ^ bs'.length) h
        simpa only [Nat.mul_comm _ (256 ^ bs'.length), Nat.mul_add_div hpos,
          Nat.div_eq_of_lt hlt, Nat.div_eq_of_lt hlt', Nat.add_zero] using hdiv
      rw [hfirst] at h
      rw [UInt8.toNat_inj.mp hfirst, ih hlen' (Nat.add_left_cancel h)]

/-! ### Numbers with a sign -/

theorem toNat_emod {v : Int} (hv : -2 ^ 63 ≤ v ∧ v < 2 ^ 63) :
    ((v % 2 ^ 64).toNat : Int) = if v < 0 then v + 2 ^ 64 else v := by
  split <;> omega

/-- The check of a number with a sign is whether its width holds it. -/
theorem signed_fits (hpos : 0 < width) (h : width ≤ 8) {v : Int} (hv : -2 ^ 63 ≤ v ∧ v < 2 ^ 63) :
    (((beBytes 8 (v % 2 ^ 64).toNat).take (8 - width)).any
        (fun b => b != signExtension (.int v)) = false ∧
      fitsSigned (beBytes 8 (v % 2 ^ 64).toNat) width = true) ↔
      -2 ^ (8 * width - 1) ≤ v ∧ v < 2 ^ (8 * width - 1) := by
  have hn := toNat_emod hv
  rw [(take_drop_beBytes h _).1, fitsSigned_beBytes hpos h, beq_iff_eq, decide_eq_decide]
  generalize (v % 2 ^ 64).toNat = n at *
  by_cases hneg : v < 0
  · rw [if_pos hneg] at hn
    rw [signExtension, if_pos hneg, (any_beBytes _ _).2]
    interval_cases width <;> omega
  · rw [if_neg hneg] at hn
    rw [signExtension, if_neg hneg, (any_beBytes _ _).1]
    interval_cases width <;> omega

/-- A number in its width is read with its sign. -/
theorem signed_read (hpos : 0 < width) (h : width ≤ 8) {v : Int} (hv : -2 ^ 63 ≤ v ∧ v < 2 ^ 63)
    (hfits : -2 ^ (8 * width - 1) ≤ v ∧ v < 2 ^ (8 * width - 1)) :
    twosComplement 64 ((v % 2 ^ 64).toNat % 256 ^ width * 2 ^ (64 - 8 * width) % 2 ^ 64) /
      2 ^ (64 - 8 * width) = v := by
  have hn := toNat_emod hv
  generalize (v % 2 ^ 64).toNat = n at *
  unfold twosComplement
  by_cases hneg : v < 0
  · rw [if_pos hneg] at hn
    interval_cases width <;> split <;> omega
  · rw [if_neg hneg] at hn
    interval_cases width <;> split <;> omega

/-! ### One channel -/

theorem ChannelType.width_range (kind : ChannelType) : 0 < kind.width ∧ kind.width ≤ 8 := by
  cases kind with
  | int w | unsigned w =>
    rw [ChannelType.width]
    split
    · decide
    · split <;> omega
  | boolean | enum | float32 | float64 | quality | timestamp => decide

theorem octetsOf_length (h : octetsOf kind v = .ok octets) : octets.length = kind.width := by
  obtain ⟨-, hle⟩ := kind.width_range
  have hword : ∀ {kind v bytes}, wordOf kind v = .ok bytes → bytes.length = 8 := by
    intro kind v bytes hword
    unfold wordOf at hword
    split at hword
    all_goals cases hword
    all_goals exact beBytes_length 8 _
  unfold octetsOf at h
  split at h
  · cases h
    exact beBytes_length 4 _
  · cases h
    exact beBytes_length 8 _
  · cases h
    simp [UtcTime.toOctets, ChannelType.width]
  · obtain ⟨bytes, hbytes, h⟩ := bind_ok h
    split at h
    · cases h
    · cases h
      rw [List.length_drop, hword hbytes]
      omega

/-- A number is written in the octets of the width if they pass for it. -/
theorem octetsOf_word {n : Nat} (hword : wordOf kind v = .ok (beBytes 8 n)) : octetsOf kind v =
      if ((beBytes 8 n).take (8 - kind.width)).any (fun b => b != signExtension v) ||
          (kind.isSigned && !fitsSigned (beBytes 8 n) kind.width) then
        .error (.invalidValue "value does not fit the channel width")
      else .ok (beBytes kind.width n) := by
  rw [← (take_drop_beBytes kind.width_range.2 n).2]
  unfold octetsOf
  split
  · cases hword
  · cases hword
  · cases hword
  · rw [hword]
    rfl

/-- A number without a sign is written if its upper octets are zero. -/
theorem octetsOf_unsigned {n : Nat} (hn : n < 2 ^ 64) (hword : wordOf kind v = .ok (beBytes 8 n))
    (hzero : signExtension v = 0x00) (hkind : kind.isSigned = false) : octetsOf kind v =
      if n < 2 ^ (8 * kind.width) then .ok (beBytes kind.width n)
      else .error (.invalidValue "value does not fit the channel width") := by
  obtain ⟨hpos, hle⟩ := kind.width_range
  have hupper : n / 256 ^ kind.width % 256 ^ (8 - kind.width) = 0 ↔
      n < 2 ^ (8 * kind.width) := by
    generalize kind.width = width at *
    interval_cases width <;> omega
  rw [octetsOf_word hword, hkind, Bool.false_and, Bool.or_false, hzero,
    (take_drop_beBytes hle n).1]
  by_cases hfits : n < 2 ^ (8 * kind.width)
  · rw [if_pos hfits, (any_beBytes _ _).1.mpr (hupper.mpr hfits)]
    rfl
  · have hany := mt (any_beBytes (8 - kind.width) (n / 256 ^ kind.width)).1.mp (mt hupper.mp hfits)
    rw [if_neg hfits, if_pos (by simpa only [Bool.not_eq_false] using hany)]

/-- A number with a sign is written if the width holds it. -/
theorem octetsOf_signed {v : Int} (hv : -2 ^ 63 ≤ v ∧ v < 2 ^ 63)
    (hword : wordOf kind (.int v) = .ok (beBytes 8 (v % 2 ^ 64).toNat))
    (hkind : kind.isSigned = true) : octetsOf kind (.int v) =
      if -2 ^ (8 * kind.width - 1) ≤ v ∧ v < 2 ^ (8 * kind.width - 1) then
        .ok (beBytes kind.width (v % 2 ^ 64).toNat)
      else .error (.invalidValue "value does not fit the channel width") := by
  obtain ⟨hpos, hle⟩ := kind.width_range
  have hfits := signed_fits hpos hle hv
  rw [octetsOf_word hword, hkind, Bool.true_and]
  by_cases h : -2 ^ (8 * kind.width - 1) ≤ v ∧ v < 2 ^ (8 * kind.width - 1)
  · obtain ⟨hany, hsign⟩ := hfits.mpr h
    rw [if_pos h, hany, hsign]
    rfl
  · have hfail := mt hfits.mp h
    rw [if_neg h, if_pos]
    rw [Bool.or_eq_true, Bool.not_eq_true']
    by_contra hcontra
    rw [not_or, Bool.not_eq_true, Bool.not_eq_false] at hcontra
    exact hfail hcontra

theorem isOk_ite {p : Prop} [Decidable p] {e : Error} :
    (if p then Except.ok octets else Except.error e).isOk = true ↔ p := by
  by_cases h : p
  · rw [if_pos h]
    exact iff_of_true rfl h
  · rw [if_neg h]
    exact iff_of_false nofun h

theorem octetsOf_isOk (kind : ChannelType) (hv : v.InRange) :
    (octetsOf kind v).isOk = true ↔ kind.Fits v ∨ kind.Cuts v := by
  cases kind <;> cases v
  case boolean.boolean b =>
    rw [octetsOf_unsigned (by cases b <;> decide) rfl rfl rfl, isOk_ite]
    exact iff_of_true (by cases b <;> decide) (Or.inl trivial)
  case int.int w v =>
    rw [octetsOf_signed hv rfl rfl, isOk_ite]
    exact (or_iff_left id).symm
  case unsigned.unsigned w v =>
    rw [octetsOf_unsigned hv rfl rfl rfl, isOk_ite]
    exact (or_iff_left id).symm
  case enum.int v =>
    rw [octetsOf_signed hv rfl rfl, isOk_ite]
    exact (or_iff_left id).symm
  case float32.float bits => exact iff_of_true rfl (Classical.em _)
  case float64.float bits => exact iff_of_true rfl (Or.inl trivial)
  case quality.quality q =>
    have hlt : q.toBitsMsb < 2 ^ 32 := q.toBitsMsb_lt
    rw [octetsOf_unsigned (by omega) rfl rfl rfl, isOk_ite]
    exact iff_of_true hlt (Or.inl trivial)
  case timestamp.timestamp t => exact iff_of_true rfl (Classical.em _)
  -- the value is of another type
  all_goals exact iff_of_false nofun (fun h => h.elim id id)

theorem read_octetsOf (hv : v.InRange) (h : octetsOf kind v = .ok octets) (hcuts : ¬ kind.Cuts v) :
    readChannel kind octets = v := by
  have hok : ∀ {p : Prop} [Decidable p] {e : Error} {os : Bytes},
      (if p then Except.ok os else Except.error e) = Except.ok octets → p ∧ os = octets := by
    intro p _ e os h
    split at h
    · rename_i hp
      cases h
      exact ⟨hp, rfl⟩
    · cases h
  cases kind <;> cases v
  case boolean.boolean b =>
    rw [octetsOf_unsigned (by cases b <;> decide) rfl rfl rfl] at h
    obtain ⟨-, rfl⟩ := hok h
    cases b <;> rfl
  case int.int w v =>
    rw [octetsOf_signed hv rfl rfl] at h
    obtain ⟨hfits, rfl⟩ := hok h
    obtain ⟨hpos, hle⟩ := (ChannelType.int w).width_range
    have hread := signed_read hpos hle hv hfits
    simp only [readChannel, beNat_beBytes, hread]
  case unsigned.unsigned w v =>
    rw [octetsOf_unsigned hv rfl rfl rfl] at h
    obtain ⟨hfits, rfl⟩ := hok h
    rw [Nat.pow_mul] at hfits
    simp only [readChannel, beNat_beBytes_of_lt hfits]
  case enum.int v =>
    rw [octetsOf_signed hv rfl rfl] at h
    obtain ⟨hfits, rfl⟩ := hok h
    have hn := toNat_emod hv
    change -2 ^ 31 ≤ v ∧ v < 2 ^ 31 at hfits
    change ChannelValue.int (twosComplement 32 (beNat (beBytes 4 _) % 2 ^ 32)) = _
    rw [beNat_beBytes, twosComplement]
    congr 1
    generalize (v % 2 ^ 64).toNat = n at *
    split at hn <;> split <;> omega
  case float32.float bits =>
    cases h
    obtain ⟨single, -, rfl⟩ := Classical.not_not.mp hcuts
    have hlt : singleOfDouble (doubleOfSingle single) < 2 ^ 32 := singleOfDouble_lt hv
    change ChannelValue.float (doubleOfSingle (beNat (beBytes 4 _) % 2 ^ 32)) = _
    rw [beNat_beBytes_of_lt hlt, Nat.mod_eq_of_lt hlt, doubleOfSingle_singleOfDouble]
  case float64.float bits =>
    cases h
    have hlt : bits < 256 ^ 8 := hv
    simp only [readChannel, beNat_beBytes_of_lt hlt]
  case quality.quality q =>
    have hlt : q.toBitsMsb < 2 ^ 32 := q.toBitsMsb_lt
    rw [octetsOf_unsigned (by omega) rfl rfl rfl] at h
    obtain ⟨-, rfl⟩ := hok h
    change ChannelValue.quality (Quality.fromBitsMsb (beNat (beBytes 4 _) % 2 ^ 32)) = _
    rw [beNat_beBytes_of_lt hlt, Nat.mod_eq_of_lt hlt, Quality.fromBitsMsb_toBitsMsb]
  case timestamp.timestamp t =>
    cases h
    have hexact : t.Exact := Classical.not_not.mp hcuts
    have hlen : t.toOctets.length = 8 := by
      simp [UtcTime.toOctets]
    have hlt : beNat t.toOctets < 256 ^ 8 := beNat_lt_of_length (Nat.le_of_eq hlen)
    have hoctets : beBytes 8 (beNat t.toOctets) = t.toOctets := by
      apply beNat_inj
      · rw [beBytes_length, hlen]
      · exact beNat_beBytes_of_lt hlt
    change ChannelValue.timestamp ((UtcTime.fromOctets (beBytes 8 _)).getD defaultTime) = _
    rw [hoctets, UtcTime.fromOctets_toOctets, hexact.onWire_eq]
    rfl
  all_goals cases h

/-! ### The block -/

theorem Tiled.inside {len : Nat} {cs : List Channel} (h : Tiled start cs len) {i : Nat}
    {c : Channel} (hc : cs[i]? = some c) : start ≤ c.offset ∧ c.offset + c.kind.width ≤ len := by
  induction cs generalizing start i with
  | nil => cases hc
  | cons d cs ih =>
    obtain ⟨hoffset, hrest⟩ := h
    have hend : start + d.kind.width ≤ len := by
      clear hc ih
      induction cs generalizing start d with
      | nil => exact Nat.le_of_eq hrest
      | cons e cs ih =>
        have hlater := ih e hrest.1 hrest.2
        omega
    cases i with
    | zero =>
      rw [List.getElem?_cons_zero, Option.some.injEq] at hc
      subst hc
      omega
    | succ i =>
      obtain ⟨hle, hlen⟩ := ih hrest hc
      omega

/-- No two channels share an octet. -/
theorem Tiled.apart {len : Nat} {cs : List Channel} (h : Tiled start cs len) {i j : Nat}
    (hij : i < j) {c d : Channel} (hc : cs[i]? = some c) (hd : cs[j]? = some d) :
    c.offset + c.kind.width ≤ d.offset := by
  induction cs generalizing start i j with
  | nil => cases hc
  | cons e cs ih =>
    obtain ⟨hoffset, hrest⟩ := h
    obtain ⟨j, rfl⟩ := Nat.exists_eq_succ_of_ne_zero (Nat.ne_of_gt (Nat.zero_lt_of_lt hij))
    cases i with
    | zero =>
      rw [List.getElem?_cons_zero, Option.some.injEq] at hc
      subst hc
      have hle := (hrest.inside hd).1
      omega
    | succ i => exact ih hrest (Nat.lt_of_succ_lt_succ hij) hc hd

theorem slice_splice {xs new : Bytes} (h : start + new.length ≤ xs.length) :
    slice (splice xs start new) start (start + new.length) = some new := by
  apply slice_append
  · rw [List.length_take]
    omega
  · rfl

/-- The octets beside those that are overwritten. -/
theorem slice_splice_beside {xs new : Bytes} {a b : Nat} (h : start + new.length ≤ xs.length)
    (hbeside : b ≤ start ∨ start + new.length ≤ a) :
    slice (splice xs start new) a b = slice xs a b := by
  have hoctets : a ≤ b → ((splice xs start new).take b).drop a = (xs.take b).drop a := by
    intro hab
    rcases hbeside with hbefore | hafter
    · rw [splice, List.take_append_of_le_length, List.take_take, Nat.min_eq_left hbefore]
      rw [List.length_take]
      omega
    · have hlen : (xs.take start ++ new).length = start + new.length := by
        rw [List.length_append, List.length_take]
        omega
      rw [List.drop_take, List.drop_take, splice, ← List.append_assoc, List.drop_append,
        List.drop_eq_nil_of_le (Nat.le_trans (Nat.le_of_eq hlen) hafter), hlen, List.nil_append,
        List.drop_drop, Nat.add_sub_cancel' hafter]
  rw [slice, slice, splice_length h]
  split
  · rename_i hrange
    rw [hoctets hrange.1]
  · rfl

namespace ChannelLayout

/-- A write takes exactly what fits the channel, which is then read back and leaves the other
channels as they were; what it refuses leaves the block as it was. -/
structure Faithful (l : ChannelLayout) (sample : Bytes) (i : Nat) (v : ChannelValue) : Prop where
  accepted : (l.write sample i v).1.isOk = true ↔ ∃ c, l.channels[i]? = some c ∧ c.kind.Fits v
  written : (l.write sample i v).1.isOk = true → l.value (l.write sample i v).2 i = some v ∧
    ∀ j, j ≠ i → l.value (l.write sample i v).2 j = l.value sample j
  refused : (l.write sample i v).1.isOk = false → (l.write sample i v).2 = sample

/-- What a write to a channel does. -/
theorem write_eq (l : ChannelLayout) {sample : Bytes} (hlen : sample.length = l.len) {i : Nat}
    {c : Channel} (hc : l.channels[i]? = some c) (v : ChannelValue) :
    l.write sample i v =
      match octetsOf c.kind v with
      | .error e => (.error e, sample)
      | .ok octets => (.ok (), splice sample c.offset octets) := by
  have hinside := (l.tiled.inside hc).2
  have hslice : ∃ octets, slice sample c.offset (c.offset + c.kind.width) = some octets := by
    rw [slice, if_pos (by omega)]
    exact ⟨_, rfl⟩
  obtain ⟨octets, hslice⟩ := hslice
  rw [write, hc]
  simp only [hslice]

/-- The channel is read from what was written, the others from what they were. -/
theorem value_write {l : ChannelLayout} {sample : Bytes} (hlen : sample.length = l.len) {i : Nat}
    {c : Channel} (hc : l.channels[i]? = some c) {v : ChannelValue} {octets : Bytes}
    (hoctets : octetsOf c.kind v = .ok octets) :
    l.value (splice sample c.offset octets) i = some (readChannel c.kind octets) ∧
      ∀ j, j ≠ i → l.value (splice sample c.offset octets) j = l.value sample j := by
  have hwidth := octetsOf_length hoctets
  have hinside := (l.tiled.inside hc).2
  have hfits : c.offset + octets.length ≤ sample.length := by
    omega
  constructor
  · rw [value, hc]
    dsimp only
    rw [← hwidth, slice_splice hfits]
    rfl
  · intro j hj
    rw [value, value]
    cases hd : l.channels[j]? with
    | none => rfl
    | some d =>
      dsimp only
      rw [slice_splice_beside hfits]
      rcases Nat.lt_or_gt_of_ne hj with hlt | hlt
      · exact Or.inl (l.tiled.apart hlt hd hc)
      · have hapart := l.tiled.apart hlt hc hd
        omega

/-- A write is faithful exactly if its channel does not cut the value. -/
theorem write_faithful_iff (l : ChannelLayout) (sample : Bytes) (hlen : sample.length = l.len)
    (i : Nat) (v : ChannelValue) (hv : v.InRange) :
    l.Faithful sample i v ↔ ∀ c, l.channels[i]? = some c → ¬ c.kind.Cuts v := by
  cases hc : l.channels[i]? with
  | none =>
    refine iff_of_true ?_ nofun
    have hwrite : l.write sample i v = (.error (.invalidValue "no such channel"), sample) := by
      rw [write, hc]
    constructor
    · rw [hwrite, hc]
      exact iff_of_false nofun (fun ⟨_, h, _⟩ => nomatch h)
    · rw [hwrite]
      exact nofun
    · rw [hwrite]
      exact fun _ => rfl
  | some c =>
    have hfits : (∃ c', l.channels[i]? = some c' ∧ c'.kind.Fits v) ↔ c.kind.Fits v := by
      rw [hc]
      constructor
      · rintro ⟨c', heq, h⟩
        cases heq
        exact h
      · exact fun h => ⟨c, rfl, h⟩
    have hok := octetsOf_isOk c.kind hv
    have hwrite := write_eq l hlen hc v
    constructor
    · rintro ⟨haccepted, -, -⟩ c' heq hcuts
      cases heq
      obtain ⟨octets, hoctets⟩ : ∃ octets, octetsOf c.kind v = .ok octets := by
        have := hok.mpr (Or.inr hcuts)
        cases hoctets : octetsOf c.kind v with
        | error e => rw [hoctets] at this; cases this
        | ok octets => exact ⟨octets, rfl⟩
      rw [hfits, hwrite, hoctets] at haccepted
      exact (haccepted.mp rfl).not_cuts hcuts
    · intro h
      have hcuts := h c rfl
      rw [or_iff_left hcuts] at hok
      cases hoctets : octetsOf c.kind v with
      | error e =>
        rw [hoctets] at hok hwrite
        constructor
        · rw [hfits, hwrite]
          exact hok
        · rw [hwrite]
          exact nofun
        · rw [hwrite]
          exact fun _ => rfl
      | ok octets =>
        obtain ⟨hvalue, hothers⟩ := value_write hlen hc hoctets
        rw [read_octetsOf hv hoctets hcuts] at hvalue
        rw [hoctets] at hok hwrite
        constructor
        · rw [hfits, hwrite]
          exact hok
        · rw [hwrite]
          exact fun _ => ⟨hvalue, hothers⟩
        · rw [hwrite]
          exact nofun

/-- A current and its quality. -/
def current : ChannelLayout := new [(ascii "Amp.instMag.i", .int 4), (ascii "Amp.q", .quality)]

theorem write_faithful_iff_current : (-2 ^ 63 ≤ (-300 : Int) ∧ (-300 : Int) < 2 ^ 63) ∧
      current.Faithful [0, 0, 0, 0, 0, 0, 0, 0] 0 (.int (-300)) := by
  have hrange : -2 ^ 63 ≤ (-300 : Int) ∧ (-300 : Int) < 2 ^ 63 := by
    decide
  refine ⟨hrange, (write_faithful_iff current _ rfl 0 (.int (-300)) hrange).mpr ?_⟩
  intro c hc hcuts
  cases hc
  exact hcuts

/-- Ten to the 300th is written to a single as infinity. -/
theorem written_as_infinity : ¬ (new [(ascii "Amp.instMag.f", .float32)]).Faithful [0, 0, 0, 0] 0
      (.float 0x7E37E43C8800759C) := by
  intro h
  have hread := (h.written (by decide)).1
  revert hread
  decide

/-! ### Whole blocks -/

variable {l : ChannelLayout} {sample : Bytes} {i : Nat} {c : Channel} {cs : List Channel}

/-- A write of a value that fits. -/
theorem write_fits (hlen : sample.length = l.len) (hc : l.channels[i]? = some c)
    {v : ChannelValue} (hv : v.InRange) (hfits : c.kind.Fits v) :
    ∃ block, l.write sample i v = (.ok (), block) ∧ block.length = l.len ∧
      l.value block i = some v ∧ ∀ j, j ≠ i → l.value block j = l.value sample j := by
  have hok := (octetsOf_isOk c.kind hv).mpr (Or.inl hfits)
  cases hoctets : octetsOf c.kind v with
  | error e =>
    rw [hoctets] at hok
    cases hok
  | ok octets =>
    obtain ⟨hvalue, hothers⟩ := value_write hlen hc hoctets
    rw [read_octetsOf hv hoctets hfits.not_cuts] at hvalue
    have hinside := (l.tiled.inside hc).2
    have hwidth := octetsOf_length hoctets
    refine ⟨splice sample c.offset octets, ?_, ?_, hvalue, hothers⟩
    · rw [write_eq l hlen hc, hoctets]
    · rw [splice_length (by omega), hlen]

/-- A block after some writes. -/
def fill (l : ChannelLayout) (sample : Bytes) (writes : List (Nat × ChannelValue)) : Bytes :=
  writes.foldl (fun block w => (l.write block w.1 w.2).2) sample

/-- A write of a value that its channel can hold. -/
def Admits (l : ChannelLayout) (w : Nat × ChannelValue) : Prop :=
  w.2.InRange ∧ ∃ c, l.channels[w.1]? = some c ∧ c.kind.Fits w.2

theorem value_fill (hlen : sample.length = l.len) {writes : List (Nat × ChannelValue)}
    (hwrites : ∀ w ∈ writes, l.Admits w) : (l.fill sample writes).length = l.len ∧
      ∀ j, l.value (l.fill sample writes) j = (writes.reverse.lookup j).or (l.value sample j) := by
  induction writes generalizing sample with
  | nil => exact ⟨hlen, fun _ => rfl⟩
  | cons w writes ih =>
    obtain ⟨i, v⟩ := w
    rw [List.forall_mem_cons] at hwrites
    obtain ⟨⟨hv, c, hc, hfits⟩, hwrites⟩ := hwrites
    obtain ⟨block, hwrite, hafter, hread, hothers⟩ := write_fits hlen hc hv hfits
    obtain ⟨hlength, hvalues⟩ := ih hafter hwrites
    have hblock : l.fill sample ((i, v) :: writes) = l.fill block writes := by
      rw [fill, List.foldl_cons, hwrite]
      rfl
    rw [hblock, List.reverse_cons]
    refine ⟨hlength, fun j => ?_⟩
    rw [hvalues, List.lookup_append, Option.or_assoc, List.lookup_cons]
    by_cases hj : j = i
    · rw [hj, hread, beq_self_eq_true]
      rfl
    · rw [hothers j hj, beq_false_of_ne hj]
      rfl

theorem getElem_of_drop {xs : List Channel} (h : xs.drop i = c :: cs) :
    xs[i]? = some c ∧ xs.drop (i + 1) = cs := by
  constructor
  · rw [← List.head?_drop, h]
    rfl
  · rw [← List.tail_drop, h]
    rfl

/-- A whole block yields all of its channels. -/
theorem decodeFrom_whole (hlen : sample.length = l.len) (h : l.channels.drop i = cs) :
    (l.decodeFrom sample i cs).length = cs.length ∧ ∀ k c, cs[k]? = some c →
      (l.decodeFrom sample i cs)[k]? = (l.value sample (i + k)).map (c, ·) := by
  induction cs generalizing i with
  | nil => exact ⟨rfl, fun k c hc => absurd hc (by simp)⟩
  | cons c cs ih =>
    obtain ⟨hc, hrest⟩ := getElem_of_drop h
    obtain ⟨v, hv⟩ : ∃ v, l.value sample i = some v := by
      have hinside := (l.tiled.inside hc).2
      rw [value, hc]
      dsimp only
      rw [slice, if_pos (by omega)]
      exact ⟨_, rfl⟩
    obtain ⟨hlength, hvalues⟩ := ih hrest
    rw [decodeFrom, hv]
    refine ⟨congrArg (· + 1) hlength, fun k d hd => ?_⟩
    cases k with
    | zero =>
      cases hd
      exact congrArg (Option.map _) hv.symm
    | succ k =>
      have hnext : i + (k + 1) = i + 1 + k := by
        omega
      rw [hnext]
      exact hvalues k d hd

/-- Whatever is written to the channels of a block, and in whatever order, each channel is decoded
as what was written to it last, or as what it held. -/
theorem decode_fill (l : ChannelLayout) (sample : Bytes) (hlen : sample.length = l.len)
    (writes : List (Nat × ChannelValue)) (hwrites : ∀ w ∈ writes, l.Admits w) :
    (l.decode (l.fill sample writes)).length = l.channels.length ∧
      ∀ i c, l.channels[i]? = some c → (l.decode (l.fill sample writes))[i]? =
        ((writes.reverse.lookup i).or (l.value sample i)).map (c, ·) := by
  obtain ⟨hafter, hvalues⟩ := value_fill hlen hwrites
  obtain ⟨hlength, hdecoded⟩ := decodeFrom_whole hafter (List.drop_zero (l := l.channels))
  refine ⟨hlength, fun i c hc => ?_⟩
  rw [← hvalues, decode, hdecoded i c hc, Nat.zero_add]

/-- The quality is written first, and the current twice. -/
def threeWrites : List (Nat × ChannelValue) :=
  [(1, .quality Quality.allGood), (0, .int 7), (0, .int (-300))]

theorem decode_fill_current :
    (current.decode (current.fill [0, 0, 0, 0, 0, 0, 0, 0] threeWrites))[0]? =
        some (⟨ascii "Amp.instMag.i", .int 4, 0⟩, .int (-300)) ∧
      (current.decode (current.fill [0, 0, 0, 0, 0, 0, 0, 0] threeWrites))[1]? =
        some (⟨ascii "Amp.q", .quality, 4⟩, .quality Quality.allGood) := by
  have hwrites : ∀ w ∈ threeWrites, current.Admits w := by
    simp only [threeWrites, List.forall_mem_cons]
    refine ⟨⟨trivial, _, rfl, trivial⟩, ⟨?_, _, rfl, ?_⟩, ⟨?_, _, rfl, ?_⟩, List.forall_mem_nil _⟩
    all_goals constructor <;> decide
  obtain ⟨-, hdecoded⟩ := decode_fill current [0, 0, 0, 0, 0, 0, 0, 0] rfl threeWrites hwrites
  exact ⟨hdecoded 0 _ rfl, hdecoded 1 _ rfl⟩

theorem value_take (hc : l.channels[i]? = some c) (n : Nat) : l.value (sample.take n) i =
      if c.offset + c.kind.width ≤ n then l.value sample i else none := by
  rw [value, value, hc]
  dsimp only
  rw [slice, slice, List.length_take]
  split
  · rename_i hrange
    rw [if_pos (by omega), if_pos (by omega), List.take_take, Nat.min_eq_left (by omega)]
  · rename_i hrange
    split
    · rw [if_neg (by omega)]
    · rfl

theorem decodeFrom_take (n : Nat) (h : l.channels.drop i = cs) : l.decodeFrom (sample.take n) i cs =
      (l.decodeFrom sample i cs).takeWhile fun p => p.1.offset + p.1.kind.width ≤ n := by
  induction cs generalizing i with
  | nil => rfl
  | cons c cs ih =>
    obtain ⟨hc, hrest⟩ := getElem_of_drop h
    rw [decodeFrom, decodeFrom, value_take hc]
    by_cases hwhole : c.offset + c.kind.width ≤ n
    · rw [if_pos hwhole]
      cases l.value sample i with
      | none => rfl
      | some v =>
        dsimp only
        rw [ih hrest]
        exact (List.takeWhile_cons_of_pos (by simpa using hwhole)).symm
    · rw [if_neg hwhole]
      cases l.value sample i with
      | none => rfl
      | some v => exact (List.takeWhile_cons_of_neg (by simpa using hwhole)).symm

/-- A block that is cut short yields the channels that it has whole, and nothing for the others. -/
theorem decode_take (l : ChannelLayout) (sample : Bytes) (n : Nat) :
    l.decode (sample.take n) =
      (l.decode sample).takeWhile fun p => p.1.offset + p.1.kind.width ≤ n :=
  decodeFrom_take n List.drop_zero

end ChannelLayout

end Iec61850.Sv
