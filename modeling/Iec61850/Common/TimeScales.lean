import Iec61850.Common.Time

/-!
# Times in seconds, nanoseconds and milliseconds

The conversions of `common/time.rs` between the time a clock counts in nanoseconds and the two
times of the wire, which count in parts of two to the 24th of a second and in milliseconds of a
day. Each of them rounds down and stops at the last time its field can express; where the seconds
stop and the fraction goes on, a later time comes out as an earlier one.
-/

namespace Iec61850

open Theory

/-! ### The two fractions of a second -/

/-- Nanoseconds within a second as a binary fraction. -/
def fractionOf (nanos : Nat) : Nat := nanos * 2 ^ 24 / 1000000000

theorem fractionOf_lt {nanos : Nat} (h : nanos < 1000000000) : fractionOf nanos < 2 ^ 24 := by
  unfold fractionOf
  omega

theorem fractionOf_mono {m n : Nat} (h : m ≤ n) : fractionOf m ≤ fractionOf n :=
  Nat.div_le_div_right (Nat.mul_le_mul_right _ h)

theorem fractionOf_eq_last {nanos : Nat} (h : nanos < 1000000000) :
    fractionOf nanos = 2 ^ 24 - 1 ↔ 999999941 ≤ nanos := by
  unfold fractionOf
  omega

/-- A fraction read back loses less than what one unit of it is worth, and one more for rounding
down twice. -/
theorem nanos_fractionOf (nanos : Nat) : fractionOf nanos * 1000000000 / 2 ^ 24 ≤ nanos ∧
      nanos ≤ fractionOf nanos * 1000000000 / 2 ^ 24 + 60 := by
  unfold fractionOf
  omega

theorem fractionOf_nanos (fraction : Nat) : fractionOf (fraction * 1000000000 / 2 ^ 24) ≤ fraction ∧
      fraction ≤ fractionOf (fraction * 1000000000 / 2 ^ 24) + 1 := by
  unfold fractionOf
  omega

namespace UtcTime

/-- Not a later time: by the seconds, and by the fraction within one second. -/
def NotAfter (s t : UtcTime) : Prop :=
  s.seconds < t.seconds ∨ s.seconds = t.seconds ∧ s.fraction ≤ t.fraction

instance (s t : UtcTime) : Decidable (NotAfter s t) :=
  inferInstanceAs (Decidable (s.seconds < t.seconds ∨ s.seconds = t.seconds ∧ s.fraction ≤ t.fraction))

/-- The last time there is. -/
def last (quality : TimeQuality) : UtcTime := ⟨u32Max, 2 ^ 24 - 1, quality⟩

theorem fromUnix_eq (seconds nanos : Nat) (quality : TimeQuality) : fromUnix seconds nanos quality =
      ⟨min u32Max (seconds + nanos / 1000000000), fractionOf (nanos % 1000000000), quality⟩ := by
  have hlt : fractionOf (nanos % 1000000000) < 2 ^ 24 :=
    fractionOf_lt (Nat.mod_lt _ (by decide))
  rw [fromUnix]
  congr 1
  exact Nat.mod_eq_of_lt hlt

theorem fromUnixNanos_eq (nanos : Nat) (quality : TimeQuality) : fromUnixNanos nanos quality =
      ⟨min u32Max (nanos / 1000000000), fractionOf (nanos % 1000000000), quality⟩ := by
  have hsecond : nanos % 1000000000 / 1000000000 = 0 :=
    Nat.div_eq_of_lt (Nat.mod_lt _ (by decide))
  have hmod : nanos % 1000000000 % 1000000000 = nanos % 1000000000 := Nat.mod_mod _ _
  rw [fromUnixNanos, fromUnix_eq, hsecond, hmod]
  congr 1
  split
  · omega
  · omega

theorem fraction_fromOctets {octets : Bytes} {t : UtcTime} (h : fromOctets octets = some t) :
    t.seconds ≤ u32Max ∧ t.fraction < 2 ^ 24 := by
  unfold fromOctets at h
  split at h
  · cases h
    rename_i a b c d e f g q
    have hseconds : beNat [a, b, c, d] < 256 ^ 4 := beNat_lt _
    have hfraction : beNat [e, f, g] < 256 ^ 3 := beNat_lt _
    dsimp only
    rw [u32Max]
    omega
  · cases h

/-- A time in units of its fraction. -/
def units (t : UtcTime) : Nat := t.seconds * 2 ^ 24 + t.fraction

theorem units_fromUnixNanos {t : UtcTime} (hseconds : t.seconds ≤ u32Max)
    (hfraction : t.fraction < 2 ^ 24) (quality : TimeQuality) :
    (fromUnixNanos t.toUnixNanos quality).units ≤ t.units ∧
      t.units ≤ (fromUnixNanos t.toUnixNanos quality).units + 1 := by
  have hnanos : t.nanos = t.fraction * 1000000000 / 2 ^ 24 := by
    rw [nanos, Nat.mod_eq_of_lt hfraction]
  have hlt : t.nanos < 1000000000 := by
    rw [hnanos]
    omega
  have hdiv : t.toUnixNanos / 1000000000 = t.seconds := by
    rw [toUnixNanos]
    omega
  have hmod : t.toUnixNanos % 1000000000 = t.nanos := by
    rw [toUnixNanos]
    omega
  obtain ⟨hlow, hhigh⟩ := fractionOf_nanos t.fraction
  rw [fromUnixNanos_eq, hdiv, hmod, hnanos, Nat.min_eq_right hseconds]
  simp only [units]
  omega

end UtcTime

/-! ### The days since 1984 -/

namespace EntryTime

/-- Not a later time: by the days, and by the milliseconds within one day. -/
def NotAfter (s t : EntryTime) : Prop :=
  s.daysSince1984 < t.daysSince1984 ∨
    s.daysSince1984 = t.daysSince1984 ∧ s.millisOfDay ≤ t.millisOfDay

/-- The first and the last moment the field can express. -/
def firstMillis : Nat := toUnixMillis ⟨0, 0⟩

def lastMillis : Nat := toUnixMillis max

/-- The moment of the field next to a time. -/
def clamp (millis : Nat) : Nat :=
  if millis < firstMillis then firstMillis else min millis lastMillis

theorem firstMillis_eq : firstMillis = 5113 * 86400000 := rfl

theorem lastMillis_eq : lastMillis = 70648 * 86400000 + 86399999 := rfl

theorem firstMillis_le_clamp (millis : Nat) : firstMillis ≤ clamp millis := by
  have hfirst := firstMillis_eq
  have hlast := lastMillis_eq
  unfold clamp
  split
  · exact Nat.le_refl _
  · omega

theorem clamp_mono {i j : Nat} (h : i ≤ j) : clamp i ≤ clamp j := by
  have hj := firstMillis_le_clamp j
  rw [clamp]
  split
  · exact hj
  · rw [clamp, if_neg (by omega)]
    omega

theorem clamp_of_between {millis : Nat} (hfirst : firstMillis ≤ millis)
    (hlast : millis ≤ lastMillis) : clamp millis = millis := by
  rw [clamp, if_neg (Nat.not_lt_of_le hfirst)]
  exact Nat.min_eq_left hlast

theorem fromUnixMillis_eq (millis : Nat) :
    fromUnixMillis millis = ⟨clamp millis % 86400000, clamp millis / 86400000 - 5113⟩ := by
  have hfirst := firstMillis_eq
  have hlast := lastMillis_eq
  have hclamp : clamp millis =
      if millis / 86400000 < 5113 then firstMillis
      else if millis / 86400000 - 5113 > 65535 then lastMillis else millis := by
    rw [clamp]
    split
    · rw [if_pos (by omega)]
    · rw [if_neg (by omega)]
      split
      · omega
      · omega
  rw [hclamp, fromUnixMillis, mmsEpochDays]
  split
  · rw [hfirst]
  · split
    · rw [hlast]
    · rfl

theorem toUnixMillis_fromUnixMillis (millis : Nat) :
    (fromUnixMillis millis).toUnixMillis = clamp millis := by
  have hfirst := firstMillis_le_clamp millis
  rw [firstMillis_eq] at hfirst
  rw [fromUnixMillis_eq, toUnixMillis, mmsEpochDays]
  dsimp only
  omega

theorem notAfter_iff {i j : Nat} :
    (fromUnixMillis i).NotAfter (fromUnixMillis j) ↔ clamp i ≤ clamp j := by
  have hi := firstMillis_le_clamp i
  have hj := firstMillis_le_clamp j
  rw [firstMillis_eq] at hi hj
  rw [fromUnixMillis_eq, fromUnixMillis_eq]
  unfold NotAfter
  dsimp only
  omega

theorem le_iff {i j : Nat} (h : i ≤ j) :
    fromUnixMillis i ≤ fromUnixMillis j ↔ clamp i % 86400000 ≤ clamp j % 86400000 := by
  have hclamp := clamp_mono h
  rw [fromUnixMillis_eq, fromUnixMillis_eq]
  change (clamp i % 86400000 < clamp j % 86400000 ∨ clamp i % 86400000 = clamp j % 86400000 ∧
    clamp i / 86400000 - 5113 ≤ clamp j / 86400000 - 5113) ↔ _
  omega

end EntryTime

/-! ### All conversions -/

open UtcTime

/-- What is asked of the conversions: at two counts of nanoseconds, two times in seconds and
nanoseconds, a time off the wire, and two counts of milliseconds, whose entry times are compared by
`le`. -/
structure ScalesKept (le : EntryTime → EntryTime → Prop) (quality : TimeQuality) (m n : Nat)
    (a b : Nat × Nat) (octets : Bytes) (i j : Nat) : Prop where
  monotone : m ≤ n → (fromUnixNanos m quality).NotAfter (fromUnixNanos n quality)
  saturates : u32Max < n / 1000000000 → fromUnixNanos n quality = last quality
  near : n / 1000000000 ≤ u32Max → (fromUnixNanos n quality).toUnixNanos ≤ n ∧
    n ≤ (fromUnixNanos n quality).toUnixNanos + 60
  carried : a.1 * 1000000000 + a.2 ≤ b.1 * 1000000000 + b.2 →
    (fromUnix a.1 a.2 quality).NotAfter (fromUnix b.1 b.2 quality)
  reread : ∀ t, fromOctets octets = some t →
    (fromUnixNanos t.toUnixNanos quality).units ≤ t.units ∧
      t.units ≤ (fromUnixNanos t.toUnixNanos quality).units + 1
  ordered : i ≤ j → le (EntryTime.fromUnixMillis i) (EntryTime.fromUnixMillis j)
  undone : EntryTime.firstMillis ≤ i → i ≤ EntryTime.lastMillis →
    (EntryTime.fromUnixMillis i).toUnixMillis = i

/-- The seconds of a count of nanoseconds fit, or what is left of it is in the last unit of a second. -/
def NanosFit (n : Nat) : Prop := n / 1000000000 ≤ u32Max ∨ 999999941 ≤ n % 1000000000

/-- Where the seconds stop, a later time has no fewer units left. -/
def SecondsFit (a b : Nat × Nat) : Prop :=
  a.1 * 1000000000 + a.2 ≤ b.1 * 1000000000 + b.2 → u32Max ≤ a.1 + a.2 / 1000000000 →
    fractionOf (a.2 % 1000000000) ≤ fractionOf (b.2 % 1000000000)

theorem notAfter_fromUnix_iff {a b : Nat × Nat} {quality : TimeQuality}
    (h : a.1 * 1000000000 + a.2 ≤ b.1 * 1000000000 + b.2) :
    (fromUnix a.1 a.2 quality).NotAfter (fromUnix b.1 b.2 quality) ↔
      (u32Max ≤ a.1 + a.2 / 1000000000 →
        fractionOf (a.2 % 1000000000) ≤ fractionOf (b.2 % 1000000000)) := by
  have hseconds : a.1 + a.2 / 1000000000 ≤ b.1 + b.2 / 1000000000 := by omega
  have hequal : a.1 + a.2 / 1000000000 = b.1 + b.2 / 1000000000 →
      fractionOf (a.2 % 1000000000) ≤ fractionOf (b.2 % 1000000000) := by
    intro heq
    apply fractionOf_mono
    omega
  rw [fromUnix_eq, fromUnix_eq]
  unfold UtcTime.NotAfter
  dsimp only
  omega

theorem saturates_iff {n : Nat} {quality : TimeQuality} :
    (u32Max < n / 1000000000 → fromUnixNanos n quality = last quality) ↔ NanosFit n := by
  have hlast := fractionOf_eq_last (Nat.mod_lt n (y := 1000000000) (by decide))
  rw [fromUnixNanos_eq, last, NanosFit]
  constructor
  · intro h
    by_cases hover : u32Max < n / 1000000000
    · obtain ⟨-, hfraction, -⟩ := UtcTime.mk.inj (h hover)
      exact Or.inr (hlast.mp hfraction)
    · exact Or.inl (Nat.le_of_not_lt hover)
  · intro h hover
    rw [Nat.min_eq_left (Nat.le_of_lt hover), hlast.mpr (by omega)]

theorem monotone_of_fit {m n : Nat} {quality : TimeQuality} (hn : NanosFit n) (h : m ≤ n) :
    (fromUnixNanos m quality).NotAfter (fromUnixNanos n quality) := by
  have hm : fractionOf (m % 1000000000) < 2 ^ 24 := fractionOf_lt (Nat.mod_lt _ (by decide))
  have hlast := fractionOf_eq_last (Nat.mod_lt n (y := 1000000000) (by decide))
  have hmono : m / 1000000000 = n / 1000000000 →
      fractionOf (m % 1000000000) ≤ fractionOf (n % 1000000000) := by
    intro heq
    apply fractionOf_mono
    omega
  rw [fromUnixNanos_eq, fromUnixNanos_eq]
  unfold UtcTime.NotAfter
  dsimp only
  rcases hn with hn | hn
  · omega
  · have := hlast.mpr hn
    omega

theorem near_fromUnixNanos {n : Nat} (quality : TimeQuality) (h : n / 1000000000 ≤ u32Max) :
    (fromUnixNanos n quality).toUnixNanos ≤ n ∧ n ≤ (fromUnixNanos n quality).toUnixNanos + 60 := by
  have hlt : fractionOf (n % 1000000000) < 2 ^ 24 := fractionOf_lt (Nat.mod_lt _ (by decide))
  have hnear := nanos_fractionOf (n % 1000000000)
  rw [fromUnixNanos_eq, Nat.min_eq_right h, toUnixNanos, nanos]
  dsimp only
  rw [Nat.mod_eq_of_lt hlt]
  omega

/-- The conversions keep the order of times, and the times, exactly while the seconds fit or what is
left over happens to be in order too; entry times keep it by the day, and by the derived order exactly
as far as the milliseconds of the day do. -/
theorem scalesKept_iff (quality : TimeQuality) (m n : Nat) (a b : Nat × Nat) (octets : Bytes)
    (i j : Nat) :
    (ScalesKept EntryTime.NotAfter quality m n a b octets i j ↔ NanosFit n ∧ SecondsFit a b) ∧
      (ScalesKept (· ≤ ·) quality m n a b octets i j ↔ (NanosFit n ∧ SecondsFit a b) ∧
        (i ≤ j → EntryTime.clamp i % 86400000 ≤ EntryTime.clamp j % 86400000)) := by
  have hfit : ∀ {le}, ScalesKept le quality m n a b octets i j → NanosFit n ∧ SecondsFit a b := by
    intro le h
    exact ⟨saturates_iff.mp h.saturates, fun hab => (notAfter_fromUnix_iff hab).mp (h.carried hab)⟩
  have hkept : ∀ {le : EntryTime → EntryTime → Prop}, NanosFit n ∧ SecondsFit a b →
      (i ≤ j → le (EntryTime.fromUnixMillis i) (EntryTime.fromUnixMillis j)) →
      ScalesKept le quality m n a b octets i j := by
    intro le h hle
    refine ⟨monotone_of_fit h.1, saturates_iff.mpr h.1, near_fromUnixNanos quality,
      fun hab => (notAfter_fromUnix_iff hab).mpr (h.2 hab), ?_, hle, ?_⟩
    · intro t ht
      obtain ⟨hseconds, hfraction⟩ := fraction_fromOctets ht
      exact units_fromUnixNanos hseconds hfraction quality
    · intro hfirst hlast
      rw [EntryTime.toUnixMillis_fromUnixMillis, EntryTime.clamp_of_between hfirst hlast]
  refine ⟨⟨hfit, ?_⟩, ⟨?_, ?_⟩⟩
  · intro h
    exact hkept h fun hij => EntryTime.notAfter_iff.mpr (EntryTime.clamp_mono hij)
  · intro h
    exact ⟨hfit h, fun hij => (EntryTime.le_iff hij).mp (h.ordered hij)⟩
  · rintro ⟨h, hij⟩
    exact hkept h fun hle => (EntryTime.le_iff hle).mpr (hij hle)

/-- A nanosecond after the last second, the time is back at the beginning of it. -/
theorem second_begins_again :
    ¬ ∀ quality m n a b octets i j, ScalesKept EntryTime.NotAfter quality m n a b octets i j := by
  intro h
  have hkept := h .synchronized 4294967295999999999 4294967296000000000 (0, 0) (0, 0) [] 0 0
  exact absurd (hkept.monotone (by decide)) (by decide)

end Iec61850
