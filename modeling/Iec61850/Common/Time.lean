import Iec61850.Common.Basic

/-!
# Times on the wire

`common/time.rs`: the `UtcTime` of a timestamp attribute and the `EntryTime` of reports and
logs, with their octet forms.
-/

namespace Iec61850

open Theory

/-- The quality octet of a `UtcTime`. -/
structure TimeQuality where
  leapSecondsKnown : Bool
  clockFailure : Bool
  clockNotSynchronized : Bool
  accuracy : Nat
  deriving DecidableEq, Repr

namespace TimeQuality

def accuracyUnspecified : Nat := 31

def synchronized : TimeQuality := ⟨true, false, false, accuracyUnspecified⟩

def unsynchronized : TimeQuality := ⟨false, false, true, accuracyUnspecified⟩

def toOctet (q : TimeQuality) : UInt8 :=
  UInt8.ofNat ((if q.leapSecondsKnown then 128 else 0) + (if q.clockFailure then 64 else 0) +
    (if q.clockNotSynchronized then 32 else 0) + q.accuracy % 32)

def fromOctet (b : UInt8) : TimeQuality :=
  ⟨decide (b.toNat / 128 = 1), decide (b.toNat / 64 % 2 = 1), decide (b.toNat / 32 % 2 = 1),
    b.toNat % 32⟩

end TimeQuality

/-- IEC 61850 `UtcTime`: seconds since 1970, a 24-bit fraction, and the quality. -/
structure UtcTime where
  seconds : Nat
  fraction : Nat
  quality : TimeQuality
  deriving DecidableEq, Repr

namespace UtcTime

def nanos (t : UtcTime) : Nat := t.fraction % 2 ^ 24 * 1000000000 / 2 ^ 24

def toUnixNanos (t : UtcTime) : Nat := t.seconds * 1000000000 + t.nanos

def toOctets (t : UtcTime) : Bytes :=
  beBytes 4 t.seconds ++ beBytes 3 (t.fraction % 2 ^ 24) ++ [t.quality.toOctet]

/-- `UtcTime::from_octets`, for exactly eight octets. -/
def fromOctets : Bytes → Option UtcTime
  | [a, b, c, d, e, f, g, q] =>
    some ⟨beNat [a, b, c, d], beNat [e, f, g], TimeQuality.fromOctet q⟩
  | _ => none

/-- `UtcTime::from_unix`: a `nanos` of a second or more carries into the seconds, which saturate. -/
def fromUnix (seconds nanos : Nat) (quality : TimeQuality) : UtcTime :=
  ⟨min u32Max (seconds + nanos / 1000000000),
    nanos % 1000000000 * 2 ^ 24 / 1000000000 % 2 ^ 24, quality⟩

def fromUnixNanos (nanos : Nat) (quality : TimeQuality) : UtcTime :=
  let s := nanos / 1000000000
  fromUnix (if s > u32Max then u32Max else s) (nanos % 1000000000) quality

end UtcTime

/-- `EntryTime`: milliseconds of the day and days since 1984. -/
structure EntryTime where
  millisOfDay : Nat
  daysSince1984 : Nat
  deriving DecidableEq, Repr

namespace EntryTime

def mmsEpochDays : Nat := 5113

def toOctets (t : EntryTime) : Bytes := beBytes 4 t.millisOfDay ++ beBytes 2 t.daysSince1984

/-- `EntryTime::from_octets`, for exactly six octets. -/
def fromOctets : Bytes → Option EntryTime
  | [a, b, c, d, e, f] => some ⟨beNat [a, b, c, d], beNat [e, f]⟩
  | _ => none

/-- `EntryTime::from_unix_millis`, clamped to what the form can hold. -/
def fromUnixMillis (millis : Nat) : EntryTime :=
  let day := millis / 86400000
  if day < mmsEpochDays then ⟨0, 0⟩
  else if day - mmsEpochDays > 65535 then ⟨86399999, 65535⟩
  else ⟨millis % 86400000, day - mmsEpochDays⟩

def toUnixMillis (t : EntryTime) : Nat :=
  (t.daysSince1984 + mmsEpochDays) * 86400000 + t.millisOfDay

def max : EntryTime := ⟨86399999, 65535⟩

/-- The order derived for `EntryTime`: by the milliseconds of the day first, and by the day for
equal ones. -/
instance : LT EntryTime :=
  ⟨fun s t => s.millisOfDay < t.millisOfDay ∨
    s.millisOfDay = t.millisOfDay ∧ s.daysSince1984 < t.daysSince1984⟩

instance : LE EntryTime :=
  ⟨fun s t => s.millisOfDay < t.millisOfDay ∨
    s.millisOfDay = t.millisOfDay ∧ s.daysSince1984 ≤ t.daysSince1984⟩

instance (s t : EntryTime) : Decidable (s < t) :=
  inferInstanceAs (Decidable (s.millisOfDay < t.millisOfDay ∨
    s.millisOfDay = t.millisOfDay ∧ s.daysSince1984 < t.daysSince1984))

instance (s t : EntryTime) : Decidable (s ≤ t) :=
  inferInstanceAs (Decidable (s.millisOfDay < t.millisOfDay ∨
    s.millisOfDay = t.millisOfDay ∧ s.daysSince1984 ≤ t.daysSince1984))

end EntryTime

/-- The two clocks an operation is called with (`Now`). -/
structure Now where
  mono : Instant
  wall : UtcTime
  deriving DecidableEq, Repr

def Now.entry (n : Now) : EntryTime := EntryTime.fromUnixMillis (n.wall.toUnixNanos / 1000000)

end Iec61850
