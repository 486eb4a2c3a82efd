import Iec61850.Theory.Octets

/-!
# Errors, limits and instants

The error type of the crate, the decoder limits and the monotonic clock readings, as
`common/error.rs`, `common/limits.rs` and `common/machine.rs` define them. A static string of
the source (the reason of an encode error, the name of a limit) is kept word for word.
Rust strings are modelled by their octets, so that a peer's bytes and the names of a model
are compared as the source compares them.
-/

namespace Iec61850

open Theory

/-- Why a decode failed (`DecodeReason`). -/
inductive DecodeReason where
  | truncated
  | badLength
  | indefiniteLength
  | unexpectedTag
  | missingField
  | badValue
  | tooDeep
  | trailingBytes
  | notAscii
  | notProcessBusFrame
  deriving DecidableEq, Repr

/-- The one error type of the crate (`Error`), with the cases the modelled functions raise. -/
inductive Error where
  | decode (reason : DecodeReason) (offset : Nat)
  | limitExceeded (limit : String) (value : Nat)
  | encode (what : String)
  | invalidReference (what : String)
  | notFound (what : String)
  | invalidValue (what : String)
  | dataAccess (code : Int)
  deriving DecidableEq, Repr

/-- Resource limits enforced by decoders before they allocate (`Limits`). -/
structure Limits where
  maxDepth : Nat := 32
  maxDatasetMembers : Nat := 512
  maxPrimitiveLen : Nat := 4096
  maxAsdus : Nat := 16
  maxListItems : Nat := 65536
  deriving DecidableEq, Repr

def Limits.default : Limits := {}

/-- `u64::MAX`. -/
def u64Max : Nat := 2 ^ 64 - 1

/-- `u32::MAX`. -/
def u32Max : Nat := 2 ^ 32 - 1

/-- A monotonic point in time, in nanoseconds (`Instant`). -/
abbrev Instant := Nat

/-- `Instant::plus_millis`, saturating in both the product and the sum. -/
def Instant.plusMillis (t : Instant) (ms : Nat) : Instant :=
  min u64Max (t + min u64Max (ms * 1000000))

/-- `Instant::plus_nanos`, saturating. -/
def Instant.plusNanos (t : Instant) (ns : Nat) : Instant := min u64Max (t + ns)

end Iec61850
