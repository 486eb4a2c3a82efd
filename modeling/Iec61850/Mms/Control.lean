import Iec61850.Ber.Reread
import Iec61850.Common.Data

/-!
# Control requests

`proto/mms/control.rs`: the `Oper`, `SBOw` and `Cancel` structures, the control models, and the
`LastApplError` that says why a command failed.
-/

namespace Iec61850.Mms

open Theory

/-! ### The control models -/

inductive ControlModel where
  | statusOnly
  | directNormal
  | sboNormal
  | directEnhanced
  | sboEnhanced
  deriving DecidableEq, Repr

namespace ControlModel

def fromCode : Int → Option ControlModel
  | 0 => some .statusOnly
  | 1 => some .directNormal
  | 2 => some .sboNormal
  | 3 => some .directEnhanced
  | 4 => some .sboEnhanced
  | _ => none

def needsSelect : ControlModel → Bool
  | .sboNormal | .sboEnhanced => true
  | _ => false

def enhancedSecurity : ControlModel → Bool
  | .directEnhanced | .sboEnhanced => true
  | _ => false

end ControlModel

/-! ### Origin and checks -/

/-- `OriginCategory`; a value outside the enumeration is kept. -/
inductive OriginCategory where
  | notSupported
  | bayControl
  | stationControl
  | remoteControl
  | automaticBay
  | automaticStation
  | automaticRemote
  | maintenance
  | process
  | other (code : Int)
  deriving DecidableEq, Repr

namespace OriginCategory

def fromCode : Int → OriginCategory
  | 0 => .notSupported
  | 1 => .bayControl
  | 2 => .stationControl
  | 3 => .remoteControl
  | 4 => .automaticBay
  | 5 => .automaticStation
  | 6 => .automaticRemote
  | 7 => .maintenance
  | 8 => .process
  | code => .other code

def toCode : OriginCategory → Int
  | .notSupported => 0
  | .bayControl => 1
  | .stationControl => 2
  | .remoteControl => 3
  | .automaticBay => 4
  | .automaticStation => 5
  | .automaticRemote => 6
  | .maintenance => 7
  | .process => 8
  | .other code => code

theorem fromCode_toCode {c : OriginCategory} (h : ∀ code, c = .other code → 8 < code ∨ code < 0) :
    fromCode c.toCode = c := by
  cases c with
  | other code =>
    rw [toCode]
    unfold fromCode
    split <;> first | rfl | (have hcode := h _ rfl; omega)
  | _ => rfl

theorem fromCode_other {code i : Int} (h : fromCode i = .other code) : 8 < code ∨ code < 0 := by
  have hsame : i = code := by
    unfold fromCode at h
    split at h <;> cases h
    rfl
  subst hsame
  by_contra hnamed
  have hcode : i = 0 ∨ i = 1 ∨ i = 2 ∨ i = 3 ∨ i = 4 ∨ i = 5 ∨ i = 6 ∨ i = 7 ∨ i = 8 := by omega
  rcases hcode with rfl | rfl | rfl | rfl | rfl | rfl | rfl | rfl | rfl <;> cases h

end OriginCategory

/-- `Value::members`. -/
def membersOf : Value → Option (List Value)
  | .array m | .structure m => some m
  | _ => none

structure Origin where
  category : OriginCategory
  identifier : Bytes
  deriving DecidableEq, Repr

namespace Origin

def default : Origin := ⟨.remoteControl, []⟩

def toValue (o : Origin) : Value :=
  .structure [.integer o.category.toCode, .octetString o.identifier]

/-- The category of `Origin::from_value`. -/
def categoryOf : Value → Option OriginCategory
  | .integer i => some (.fromCode i)
  | .unsigned u => if u < 2 ^ 63 then some (.fromCode u) else none
  | _ => none

/-- The identifier of `Origin::from_value`. -/
def identifierOf : Value → Option Bytes
  | .octetString bs | .visibleString bs | .mmsString bs => some bs
  | _ => none

def fromValue (v : Value) : Option Origin := do
  let members ← membersOf v
  let category ← members[0]?.bind categoryOf
  let identifier ← members[1]?.bind identifierOf
  some ⟨category, identifier⟩

theorem fromValue_toValue {o : Origin} (h : ∀ code, o.category = .other code → 8 < code ∨ code < 0) :
    fromValue o.toValue = some o := by
  have hcategory := OriginCategory.fromCode_toCode h
  simp only [toValue, fromValue, membersOf, Option.bind_eq_bind, Option.bind_some,
    List.getElem?_cons_zero, List.getElem?_cons_succ, categoryOf, identifierOf, hcategory]

theorem category_of_fromValue {v : Value} {o : Origin} (h : fromValue v = some o) {code : Int}
    (hcode : o.category = .other code) : 8 < code ∨ code < 0 := by
  obtain ⟨members, -, h⟩ := Option.bind_eq_some_iff.mp h
  obtain ⟨category, hcategory, h⟩ := Option.bind_eq_some_iff.mp h
  obtain ⟨identifier, -, h⟩ := Option.bind_eq_some_iff.mp h
  cases h
  obtain ⟨w, -, hw⟩ := Option.bind_eq_some_iff.mp hcategory
  subst hcode
  unfold categoryOf at hw
  split at hw
  · exact OriginCategory.fromCode_other (Option.some.inj hw)
  · split at hw
    · exact OriginCategory.fromCode_other (Option.some.inj hw)
    · cases hw
  · cases hw

end Origin

structure Check where
  synchro : Bool
  interlock : Bool
  deriving DecidableEq, Repr

namespace Check

def none : Check := ⟨false, false⟩

/-- `Check::to_value`: the synchrocheck is bit 0. -/
def toValue (c : Check) : Value :=
  .bitString 6 [(if c.synchro then 0x80 else 0) ||| (if c.interlock then 0x40 else 0)]

def fromValue : Value → Option Check
  | .bitString 6 (b :: _) => some ⟨b &&& 0x80 != 0, b &&& 0x40 != 0⟩
  | _ => Option.none

theorem fromValue_toValue (c : Check) : fromValue c.toValue = some c := by
  obtain ⟨synchro, interlock⟩ := c
  cases synchro <;> cases interlock <;> rfl

end Check

/-! ### The request -/

/-- `ControlRequest`: an `Oper`, `SBOw` or `Cancel` structure. -/
structure ControlRequest where
  ctlVal : Value
  operTm : Option UtcTime
  origin : Origin
  ctlNum : UInt8
  t : UtcTime
  test : Bool
  check : Check
  deriving Repr

namespace ControlRequest

def new (ctlVal : Value) (ctlNum : UInt8) (t : UtcTime) : ControlRequest :=
  ⟨ctlVal, none, .default, ctlNum, t, false, .none⟩

def toValue (r : ControlRequest) : Value :=
  .structure ([r.ctlVal] ++ (r.operTm.map Value.utcTime).toList ++
    [r.origin.toValue, .unsigned r.ctlNum.toNat, .utcTime r.t, .boolean r.test, r.check.toValue])

/-- The error of a structure that is not a request. -/
def bad : Error := .invalidValue "control request structure"

/-- `ok_or_else(bad)`. -/
def orBad {α : Type} : Option α → Except Error α
  | some a => .ok a
  | none => .error bad

/-- `as_utc_time`. -/
def utcTimeOf : Value → Option UtcTime
  | .utcTime t => some t
  | _ => none

def asBool : Value → Option Bool
  | .boolean b => some b
  | _ => none

/-- `operTm`, when it is there: a time where the origin is a structure. -/
def takeOperTm : List Value → Option UtcTime × List Value
  | .utcTime t :: rest => (some t, rest)
  | members => (none, members)

/-- `ctlNum`, when it is there: `T` is told from it by its type. -/
def takeCtlNum : List Value → Except Error (UInt8 × List Value)
  | [] => .ok (0, [])
  | .utcTime t :: rest => .ok (0, .utcTime t :: rest)
  | .unsigned n :: rest => if n < 256 then .ok (UInt8.ofNat n, rest) else .error bad
  | _ :: _ => .error bad

/-- `Check`, absent on a `Cancel`. -/
def checkOf : Option Value → Except Error Check
  | some v => orBad (Check.fromValue v)
  | none => .ok .none

/-- `ControlRequest::from_value`: the members are taken one after the other. -/
def fromValue (v : Value) : Except Error ControlRequest :=
  match membersOf v with
  | none => .error (.invalidValue "a control request is a structure")
  | some [] => .error bad
  | some (ctlVal :: members) => do
      let (operTm, members) := takeOperTm members
      let origin ← orBad (members.head?.bind Origin.fromValue)
      let (ctlNum, members) ← takeCtlNum members.tail
      let t ← orBad (members.head?.bind utcTimeOf)
      let test ← orBad (members.tail.head?.bind asBool)
      let check ← checkOf members.tail.tail.head?
      .ok ⟨ctlVal, operTm, origin, ctlNum, t, test, check⟩

/-- A request is read back as it was written, when its category of origin is not one of the named
codes under another name. -/
theorem fromValue_toValue (r : ControlRequest)
    (h : ∀ code, r.origin.category = .other code → 8 < code ∨ code < 0) :
    fromValue r.toValue = .ok r := by
  obtain ⟨ctlVal, operTm, origin, ctlNum, t, test, check⟩ := r
  have horigin : Origin.fromValue origin.toValue = some origin := Origin.fromValue_toValue h
  have hnum : takeCtlNum (.unsigned ctlNum.toNat :: [.utcTime t, .boolean test, check.toValue]) =
      .ok (ctlNum, [.utcTime t, .boolean test, check.toValue]) := by
    rw [takeCtlNum, if_pos ctlNum.toNat_lt, UInt8.ofNat_toNat]
  -- what follows `operTm` does not begin with a time
  have htime : takeOperTm ((operTm.map Value.utcTime).toList ++
      [origin.toValue, .unsigned ctlNum.toNat, .utcTime t, .boolean test, check.toValue]) =
      (operTm,
        [origin.toValue, .unsigned ctlNum.toNat, .utcTime t, .boolean test, check.toValue]) := by
    cases operTm <;> rfl
  simp only [toValue, fromValue, membersOf, List.cons_append, List.nil_append, htime,
    List.head?_cons, Option.bind_some, horigin, orBad, List.tail_cons, hnum, utcTimeOf, asBool,
    checkOf, Check.fromValue_toValue, bind, Except.bind]

/-- `ControlRequest::to_cancel_value`: the last member is `Check`. -/
def toCancelValue (r : ControlRequest) : Value :=
  match r.toValue with
  | .structure members => .structure members.dropLast
  | v => v

theorem toCancelValue_eq (r : ControlRequest) :
    r.toCancelValue = .structure ([r.ctlVal] ++ (r.operTm.map Value.utcTime).toList ++
      [r.origin.toValue, .unsigned r.ctlNum.toNat, .utcTime r.t, .boolean r.test]) := by
  rw [toCancelValue, toValue]
  cases r.operTm <;> rfl

theorem fromValue_toCancelValue (r : ControlRequest)
    (h : ∀ code, r.origin.category = .other code → 8 < code ∨ code < 0) :
    fromValue r.toCancelValue = .ok { r with check := .none } := by
  obtain ⟨ctlVal, operTm, origin, ctlNum, t, test, check⟩ := r
  have horigin : Origin.fromValue origin.toValue = some origin := Origin.fromValue_toValue h
  have hnum : takeCtlNum (.unsigned ctlNum.toNat :: [.utcTime t, .boolean test]) =
      .ok (ctlNum, [.utcTime t, .boolean test]) := by
    rw [takeCtlNum, if_pos ctlNum.toNat_lt, UInt8.ofNat_toNat]
  have htime : takeOperTm ((operTm.map Value.utcTime).toList ++
      [origin.toValue, .unsigned ctlNum.toNat, .utcTime t, .boolean test]) =
      (operTm, [origin.toValue, .unsigned ctlNum.toNat, .utcTime t, .boolean test]) := by
    cases operTm <;> rfl
  simp only [toCancelValue_eq, fromValue, membersOf, List.cons_append, List.nil_append, htime,
    List.head?_cons, Option.bind_some, horigin, orBad, List.tail_cons, List.head?_nil, hnum,
    utcTimeOf, asBool, checkOf, bind, Except.bind]

theorem orBad_ok {α : Type} {o : Option α} {a : α} (h : orBad o = .ok a) : o = some a := by
  cases o with
  | none => cases h
  | some b =>
    cases h
    rfl

theorem takeOperTm_mem {members rest : List Value} {operTm : Option UtcTime}
    (h : takeOperTm members = (operTm, rest)) :
    (∀ t, operTm = some t → Value.utcTime t ∈ members) ∧ rest ⊆ members := by
  unfold takeOperTm at h
  split at h
  · cases h
    refine ⟨fun t ht => ?_, List.subset_cons_self _ _⟩
    cases ht
    exact List.mem_cons_self
  · cases h
    exact ⟨fun _ ht => absurd ht (by simp), fun _ => id⟩

theorem takeCtlNum_subset {members rest : List Value} {ctlNum : UInt8}
    (h : takeCtlNum members = .ok (ctlNum, rest)) : rest ⊆ members := by
  unfold takeCtlNum at h
  split at h
  · cases h
    exact fun _ => id
  · cases h
    exact fun _ => id
  · split at h
    · cases h
      exact List.subset_cons_self _ _
    · cases h
  · cases h

theorem utcTimeOf_eq {v : Value} {t : UtcTime} (h : utcTimeOf v = some t) : v = .utcTime t := by
  unfold utcTimeOf at h
  split at h
  · cases h
    rfl
  · cases h

/-- The times and the origin of a request are members of what it was read from, behind the value
it commands. -/
theorem exists_members {v : Value} {r : ControlRequest} (h : fromValue v = .ok r) :
    ∃ members, membersOf v = some (r.ctlVal :: members) ∧
      (∀ t, r.operTm = some t → Value.utcTime t ∈ members) ∧
      (∃ w ∈ members, Origin.fromValue w = some r.origin) ∧ Value.utcTime r.t ∈ members := by
  unfold fromValue at h
  split at h
  · cases h
  · cases h
  · rename_i ctlVal members hmembers
    cases htime : takeOperTm members with
    | mk operTm rest =>
      rw [htime] at h
      dsimp only at h
      obtain ⟨hoperTm, hrest⟩ := takeOperTm_mem htime
      obtain ⟨origin, horigin, h⟩ := bind_ok h
      obtain ⟨⟨ctlNum, after⟩, hnum, h⟩ := bind_ok h
      obtain ⟨t, ht, h⟩ := bind_ok h
      obtain ⟨test, -, h⟩ := bind_ok h
      obtain ⟨check, -, h⟩ := bind_ok h
      cases h
      obtain ⟨w, hw, horigin⟩ := Option.bind_eq_some_iff.mp (orBad_ok horigin)
      obtain ⟨u, hu, ht⟩ := Option.bind_eq_some_iff.mp (orBad_ok ht)
      have hafter : after ⊆ rest := fun _ hx =>
        List.mem_of_mem_tail (takeCtlNum_subset hnum hx)
      refine ⟨members, hmembers, hoperTm, ⟨w, hrest (List.mem_of_head? hw), horigin⟩, ?_⟩
      rw [← utcTimeOf_eq ht]
      exact hrest (hafter (List.mem_of_head? hu))

end ControlRequest

/-! ### Why a command failed -/

inductive ControlError where
  | noError
  | unknown
  | timeoutTestNotOk
  | operatorTestNotOk
  | other (code : Int)
  deriving DecidableEq, Repr

def ControlError.toCode : ControlError → Int
  | .noError => 0
  | .unknown => 1
  | .timeoutTestNotOk => 2
  | .operatorTestNotOk => 3
  | .other code => code

def ControlError.fromCode : Int → ControlError
  | 0 => .noError
  | 1 => .unknown
  | 2 => .timeoutTestNotOk
  | 3 => .operatorTestNotOk
  | code => .other code

inductive AddCause where
  | unknown
  | notSupported
  | blockedBySwitchingHierarchy
  | selectFailed
  | invalidPosition
  | positionReached
  | parameterChangeInExecution
  | stepLimit
  | blockedByMode
  | blockedByProcess
  | blockedByInterlocking
  | blockedBySynchrocheck
  | commandAlreadyInExecution
  | blockedByHealth
  | oneOfNControl
  | abortionByCancel
  | timeLimitOver
  | abortionByTrip
  | objectNotSelected
  | objectAlreadySelected
  | noAccessAuthority
  | endedWithOvershoot
  | abortionDueToDeviation
  | abortionByCommunicationLoss
  | abortionByCommand
  | none
  | inconsistentParameters
  | lockedByOtherClient
  | other (code : Int)
  deriving DecidableEq, Repr

def AddCause.toCode : AddCause → Int
  | .unknown => 0
  | .notSupported => 1
  | .blockedBySwitchingHierarchy => 2
  | .selectFailed => 3
  | .invalidPosition => 4
  | .positionReached => 5
  | .parameterChangeInExecution => 6
  | .stepLimit => 7
  | .blockedByMode => 8
  | .blockedByProcess => 9
  | .blockedByInterlocking => 10
  | .blockedBySynchrocheck => 11
  | .commandAlreadyInExecution => 12
  | .blockedByHealth => 13
  | .oneOfNControl => 14
  | .abortionByCancel => 15
  | .timeLimitOver => 16
  | .abortionByTrip => 17
  | .objectNotSelected => 18
  | .objectAlreadySelected => 19
  | .noAccessAuthority => 20
  | .endedWithOvershoot => 21
  | .abortionDueToDeviation => 22
  | .abortionByCommunicationLoss => 23
  | .abortionByCommand => 24
  | .none => 25
  | .inconsistentParameters => 26
  | .lockedByOtherClient => 27
  | .other code => code

def AddCause.fromCode : Int → AddCause
  | 0 => .unknown
  | 1 => .notSupported
  | 2 => .blockedBySwitchingHierarchy
  | 3 => .selectFailed
  | 4 => .invalidPosition
  | 5 => .positionReached
  | 6 => .parameterChangeInExecution
  | 7 => .stepLimit
  | 8 => .blockedByMode
  | 9 => .blockedByProcess
  | 10 => .blockedByInterlocking
  | 11 => .blockedBySynchrocheck
  | 12 => .commandAlreadyInExecution
  | 13 => .blockedByHealth
  | 14 => .oneOfNControl
  | 15 => .abortionByCancel
  | 16 => .timeLimitOver
  | 17 => .abortionByTrip
  | 18 => .objectNotSelected
  | 19 => .objectAlreadySelected
  | 20 => .noAccessAuthority
  | 21 => .endedWithOvershoot
  | 22 => .abortionDueToDeviation
  | 23 => .abortionByCommunicationLoss
  | 24 => .abortionByCommand
  | 25 => .none
  | 26 => .inconsistentParameters
  | 27 => .lockedByOtherClient
  | code => .other code

theorem ControlError.toCode_fromCode (code : Int) : (ControlError.fromCode code).toCode = code := by
  unfold fromCode
  split <;> rfl

theorem AddCause.toCode_fromCode (code : Int) : (AddCause.fromCode code).toCode = code := by
  unfold fromCode
  split <;> rfl

structure LastApplError where
  controlObject : Bytes
  error : ControlError
  origin : Origin
  ctlNum : UInt8
  addCause : AddCause
  deriving DecidableEq, Repr

def LastApplError.toValue (e : LastApplError) : Value :=
  .structure [.visibleString e.controlObject, .integer e.error.toCode, e.origin.toValue,
    .unsigned e.ctlNum.toNat, .integer e.addCause.toCode]

namespace LastApplError

/-- The error of a structure that is not a `LastApplError`. -/
def bad : Error := .invalidValue "LastApplError structure"

/-- `ok_or_else(bad)` on a member and what is read of it. -/
def field {α : Type} (members : List Value) (i : Nat) (read : Value → Option α) : Except Error α :=
  match members[i]?.bind read with
  | some a => .ok a
  | none => .error bad

/-- `as_str`. -/
def strOf : Value → Option Bytes
  | .visibleString s | .mmsString s => some s
  | _ => none

/-- `as_i64`. -/
def intOf : Value → Option Int
  | .integer i => some i
  | _ => none

/-- `as_u64`, as a `u8`. -/
def octetOf : Value → Option UInt8
  | .unsigned n => if n < 256 then some (UInt8.ofNat n) else none
  | _ => none

def fromValue (v : Value) : Except Error LastApplError :=
  match membersOf v with
  | none => .error (.invalidValue "LastApplError is a structure")
  | some members => do
      let controlObject ← field members 0 strOf
      let error ← field members 1 intOf
      let origin ← field members 2 Origin.fromValue
      let ctlNum ← field members 3 octetOf
      let addCause ← field members 4 intOf
      .ok ⟨controlObject, .fromCode error, origin, ctlNum, .fromCode addCause⟩

theorem fromValue_toValue (e : LastApplError)
    (h : ∀ code, e.origin.category = .other code → 8 < code ∨ code < 0) : fromValue e.toValue =
      .ok { e with error := .fromCode e.error.toCode, addCause := .fromCode e.addCause.toCode } := by
  have hnum : octetOf (.unsigned e.ctlNum.toNat) = some e.ctlNum := by
    rw [octetOf, if_pos e.ctlNum.toNat_lt, UInt8.ofNat_toNat]
  simp only [toValue, fromValue, membersOf, field, List.getElem?_cons_zero,
    List.getElem?_cons_succ, Option.bind_some, strOf, intOf, Origin.fromValue_toValue h, hnum, bind,
    Except.bind]

end LastApplError

/-! ### The end of a command -/

/-- `CommandTermination`: the final answer to a control of enhanced security. -/
inductive CommandTermination where
  | positive (controlObject : Bytes) (request : ControlRequest)
  | negative (error : LastApplError) (request : Option ControlRequest)
  deriving Repr

end Iec61850.Mms
