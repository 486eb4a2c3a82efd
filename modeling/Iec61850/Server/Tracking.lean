import Iec61850.Server.Store
import Iec61850.Server.Tree

/-!
# Service tracking

`server/tracking.rs`: the tracking objects of a served model, and what the server writes into one
when it records a service. A tracking object is an ordinary data object, so that recording a service
is a change of data.
-/

namespace Iec61850.Server

open Theory Mms

inductive TrackingCdc where
  | cst
  | bts
  | uts
  | lts
  | ots
  | gts
  | mts
  | nts
  | sts
  | cts
  deriving DecidableEq, Repr

def classFor : Option Fc → TrackingCdc
  | some .br => .bts
  | some .rp => .uts
  | some .lg => .lts
  | some .go => .gts
  | some .ms => .mts
  | some .us => .nts
  | some .sp => .sts
  | some .co => .cts
  | _ => .cst

/-- What the engine takes of a `ServiceType` or a `ServiceError`: its name, and its place in the
table of the standard. -/
structure Listed where
  name : Bytes
  place : Int
  deriving DecidableEq, Repr

/-- `ServiceType::InternalChange`. -/
def internalChange : Listed := ⟨ascii "InternalChange", 53⟩

/-- `ServiceError::NoError`. -/
def noError : Listed := ⟨ascii "no-error", 12⟩

structure Tracked where
  cdc : TrackingCdc
  objRef : Bytes
  service : Listed
  error : Listed
  originator : Bytes

/-- `Tracker`, with the last names of the leaves below its object. -/
structure Tracker where
  domain : Bytes
  reference : Reference
  cdc : TrackingCdc
  ctlVal : Option BType
  leaves : List Bytes

/-- The part of a reference before the first `/`, when it has one. -/
def domainOf (text : Bytes) : Option Bytes :=
  if (47 : UInt8) ∈ text then some (text.takeWhile (· ≠ 47)) else none

/-- A letter in upper case. -/
def upper (c : UInt8) : UInt8 := if 97 ≤ c ∧ c ≤ 122 then c - 32 else c

def upperFirst : Bytes → Bytes
  | [] => []
  | c :: cs => upper c :: cs

/-- `COMMON`. -/
def commonAttributes : List Bytes :=
  [ascii "objRef", ascii "serviceType", ascii "errorCode", ascii "originatorID", ascii "t"]

/-- `block_attribute`: `shown` is the value at a reference. -/
def blockAttribute (shown : Bytes → Option Value) (objRef name : Bytes) : Option Value :=
  let read (candidate : Bytes) := shown (objRef ++ ascii "$" ++ candidate)
  let shouted := name.map upper
  (read (upperFirst name)).or (if shouted = upperFirst name then none else read shouted)

/-- `Tracking`, with the ordinals of the file's own enumerations. -/
structure Tracking where
  trackers : List Tracker
  enumOrdinal : Reference → Bytes → Option Int

namespace Tracking

/-- An attribute of a tracking object. -/
def leafOf (tracker : Reference) (name : Bytes) : Reference :=
  ⟨tracker.domain, tracker.item ++ [name]⟩

/-- `write`: of an attribute that the model declares. -/
def write (ied : Store) (tracker : Reference) (name : Bytes) (value : Value) : Store :=
  let r := leafOf tracker name
  if (ied.values r).isSome then (ied.writeLeaf r value).1 else ied

variable (t : Tracking)

def isEmpty : Bool := t.trackers.isEmpty

/-- `enum_ordinal`, as a value. -/
def ordinal (tracker : Reference) (name : Bytes) (listed : Listed) : Value :=
  .integer ((t.enumOrdinal (leafOf tracker name) listed.name).getD listed.place)

/-- `Tracking::select`, of a class other than that of the controls: there is one tracking object of a
class in a logical device. -/
def select (event : Tracked) : Option Reference :=
  (domainOf event.objRef).bind fun domain =>
    (t.trackers.find? fun k => k.cdc = event.cdc && k.domain = domain).map (·.reference)

/-- The names that `Tracking::mirror` goes through. -/
def mirrored (tracker : Reference) : List Bytes :=
  ((t.trackers.find? (·.reference = tracker)).map (·.leaves)).getD []

/-- One round of the loop of `Tracking::mirror`. -/
def mirrorOne (shown : Bytes → Option Value) (tracker : Reference) (objRef : Bytes) (ied : Store)
    (name : Bytes) : Store :=
  if name ∈ commonAttributes then ied
  else
    match blockAttribute shown objRef name with
    | none => ied
    | some value => write ied tracker name value

def record (shown : Bytes → Option Value) (ied : Store) (event : Tracked) (now : Now) : Store :=
  match t.select event with
  | none => ied
  | some tracker =>
    let ied := write ied tracker (ascii "objRef") (.visibleString event.objRef)
    let ied := write ied tracker (ascii "serviceType")
      (t.ordinal tracker (ascii "serviceType") event.service)
    let ied := write ied tracker (ascii "errorCode")
      (t.ordinal tracker (ascii "errorCode") event.error)
    let ied := write ied tracker (ascii "originatorID") (.octetString event.originator)
    let ied := (t.mirrored tracker).foldl (mirrorOne shown tracker event.objRef) ied
    write ied tracker (ascii "t") (.utcTime now.wall)

/-- Nothing that recording a service writes is stored in the tracking object. -/
def Still (ied : Store) (tracker : Reference) : Prop :=
  ∀ name ∈ commonAttributes ++ t.mirrored tracker, ∀ value, write ied tracker name value = ied

variable {t}

theorem mirror_still {shown : Bytes → Option Value} {ied : Store} {tracker : Reference}
    {objRef : Bytes} {names : List Bytes}
    (h : ∀ name ∈ names, ∀ value, write ied tracker name value = ied) :
    names.foldl (mirrorOne shown tracker objRef) ied = ied := by
  induction names with
  | nil => rfl
  | cons name names ih =>
    have hone : mirrorOne shown tracker objRef ied name = ied := by
      unfold mirrorOne
      split
      · rfl
      · split
        · rfl
        · exact h name List.mem_cons_self _
    rw [List.foldl_cons, hone]
    exact ih fun n hn => h n (List.mem_cons_of_mem _ hn)

/-- A service whose tracking object, if it has one, takes nothing is not recorded. -/
theorem record_still {shown : Bytes → Option Value} {ied : Store} {event : Tracked} {now : Now}
    (h : ∀ tracker, t.select event = some tracker → t.Still ied tracker) :
    t.record shown ied event now = ied := by
  unfold record
  split
  · rfl
  · rename_i tracker hselect
    have hcommon : ∀ name ∈ commonAttributes, ∀ value, write ied tracker name value = ied :=
      fun name hname => h tracker hselect name (List.mem_append_left _ hname)
    have hmirrored : ∀ name ∈ t.mirrored tracker, ∀ value, write ied tracker name value = ied :=
      fun name hname => h tracker hselect name (List.mem_append_right _ hname)
    dsimp only
    rw [hcommon (ascii "objRef") (by decide), hcommon (ascii "serviceType") (by decide),
      hcommon (ascii "errorCode") (by decide), hcommon (ascii "originatorID") (by decide),
      mirror_still hmirrored, hcommon (ascii "t") (by decide)]

end Tracking

end Iec61850.Server
