import Iec61850.Common.EventQueue
import Iec61850.Goose.Apdu
import Iec61850.Link.Ethernet

/-!
# The GOOSE subscriber

`proto/goose/subscriber.rs`: the state machine that decides of every frame whether it is a new
state, a retransmission or nothing the application may see. It reads no clock; each input
carries the instant at which it arrives.
-/

namespace Iec61850.Goose

open Theory Ber Link

/-- `SubscriptionKey`: what identifies the stream. -/
structure SubscriptionKey where
  dst : MacAddr
  appid : UInt16
  gocbRef : Bytes
  deriving DecidableEq

inductive SimulationMode where
  | off
  | preferred
  deriving DecidableEq, Repr

structure SubscriberConfig where
  key : SubscriptionKey
  expectedConfRev : Option Nat := none
  simulation : SimulationMode := .off
  limits : Limits := Limits.default
  eventCapacity : Nat := 64
  deriving DecidableEq

/-- `Invalid`: why a frame was rejected. -/
inductive Invalid where
  | malformed (e : Error)
  | simulationMismatch
  | replay (stNum sqNum : Nat)
  | memberCountMismatch
  deriving DecidableEq, Repr

inductive SubscriberEvent where
  | newState (stNum : Nat) (t : UtcTime) (values : List Value) (simulation : Bool)
  | retransmission (stNum sqNum : Nat)
  | expired
  | needsCommissioning
  | confRevMismatch (received expected : Nat)
  | ignoredSimulation
  | simulationTakeover
  | invalid (why : Invalid)
  deriving Repr

/-- `SubscriberStats`; every counter is a saturating `u64`. -/
structure SubscriberStats where
  accepted : Nat := 0
  stateChanges : Nat := 0
  retransmissions : Nat := 0
  replays : Nat := 0
  stateGaps : Nat := 0
  statesMissed : Nat := 0
  malformed : Nat := 0
  simulationMismatches : Nat := 0
  memberCountMismatches : Nat := 0
  simulationDropped : Nat := 0
  confRevDropped : Nat := 0
  expiries : Nat := 0
  commissioningChanges : Nat := 0
  otherStream : Nat := 0
  eventsDropped : Nat := 0
  deriving DecidableEq, Repr

/-- `FrameDeltas`: how a frame differs from the one accepted before it. -/
structure FrameDeltas where
  stDiff : Int
  sqDiff : Int
  arrivalDelta : Nat
  tDelta : Int
  sinceStateChange : Nat
  deriving DecidableEq, Repr

/-- `Accepted`: what the last accepted frame established. -/
structure Accepted where
  stNum : Nat
  sqNum : Nat
  arrivedAt : Instant
  t : UtcTime
  expiresAt : Instant
  deriving DecidableEq, Repr

structure Subscriber where
  cfg : SubscriberConfig
  state : Option Accepted
  confRev : Option Nat
  confRevMismatchReported : Bool
  ndsCom : Bool
  simulationReported : Bool
  simulationActive : Bool
  expired : Bool
  events : EventQueue SubscriberEvent
  stats : SubscriberStats
  deltas : Option FrameDeltas
  stateChangedAt : Option Instant

/-- How far from the top of the range a counter may wrap and still be believed. -/
def seqWrapWindow : Nat := 16

/-- `wrapped`: `new` is plausibly `last` after wrapping at the top of the `u32` range. -/
def wrapped (last new : Nat) : Bool := decide (last > u32Max - seqWrapWindow ∧ new ≤ seqWrapWindow)

inductive Verdict where
  | new
  | retransmission
  | replay
  deriving DecidableEq, Repr

namespace Subscriber

def new (cfg : SubscriberConfig) : Subscriber where
  cfg := cfg
  state := none
  confRev := cfg.expectedConfRev
  confRevMismatchReported := false
  ndsCom := false
  simulationReported := false
  simulationActive := false
  expired := false
  events := EventQueue.new cfg.eventCapacity
  stats := {}
  deltas := none
  stateChangedAt := none

def isLive (s : Subscriber) : Bool := s.state.isSome && !s.expired

def nextTimeout (s : Subscriber) : Option Instant :=
  if s.expired then none else s.state.map Accepted.expiresAt

/-! ### Events and counters -/

def emit (event : SubscriberEvent) (s : Subscriber) : Subscriber :=
  let events := s.events.push event
  { s with events, stats := { s.stats with eventsDropped := events.dropped } }

def pollEvent (s : Subscriber) : Option SubscriberEvent × Subscriber :=
  let (e, events) := s.events.pop
  (e, { s with events, stats := { s.stats with eventsDropped := events.dropped } })

def other (s : Subscriber) : Subscriber :=
  { s with stats := { s.stats with otherStream := satInc s.stats.otherStream } }

/-- The counter a rejection moves. -/
def countInvalid (why : Invalid) (st : SubscriberStats) : SubscriberStats :=
  match why with
  | .malformed _ => { st with malformed := satInc st.malformed }
  | .simulationMismatch => { st with simulationMismatches := satInc st.simulationMismatches }
  | .memberCountMismatch => { st with memberCountMismatches := satInc st.memberCountMismatches }
  | .replay _ _ => { st with replays := satInc st.replays }

def reject (why : Invalid) (s : Subscriber) : Subscriber :=
  emit (.invalid why) { s with stats := countInvalid why s.stats }

/-! ### Time -/

def checkExpiry (now : Instant) (s : Subscriber) : Subscriber :=
  match s.state with
  | some last =>
    if !s.expired ∧ now ≥ last.expiresAt then
      emit .expired
        { s with expired := true, stats := { s.stats with expiries := satInc s.stats.expiries } }
    else s
  | none => s

def onTimeout (now : Instant) (s : Subscriber) : Subscriber := s.checkExpiry now

/-! ### The checks of a frame -/

def forgetSource (s : Subscriber) : Subscriber :=
  { s with state := none, expired := false, deltas := none, stateChangedAt := none, ndsCom := false }

def resetSimulation (s : Subscriber) : Subscriber :=
  { s with simulationActive := false }.forgetSource

/-- `Subscriber::addressed_to_us`: a frame that failed to parse still identifies itself as this
stream. -/
def addressedToUs (frame : Bytes) (s : Subscriber) : Bool :=
  match FrameAddress.peek frame with
  | some a => a.ethertype == ethertypeGoose && a.dst == s.cfg.key.dst && a.appid == s.cfg.key.appid
  | none => false

/-- A frame that the simulation policy drops. -/
def dropSimulation (s : Subscriber) : Subscriber :=
  { s with stats := { s.stats with simulationDropped := satInc s.stats.simulationDropped } }

def simulationPolicyAdmits (simulated : Bool) (s : Subscriber) : Bool × Subscriber :=
  match s.cfg.simulation, simulated with
  | .off, false => (true, { s with simulationReported := false })
  | .off, true =>
    let s := s.dropSimulation
    if s.simulationReported then (false, s)
    else (false, emit .ignoredSimulation { s with simulationReported := true })
  | .preferred, true =>
    if s.simulationActive then (true, s)
    -- the simulated stream takes over
    else (true, emit .simulationTakeover { s with simulationActive := true }.forgetSource)
  | .preferred, false =>
    if s.simulationActive then (false, s.dropSimulation) else (true, s)

def confRevAdmits (confRev : Nat) (s : Subscriber) : Bool × Subscriber :=
  match s.confRev with
  | some expected =>
    if expected = confRev then (true, { s with confRevMismatchReported := false })
    else
      let s := { s with
        stats := { s.stats with confRevDropped := satInc s.stats.confRevDropped } }
      if s.confRevMismatchReported then (false, s)
      else
        (false, emit (.confRevMismatch confRev expected) { s with confRevMismatchReported := true })
  | none => (true, { s with confRev := some confRev })

/-- The rule of `verdict` while the last accepted state is live. -/
def judge (last : Accepted) (stNum sqNum : Nat) : Verdict :=
  if stNum = last.stNum then
    if sqNum > last.sqNum ∨ wrapped last.sqNum sqNum then .retransmission else .replay
  else if stNum > last.stNum ∨ wrapped last.stNum stNum then .new
  else .replay

/-- `Subscriber::verdict`: when nothing is live, any frame is a new state. -/
def verdict (pdu : GoosePduView) (s : Subscriber) : Verdict :=
  match s.state, s.expired with
  | some last, false => judge last pdu.stNum pdu.sqNum
  | _, _ => .new

/-- State changes that were published between two states and never arrived. -/
def missedStates (last stNum : Nat) : Nat :=
  if wrapped last stNum then stNum - 1 else stNum - last - 1

def countMissedStates (stNum : Nat) (s : Subscriber) : Subscriber :=
  match s.state, s.expired with
  | some last, false =>
    let missed := missedStates last.stNum stNum
    if missed > 0 then
      { s with stats := { s.stats with
        stateGaps := satInc s.stats.stateGaps
        statesMissed := min u64Max (s.stats.statesMissed + missed) } }
    else s
  | _, _ => s

/-! ### Acceptance -/

/-- The deltas of a frame against the one accepted before it. -/
def frameDeltas (now : Instant) (pdu : GoosePduView) (s : Subscriber) : Option FrameDeltas :=
  s.state.map fun last => {
    stDiff := (pdu.stNum : Int) - last.stNum
    sqDiff := (pdu.sqNum : Int) - last.sqNum
    arrivalDelta := now - last.arrivedAt
    tDelta := (pdu.t.toUnixNanos : Int) - last.t.toUnixNanos
    sinceStateChange := (s.stateChangedAt.map fun at' => now - at').getD 0 }

/-- What an accepted frame establishes. -/
def accepted (now : Instant) (pdu : GoosePduView) : Accepted where
  stNum := pdu.stNum
  sqNum := pdu.sqNum
  arrivedAt := now
  t := pdu.t
  expiresAt := Instant.plusMillis now pdu.timeAllowedToLive

/-- The commissioning flag, reported when it changes. -/
def noteCommissioning (ndsCom : Bool) (s : Subscriber) : Subscriber :=
  if ndsCom = s.ndsCom then s
  else
    let s := { s with
      ndsCom
      stats := { s.stats with commissioningChanges := satInc s.stats.commissioningChanges } }
    if ndsCom then emit .needsCommissioning s else s

/-- The end of `on_frame`, for a frame that was accepted. -/
def accept (now : Instant) (pdu : GoosePduView) (stateChange : Bool) (s : Subscriber) :
    Subscriber :=
  noteCommissioning pdu.ndsCom { s with
    stats := { s.stats with accepted := satInc s.stats.accepted }
    deltas := s.frameDeltas now pdu
    stateChangedAt := if stateChange then some now else s.stateChangedAt
    state := some (accepted now pdu)
    expired := false }

/-- A frame that is a new state and whose values decoded. -/
def acceptNew (now : Instant) (pdu : GoosePduView) (values : List Value) (s : Subscriber) :
    Subscriber :=
  let s := s.countMissedStates pdu.stNum
  let s := { s with stats := { s.stats with stateChanges := satInc s.stats.stateChanges } }
  (s.emit (.newState pdu.stNum pdu.t values pdu.simulation)).accept now pdu true

/-- A frame that is a retransmission. -/
def acceptRetransmission (now : Instant) (pdu : GoosePduView) (s : Subscriber) : Subscriber :=
  let s := { s with stats := { s.stats with retransmissions := satInc s.stats.retransmissions } }
  (s.emit (.retransmission pdu.stNum pdu.sqNum)).accept now pdu false

/-- The part of `on_frame` behind the two policies. -/
def onAdmitted (now : Instant) (pdu : GoosePduView) (s : Subscriber) : Subscriber :=
  match s.verdict pdu with
  | .replay => s.reject (.replay pdu.stNum pdu.sqNum)
  | .new =>
    match pdu.allDataOwned s.cfg.limits with
    | .ok values => s.acceptNew now pdu values
    | .error e => s.reject (.malformed e)
  | .retransmission => s.acceptRetransmission now pdu

/-- The part of `on_frame` that applies the two policies: the second one is asked only when
the first one admits the frame. -/
def onPdu (now : Instant) (pdu : GoosePduView) (s : Subscriber) : Subscriber :=
  let (admitted, s) := s.simulationPolicyAdmits pdu.simulation
  if !admitted then s
  else
    let (admitted, s) := s.confRevAdmits pdu.confRev
    if !admitted then s else s.onAdmitted now pdu

/-- `Subscriber::on_frame` after the expiry check. -/
def onLink (now : Instant) (frame : Bytes) (s : Subscriber) : Subscriber :=
  match Frame.parse frame with
  | .error e => if s.addressedToUs frame then s.reject (.malformed e) else s.other
  | .ok fr =>
    if fr.ethertype ≠ ethertypeGoose ∨ fr.dst ≠ s.cfg.key.dst ∨ fr.appid ≠ s.cfg.key.appid then
      s.other
    else
      match GoosePduView.parse fr.apdu with
      | .error e => s.reject (.malformed e)
      | .ok pdu =>
        if pdu.gocbRef ≠ s.cfg.key.gocbRef then s.other
        else if pdu.simulation ≠ fr.simulation then s.reject .simulationMismatch
        else if !pdu.memberCountMatches then s.reject .memberCountMismatch
        else s.onPdu now pdu

def onFrame (now : Instant) (frame : Bytes) (s : Subscriber) : Subscriber :=
  (s.checkExpiry now).onLink now frame

end Subscriber

end Iec61850.Goose
