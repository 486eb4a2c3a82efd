import Iec61850.Common.DataEncoder
import Iec61850.Goose.Apdu
import Iec61850.Link.Ethernet

/-!
# The GOOSE publisher

`proto/goose/publisher.rs`: the retransmission curve and the state machine that builds a frame
for every state change and for every retransmission. The calls that can fail leave the
publisher as far as they got.
-/

namespace Iec61850.Goose

open Theory Ber Link

/-! ### The retransmission curve -/

/-- `Retransmission`: the intervals in milliseconds and the factor of `timeAllowedtoLive`. -/
structure Retransmission where
  minTimeMs : UInt32
  maxTimeMs : UInt32
  talFactor : UInt32
  deriving DecidableEq, Repr

namespace Retransmission

def default : Retransmission := ⟨4, 1000, 2⟩

/-- The first interval: never zero. -/
def base (r : Retransmission) : Nat := if r.minTimeMs = 0 then 1 else r.minTimeMs.toNat

/-- The last interval: never below the first. -/
def top (r : Retransmission) : Nat :=
  if r.maxTimeMs.toNat < r.base then r.base else r.maxTimeMs.toNat

/-- `Retransmission::interval_after`: the interval after the `n`-th transmission of a state. -/
def intervalAfter (r : Retransmission) (n : Nat) : Nat :=
  if n ≤ 1 then r.base
  else
    let shift := n - 1
    if shift ≥ 31 then r.top
    else
      let v := r.base * 2 ^ shift
      if v ≥ r.top then r.top else v

/-- `Retransmission::tal_after`, saturating. -/
def talAfter (r : Retransmission) (n : Nat) : Nat :=
  let factor := if r.talFactor = 0 then 1 else r.talFactor.toNat
  min u32Max (r.intervalAfter n * factor)

end Retransmission

/-! ### The publisher -/

structure PublisherConfig where
  header : FrameHeader
  gocbRef : Bytes
  datSet : Bytes
  goId : Option Bytes := none
  confRev : UInt32 := 1
  retransmission : Retransmission := Retransmission.default
  simulation : Bool := false
  ndsCom : Bool := false
  deriving DecidableEq

/-- `Publisher`. The buffers `apdu` is built in are scratch and hold nothing between calls. -/
structure Publisher where
  cfg : PublisherConfig
  stNum : UInt32
  sqNum : UInt32
  t : UtcTime
  simulation : Bool
  sentInState : Nat
  body : Bytes
  members : UInt32
  scratch : Bytes
  frame : Bytes
  pending : Bool
  nextSend : Option Instant
  dropped : Nat
  deriving DecidableEq

namespace Publisher

def new (cfg : PublisherConfig) (initialValues : List Value) (t : UtcTime) :
    Except Error Publisher :=
  if !isAscii cfg.gocbRef ∨ !isAscii cfg.datSet ∨ !(cfg.goId.all isAscii) then
    .error (.encode "gocbRef, datSet and goID must be ASCII (VisibleString)")
  else do
    let body ← Value.encodeAll initialValues
    .ok {
      cfg
      stNum := 1
      sqNum := 0
      t
      simulation := cfg.simulation
      sentInState := 0
      body
      members := UInt32.ofNat initialValues.length
      scratch := []
      frame := []
      pending := false
      nextSend := some 0
      dropped := 0 }

/-- A counter that wraps to one at the top of its range, as `stNum` and `sqNum` do. -/
def wrapToOne (n : UInt32) : UInt32 := if n = 4294967295 then 1 else n + 1

/-- The header of the frame to be built. -/
def header (p : Publisher) : GooseHeader where
  gocbRef := p.cfg.gocbRef
  timeAllowedToLive := UInt32.ofNat (p.cfg.retransmission.talAfter p.sentInState)
  datSet := p.cfg.datSet
  goId := p.cfg.goId
  t := p.t
  stNum := p.stNum
  sqNum := p.sqNum
  simulation := p.simulation
  confRev := p.cfg.confRev
  ndsCom := p.cfg.ndsCom
  numDatSetEntries := p.members

/-- The link-layer header of the frame to be built: the publisher manages its simulation bit. -/
def link (p : Publisher) : FrameHeader :=
  { p.cfg.header with
    reserved1 :=
      if p.simulation then p.cfg.header.reserved1 ||| reserved1Simulation
      else p.cfg.header.reserved1 &&& ~~~reserved1Simulation }

/-- `Publisher::build`: the frame buffer is cleared and sized before the link layer refuses an
APDU that is too long. -/
def build (now : Instant) (p : Publisher) : Publisher × Except Error Unit :=
  let interval := p.cfg.retransmission.intervalAfter p.sentInState
  match encodeInto p.header p.body with
  | .error e => (p, .error e)
  | .ok apdu =>
    match p.link.write apdu with
    | .error e => ({ p with frame := List.replicate (p.link.len + apdu.length) 0 }, .error e)
    | .ok frame =>
      ({ p with
          frame
          dropped := if p.pending then min u64Max (p.dropped + 1) else p.dropped
          pending := true
          sentInState := min u32Max (p.sentInState + 1)
          sqNum := wrapToOne p.sqNum
          nextSend := some (Instant.plusMillis now interval) }, .ok ())

/-- The frame that `build` puts together. -/
def nextFrame (p : Publisher) : Except Error Bytes := do
  let apdu ← encodeInto p.header p.body
  p.link.write apdu

/-- The publisher once a frame is built. -/
def sent (now : Instant) (frame : Bytes) (p : Publisher) : Publisher :=
  { p with
    frame
    dropped := if p.pending then min u64Max (p.dropped + 1) else p.dropped
    pending := true
    sentInState := min u32Max (p.sentInState + 1)
    sqNum := wrapToOne p.sqNum
    nextSend := some (Instant.plusMillis now (p.cfg.retransmission.intervalAfter p.sentInState)) }

theorem build_ok (now : Instant) {p : Publisher} {frame : Bytes} (h : p.nextFrame = .ok frame) :
    p.build now = (p.sent now frame, .ok ()) := by
  unfold nextFrame at h
  unfold build
  cases hencode : encodeInto p.header p.body with
  | error e =>
    rw [hencode] at h
    cases h
  | ok apdu =>
    rw [hencode] at h
    have hwrite : p.link.write apdu = .ok frame := h
    simp only [hwrite]
    rfl

theorem build_error (now : Instant) {p : Publisher} {e : Error} (h : p.nextFrame = .error e) :
    ∃ frame, p.build now = ({ p with frame }, .error e) := by
  unfold nextFrame at h
  unfold build
  cases hencode : encodeInto p.header p.body with
  | error e' =>
    rw [hencode] at h
    cases h
    exact ⟨p.frame, rfl⟩
  | ok apdu =>
    rw [hencode] at h
    have hwrite : p.link.write apdu = .error e := h
    simp only [hwrite]
    exact ⟨_, rfl⟩

/-- The next state, before its first frame is built. -/
def nextState (t : UtcTime) (p : Publisher) : Publisher :=
  { p with t, stNum := wrapToOne p.stNum, sqNum := 0, sentInState := 0 }

def advanceState (now : Instant) (t : UtcTime) (p : Publisher) : Publisher × Except Error Unit :=
  build now (p.nextState t)

def publish (now : Instant) (values : List Value) (t : UtcTime) (p : Publisher) :
    Publisher × Except Error Unit :=
  let written := Value.encodeAllInto values
  let p := { p with body := written.1 }
  match written.2 with
  | .error e => (p, .error e)
  | .ok () => advanceState now t { p with members := UInt32.ofNat values.length }

def publishIfChanged (now : Instant) (values : List Value) (t : UtcTime) (p : Publisher) :
    Publisher × Except Error Bool :=
  let written := Value.encodeAllInto values
  let p := { p with scratch := written.1 }
  match written.2 with
  | .error e => (p, .error e)
  | .ok () =>
    if p.members.toNat = values.length ∧ p.scratch = p.body then (p, .ok false)
    else
      let (p, result) := advanceState now t
        { p with body := p.scratch, scratch := p.body, members := UInt32.ofNat values.length }
      (p, result.map fun _ => true)

def onTimeout (now : Instant) (p : Publisher) : Publisher × Except Error Unit :=
  match p.nextSend with
  | some due => if now ≥ due then p.build now else (p, .ok ())
  | none => (p, .ok ())

def setSimulation (on : Bool) (p : Publisher) : Publisher := { p with simulation := on }

def nextTimeout (p : Publisher) : Option Instant := p.nextSend

def pollTransmit (p : Publisher) : Option Bytes × Publisher :=
  if p.pending then (some p.frame, { p with pending := false }) else (none, p)

end Publisher

end Iec61850.Goose
