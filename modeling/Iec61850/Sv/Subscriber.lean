import Iec61850.Common.EventQueue
import Iec61850.Link.Ethernet
import Iec61850.Sv.Apdu

/-!
# The sampled-value subscriber

`proto/sv/subscriber.rs`: many streams, told apart by destination, APPID and the `svID` of each ASDU
of a frame. Accepted ASDUs are handed to the consumer of the call; the model returns them. Of a
sample layout only its length is read here.
-/

namespace Iec61850.Sv

open Theory Ber Link

/-- `StreamKey`: what identifies a stream. -/
structure StreamKey where
  dst : MacAddr
  appid : UInt16
  svId : Bytes
  deriving DecidableEq

inductive SimulationMode where
  | off
  | preferred
  deriving DecidableEq, Repr

/-- `SampleLayout`, as far as a subscriber reads it. -/
structure SampleLayout where
  len : Nat
  deriving DecidableEq, Repr

def SampleLayout.fits (layout : SampleLayout) (len : Nat) : Bool := layout.len == len

structure StreamConfig where
  key : StreamKey
  samplesPerSecond : Nat := 4000
  expectedConfRev : Option Nat := none
  staleAfterMs : Nat := 10
  simulation : SimulationMode := .off
  layout : Option SampleLayout := none
  deriving DecidableEq

def StreamConfig.wrap (cfg : StreamConfig) : Nat := smpCntWrap cfg.samplesPerSecond

/-- `StreamState`; every counter is a saturating `u64`. -/
structure StreamState where
  lastSmpCnt : Option Nat := none
  confRev : Option Nat := none
  smpSynch : Option SmpSynch := none
  gmIdentity : Option Bytes := none
  frames : Nat := 0
  asdus : Nat := 0
  gaps : Nat := 0
  samplesLost : Nat := 0
  confRevDropped : Nat := 0
  simulationDropped : Nat := 0
  layoutMismatches : Nat := 0
  simulationActive : Bool := false
  stale : Bool := false
  deriving DecidableEq

inductive SubscriberEvent where
  | gap (stream expected received lost : Nat)
  | syncChanged (stream : Nat) (before after : Option SmpSynch)
  | grandmasterChanged (stream : Nat) (after : Option Bytes)
  | confRevMismatch (stream received : Nat)
  | sampleLengthMismatch (stream expected received : Nat)
  | ignoredSimulation (stream : Nat)
  | simulationTakeover (stream : Nat)
  | stale (stream : Nat)
  | resumed (stream : Nat)
  | malformed (e : Error)
  deriving DecidableEq

/-- `Sample`: an accepted ASDU. -/
structure Sample where
  stream : Nat
  asdu : AsduView
  simulation : Bool
  layout : Option SampleLayout

structure Stream where
  cfg : StreamConfig
  state : StreamState := {}
  deadline : Option Instant := none
  confRevReported : Bool := false
  simulationReported : Bool := false
  layoutReported : Bool := false

structure Subscriber where
  streams : List Stream
  limits : Limits
  events : EventQueue SubscriberEvent
  otherStream : Nat
  malformed : Nat

/-! ### One stream -/

/-- What an operation on the `i`-th stream leaves of it, what it reports, and whether the ASDU goes
on. -/
structure Outcome where
  admitted : Bool
  stream : Stream
  events : List SubscriberEvent

/-- The next operation, if the ASDU goes on. -/
def Outcome.andThen (o : Outcome) (next : Stream → Outcome) : Outcome :=
  if o.admitted then
    let o' := next o.stream
    ⟨o'.admitted, o'.stream, o.events ++ o'.events⟩
  else o

namespace Stream

/-- `simulation_policy_admits`, for a stream that is there. -/
def simulationPolicyAdmits (i : Nat) (simulated : Bool) (st : Stream) : Outcome :=
  match st.cfg.simulation, simulated with
  | .off, false => ⟨true, { st with simulationReported := false }, []⟩
  | .off, true =>
    let st := { st with state := { st.state with
      simulationDropped := satInc st.state.simulationDropped } }
    if st.simulationReported then ⟨false, st, []⟩
    else ⟨false, { st with simulationReported := true }, [.ignoredSimulation i]⟩
  | .preferred, true =>
    if st.state.simulationActive then ⟨true, st, []⟩
    else
      -- the count of the real stream is no gap for the simulated one
      ⟨true, { st with state := { st.state with simulationActive := true, lastSmpCnt := none } },
        [.simulationTakeover i]⟩
  | .preferred, false =>
    if st.state.simulationActive then
      ⟨false, { st with state := { st.state with
        simulationDropped := satInc st.state.simulationDropped } }, []⟩
    else ⟨true, st, []⟩

/-- The check of `accept` against the expected `confRev`. -/
def confRevAdmits (i : Nat) (confRev : Nat) (st : Stream) : Outcome :=
  match st.cfg.expectedConfRev with
  | none => ⟨true, st, []⟩
  | some expected =>
    if expected = confRev then ⟨true, { st with confRevReported := false }, []⟩
    else
      let st := { st with state := { st.state with
        confRevDropped := satInc st.state.confRevDropped } }
      if st.confRevReported then ⟨false, st, []⟩
      else ⟨false, { st with confRevReported := true }, [.confRevMismatch i confRev]⟩

/-- The check of `accept` against the layout. -/
def layoutAdmits (i : Nat) (len : Nat) (st : Stream) : Outcome :=
  match st.cfg.layout with
  | none => ⟨true, st, []⟩
  | some layout =>
    if layout.fits len then ⟨true, { st with layoutReported := false }, []⟩
    else
      let st := { st with state := { st.state with
        layoutMismatches := satInc st.state.layoutMismatches } }
      if st.layoutReported then ⟨false, st, []⟩
      else ⟨false, { st with layoutReported := true }, [.sampleLengthMismatch i layout.len len]⟩

/-- The gap that an ASDU shows, and the samples lost in it. -/
def gapOf (smpCnt : Nat) (st : Stream) : Option (Nat × Nat) :=
  st.state.lastSmpCnt.bind fun last =>
    let wrap := st.cfg.wrap
    let expected := (last + 1) % wrap % 65536
    if smpCnt = expected then none else some (expected, (smpCnt + wrap - expected) % wrap)

/-- A grandmaster identity that is one. -/
def grandmaster (asdu : AsduView) : Option Bytes :=
  asdu.gmIdentity.bind fun g => if g.length = 8 then some g else none

/-- The end of `accept`, behind its two checks. -/
def take (i : Nat) (now : Instant) (asdu : AsduView) (st : Stream) : Outcome :=
  let gap := st.gapOf asdu.smpCnt
  let gm := grandmaster asdu
  let state := { st.state with
    gaps := if gap.isSome then satInc st.state.gaps else st.state.gaps
    samplesLost := match gap with
      | some (_, lost) => min u64Max (st.state.samplesLost + lost)
      | none => st.state.samplesLost
    confRev := some asdu.confRev
    smpSynch := asdu.smpSynch
    gmIdentity := gm
    stale := false
    lastSmpCnt := some asdu.smpCnt
    asdus := satInc st.state.asdus }
  ⟨true, { st with state, deadline := some (Instant.plusMillis now st.cfg.staleAfterMs) },
    (gap.toList.map fun (expected, lost) => .gap i expected asdu.smpCnt lost) ++
      (if st.state.smpSynch ≠ asdu.smpSynch then [.syncChanged i st.state.smpSynch asdu.smpSynch]
        else []) ++
      (if gm ≠ st.state.gmIdentity then [.grandmasterChanged i gm] else []) ++
      (if st.state.stale then [.resumed i] else [])⟩

/-- `accept`, for a stream that is there. -/
def accept (i : Nat) (now : Instant) (asdu : AsduView) (st : Stream) : Outcome :=
  ((st.confRevAdmits i asdu.confRev).andThen (layoutAdmits i asdu.sample.length)).andThen
    (take i now asdu)

/-- A stream that is due to be stale. -/
def staleDue (now : Instant) (st : Stream) : Bool :=
  match st.deadline with
  | some deadline => decide (now ≥ deadline) && !st.state.stale
  | none => false

end Stream

/-! ### The subscriber -/

namespace Subscriber

def new (streams : List StreamConfig) : Subscriber where
  streams := streams.map fun cfg => { cfg }
  limits := Limits.default
  events := EventQueue.new 64
  otherStream := 0
  malformed := 0

def resetSimulation (i : Nat) (s : Subscriber) : Subscriber :=
  { s with streams := s.streams.modify i fun st => { st with state := { st.state with
    simulationActive := false, lastSmpCnt := none } } }

/-- `Subscriber::check_stale`: no stream's check depends on another's. -/
def checkStale (now : Instant) (s : Subscriber) : Subscriber :=
  { s with
    streams := s.streams.map fun st =>
      if st.staleDue now then { st with state := { st.state with stale := true }, deadline := none }
      else st
    events := (s.streams.zipIdx.filter fun (st, _) => st.staleDue now).foldl
      (fun events (_, i) => events.push (.stale i)) s.events }

def onTimeout (now : Instant) (s : Subscriber) : Subscriber := s.checkStale now

def addressed (dst : MacAddr) (appid : UInt16) (s : Subscriber) : Bool :=
  s.streams.any fun st => st.cfg.key.dst == dst && st.cfg.key.appid == appid

def other (s : Subscriber) : Subscriber := { s with otherStream := satInc s.otherStream }

def onMalformed (e : Error) (s : Subscriber) : Subscriber :=
  { s with malformed := satInc s.malformed, events := s.events.push (.malformed e) }

/-- An operation on one of the streams. -/
def onStream (i : Nat) (op : Stream → Outcome) (s : Subscriber) : Bool × Subscriber :=
  match s.streams[i]? with
  | none => (false, s)
  | some st =>
    let o := op st
    (o.admitted, { s with
      streams := s.streams.set i o.stream
      events := o.events.foldl EventQueue.push s.events })

def simulationPolicyAdmits (i : Nat) (simulated : Bool) (s : Subscriber) : Bool × Subscriber :=
  s.onStream i (Stream.simulationPolicyAdmits i simulated)

def accept (i : Nat) (now : Instant) (asdu : AsduView) (s : Subscriber) : Bool × Subscriber :=
  s.onStream i (Stream.accept i now asdu)

/-- The stream of an ASDU in a frame. -/
def streamOf (fr : Frame) (asdu : AsduView) (s : Subscriber) : Option Nat :=
  s.streams.findIdx? fun st =>
    st.cfg.key.dst == fr.dst && st.cfg.key.appid == fr.appid && st.cfg.key.svId == asdu.svId

/-- The frame is counted for a stream. -/
def countFrame (i : Nat) (s : Subscriber) : Subscriber :=
  { s with streams := s.streams.modify i fun st => { st with state := { st.state with
    frames := satInc st.state.frames } } }

/-- What the loop over the ASDUs of a frame carries along. -/
structure Walk where
  sub : Subscriber
  matched : Bool
  counted : Option Nat
  samples : List Sample

/-- One round of the loop. -/
def Walk.onAsdu (now : Instant) (fr : Frame) (asdu : AsduView) (w : Walk) : Walk :=
  match w.sub.streamOf fr asdu with
  | none => w
  | some i =>
    let w := { w with matched := true }
    let (admitted, sub) := w.sub.simulationPolicyAdmits i fr.simulation
    if !admitted then { w with sub }
    else
      let (taken, sub) := sub.accept i now asdu
      if !taken then { w with sub }
      else
        let sub := if w.counted ≠ some i then sub.countFrame i else sub
        { w with
          sub
          counted := some i
          samples := w.samples ++
            [⟨i, asdu, fr.simulation, (sub.streams[i]?).bind fun st => st.cfg.layout⟩] }

/-- The loop over the ASDUs: an ASDU that does not decode ends it. -/
def walkAsdus (now : Instant) (fr : Frame) :
    List (Except Error AsduView) → Walk → Subscriber × List Sample
  | [], w => (if w.matched then w.sub else w.sub.other, w.samples)
  | .error e :: _, w => (w.sub.onMalformed e, w.samples)
  | .ok asdu :: asdus, w => walkAsdus now fr asdus (w.onAsdu now fr asdu)

/-- `Subscriber::on_frame`, with what it hands to the consumer. -/
def onFrame (now : Instant) (frame : Bytes) (s : Subscriber) : Subscriber × List Sample :=
  let s := s.checkStale now
  match Frame.parse frame with
  | .error e =>
    match FrameAddress.peek frame with
    | some a =>
      if a.ethertype = ethertypeSv ∧ s.addressed a.dst a.appid then (s.onMalformed e, [])
      else (s.other, [])
    | none => (s.other, [])
  | .ok fr =>
    if fr.ethertype ≠ ethertypeSv ∨ ¬ s.addressed fr.dst fr.appid then (s.other, [])
    else
      match SavPduView.parse fr.apdu s.limits with
      | .error e => (s.onMalformed e, [])
      | .ok pdu => walkAsdus now fr pdu.asdus ⟨s, false, none, []⟩

end Subscriber

end Iec61850.Sv
