import Iec61850.Link.Ethernet
import Iec61850.Sv.Apdu

/-!
# The sampled-value publisher

`proto/sv/publisher.rs`: a frame is encoded once, and afterwards the fields that change are
overwritten in it. A method that can fail leaves the publisher as far changed as the source does.
-/

namespace Iec61850.Sv

open Theory Ber Link

/-- `Instant::plus_nanos`. -/
def plusNanos (t : Instant) (nanos : Nat) : Instant := min u64Max (t + nanos)

/-- The default `UtcTime`: the epoch, unsynchronized. -/
def defaultTime : UtcTime := ⟨0, 0, TimeQuality.unsynchronized⟩

/-- The default `[u8; 8]`. -/
def zeroIdentity : GmIdentity := ⟨List.replicate 8 0, rfl⟩

/-! ### Configuration -/

/-- How `smpCnt` relates to the nominal period (`SmpMod`). -/
inductive SmpMod where
  | samplesPerPeriod
  | samplesPerSecond
  | secondsPerSample
  deriving DecidableEq, Repr

def SmpMod.toU8 : SmpMod → UInt8
  | .samplesPerPeriod => 0
  | .samplesPerSecond => 1
  | .secondsPerSample => 2

structure SvProfile where
  samplesPerSecond : UInt32
  asdusPerFrame : UInt8
  smpMod : Option SmpMod
  smpRate : Option UInt16
  sampleLen : Nat
  deriving DecidableEq, Repr

def SvProfile.framesPerSecond (p : SvProfile) : Nat :=
  p.samplesPerSecond.toNat / (if p.asdusPerFrame = 0 then 1 else p.asdusPerFrame.toNat)

def SvProfile.frameIntervalNanos (p : SvProfile) : Nat :=
  if p.framesPerSecond = 0 then 0 else 1000000000 / p.framesPerSecond

/-- `SvProfile::smp_cnt_wrap`. -/
def SvProfile.wrap (p : SvProfile) : Nat := smpCntWrap p.samplesPerSecond.toNat

structure PublisherConfig where
  header : FrameHeader
  svId : Bytes
  datSet : Option Bytes
  confRev : UInt32
  profile : SvProfile
  simulation : Bool
  refrTm : Bool
  gmIdentity : Bool

/-- ASDUs in a frame, and octets in a sample block. -/
def PublisherConfig.asdusPerFrame (cfg : PublisherConfig) : Nat := cfg.profile.asdusPerFrame.toNat

def PublisherConfig.sampleLen (cfg : PublisherConfig) : Nat := cfg.profile.sampleLen

/-- The link-layer header of a frame: the publisher manages its simulation bit. -/
def PublisherConfig.link (cfg : PublisherConfig) : FrameHeader :=
  { cfg.header with
    reserved1 :=
      if cfg.simulation then cfg.header.reserved1 ||| reserved1Simulation
      else cfg.header.reserved1 &&& ~~~reserved1Simulation }

/-! ### The template -/

/-- `read_unsigned`: zero when the field is out of range. -/
def readUnsigned (frame : Bytes) (f : Field) : Nat :=
  match slice frame f.start (f.start + f.len) with
  | some octets => beNat octets
  | none => 0

/-- `write_unsigned`: big-endian, padded on the left. -/
def writeUnsigned (frame : Bytes) (f : Field) (value : Nat) : Except Error Bytes :=
  if f.len = 0 ∨ f.len > 8 then .error (.invalidValue "template field has an impossible width")
  else if frame.length < f.start + f.len then .error (.invalidValue "template offset out of range")
  else .ok (splice frame f.start (beBytes f.len value))

/-- `frame.get_mut(at..at + n)` and `copy_from_slice`, when the range is there. -/
def overwrite (frame : Bytes) (start : Nat) (octets : Bytes) : Bytes :=
  if frame.length < start + octets.length then frame else splice frame start octets

/-- The greatest count the stream reaches, which is what the template is encoded with. -/
def PublisherConfig.maxSmpCnt (cfg : PublisherConfig) : UInt16 :=
  UInt16.ofNat (min (cfg.profile.wrap - 1) 65535)

/-- One ASDU of the template. -/
def templateAsdu (cfg : PublisherConfig) (smpSynch : SmpSynch) (refrTm : Option UtcTime)
    (gm : Option GmIdentity) : Asdu where
  svId := cfg.svId
  datSet := cfg.datSet
  smpCnt := cfg.maxSmpCnt
  confRev := cfg.confRev
  refrTm := if cfg.refrTm then some (refrTm.getD defaultTime) else none
  smpSynch := some smpSynch
  smpRate := cfg.profile.smpRate
  sample := List.replicate cfg.sampleLen 0
  smpMod := cfg.profile.smpMod.map SmpMod.toU8
  gmIdentity := if cfg.gmIdentity then some (gm.getD zeroIdentity) else none

/-- The places of an ASDU in the frame: the decoder reports them relative to the APDU. -/
def AsduOffsets.shift (base : Nat) (o : AsduOffsets) : AsduOffsets where
  smpCnt := ⟨base + o.smpCnt.start, o.smpCnt.len⟩
  smpSynch := o.smpSynch.map fun f => ⟨base + f.start, f.len⟩
  refrTm := o.refrTm.map fun start => base + start
  sample := base + o.sample
  gmIdentity := o.gmIdentity.map fun start => base + start

/-- `locate_fields`: find the fields by decoding the frame. -/
def locateFields (frame : Bytes) (apduAt : Nat) (cfg : PublisherConfig) :
    Except Error (List AsduOffsets) := do
  if frame.length < apduAt then .error (.encode "frame shorter than its header")
  else
    let limits := { Limits.default with maxAsdus := max cfg.asdusPerFrame 1 }
    let pdu ← SavPduView.parse (frame.drop apduAt) limits
    let asdus ← pdu.asdus.mapM id
    if asdus.length ≠ cfg.asdusPerFrame then
      .error (.encode "template does not hold the configured number of ASDUs")
    else .ok (asdus.map fun a => a.offsets.shift apduAt)

/-- `build_template`: the frame, and where its fields are. -/
def buildTemplate (cfg : PublisherConfig) (smpSynch : SmpSynch) (refrTm : Option UtcTime)
    (gm : Option GmIdentity) : Except Error (Bytes × List AsduOffsets) := do
  let asdu := templateAsdu cfg smpSynch refrTm gm
  let apdu ← SavPdu.encode ⟨List.replicate cfg.asdusPerFrame asdu⟩
  let frame ← cfg.link.write apdu
  let located ← locateFields frame cfg.link.len cfg
  .ok (frame, located)

/-! ### The publisher -/

structure Publisher where
  cfg : PublisherConfig
  frame : Bytes
  located : List AsduOffsets
  smpCnt : Nat
  smpSynch : SmpSynch
  refrTm : Option UtcTime
  gmIdentity : Option GmIdentity
  pending : Bool
  nextSend : Option Instant
  dropped : Nat

namespace Publisher

/-- The loop of `write_smp_cnt_fields`. -/
def writeCounts (wrap : Nat) : Bytes → Nat → List AsduOffsets → Bytes
  | frame, _, [] => frame
  | frame, cnt, a :: rest =>
    let frame := (writeUnsigned frame a.smpCnt cnt).toOption.getD frame
    writeCounts wrap frame ((cnt + 1) % wrap) rest

def new (cfg : PublisherConfig) : Except Error Publisher := do
  if !isAscii cfg.svId || cfg.datSet.any (fun s => !isAscii s) then
    .error (.encode "svID and datSet must be ASCII (VisibleString)")
  else if cfg.profile.asdusPerFrame = 0 then
    .error (.invalidValue "a frame must carry at least one ASDU")
  else if cfg.profile.samplesPerSecond = 0 then
    .error (.invalidValue "samples_per_second must not be zero")
  else
    let (frame, located) ← buildTemplate cfg .none none none
    .ok {
      cfg
      frame := writeCounts cfg.profile.wrap frame 0 located
      located
      smpCnt := 0
      smpSynch := .none
      refrTm := none
      gmIdentity := none
      pending := false
      nextSend := some 0
      dropped := 0 }

variable (p : Publisher)

/-- `patch_asdu`: write one ASDU's `smpCnt` and sample block, and advance the count. -/
def patchAsdu (i : Nat) (block : Bytes) : Publisher × Except Error Unit :=
  match p.located[i]? with
  | none => (p, .error (.invalidValue "template is missing a patch point"))
  | some o =>
    match writeUnsigned p.frame o.smpCnt p.smpCnt with
    | .error e => (p, .error e)
    | .ok frame =>
      if frame.length < o.sample + block.length then
        ({ p with frame }, .error (.invalidValue "template offset out of range"))
      else
        ({ p with
            frame := splice frame o.sample block
            smpCnt := (p.smpCnt + 1) % p.cfg.profile.wrap }, .ok ())

/-- The loop over the blocks of a frame, from ASDU `i` on. -/
def patchAll : Publisher → Nat → List Bytes → Publisher × Except Error Unit
  | p, _, [] => (p, .ok ())
  | p, i, block :: blocks =>
    match p.patchAsdu i block with
    | (p, .error e) => (p, .error e)
    | (p, .ok ()) => patchAll p (i + 1) blocks

/-- `queue`: hand the frame over, and schedule the next one. -/
def queue (now : Instant) : Publisher :=
  { p with
    dropped := if p.pending then min u64Max (p.dropped + 1) else p.dropped
    pending := true
    nextSend := some (plusNanos now p.cfg.profile.frameIntervalNanos) }

/-- Patch every ASDU and queue the frame. -/
def send (now : Instant) (blocks : List Bytes) : Publisher × Except Error Unit :=
  match p.patchAll 0 blocks with
  | (p, .error e) => (p, .error e)
  | (p, .ok ()) => (p.queue now, .ok ())

def publish (now : Instant) (blocks : List Bytes) : Publisher × Except Error Unit :=
  if blocks.length ≠ p.cfg.asdusPerFrame then
    (p, .error (.invalidValue "one sample block per ASDU is required"))
  else if blocks.any (fun b => b.length ≠ p.cfg.sampleLen) then
    (p, .error (.invalidValue "sample block has the wrong length for this profile"))
  else p.send now blocks

def publishRepeating (now : Instant) (block : Bytes) : Publisher × Except Error Unit :=
  if block.length ≠ p.cfg.sampleLen then
    (p, .error (.invalidValue "sample block has the wrong length for this profile"))
  else p.send now (List.replicate p.cfg.asdusPerFrame block)

/-- The `smpCnt` and the sample block of an ASDU, read out of the frame. -/
def heldAt (o : AsduOffsets) : Nat × Bytes :=
  (readUnsigned p.frame o.smpCnt, (slice p.frame o.sample (o.sample + p.cfg.sampleLen)).getD [])

/-- The loop of `rebuild` that puts the counts and the blocks back. -/
def putBack (sampleLen : Nat) : Bytes → List ((Nat × Bytes) × AsduOffsets) → Bytes
  | frame, [] => frame
  | frame, ((count, block), o) :: rest =>
    let frame := (writeUnsigned frame o.smpCnt count).toOption.getD frame
    let frame := if block.length ≠ sampleLen then frame else overwrite frame o.sample block
    putBack sampleLen frame rest

/-- `rebuild`: encode the template again from the state of the stream. -/
def rebuild : Publisher × Except Error Unit :=
  let held := p.located.map p.heldAt
  match buildTemplate p.cfg p.smpSynch p.refrTm p.gmIdentity with
  | .error e => (p, .error e)
  | .ok (frame, located) =>
    ({ p with frame := putBack p.cfg.sampleLen frame (held.zip located), located }, .ok ())

/-- Whether `smpSynch` has room for a value in every ASDU. -/
def synchFits (value : Nat) : Bool :=
  p.located.all fun o => o.smpSynch.all fun f => decide (unsignedWidth value 1 ≤ f.len)

/-- The loop of `set_smp_synch`. -/
def writeSynch (value : Nat) : Publisher → List AsduOffsets → Publisher × Except Error Unit
  | p, [] => (p, .ok ())
  | p, o :: rest =>
    match o.smpSynch with
    | none => writeSynch value p rest
    | some f =>
      match writeUnsigned p.frame f value with
      | .error e => (p, .error e)
      | .ok frame => writeSynch value { p with frame } rest

def setSmpSynch (synch : SmpSynch) : Publisher × Except Error Unit :=
  let p := { p with smpSynch := synch }
  let value := synch.toU8.toNat
  if p.synchFits value then writeSynch value p p.located else p.rebuild

/-- A time as one number, in units of 2⁻²⁴ s. -/
def baseUnits (t : UtcTime) : Nat := t.seconds * 2 ^ 24 + t.fraction % 2 ^ 24

/-- The time of the first sample of ASDU `i`, in the wire's own unit. -/
def stamp (rate : Nat) (t : UtcTime) (i : Nat) : UtcTime :=
  let v := min u64Max (baseUnits t + i * 2 ^ 24 / rate)
  ⟨min u32Max (v / 2 ^ 24), v % 2 ^ 24, t.quality⟩

/-- The loop of `set_refr_tm`, from ASDU `i` on. -/
def writeStamps (rate : Nat) (t : UtcTime) : Bytes → Nat → List AsduOffsets → Bytes
  | frame, _, [] => frame
  | frame, i, o :: rest =>
    let frame := match o.refrTm with
      | some start => overwrite frame start (stamp rate t i).toOctets
      | none => frame
    writeStamps rate t frame (i + 1) rest

def setRefrTm (t : UtcTime) : Publisher :=
  let rate := max p.cfg.profile.samplesPerSecond.toNat 1
  { p with refrTm := some t, frame := writeStamps rate t p.frame 0 p.located }

/-- The loop of `set_gm_identity`. -/
def writeIdentity (id : GmIdentity) : Bytes → List AsduOffsets → Bytes
  | frame, [] => frame
  | frame, o :: rest =>
    let frame := match o.gmIdentity with
      | some start => overwrite frame start id.octets
      | none => frame
    writeIdentity id frame rest

def setGmIdentity (id : GmIdentity) : Publisher :=
  { p with gmIdentity := some id, frame := writeIdentity id p.frame p.located }

def pollTransmit : Publisher × Option Bytes :=
  ({ p with pending := false }, if p.pending then some p.frame else none)

def setSmpCnt (smpCnt : UInt16) : Publisher :=
  { p with smpCnt := smpCnt.toNat % p.cfg.profile.wrap }

end Publisher

end Iec61850.Sv
