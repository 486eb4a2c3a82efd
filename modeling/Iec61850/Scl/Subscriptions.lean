import Iec61850.Server.Members
import Iec61850.Sv.Layout
import Iec61850.Theory.Grouping

/-!
# Subscriptions

`resolve` of `scl/mod.rs`: from the inputs of an IED to the control blocks of other IEDs that
publish what the inputs take. An input names the control block, or it names a signal, and then the
data sets of the publisher are searched for it. Inputs that are fed by one block make up one
subscription.
-/

namespace Iec61850.Scl

open Theory Server Sv

/-! ### The model -/

inductive ServiceType where
  | goose
  | smv
  | report
  | poll
  deriving DecidableEq, Repr

structure ExtRef where
  iedName : Option Bytes
  ldInst : Option Bytes
  lnPrefix : Bytes
  lnClass : Option Bytes
  lnInst : Bytes
  doName : Option Bytes
  daName : Option Bytes
  serviceType : Option ServiceType
  srcLdInst : Option Bytes
  srcPrefix : Bytes
  srcLnClass : Option Bytes
  srcLnInst : Bytes
  srcCbName : Option Bytes
  intAddr : Option Bytes
  deriving DecidableEq, Repr

namespace ExtRef

variable (x : ExtRef)

def sourceLdInst : Option Bytes := x.srcLdInst.or x.ldInst

def sourceLnName : Bytes :=
  match x.srcLnClass with
  | none => ascii "LLN0"
  | some lnClass =>
    if lnClass = ascii "LLN0" then ascii "LLN0" else x.srcPrefix ++ lnClass ++ x.srcLnInst

end ExtRef

/-- `LogicalNode`, with its `Inputs`. -/
structure InputNode extends NodeModel where
  inputs : List ExtRef

/-- `LogicalDevice`. -/
structure InputDevice where
  inst : Bytes
  name : Bytes
  logicalNodes : List InputNode

/-- `IedModel`, by its name and its logical devices. -/
structure NamedModel where
  name : Bytes
  logicalDevices : List InputDevice

/-- The logical node of a name. -/
def InputDevice.node (ld : InputDevice) (name : Bytes) : Option InputNode :=
  ld.logicalNodes.find? fun ln => ln.name = name

/-! ### The layout of sampled values -/

/-- `Fcda::signal`. -/
def signal (fcda : Fcda) : Bytes :=
  (if fcda.ldInst = [] then [] else fcda.ldInst ++ [slash]) ++
    fcda.lnName ++ dot :: fcda.doName ++
    fcda.daName.elim [] fun da => dot :: da

def named (part : Bytes) : Bytes := (splitIndex part).1

/-- The data object that the components of a name lead to. -/
def objectAt : List DataObject → List Bytes → Option DataObject
  | _, [] => none
  | os, [part] => os.find? fun o => o.name = named part
  | os, part :: parts =>
    (os.find? fun o => o.name = named part).bind fun o => objectAt o.subObjects parts

/-- The attribute that the components of a name lead to. -/
def attributeAt : List DataAttribute → List Bytes → Option DataAttribute
  | _, [] => none
  | as, [part] => as.find? fun a => a.name = named part
  | as, part :: parts =>
    (as.find? fun a => a.name = named part).bind fun a => attributeAt a.children parts

/-- `BType::sv_channel`. -/
def svChannel : BType → Option ChannelType
  | .boolean => some .boolean
  | .int8 => some (.int 1)
  | .int16 => some (.int 2)
  | .int24 => some (.int 3)
  | .int32 => some (.int 4)
  | .int64 => some (.int 8)
  | .int8U => some (.unsigned 1)
  | .int16U => some (.unsigned 2)
  | .int24U => some (.unsigned 3)
  | .int32U => some (.unsigned 4)
  | .float32 => some .float32
  | .float64 => some .float64
  | .quality => some .quality
  | .timestamp => some .timestamp
  | .enum => some .enum
  | _ => none

namespace NamedModel

variable (m : NamedModel)

/-- `IedModel::logical_device`. -/
def logicalDevice (name : Bytes) : Option InputDevice :=
  m.logicalDevices.find? fun ld => ld.name = name

/-- `IedModel::logical_device_by_inst`. -/
def logicalDeviceByInst (inst : Bytes) : Option InputDevice :=
  m.logicalDevices.find? fun ld => ld.inst = inst

/-- `IedModel::ext_refs`. -/
def extRefs : List (InputDevice × InputNode × ExtRef) :=
  m.logicalDevices.flatMap fun ld => ld.logicalNodes.flatMap fun ln =>
    ln.inputs.map fun x => (ld, ln, x)

/-- `IedModel::fcda_attribute`. -/
def fcdaAttribute (ldName : Bytes) (fcda : Fcda) : Option DataAttribute := do
  let da ← fcda.daName
  let ld ← (m.logicalDeviceByInst fcda.ldInst).or (m.logicalDevice ldName)
  let ln ← ld.node fcda.lnName
  let o ← objectAt ln.dataObjects (fcda.doName.splitOn dot)
  attributeAt o.attributes (da.splitOn dot)

/-- `IedModel::sv_sample_layout`. -/
def svSampleLayout (ldName : Bytes) (ds : DataSet) : Option ChannelLayout := do
  let channels ← ds.members.mapM fun fcda => do
    let a ← m.fcdaAttribute ldName fcda
    let kind ← svChannel a.btype
    pure (signal fcda, kind)
  if channels = [] then none else some (ChannelLayout.new channels)

end NamedModel

/-- `SmvControl::samples_per_second`. -/
def samplesPerSecond (c : SmvControl) (nominalHz : Nat) : Option Nat :=
  if c.smpMod = ascii "SmpPerSec" then if c.smpRate ≠ 0 then some c.smpRate else none
  else if c.smpMod = ascii "SecPerSmp" then if c.smpRate = 1 then some 1 else none
  else
    let product := c.smpRate * nominalHz
    if product < 2 ^ 32 ∧ product ≠ 0 then some product else none

/-! ### Control blocks -/

structure Located where
  ld : InputDevice
  lnName : Bytes
  cb : Bytes
  smv : Bool
  identifier : Bytes
  dst : Bytes
  appid : Nat
  confRev : Nat
  samplesPerSecond : Option Nat
  layout : Option ChannelLayout

/-- The first GOOSE control block of a name. -/
def InputNode.gseControl (ln : InputNode) (cb : Bytes) : Option GseControl :=
  ln.gseControls.find? fun c => c.name = cb

/-- The first control block of a name for sampled values. -/
def InputNode.smvControl (ln : InputNode) (cb : Bytes) : Option SmvControl :=
  ln.smvControls.find? fun c => c.name = cb

def describe (m : NamedModel) (ld : InputDevice) (ln : InputNode) (cb : Bytes) (smv : Bool)
    (nominalHz : Nat) : Option Located :=
  if smv then do
    let c ← ln.smvControl cb
    let a ← c.address
    pure { ld, lnName := ln.name, cb := c.name, smv := true, identifier := c.smvId, dst := a.mac,
           appid := a.appid, confRev := c.confRev,
           samplesPerSecond := samplesPerSecond c nominalHz,
           layout := (c.datSet.bind ln.dataSet).bind (m.svSampleLayout ld.name) }
  else do
    let c ← ln.gseControl cb
    let a ← c.address
    pure { ld, lnName := ln.name, cb := c.name, smv := false,
           identifier := ld.name ++ slash :: ln.name ++ ascii "$GO$" ++ c.name, dst := a.mac,
           appid := a.appid, confRev := c.confRev, samplesPerSecond := none, layout := none }

def covers (fcda : Fcda) (x : ExtRef) : Bool :=
  let sameLn := x.ldInst.all (· = fcda.ldInst) && decide (x.lnPrefix = fcda.lnPrefix) &&
    x.lnClass.any (· = fcda.lnClass) && decide (x.lnInst = fcda.lnInst)
  let sameDo := x.doName.any (· = fcda.doName)
  let sameDa :=
    match fcda.daName, x.daName with
    | some member, some wanted => decide (member = wanted)
    | _, _ => true
  sameLn && sameDo && sameDa

/-- A text between backticks. -/
def quoted (text : Bytes) : Bytes := 96 :: text ++ [96]

def byControlBlock (m : NamedModel) (x : ExtRef) (cb : Bytes) (nominalHz : Nat) :
    Except Bytes Located :=
  match x.sourceLdInst with
  | none => .error (ascii "ExtRef has srcCBName but no ldInst to find it in")
  | some inst =>
    match m.logicalDeviceByInst inst with
    | none => .error (quoted m.name ++ ascii " has no LDevice " ++ quoted inst)
    | some ld =>
      match ld.node x.sourceLnName with
      | none =>
        .error (quoted (m.name ++ slash :: inst) ++ ascii " has no logical node " ++
          quoted x.sourceLnName)
      | some ln =>
        let smv := x.serviceType ≠ some .goose && ln.smvControls.any fun c => c.name = cb
        match describe m ld ln cb smv nominalHz with
        | some found => .ok found
        | none =>
          .error (ascii "control block " ++
            quoted (ld.name ++ slash :: x.sourceLnName ++ dot :: cb) ++ ascii " of " ++
            quoted m.name ++ ascii " is missing or has no Communication address")

/-- The control blocks that the loops of `by_signal` come to: those of a data set that has the
signal, by name and by whether they are for sampled values. -/
def carriers (m : NamedModel) (x : ExtRef) : List (InputDevice × InputNode × Bytes × Bool) :=
  m.logicalDevices.flatMap fun ld => ld.logicalNodes.flatMap fun ln =>
    ln.dataSets.flatMap fun ds =>
      if ds.members.any fun fcda => covers fcda x then
        ((ln.gseControls.filter fun c =>
            c.datSet = some ds.name && x.serviceType ≠ some .smv).map fun c =>
          (ld, ln, c.name, false)) ++
        ((ln.smvControls.filter fun c =>
            c.datSet = some ds.name && x.serviceType ≠ some .goose).map fun c =>
          (ld, ln, c.name, true))
      else []

def bySignal (m : NamedModel) (x : ExtRef) (nominalHz : Nat) : Except Bytes Located :=
  let signal := x.lnPrefix ++ x.lnClass.getD [] ++ x.lnInst ++ dot :: x.doName.getD [] ++
    x.daName.elim [] fun da => dot :: da
  let found := (carriers m x).filterMap fun (ld, ln, cb, smv) => describe m ld ln cb smv nominalHz
  match found with
  | [one] => .ok one
  | [] =>
    .error (quoted m.name ++ ascii " publishes no addressed control block carrying " ++ signal)
  | _ =>
    .error (signal ++ ascii " is published by " ++ numeral found.length ++
      ascii " control blocks of " ++ quoted m.name ++ ascii "; the ExtRef needs a srcCBName")

/-! ### Resolving -/

structure Subscription where
  publisher : Bytes
  controlBlock : Bytes
  identifier : Bytes
  dst : Bytes
  appid : Nat
  confRev : Nat
  samplesPerSecond : Option Nat
  layout : Option ChannelLayout
  extRefs : List ExtRef

/-- `Diagnostic`, of the code `MissingAttribute`. -/
structure Unresolved where
  place : Bytes
  message : Bytes
  deriving DecidableEq, Repr

structure Subscriptions where
  goose : List Subscription
  sv : List Subscription
  unresolved : List Unresolved

/-- The control block and the publisher of a subscription. -/
def Subscription.key (s : Subscription) : Bytes × Bytes := (s.controlBlock, s.publisher)

def Subscription.push (s : Subscription) (x : ExtRef) : Subscription :=
  { s with extRefs := s.extRefs ++ [x] }

/-- The subscription that `merge` adds. -/
def Located.subscription (found : Located) (publisher : Bytes) (x : ExtRef) : Subscription where
  publisher
  controlBlock := found.ld.name ++ slash :: found.lnName ++ dot :: found.cb
  identifier := found.identifier
  dst := found.dst
  appid := found.appid
  confRev := found.confRev
  samplesPerSecond := found.samplesPerSecond
  layout := found.layout
  extRefs := [x]

def merge (out : Subscriptions) (publisher : Bytes) (found : Located) (x : ExtRef) :
    Subscriptions :=
  let new := found.subscription publisher x
  if found.smv then { out with sv := addTo Subscription.key (·.push x) new out.sv }
  else { out with goose := addTo Subscription.key (·.push x) new out.goose }

/-- What an input resolves to. -/
def locate (lookup : Bytes → Option NamedModel) (nominalHz : Nat) (publisher : Bytes)
    (x : ExtRef) : Except Bytes Located :=
  match lookup publisher with
  | none =>
    .error (ascii "ExtRef names IED " ++ quoted publisher ++ ascii ", which is not in this file")
  | some m =>
    match x.srcCbName with
    | some cb => byControlBlock m x cb nominalHz
    | none => bySignal m x nominalHz

/-- Where an input is. -/
def placeOf (subscriber : NamedModel) (e : InputDevice × InputNode × ExtRef) : Bytes :=
  subscriber.name ++ slash :: e.1.inst ++ slash :: e.2.1.name

/-- One round of the loop of `resolve`. -/
def resolveOne (subscriber : NamedModel) (lookup : Bytes → Option NamedModel) (nominalHz : Nat)
    (out : Subscriptions) (e : InputDevice × InputNode × ExtRef) : Subscriptions :=
  match e.2.2.iedName with
  | none => out
  | some publisher =>
    match locate lookup nominalHz publisher e.2.2 with
    | .ok found => merge out publisher found e.2.2
    | .error why =>
      { out with unresolved := out.unresolved ++ [⟨placeOf subscriber e, why⟩] }

def resolve (subscriber : NamedModel) (lookup : Bytes → Option NamedModel) (nominalHz : Nat) :
    Subscriptions :=
  subscriber.extRefs.foldl (resolveOne subscriber lookup nominalHz) ⟨[], [], []⟩

end Iec61850.Scl
