import Iec61850.Server.Logs
import Iec61850.Server.Reference
import Iec61850.Server.SettingRuns

/-!
# What a file engineers

The model of an IED as `model/mod.rs` has it after loading: beside its data objects a logical node
has data sets, control blocks and logs. What a `Val` and a `type` say of an attribute is kept by the
reference of the attribute.
-/

namespace Iec61850.Server

open Theory Mms

/-! ### Data sets and control blocks -/

/-- `Fcda`, a member of a data set. -/
structure Fcda where
  ldInst : Bytes
  lnPrefix : Bytes
  lnClass : Bytes
  lnInst : Bytes
  doName : Bytes
  daName : Option Bytes
  fc : Fc
  ix : Option UInt32
  deriving DecidableEq, Repr

structure DataSet where
  name : Bytes
  members : List Fcda
  deriving DecidableEq, Repr

/-- `ReportControl`, with the fields that its attributes do not come from. -/
structure NamedReportControl extends ReportControl where
  name : Bytes
  datSet : Option Bytes
  maxInstances : Nat
  indexed : Bool
  deriving Repr

/-- A number in decimal, of two digits at least. -/
def twoDigits (n : Nat) : Bytes := if n < 10 then 48 :: numeral n else numeral n

/-- `ReportControl::instance_names`. -/
def NamedReportControl.instanceNames (rcb : NamedReportControl) : List Bytes :=
  if rcb.indexed then
    (List.range (max rcb.maxInstances 1)).map fun n => rcb.name ++ twoDigits (n + 1)
  else [rcb.name]

/-- `LogControl`, with the fields that its attributes do not come from. -/
structure NamedLogControl extends LogControl where
  name : Bytes
  datSet : Option Bytes
  logName : Bytes
  logLdInst : Option Bytes
  deriving Repr

structure GseAddress where
  mac : Bytes
  appid : Nat
  vlanId : Nat
  vlanPriority : Nat
  minTimeMs : Option Nat
  maxTimeMs : Option Nat
  deriving Repr

structure GseControl where
  name : Bytes
  datSet : Option Bytes
  confRev : Nat
  goId : Option Bytes
  fixedOffs : Bool
  address : Option GseAddress
  deriving Repr

structure SmvAddress where
  mac : Bytes
  appid : Nat
  vlanId : Nat
  vlanPriority : Nat
  deriving Repr

structure SmvControl where
  name : Bytes
  smvId : Bytes
  datSet : Option Bytes
  confRev : Nat
  smpRate : Nat
  nofAsdu : Nat
  smpMod : Bytes
  multicast : Bool
  address : Option SmvAddress
  deriving Repr

/-! ### The model -/

/-- `LogicalNode`, with all that is under it; a `Log` is its name. -/
structure NodeModel extends LogicalNode where
  dataSets : List DataSet
  gseControls : List GseControl
  smvControls : List SmvControl
  reportControls : List NamedReportControl
  logControls : List NamedLogControl
  logs : List Bytes
  settingControl : Option SettingControl
  deriving Repr

/-- A logical node that has data objects and nothing else. -/
def NodeModel.plain (ln : LogicalNode) : NodeModel := ⟨ln, [], [], [], [], [], [], none⟩

/-- `LogicalDevice`, by its instance and by its name on the wire. -/
structure DeviceModel where
  inst : Bytes
  name : Bytes
  nodes : List NodeModel
  deriving Repr

structure EnumType where
  id : Bytes
  values : List (Int × Bytes)
  deriving Repr

/-- `IedModel`. `value` and `typeId` are those of an attribute, by its reference. -/
structure IedModel where
  logicalDevices : List DeviceModel
  enumTypes : List EnumType
  value : Bytes → Option Bytes
  typeId : Bytes → Option Bytes

def EnumType.ord (e : EnumType) (symbol : Bytes) : Option Int :=
  (e.values.find? fun v => v.2 = symbol).map (·.1)

namespace IedModel

variable (m : IedModel)

def enumType (id : Bytes) : Option EnumType := m.enumTypes.find? fun e => e.id = id

def enumOrd (typeId : Option Bytes) (symbol : Bytes) : Option Int :=
  match parseI64 symbol with
  | some n => some n
  | none => typeId.bind fun id => (m.enumType id).bind fun e => e.ord symbol

def logicalDevice (name : Bytes) : Option DeviceModel :=
  m.logicalDevices.find? fun ld => ld.name = name

def logicalDeviceByInst (inst : Bytes) : Option DeviceModel :=
  m.logicalDevices.find? fun ld => ld.inst = inst

end IedModel

/-- `IedModel::data_set`. -/
def NodeModel.dataSet (ln : NodeModel) (name : Bytes) : Option DataSet :=
  ln.dataSets.find? fun d => d.name = name

end Iec61850.Server
