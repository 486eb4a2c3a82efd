import Iec61850.Server.Values

/-!
# Members of a data set

The reference that the model gives to a member of a data set and the check of the validator that
the member exists (`model/mod.rs`). Both go through one walk of the declarations, component by
component; the walk pays no heed to the functional constraint.
-/

namespace Iec61850.Server

open Theory Mms

namespace Fcda

variable (fcda : Fcda)

def lnName : Bytes := fcda.lnPrefix ++ fcda.lnClass ++ fcda.lnInst

/-- The parts of `doName` and `daName`, the empty ones among them. -/
def parts : List Bytes :=
  fcda.doName.splitOn dot ++ (fcda.daName.map fun da => da.splitOn dot).getD []

def mmsReference (ldName : Bytes) : Bytes :=
  referenceOf ldName
    (fcda.lnName ++ (fcda.fc.asStr :: fcda.parts).flatMap fun part => sep :: part)

end Fcda

/-- `str::strip_prefix`. -/
def stripPrefix (start bs : Bytes) : Option Bytes :=
  if start.isPrefixOf bs then some (bs.drop start.length) else none

/-! ### The walk -/

inductive FcdaNode where
  | object (o : DataObject)
  | attribute (a : DataAttribute)

/-- The number of elements that a declaration gives. -/
def FcdaNode.count : FcdaNode → Option Nat
  | .object o => o.count
  | .attribute a => a.count

structure FcdaStep where
  reference : Bytes
  name : Bytes
  index : Option Nat
  count : Option Nat
  deriving DecidableEq, Repr

/-- The declaration of a name, below where the walk is: a sub object first, then an attribute. -/
def nextNode (ln : LogicalNode) : Option FcdaNode → Bytes → Option FcdaNode
  | none, name => (ln.dataObjects.find? fun d => d.name = name).map .object
  | some (.object o), name =>
    ((o.subObjects.find? fun s => s.name = name).map .object).or
      ((o.attributes.find? fun a => a.name = name).map .attribute)
  | some (.attribute a), name => (a.children.find? fun c => c.name = name).map .attribute

/-- A text in the marks that the reasons put around it. -/
def marked (text : Bytes) : Bytes := ascii "`" ++ text ++ ascii "`"

/-- The loop of `fcda_walk`, from where it is and from the reference up to there. -/
def walkFrom (ln : LogicalNode) :
    Bytes → Option FcdaNode → List Bytes → Except Bytes (List FcdaStep)
  | _, _, [] => .ok []
  | before, here, part :: parts =>
    let name := (splitIndex part).1
    let index := (splitIndex part).2
    match nextNode ln here name with
    | none => .error (marked name ++ ascii " is not declared here")
    | some next => do
        let reference := before ++ sep :: name
        let rest ← walkFrom ln (reference ++ (index.map indexText).getD []) (some next) parts
        .ok (⟨reference, name, index, next.count⟩ :: rest)

namespace IedModel

variable (m : IedModel) (ldName : Bytes) (fcda : Fcda)

/-- The logical device of a member. -/
def fcdaDevice : Option DeviceModel :=
  (m.logicalDeviceByInst fcda.ldInst).or (m.logicalDevice ldName)

def fcdaWalk : Except Bytes (List FcdaStep) :=
  match m.fcdaDevice ldName fcda with
  | none => .error (ascii "no logical device " ++ marked fcda.ldInst)
  | some ld =>
    match ld.nodes.find? fun ln => ln.name = fcda.lnName with
    | none => .error (ascii "no logical node " ++ marked fcda.lnName)
    | some ln =>
      walkFrom ln.toLogicalNode
        (referenceOf ld.name (ln.name ++ sep :: fcda.fc.asStr)) none
        (fcda.parts.filter (· ≠ []))

def placeIndex (base : Bytes) (ix : Nat) : Option Bytes := do
  let walk ← (m.fcdaWalk ldName fcda).toOption
  let step ← walk.find? fun s => s.count.isSome
  let rest ← stripPrefix step.reference base
  some (step.reference ++ indexText ix ++ rest)

/-- The name of the device that a member is referred to in. -/
def fcdaLdName : Bytes :=
  ((m.logicalDeviceByInst fcda.ldInst).map fun ld => ld.name).getD ldName

def fcdaReference : Bytes :=
  let base := fcda.mmsReference (m.fcdaLdName ldName fcda)
  match fcda.ix with
  | some ix =>
    if openParen ∈ base then base else (m.placeIndex ldName fcda base ix.toNat).getD base
  | none => base

end IedModel

/-- The index that a component carries, against the declaration. -/
def FcdaStep.check (s : FcdaStep) : Except Bytes Unit :=
  match s.index, s.count with
  | some i, some n =>
    if i ≥ n then
      .error (ascii "index " ++ numeral i ++ ascii " is past the end of " ++ marked s.name ++
        ascii ", which has " ++ numeral n ++ ascii " elements")
    else .ok ()
  | some i, none =>
    .error (marked s.name ++ ascii " is not an array, so " ++ marked (indexText i) ++
      ascii " selects nothing")
  | none, _ => .ok ()

/-- The loop of `fcda_resolves`. -/
def checkSteps : List FcdaStep → Except Bytes Unit
  | [] => .ok ()
  | s :: walk => do
      s.check
      checkSteps walk

/-- What `fcda_resolves` asks of `ix`, when no name carries an index. -/
def checkIx (ix : Nat) (walk : List FcdaStep) : Except Bytes Unit :=
  if walk.any fun s => s.index.isSome then .ok ()
  else
    match walk.find? fun s => s.count.isSome with
    | none => .error (ascii "ix=" ++ numeral ix ++ ascii " but nothing on this path is an array")
    | some s =>
      if ix ≥ s.count.getD 0 then
        .error (ascii "ix=" ++ numeral ix ++ ascii " is past the end of " ++ marked s.name ++
          ascii ", which has " ++ numeral (s.count.getD 0) ++ ascii " elements")
      else .ok ()

def IedModel.fcdaResolves (m : IedModel) (ldName : Bytes) (fcda : Fcda) : Except Bytes Unit := do
  let walk ← m.fcdaWalk ldName fcda
  checkSteps walk
  match fcda.ix with
  | some ix => checkIx ix.toNat walk
  | none => .ok ()

end Iec61850.Server
