import Iec61850.Server.Store
import Iec61850.Server.Tree
import Iec61850.Theory.FiniteMaps

/-!
# The setting groups of a logical device

`server/sg.rs`, for one logical device: the values of its settings in each group, the edit
reservation, and what a write to an attribute of the setting group control block does. The engine
of the source is a list of these; the devices meet in nothing but the clock.
-/

namespace Iec61850.Server

open Theory

/-! ### The control block and its settings -/

/-- The attributes of a setting group control block (`sgcb_components`). -/
inductive SgAttribute where
  | numOfSG
  | actSG
  | editSG
  | cnfEdit
  | lActTm
  | resvTms
  deriving DecidableEq, Repr

namespace SgAttribute

/-- The components of the block, in their order. -/
def components : List SgAttribute := [numOfSG, actSG, editSG, cnfEdit, lActTm, resvTms]

def btype : SgAttribute → BType
  | numOfSG | actSG | editSG => .int8U
  | cnfEdit => .boolean
  | lActTm => .entryTime
  | resvTms => .int16U

/-- `writable_block_attribute`, for a setting group control block. -/
def writable : SgAttribute → Bool
  | actSG | editSG | cnfEdit | resvTms => true
  | numOfSG | lActTm => false

end SgAttribute

/-- What the server publishes of the settings of a logical device: each of them under `SG` and under
`SE`, and the attributes of the control block. -/
inductive Key where
  | sg (r : SettingRef)
  | se (r : SettingRef)
  | block (a : SgAttribute)
  deriving DecidableEq, Repr

theorem sg_injective : Function.Injective Key.sg := fun _ _ h => Key.sg.inj h

theorem se_injective : Function.Injective Key.se := fun _ _ h => Key.se.inj h

/-- What a variable is to a write. -/
def Variable.node (v : Variable) : Node :=
  match v.kind with
  | .leaf btype => .leaf btype
  | .struct | .array _ => .composite

/-- `Ied::node_at`, for the settings of a logical device and its control block. -/
def treeOf (ld : LogicalDevice) : Key → Option Node
  | .sg r => (nodeAt ld .sg r).map Variable.node
  | .se r => (nodeAt ld .se r).map Variable.node
  | .block a => some (.leaf a.btype)

/-- `edit_reference` exchanges the first `$SG$` of a reference, which is its functional constraint:
neither a domain nor a logical node has a `$` in its name. -/
theorem treeOf_se (ld : LogicalDevice) (r : SettingRef) : treeOf ld (.se r) = treeOf ld (.sg r) := by
  rw [treeOf, treeOf, nodeAt_se]

/-! ### Engineered texts -/

/-- What the meaning of an engineered text rests on beside its type: the enumerations of the file,
and how a floating-point number is written. -/
structure TextForms where
  enumOrd : SettingRef → Bytes → Option Int
  float32 : Bytes → Option Nat
  float64 : Bytes → Option Nat

/-- Decimal digits, at least one. -/
def digitsOf (bs : Bytes) : Option Nat :=
  if bs.isEmpty then none
  else bs.foldlM (fun n b => if 48 ≤ b ∧ b ≤ 57 then some (10 * n + (b.toNat - 48)) else none) 0

/-- `str::parse::<u64>`. -/
def parseU64 (bs : Bytes) : Option Nat :=
  (digitsOf (if bs.head? = some 43 then bs.tail else bs)).filter (· < 2 ^ 64)

/-- `str::parse::<i64>`. -/
def parseI64 (bs : Bytes) : Option Int :=
  match bs with
  | 45 :: rest => ((digitsOf rest).filter (· ≤ 2 ^ 63)).map fun n => -(n : Int)
  | _ => ((parseU64 bs).filter (· < 2 ^ 63)).map fun n => (n : Int)

def parseEngineeredTyped (t : TextForms) (btype : BType) (r : SettingRef) (text : Bytes) :
    Option Value :=
  match btype with
  | .enum => (t.enumOrd r text).map .integer
  | .boolean => some (.boolean (text = ascii "true" || text = ascii "1"))
  | .int8 | .int16 | .int24 | .int32 | .int64 => (parseI64 text).map .integer
  | .int8U | .int16U | .int24U | .int32U => (parseU64 text).map .unsigned
  | .float32 => (t.float32 text).map .float32
  | .float64 => (t.float64 text).map .float64
  | .visString32 | .visString64 | .visString65 | .visString129 | .visString255 | .objRef
  | .currency => some (.visibleString text)
  | .unicode255 => some (.mmsString text)
  | _ => none

/-- `Ied::parse_text`, of a setting. -/
def parseText (t : TextForms) (ied : LeafStore Key) (r : SettingRef) (text : Bytes) :
    Option Value :=
  match ied.node (.sg r) with
  | some (.leaf btype) => parseEngineeredTyped t btype r text
  | _ => none

/-- A text gives a value of the type it is read as. -/
theorem accepts_of_parseEngineeredTyped {t : TextForms} {btype : BType} {r : SettingRef}
    {text : Bytes} {v : Value} (h : parseEngineeredTyped t btype r text = some v) :
    accepts btype v = true := by
  cases btype
  all_goals
    simp only [parseEngineeredTyped, Option.map_eq_some_iff, Option.some.injEq, reduceCtorEq] at h
  all_goals
    obtain ⟨x, -, rfl⟩ := h
    rfl

/-! ### The engine -/

/-- The values of one group, by setting. -/
abbrev Settings := AList fun _ : SettingRef => Value

structure Groups where
  count : Nat
  values : Nat → Option Settings
  editor : Option AssocId
  editorUntil : Option Instant

/-- A number an attribute of the block publishes. -/
def LeafStore.number (ied : LeafStore Key) (a : SgAttribute) : Option Nat :=
  (ied.values (.block a)).bind unsignedOf

/-- A value the engine takes of a group at start-up: its own engineered one, or else what the model
holds. -/
def engineeredValue (t : TextForms) (ied : LeafStore Key) (group : Nat) (s : Setting) :
    Option Value :=
  (((s.2.find? (fun e => e.1 = group)).bind fun e => parseText t ied s.1 e.2)).or
    (ied.values (.sg s.1))

/-- The values of a group at start-up. -/
def seedGroup (t : TextForms) (ld : LogicalDevice) (ied : LeafStore Key) (group : Nat) : Settings :=
  mapOf ((settingsOf ld).map fun s => (s.1, engineeredValue t ied group s))

def reservationDeadline (ied : LeafStore Key) (now : Instant) : Option Instant :=
  let seconds := (ied.number .resvTms).getD 0
  if 0 < seconds then some (Instant.plusMillis now (seconds * 1000)) else none

namespace Groups

/-- `SettingGroups::new`, of one logical device. -/
def new (t : TextForms) (ld : LogicalDevice) (ied : LeafStore Key) : Groups :=
  let count := max 1 ((ied.number .numOfSG).getD 1)
  { count := count
    values := fun group =>
      if 1 ≤ group ∧ group ≤ count then some (seedGroup t ld ied group) else none
    editor := none
    editorUntil := none }

variable (g : Groups)

def applyGroup (ied : LeafStore Key) (group : Nat) : LeafStore Key :=
  match g.values group with
  | none => ied
  | some values =>
    let ied := writeOut (fun s p v => (s.writeLeaf p v).1) Key.sg values ied
    (ied.writeLeaf (.block .actSG) (.unsigned group)).1

def activateInitial (ied : LeafStore Key) : LeafStore Key :=
  g.applyGroup ied ((ied.number .actSG).getD 1)

def expire (now : Instant) : Groups :=
  if g.editorUntil.any (· ≤ now) then { g with editor := none, editorUntil := none } else g

/-- Another association holds the edit reservation. -/
def heldByOther (assoc : AssocId) : Bool := g.editor.any (· ≠ assoc)

/-- `ActSG` of `on_block_write`. -/
def writeActSG (ied : LeafStore Key) (value : Value) (now : Now) :
    Groups × LeafStore Key × Except Int Unit :=
  match unsignedOf value with
  | none => (g, ied, .error dataAccessValueInvalid)
  | some group =>
    if 1 ≤ group ∧ group ≤ g.count then
      let ied := g.applyGroup ied group
      (g, (ied.setInternal (.block .lActTm) (.binaryTime now.wall.toOctets)).1, .ok ())
    else (g, ied, .error dataAccessValueInvalid)

/-- `EditSG` of `on_block_write`. -/
def writeEditSG (assoc : AssocId) (ied : LeafStore Key) (value : Value) (now : Now) :
    Groups × LeafStore Key × Except Int Unit :=
  match unsignedOf value with
  | none => (g, ied, .error dataAccessValueInvalid)
  | some group =>
    if group = 0 then
      if g.heldByOther assoc then (g, ied, .error dataAccessDenied)
      else ({ g with editor := none, editorUntil := none }, ied, .ok ())
    else if g.count < group then (g, ied, .error dataAccessValueInvalid)
    else if g.heldByOther assoc then (g, ied, .error dataAccessDenied)
    else
      let held :=
        { g with editor := some assoc, editorUntil := reservationDeadline ied now.mono }
      -- The server fills in a scratch copy, which makes no report claim a change.
      let filled :=
        writeOut (fun s p v => (s.setInternal p v).1) Key.se ((g.values group).getD ∅) ied
      (held, filled, .ok ())

/-- The values that a confirmation stores of a group: what the editing copy holds. -/
def confirmed (ied : LeafStore Key) (values : Settings) : Settings :=
  overlay values (mapOf (values.keys.map fun r => (r, ied.values (.se r))))

/-- `CnfEdit` of `on_block_write`. -/
def writeCnfEdit (assoc : AssocId) (ied : LeafStore Key) (value : Value) :
    Groups × LeafStore Key × Except Int Unit :=
  if (boolOf value).getD false = false then (g, ied, .ok ())
  else if g.heldByOther assoc then (g, ied, .error dataAccessDenied)
  else
    let group := (ied.number .editSG).getD 0
    if group = 0 ∨ g.count < group then (g, ied, .error dataAccessDenied)
    else
      let stored :=
        { g with
          values := Function.update g.values group ((g.values group).map (confirmed ied)) }
      -- Confirming the group in force changes what is in force, at once.
      if (ied.number .actSG).getD 1 = group then (stored, stored.applyGroup ied group, .ok ())
      else (stored, ied, .ok ())

/-- `ResvTms` of `on_block_write`. -/
def writeResvTms (assoc : AssocId) (ied : LeafStore Key) (value : Value) (now : Now) :
    Groups × LeafStore Key × Except Int Unit :=
  match unsignedOf value with
  | none => (g, ied, .error dataAccessValueInvalid)
  | some seconds =>
    if g.heldByOther assoc then (g, ied, .error dataAccessDenied)
    else if g.editor = some assoc then
      let editorUntil :=
        if 0 < seconds then some (Instant.plusMillis now.mono (seconds * 1000)) else none
      ({ g with editorUntil := editorUntil }, ied, .ok ())
    else (g, ied, .ok ())

def onBlockWrite (assoc : AssocId) (ied : LeafStore Key) (a : SgAttribute) (value : Value)
    (now : Now) : Groups × LeafStore Key × Except Int Unit :=
  let g := g.expire now.mono
  match a with
  | .actSG => g.writeActSG ied value now
  | .editSG => g.writeEditSG assoc ied value now
  | .cnfEdit => g.writeCnfEdit assoc ied value
  | .resvTms => g.writeResvTms assoc ied value now
  | .numOfSG | .lActTm => (g, ied, .error dataAccessDenied)

def onEditWrite (assoc : AssocId) (ied : LeafStore Key) : Except Int Unit :=
  if (ied.number .editSG).getD 0 = 0 then .error dataAccessDenied
  else if g.heldByOther assoc then .error dataAccessDenied
  else .ok ()

def onAssociationClosed (assoc : AssocId) : Groups :=
  if g.editor = some assoc then { g with editor := none, editorUntil := none } else g

def onTimeout (ied : LeafStore Key) (now : Instant) : Groups × LeafStore Key :=
  if g.editor.isSome && g.editorUntil.any (· ≤ now) then
    (g.expire now, (ied.setInternal (.block .editSG) (.unsigned 0)).1)
  else (g.expire now, ied)

def afterBlockWrite (ied : LeafStore Key) (a : SgAttribute) : LeafStore Key :=
  if a = .cnfEdit then (ied.setInternal (.block .cnfEdit) (.boolean false)).1 else ied

end Groups

end Iec61850.Server
