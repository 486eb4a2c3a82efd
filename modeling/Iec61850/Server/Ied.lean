import Iec61850.Mms.Report

/-!
# The served IED, as a report control block sees it

The part of `server/ied.rs` the report engine works with: the attributes of a report control
block with their types, which values an attribute accepts and which attributes a client may
write, and the data sets and values behind the block.
-/

namespace Iec61850.Server

open Theory Mms

abbrev AssocId := Nat

/-! ### Data access errors -/

def dataAccessNonExistent : Int := 10
def dataAccessTypeInconsistent : Int := 7
def dataAccessDenied : Int := 3
def dataAccessValueInvalid : Int := 11

/-! ### Attributes of a report control block -/

/-- The attributes of a report control block; `other` is any name it has no attribute of. -/
inductive Attribute where
  | rptID
  | rptEna
  | resv
  | datSet
  | confRev
  | optFlds
  | bufTm
  | sqNum
  | trgOps
  | intgPd
  | gi
  | purgeBuf
  | entryID
  | timeOfEntry
  | resvTms
  | owner
  | other (name : Bytes)
  deriving DecidableEq, Repr

/-- The basic types of a data attribute (`BType`). -/
inductive BType where
  | boolean
  | int8
  | int16
  | int24
  | int32
  | int64
  | int8U
  | int16U
  | int24U
  | int32U
  | float32
  | float64
  | enum
  | dbpos
  | tcmd
  | quality
  | timestamp
  | visString32
  | visString64
  | visString65
  | visString129
  | visString255
  | octet64
  | unicode255
  | struct
  | entryTime
  | check
  | objRef
  | currency
  | phyComAddr
  | entryID
  | trgOps
  | optFlds
  | svOptFlds
  | logOptFlds
  | octet6
  | octet16
  | other (name : Bytes)
  deriving DecidableEq, Repr

def isBoolean : Value → Bool
  | .boolean _ => true
  | _ => false

def isNumber : Value → Bool
  | .integer _ | .unsigned _ => true
  | _ => false

def isString : Value → Bool
  | .visibleString _ | .mmsString _ => true
  | _ => false

def isBitString : Value → Bool
  | .bitString _ _ => true
  | _ => false

def isOctetString : Value → Bool
  | .octetString _ => true
  | _ => false

def isBinaryTime : Value → Bool
  | .binaryTime _ => true
  | _ => false

def isFloat : Value → Bool
  | .float32 _ | .float64 _ => true
  | _ => false

def isUtcTime : Value → Bool
  | .utcTime _ => true
  | _ => false

def isStructure : Value → Bool
  | .structure _ => true
  | _ => false

/-- `accepts`: by shape, not by width. -/
def accepts : BType → Value → Bool
  | .boolean => isBoolean
  | .int8 | .int16 | .int24 | .int32 | .int64 | .enum => isNumber
  | .int8U | .int16U | .int24U | .int32U => isNumber
  | .float32 | .float64 => isFloat
  | .quality | .dbpos | .tcmd | .check | .trgOps | .optFlds | .svOptFlds | .logOptFlds =>
    isBitString
  | .timestamp => isUtcTime
  | .entryTime => isBinaryTime
  | .octet64 | .entryID | .phyComAddr | .octet6 | .octet16 => isOctetString
  | .struct | .other _ => isStructure
  | .unicode255 | .visString32 | .visString64 | .visString65 | .visString129 | .visString255
  | .objRef | .currency => isString

/-- `rcb_components`: the attributes of a block in their order; `reservation` says whether the
edition has `ResvTms` and `Owner`. -/
def rcbComponents (buffered reservation : Bool) : List (Attribute × BType) :=
  let name : List (Attribute × BType) := [(.rptID, .visString129), (.rptEna, .boolean)]
  let resv : List (Attribute × BType) := if buffered then [] else [(.resv, .boolean)]
  let sqNum : BType := if buffered then .int16U else .int8U
  let common : List (Attribute × BType) :=
    [(.datSet, .visString129), (.confRev, .int32U), (.optFlds, .optFlds), (.bufTm, .int32U),
      (.sqNum, sqNum), (.trgOps, .trgOps), (.intgPd, .int32U), (.gi, .boolean)]
  let entries : List (Attribute × BType) :=
    [(.purgeBuf, .boolean), (.entryID, .entryID), (.timeOfEntry, .entryTime)]
  let resvTms : List (Attribute × BType) := if reservation then [(.resvTms, .int16)] else []
  let kind : List (Attribute × BType) := if buffered then entries ++ resvTms else []
  let owner : List (Attribute × BType) := if reservation then [(.owner, .octet64)] else []
  name ++ resv ++ common ++ kind ++ owner

/-- `writable_block_attribute`, for the two kinds of report control block. -/
def writableBlockAttribute : Attribute → Bool
  | .rptID | .rptEna | .resv | .resvTms | .datSet | .optFlds | .bufTm | .trgOps | .intgPd | .gi
  | .purgeBuf | .entryID => true
  | .confRev | .sqNum | .timeOfEntry | .owner | .other _ => false

/-! ### Engineered values -/

/-- `ReportControl`, as far as the attributes of its blocks come from it. -/
structure ReportControl where
  rptId : Option Bytes
  buffered : Bool
  confRev : Nat
  optFlds : OptFlds
  bufTimeMs : Nat
  trgOps : TrgOps
  intgPdMs : Nat
  deriving Repr

/-- `rcb_defaults`; `reservation` says whether the edition has `ResvTms` and `Owner`. -/
def rcbDefaults (rcb : ReportControl) (base : Bytes) (dataSet : Option Bytes)
    (reservation : Bool) : List (Attribute × Value) :=
  let optFlds := if rcb.buffered then rcb.optFlds
    else OptFlds.withEntryId (OptFlds.withBufferOverflow rcb.optFlds false) false
  let common : List (Attribute × Value) :=
    [(.rptID, .visibleString (rcb.rptId.getD base)), (.rptEna, .boolean false),
      (.datSet, .visibleString (dataSet.getD [])), (.confRev, .unsigned rcb.confRev),
      (.optFlds, packedToValue optFlds), (.bufTm, .unsigned rcb.bufTimeMs), (.sqNum, .unsigned 0),
      (.trgOps, packedToValue rcb.trgOps), (.intgPd, .unsigned rcb.intgPdMs),
      (.gi, .boolean false)]
  let owner : List (Attribute × Value) := if reservation then [(.owner, .octetString [])] else []
  let entries : List (Attribute × Value) :=
    [(.purgeBuf, .boolean false), (.entryID, .octetString []),
      (.timeOfEntry, .binaryTime (EntryTime.toOctets ⟨0, 0⟩))]
  let resvTms : List (Attribute × Value) := if reservation then [(.resvTms, .integer 0)] else []
  let kind : List (Attribute × Value) :=
    if rcb.buffered then entries ++ resvTms else [(.resv, .boolean false)]
  common ++ owner ++ kind

/-- Every default is of an attribute the block has, and of its type. -/
theorem rcbDefaults_accepted (rcb : ReportControl) (base : Bytes) (dataSet : Option Bytes)
    (reservation : Bool) : ∀ d ∈ rcbDefaults rcb base dataSet reservation,
      ∃ t, (rcbComponents rcb.buffered reservation).lookup d.1 = some t ∧ accepts t d.2 = true := by
  have hin : ∀ {d : Attribute × Value} {ds : List (Attribute × Value)} {t : BType},
      (rcbComponents rcb.buffered reservation).lookup d.1 = some t → accepts t d.2 = true →
      (∀ d ∈ ds, ∃ t, (rcbComponents rcb.buffered reservation).lookup d.1 = some t ∧
        accepts t d.2 = true) →
      ∀ d' ∈ d :: ds, ∃ t, (rcbComponents rcb.buffered reservation).lookup d'.1 = some t ∧
        accepts t d'.2 = true :=
    fun ht hacc hds => List.forall_mem_cons.mpr ⟨⟨_, ht, hacc⟩, hds⟩
  unfold rcbDefaults
  cases hb : rcb.buffered <;> rw [hb] at hin <;> cases reservation <;>
    repeat' first
      | exact List.forall_mem_nil _
      | apply hin rfl rfl

/-! ### Readings of an attribute -/

def boolOf : Value → Option Bool
  | .boolean b => some b
  | _ => none

def unsignedOf : Value → Option Nat
  | .unsigned n => if n ≤ u32Max then some n else none
  | .integer i => if 0 ≤ i ∧ i ≤ u32Max then some i.toNat else none
  | _ => none

def integerOf : Value → Option Int
  | .integer i => some i
  | .unsigned n => if n < 2 ^ 63 then some n else none
  | _ => none

/-- `string_of`: an empty string is none. -/
def stringOf : Value → Option Bytes
  | .visibleString s | .mmsString s => if s.isEmpty then none else some s
  | _ => none

def entryIdOf : Value → Option UInt64
  | .octetString b => if b.length = 8 then some (UInt64.ofNat (beNat b)) else none
  | _ => none

/-- `u64::to_be_bytes`. -/
def entryIdBytes (id : UInt64) : Bytes := beBytes 8 id.toNat

theorem entryIdOf_entryIdBytes (id : UInt64) : entryIdOf (.octetString (entryIdBytes id)) = some id := by
  have hlt : id.toNat < 256 ^ 8 := id.toNat_lt
  rw [entryIdOf, entryIdBytes, if_pos (beBytes_length 8 _), beNat_beBytes_of_lt hlt,
    UInt64.ofNat_toNat]

/-! ### What is behind the block -/

/-- `DataSetMember`: the reference the file names, and the leaves it covers. -/
structure DataSetMember where
  reference : Bytes
  leaves : List Bytes
  deriving DecidableEq, Repr

/-- The served IED as the report engine reads it: `data_set`, by reference, and
`read_reference`. Both change as clients create data sets and the process writes values. -/
structure Ied where
  dataSet : Bytes → Option (List DataSetMember)
  readReference : Bytes → Option Value

/-- What the server knows about its associations: what each calls itself, and the PDU size it
has negotiated, if it has. -/
structure Peers where
  identity : AssocId → Bytes
  pdu : AssocId → Option Nat
  defaultPdu : Nat

/-- Associations the server knows nothing about. -/
def anonymous : Peers := ⟨fun _ => [], fun _ => none, 0⟩

end Iec61850.Server
