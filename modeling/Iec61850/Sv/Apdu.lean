import Iec61850.Ber.Fixed
import Iec61850.Common.Data

/-!
# The sampled-value APDU

`proto/sv/apdu.rs` and the wrap of `smpCnt` from `proto/sv/mod.rs`: the view of a decoded
`savPdu` and of its ASDUs, with the places of the fields a publisher overwrites, and the encoder.
-/

namespace Iec61850.Sv

open Theory Ber

/-- The value `smpCnt` wraps at (`smp_cnt_wrap`). -/
def smpCntWrap (samplesPerSecond : Nat) : Nat :=
  if samplesPerSecond = 0 then 1 else if samplesPerSecond > 65536 then 65536 else samplesPerSecond

theorem smpCntWrap_bounds (samplesPerSecond : Nat) :
    0 < smpCntWrap samplesPerSecond ∧ smpCntWrap samplesPerSecond ≤ 65536 := by
  unfold smpCntWrap
  split
  · decide
  · split
    · decide
    · omega

/-- `savPdu [APPLICATION 0]`. -/
def tagSavPdu : Tag := Tag.applicationConstructed 0

def tagAsdu : Tag := Tag.universal universalSequence true

/-- How the samples are synchronised (`SmpSynch`): `local` is a word of Lean. -/
inductive SmpSynch where
  | none
  | localArea
  | global
  | localClock (v : UInt8)
  | reserved (v : UInt8)
  deriving DecidableEq, Repr

def SmpSynch.fromU8 (v : UInt8) : SmpSynch :=
  if v = 0 then .none
  else if v = 1 then .localArea
  else if v = 2 then .global
  else if 5 ≤ v ∧ v ≤ 254 then .localClock v
  else .reserved v

def SmpSynch.toU8 : SmpSynch → UInt8
  | .none => 0
  | .localArea => 1
  | .global => 2
  | .localClock v => v
  | .reserved v => v

/-- A grandmaster clock identity: eight octets. -/
structure GmIdentity where
  octets : Bytes
  length_eq : octets.length = 8
  deriving DecidableEq

/-- A field that is overwritten in place: where its contents start, and how many octets it has
(`Field`). -/
structure Field where
  start : Nat
  len : Nat
  deriving DecidableEq, Repr

/-- The places of the fields of an ASDU that a publisher overwrites (`AsduOffsets`). -/
structure AsduOffsets where
  smpCnt : Field
  smpSynch : Option Field
  refrTm : Option Nat
  sample : Nat
  gmIdentity : Option Nat
  deriving DecidableEq, Repr

/-! ### Decoding -/

/-- The view of a decoded ASDU (`AsduView`); the places of its fields are the source's `at`. -/
structure AsduView where
  svId : Bytes
  datSet : Option Bytes
  smpCnt : Nat
  confRev : Nat
  refrTm : Option UtcTime
  smpSynch : Option SmpSynch
  smpRate : Option Nat
  sample : Bytes
  smpMod : Option Nat
  gmIdentity : Option Bytes
  offsets : AsduOffsets
  deriving DecidableEq

/-- The field of an element. -/
def fieldOf (t : Tlv) : Field := ⟨t.valueOffset, t.value.length⟩

/-- `u16::try_from` and `u8::try_from` of a field just read. -/
def narrow (c : Cursor) (top v : Nat) : Except Error Nat :=
  if v ≤ top then .ok v else .error (.decode .badValue c.offset)

/-- An unsigned field of at most `top`, read in front of the cursor. -/
def unsignedUpTo (c : Cursor) (top : Nat) (t : Tlv) : Except Error Nat := do
  let v ← t.unsignedLenientU32
  narrow c top v

def AsduView.parse (t : Tlv) : Except Error AsduView := do
  let t ← t.expect tagAsdu
  let c := t.children
  let (t, c) ← c.nextTag (Tag.context 0)
  let svId ← t.visibleString
  let (t, c) ← c.nextIfTag (Tag.context 1)
  let datSet ← t.mapM Tlv.visibleString
  let (smpCntTlv, c) ← c.nextTag (Tag.context 2)
  let smpCnt ← unsignedUpTo c 65535 smpCntTlv
  let (t, c) ← c.nextTag (Tag.context 3)
  let confRev ← t.unsignedLenientU32
  let (refrTmTlv, c) ← c.nextIfTag (Tag.context 4)
  let refrTm ← refrTmTlv.mapM utcTime
  let (smpSynchTlv, c) ← c.nextIfTag (Tag.context 5)
  let smpSynch ← smpSynchTlv.mapM (unsignedUpTo c 255)
  let (t, c) ← c.nextIfTag (Tag.context 6)
  let smpRate ← t.mapM (unsignedUpTo c 65535)
  let (sampleTlv, c) ← c.nextTag (Tag.context 7)
  let (t, c) ← c.nextIfTag (Tag.context 8)
  let smpMod ← t.mapM (unsignedUpTo c 255)
  let (gmTlv, c) ← c.nextIfTag (Tag.context 9)
  c.finish
  .ok {
    svId
    datSet
    smpCnt
    confRev
    refrTm
    smpSynch := smpSynch.map fun v => SmpSynch.fromU8 (UInt8.ofNat v)
    smpRate
    sample := sampleTlv.value
    smpMod
    gmIdentity := gmTlv.map Tlv.value
    offsets := {
      smpCnt := fieldOf smpCntTlv
      smpSynch := smpSynchTlv.map fieldOf
      refrTm := refrTmTlv.map Tlv.valueOffset
      sample := sampleTlv.valueOffset
      gmIdentity := gmTlv.map Tlv.valueOffset } }

/-- The view of a decoded `savPdu` (`SavPduView`). -/
structure SavPduView where
  noAsdu : Nat
  security : Option Bytes
  asduList : Tlv
  raw : Bytes
  deriving DecidableEq

/-- `SavPduView::asdus`: an ASDU that does not decode does not end the iteration. -/
def SavPduView.asdus (v : SavPduView) : List (Except Error AsduView) :=
  v.asduList.children.items.map fun item => item >>= AsduView.parse

/-- `security [1]`, constructed or primitive. -/
def readSecurity (c : Cursor) : Except Error (Option Bytes × Cursor) := do
  let (constructed, c) ← c.nextIfTag (Tag.contextConstructed 1)
  match constructed with
  | some t => .ok (some t.value, c)
  | none => do
      let (plain, c) ← c.nextIfTag (Tag.context 1)
      .ok (plain.map Tlv.value, c)

def SavPduView.parse (apdu : Bytes) (limits : Limits) : Except Error SavPduView := do
  let (pdu, _) ← (Cursor.new apdu).nextTag tagSavPdu
  let c := pdu.children
  let (t, c) ← c.nextTag (Tag.context 0)
  let noAsdu ← unsignedUpTo c 65535 t
  if noAsdu > limits.maxAsdus then .error (.limitExceeded "max_asdus" noAsdu)
  else do
    let (security, c) ← readSecurity c
    let (asduList, c) ← c.nextTag (Tag.contextConstructed 2)
    c.finish
    let view : SavPduView := ⟨noAsdu, security, asduList, apdu.take pdu.totalLen⟩
    let found ← view.asdus.mapM id
    -- the count saturates as a `u16` does
    if min found.length 65535 ≠ noAsdu then .error (.decode .badValue c.offset)
    else .ok view

/-! ### Encoding -/

/-- An ASDU to encode (`Asdu`). -/
structure Asdu where
  svId : Bytes
  datSet : Option Bytes
  smpCnt : UInt16
  confRev : UInt32
  refrTm : Option UtcTime
  smpSynch : Option SmpSynch
  smpRate : Option UInt16
  sample : Bytes
  smpMod : Option UInt8
  gmIdentity : Option GmIdentity
  deriving DecidableEq

/-- The fields of an ASDU, in order. -/
def Asdu.fields (a : Asdu) : List (Except Error Bytes) :=
  [ visibleString (Tag.context 0) a.svId
  , optM a.datSet (visibleString (Tag.context 1))
  , unsignedFixedMin (Tag.context 2) a.smpCnt.toNat 2
  , unsignedFixedMin (Tag.context 3) a.confRev.toNat 4
  , optM a.refrTm fun t => primitive (Tag.context 4) t.toOctets
  , optM a.smpSynch fun s => unsignedFixedMin (Tag.context 5) s.toU8.toNat 1
  , optM a.smpRate fun r => unsignedFixedMin (Tag.context 6) r.toNat 2
  , primitive (Tag.context 7) a.sample
  , optM a.smpMod fun m => unsignedFixedMin (Tag.context 8) m.toNat 1
  , optM a.gmIdentity fun g => primitive (Tag.context 9) g.octets ]

def Asdu.encode (a : Asdu) : Except Error Bytes := constructed tagAsdu (concatM a.fields)

/-- A `savPdu` to encode (`SavPdu`): `noASDU` is derived. -/
structure SavPdu where
  asdus : List Asdu
  deriving DecidableEq

def SavPdu.encode (pdu : SavPdu) : Except Error Bytes :=
  constructed tagSavPdu (concatM
    [ unsignedFixedMin (Tag.context 0) pdu.asdus.length 1
    , constructed (Tag.contextConstructed 2) (concatM (pdu.asdus.map Asdu.encode)) ])

end Iec61850.Sv
