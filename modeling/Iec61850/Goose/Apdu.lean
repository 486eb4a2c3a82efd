import Iec61850.Common.Data

/-!
# The GOOSE APDU

`proto/goose/apdu.rs`: the view of a decoded `goosePdu`, the part of it that a publisher
varies from frame to frame, and the one encoder.
-/

namespace Iec61850.Goose

open Theory Ber

/-- `goosePdu [APPLICATION 1]`. -/
def tagGoosePdu : Tag := Tag.applicationConstructed 1

/-! ### Decoding -/

/-- The view of a decoded `goosePdu` (`GoosePduView`). -/
structure GoosePduView where
  gocbRef : Bytes
  timeAllowedToLive : Nat
  datSet : Bytes
  goId : Option Bytes
  t : UtcTime
  stNum : Nat
  sqNum : Nat
  simulation : Bool
  confRev : Nat
  ndsCom : Bool
  numDatSetEntries : Nat
  allData : Tlv
  security : Option Bytes
  raw : Bytes
  deriving DecidableEq

/-- `Option::map(..).transpose()?`: an optional element, read if it is there. -/
def readOptional {α : Type} (t : Option Tlv) (read : Tlv → Except Error α) :
    Except Error (Option α) :=
  match t with
  | some t => some <$> read t
  | none => .ok none

/-- `security [12]`, constructed or primitive. -/
def readSecurity (c : Cursor) : Except Error (Option Bytes × Cursor) := do
  let (constructed, c) ← c.nextIfTag (Tag.contextConstructed 12)
  match constructed with
  | some t => .ok (some t.value, c)
  | none => do
      let (plain, c) ← c.nextIfTag (Tag.context 12)
      .ok (plain.map Tlv.value, c)

def GoosePduView.parse (apdu : Bytes) : Except Error GoosePduView := do
  let (pdu, _) ← (Cursor.new apdu).nextTag tagGoosePdu
  let c := pdu.children
  let (t, c) ← c.nextTag (Tag.context 0)
  let gocbRef ← t.visibleString
  let (t, c) ← c.nextTag (Tag.context 1)
  let timeAllowedToLive ← t.unsignedLenientU32
  let (t, c) ← c.nextTag (Tag.context 2)
  let datSet ← t.visibleString
  let (t, c) ← c.nextIfTag (Tag.context 3)
  let goId ← readOptional t Tlv.visibleString
  let (t, c) ← c.nextTag (Tag.context 4)
  let time ← utcTime t
  let (t, c) ← c.nextTag (Tag.context 5)
  let stNum ← t.unsignedLenientU32
  let (t, c) ← c.nextTag (Tag.context 6)
  let sqNum ← t.unsignedLenientU32
  let (t, c) ← c.nextIfTag (Tag.context 7)
  let simulation ← readOptional t Tlv.boolean
  let (t, c) ← c.nextTag (Tag.context 8)
  let confRev ← t.unsignedLenientU32
  let (t, c) ← c.nextIfTag (Tag.context 9)
  let ndsCom ← readOptional t Tlv.boolean
  let (t, c) ← c.nextTag (Tag.context 10)
  let numDatSetEntries ← t.unsignedLenientU32
  let (allData, c) ← c.nextTag (Tag.contextConstructed 11)
  let (security, c) ← readSecurity c
  c.finish
  .ok {
    gocbRef
    timeAllowedToLive
    datSet
    goId
    t := time
    stNum
    sqNum
    -- `simulation` and `ndsCom` are DEFAULT FALSE
    simulation := simulation.getD false
    confRev
    ndsCom := ndsCom.getD false
    numDatSetEntries
    allData
    security
    raw := apdu.take pdu.totalLen }

def GoosePduView.allDataOwned (v : GoosePduView) (limits : Limits) : Except Error (List Value) :=
  collect v.allData.children limits

/-- `GoosePduView::member_count`: the members present, if they decode. -/
def GoosePduView.memberCount (v : GoosePduView) : Option Nat :=
  v.allData.children.items.foldlM (fun n item => item.toOption.map fun _ => n + 1) 0

def GoosePduView.memberCountMatches (v : GoosePduView) : Bool :=
  v.memberCount == some v.numDatSetEntries

/-! ### Encoding -/

/-- Everything in a `goosePdu` except the data set (`GooseHeader`). -/
structure GooseHeader where
  gocbRef : Bytes
  timeAllowedToLive : UInt32
  datSet : Bytes
  goId : Option Bytes
  t : UtcTime
  stNum : UInt32
  sqNum : UInt32
  simulation : Bool
  confRev : UInt32
  ndsCom : Bool
  numDatSetEntries : UInt32
  deriving DecidableEq

/-- The fields of a `goosePdu` in the order in which they are written. -/
def GooseHeader.fields (h : GooseHeader) (allDataBody : Bytes) : List (Except Error Bytes) :=
  [ visibleString (Tag.context 0) h.gocbRef
  , unsigned (Tag.context 1) h.timeAllowedToLive.toNat
  , visibleString (Tag.context 2) h.datSet
  , optM h.goId (visibleString (Tag.context 3))
  , primitive (Tag.context 4) h.t.toOctets
  , unsigned (Tag.context 5) h.stNum.toNat
  , unsigned (Tag.context 6) h.sqNum.toNat
  , boolean (Tag.context 7) h.simulation
  , unsigned (Tag.context 8) h.confRev.toNat
  , boolean (Tag.context 9) h.ndsCom
  , unsigned (Tag.context 10) h.numDatSetEntries.toNat
  , constructed (Tag.contextConstructed 11) (.ok allDataBody) ]

/-- `encode_into`, into an empty encoder. -/
def encodeInto (h : GooseHeader) (allDataBody : Bytes) : Except Error Bytes :=
  constructed tagGoosePdu (concatM (h.fields allDataBody))

/-- A `goosePdu` to encode (`GoosePdu`). -/
structure GoosePdu where
  gocbRef : Bytes
  timeAllowedToLive : UInt32
  datSet : Bytes
  goId : Option Bytes
  t : UtcTime
  stNum : UInt32
  sqNum : UInt32
  simulation : Bool
  confRev : UInt32
  ndsCom : Bool
  allData : List Value

namespace GoosePdu

def header (p : GoosePdu) : GooseHeader where
  gocbRef := p.gocbRef
  timeAllowedToLive := p.timeAllowedToLive
  datSet := p.datSet
  goId := p.goId
  t := p.t
  stNum := p.stNum
  sqNum := p.sqNum
  simulation := p.simulation
  confRev := p.confRev
  ndsCom := p.ndsCom
  numDatSetEntries := UInt32.ofNat p.allData.length

def encode (p : GoosePdu) : Except Error Bytes := do
  let body ← Value.encodeAll p.allData
  encodeInto p.header body

/-- `GoosePdu::from_view`: the numbers of a view are `u32` in the source. -/
def fromView (v : GoosePduView) (limits : Limits) : Except Error GoosePdu := do
  let allData ← v.allDataOwned limits
  .ok {
    gocbRef := v.gocbRef
    timeAllowedToLive := UInt32.ofNat v.timeAllowedToLive
    datSet := v.datSet
    goId := v.goId
    t := v.t
    stNum := UInt32.ofNat v.stNum
    sqNum := UInt32.ofNat v.sqNum
    simulation := v.simulation
    confRev := UInt32.ofNat v.confRev
    ndsCom := v.ndsCom
    allData }

end GoosePdu

end Iec61850.Goose
