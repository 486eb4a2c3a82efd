import Iec61850.Mms.Access

/-!
# Type specifications, journals, files and rejects

`proto/mms/typespec.rs`, `journal.rs`, `file.rs` and `reject.rs`: the elements that the
confirmed services of the next module are made of.
-/

namespace Iec61850.Mms

open Theory Ber

/-! ### Type specifications -/

/-- `TypeSpec`; a component of a structure is its optional name and its type. -/
inductive TypeSpec where
  | named (domain : Option Bytes) (item : Bytes)
  | array (packed : Bool) (elements : Nat) (elementType : TypeSpec)
  | structure (packed : Bool) (components : List (Option Bytes × TypeSpec))
  | boolean
  | bitString (n : Int)
  | integer (width : Nat)
  | unsigned (width : Nat)
  | floatingPoint (formatWidth exponentWidth : Nat)
  | octetString (n : Int)
  | visibleString (n : Int)
  | generalizedTime
  | binaryTime (dated : Bool)
  | bcd (digits : Nat)
  | mmsString (n : Int)
  | utcTime
  | other (tag : Nat)
  deriving Repr

namespace TypeSpec

/-- `width`: a `u8`. -/
def width (t : Tlv) : Except Error Nat := do
  let v ← t.unsignedLenientU32
  if v ≤ 255 then .ok v else t.badValue

/-- `next_width`: a universal INTEGER, or the context tag this crate used to write. -/
def nextWidth (c : Cursor) (tag : Nat) : Except Error (Tlv × Cursor) := do
  let (t, c) ← c.nextRequired
  if t.tag = tagInteger ∨ t.tag = Tag.context tag then .ok (t, c)
  else .error (.decode .unexpectedTag t.offset)

/-- The `packed` field of an array or structure. -/
def packedField (c : Cursor) : Except Error (Bool × Cursor) := do
  let (packed, c) ← optional c (Tag.context 0) Tlv.boolean
  .ok (packed.getD false, c)

/-- `TypeSpec::parse_depth`; `left` counts the levels still allowed. -/
def parseDepth (limits : Limits) : Nat → Tlv → Except Error TypeSpec
  | 0, _ => .error (.limitExceeded "max_depth" (limits.maxDepth + 1))
  | left + 1, t =>
    if t.tag.cls ≠ .context then .error (.decode .unexpectedTag t.offset)
    else
      match t.tag.number with
      | 0 => do
          let child ← firstChild t
          let name ← ObjectName.parse child
          .ok (match name with
            | .domainSpecific domain item => .named (some domain) item
            | .vmdSpecific n | .aaSpecific n => .named none n)
      | 1 => do
          let (packed, c) ← packedField t.children
          let (elements, c) ← required c (Tag.context 1) Tlv.unsignedLenientU32
          let (e, _) ← required c (Tag.contextConstructed 2) firstChild
          let elementType ← parseDepth limits left e
          .ok (.array packed elements elementType)
      | 2 => do
          let (packed, c) ← packedField t.children
          let (list, _) ← c.nextTag (Tag.contextConstructed 1)
          let components ← collectItems "max_dataset_members" limits.maxDatasetMembers
            list.children (fun item => do
              let item ← item.expect tagSequence
              let (name, m) ← optional item.children (Tag.context 0) Tlv.visibleString
              let (e, _) ← required m (Tag.contextConstructed 1) firstChild
              let type ← parseDepth limits left e
              .ok (name, type))
          .ok (.structure packed components)
      | 3 => .ok .boolean
      | 4 => .bitString <$> t.integerI32
      | 5 => .integer <$> width t
      | 6 => .unsigned <$> width t
      | 7 => do
          let (f, c) ← nextWidth t.children 0
          let formatWidth ← width f
          let (e, _) ← nextWidth c 1
          let exponentWidth ← width e
          .ok (.floatingPoint formatWidth exponentWidth)
      | 9 => .octetString <$> t.integerI32
      | 10 => .visibleString <$> t.integerI32
      | 11 => .ok .generalizedTime
      | 12 => .binaryTime <$> t.boolean
      | 13 => .bcd <$> width t
      | 16 => .mmsString <$> t.integerI32
      | 17 => .ok .utcTime
      | n => .ok (.other n)

def parse (t : Tlv) (limits : Limits) : Except Error TypeSpec :=
  parseDepth limits (limits.maxDepth + 1) t

mutual

def write : TypeSpec → Except Error Bytes
  | .named domain item =>
    constructed (Tag.contextConstructed 0) (match domain with
      | some d => (ObjectName.domainSpecific d item).write
      | none => (ObjectName.vmdSpecific item).write)
  | .array packed elements elementType =>
    constructed (Tag.contextConstructed 1) (concatM [
      if packed then Ber.boolean (Tag.context 0) true else .ok [],
      Ber.unsigned (Tag.context 1) elements,
      constructed (Tag.contextConstructed 2) elementType.write])
  | .structure packed components =>
    constructed (Tag.contextConstructed 2) (concatM [
      if packed then Ber.boolean (Tag.context 0) true else .ok [],
      constructed (Tag.contextConstructed 1) (writeComponents components)])
  | .boolean => primitive (Tag.context 3) []
  | .bitString n => Ber.integer (Tag.context 4) n
  | .integer w => Ber.unsigned (Tag.context 5) w
  | .unsigned w => Ber.unsigned (Tag.context 6) w
  | .floatingPoint f e =>
    constructed (Tag.contextConstructed 7)
      (concatM [Ber.unsigned tagInteger f, Ber.unsigned tagInteger e])
  | .octetString n => Ber.integer (Tag.context 9) n
  | .visibleString n => Ber.integer (Tag.context 10) n
  | .generalizedTime => primitive (Tag.context 11) []
  | .binaryTime dated => Ber.boolean (Tag.context 12) dated
  | .bcd n => Ber.unsigned (Tag.context 13) n
  | .mmsString n => Ber.integer (Tag.context 16) n
  | .utcTime => primitive (Tag.context 17) []
  | .other n => primitive (Tag.context n) []

/-- The components of a structure type. -/
def writeComponents : List (Option Bytes × TypeSpec) → Except Error Bytes
  | [] => .ok []
  | (name, type) :: rest => do
      let here ← constructed tagSequence (concatM [
        optM name (Ber.visibleString (Tag.context 0)),
        constructed (Tag.contextConstructed 1) type.write])
      let more ← writeComponents rest
      .ok (here ++ more)

end

end TypeSpec

/-! ### Journals -/

/-- `TimeOfDay`: a time, and whether the wire form carried the day count. -/
structure TimeOfDay where
  time : EntryTime
  dated : Bool
  deriving DecidableEq, Repr

def TimeOfDay.fromOctets (bytes : Bytes) : Except Error TimeOfDay :=
  match bytes with
  | [a, b, c, d] => .ok ⟨⟨beNat [a, b, c, d], 0⟩, false⟩
  | _ =>
    match EntryTime.fromOctets bytes with
    | some t => .ok ⟨t, true⟩
    | none => .error (.decode .badValue 0)

def TimeOfDay.toOctets (t : TimeOfDay) : Bytes :=
  if t.dated then t.time.toOctets else t.time.toOctets.take 4

inductive RangeStart where
  | time (t : TimeOfDay)
  | entry (id : Bytes)
  deriving DecidableEq, Repr

inductive RangeStop where
  | time (t : TimeOfDay)
  | count (n : Int)
  deriving DecidableEq, Repr

structure AfterEntry where
  time : TimeOfDay
  entryId : Bytes
  deriving DecidableEq, Repr

structure JournalVariable where
  tag : Bytes
  value : Tlv
  deriving DecidableEq, Repr

structure JournalEntry where
  entryId : Bytes
  occurred : TimeOfDay
  vars : List JournalVariable
  annotation : Option Bytes
  origin : Option Tlv
  deriving DecidableEq, Repr

namespace JournalEntry

/-- One variable of a journal entry. -/
def parseVariable (v : Tlv) : Except Error JournalVariable := do
  let v ← v.expect tagSequence
  let (tag, m) ← required v.children (Tag.context 0) Tlv.visibleString
  let (value, _) ← required m (Tag.contextConstructed 1) firstChild
  let _ ← DataView.fromTlv value
  .ok ⟨tag, value⟩

def parse (t : Tlv) (limits : Limits) : Except Error JournalEntry := do
  let t ← t.expect tagSequence
  let (id, c) ← t.children.nextTag (Tag.context 0)
  if id.value.length > limits.maxPrimitiveLen then
    .error (.limitExceeded "max_primitive_len" id.value.length)
  else do
    let (origin, c) ← c.nextIfTag (Tag.contextConstructed 1)
    let (content, _) ← c.nextTag (Tag.contextConstructed 2)
    let (occurred, cc) ← required content.children (Tag.context 0)
      (fun t => TimeOfDay.fromOctets t.value)
    let (_, cc) ← cc.nextIfTag (Tag.contextConstructed 1)
    let (form, _) ← cc.nextRequired
    if form.tag = Tag.contextConstructed 2 then do
      let (_, f) ← form.children.nextIfTag (Tag.contextConstructed 0)
      let (vars, _) ← optional f (Tag.contextConstructed 1) (fun list =>
        collectItems "max_dataset_members" limits.maxDatasetMembers list.children parseVariable)
      .ok ⟨id.value, occurred, vars.getD [], none, origin⟩
    else if form.tag = Tag.context 3 then do
      let a ← form.visibleString
      .ok ⟨id.value, occurred, [], some a, origin⟩
    else .error (.decode .unexpectedTag form.offset)

/-- One variable of `JournalEntry::write`. -/
def writeVariable (v : JournalVariable) : Except Error Bytes :=
  constructed tagSequence (concatM [
    Ber.visibleString (Tag.context 0) v.tag,
    constructed (Tag.contextConstructed 1) (primitive v.value.tag v.value.value)])

/-- `JournalEntry::write`: the originating application is mandatory, so it is written empty. -/
def write (j : JournalEntry) : Except Error Bytes :=
  constructed tagSequence (concatM [
    primitive (Tag.context 0) j.entryId,
    match j.origin with
    | some o => primitive o.tag o.value
    | none => constructed (Tag.contextConstructed 1) (constructed tagSequence (.ok [])),
    constructed (Tag.contextConstructed 2) (concatM [
      primitive (Tag.context 0) j.occurred.toOctets,
      match j.annotation with
      | some a => Ber.visibleString (Tag.context 3) a
      | none => constructed (Tag.contextConstructed 2)
          (constructed (Tag.contextConstructed 1) (concatM (j.vars.map writeVariable)))])])

end JournalEntry

/-! ### Files -/

/-- `FileName`: the encoded contents of the `SEQUENCE OF GraphicString`. -/
abbrev FileName := Bytes

/-- `FileName::parse`: every component is checked, and there are at most 32. -/
def FileName.parse (t : Tlv) (limits : Limits) : Except Error FileName := do
  let _ ← forItems t.children 0 (fun n part =>
    if part.value.length > limits.maxPrimitiveLen then
      .error (.limitExceeded "max_primitive_len" part.value.length)
    else do
      let _ ← part.visibleString
      if n + 1 > 32 then .error (.limitExceeded "file name components" (n + 1)) else .ok (n + 1))
  .ok t.value

structure FileAttributes where
  size : Nat
  lastModified : Option Bytes
  deriving DecidableEq, Repr

def FileAttributes.parse (t : Tlv) : Except Error FileAttributes := do
  let (size, c) ← required t.children (Tag.context 0) Tlv.unsignedLenientU32
  let (lastModified, _) ← optional c (Tag.context 1) Tlv.visibleString
  .ok ⟨size, lastModified⟩

def FileAttributes.write (a : FileAttributes) (tag : Tag) : Except Error Bytes :=
  constructed tag (concatM [
    Ber.unsigned (Tag.context 0) a.size, optM a.lastModified (Ber.visibleString (Tag.context 1))])

/-- `directory_entries`: the entries of a listing, explicitly or implicitly tagged. -/
def directoryEntries (list : Tlv) : Cursor :=
  match list.children.next with
  | some (.ok first, _) =>
    if first.tag ≠ tagSequence then list.children
    else
      match first.children.next with
      | some (.ok inner, _) => if inner.tag = tagSequence then first.children else list.children
      | none => first.children
      | _ => list.children
  | _ => list.children

structure DirectoryEntry where
  name : FileName
  attributes : FileAttributes
  deriving DecidableEq, Repr

def DirectoryEntry.parse (t : Tlv) (limits : Limits) : Except Error DirectoryEntry := do
  let t ← t.expect tagSequence
  let (name, c) ← required t.children (Tag.contextConstructed 0) (fun t => FileName.parse t limits)
  let (attributes, _) ← required c (Tag.contextConstructed 1) FileAttributes.parse
  .ok ⟨name, attributes⟩

def DirectoryEntry.write (d : DirectoryEntry) : Except Error Bytes :=
  constructed tagSequence (concatM [
    constructed (Tag.contextConstructed 0) (.ok d.name),
    d.attributes.write (Tag.contextConstructed 1)])

/-! ### Rejects -/

/-- `RejectReason`, per PDU type. -/
inductive RejectReason where
  | confirmedRequest (code : Int)
  | confirmedResponse (code : Int)
  | confirmedError (code : Int)
  | unconfirmed (code : Int)
  | pduError (code : Int)
  | cancelRequest (code : Int)
  | cancelResponse (code : Int)
  | cancelError (code : Int)
  | concludeRequest (code : Int)
  | concludeResponse (code : Int)
  | concludeError (code : Int)
  | other (tag : Nat) (code : Int)
  deriving DecidableEq, Repr

def RejectReason.parts : RejectReason → Nat × Int
  | .confirmedRequest c => (1, c)
  | .confirmedResponse c => (2, c)
  | .confirmedError c => (3, c)
  | .unconfirmed c => (4, c)
  | .pduError c => (5, c)
  | .cancelRequest c => (6, c)
  | .cancelResponse c => (7, c)
  | .cancelError c => (8, c)
  | .concludeRequest c => (9, c)
  | .concludeResponse c => (10, c)
  | .concludeError c => (11, c)
  | .other tag c => (tag, c)

def RejectReason.fromParts (tag : Nat) (code : Int) : RejectReason :=
  match tag with
  | 1 => .confirmedRequest code
  | 2 => .confirmedResponse code
  | 3 => .confirmedError code
  | 4 => .unconfirmed code
  | 5 => .pduError code
  | 6 => .cancelRequest code
  | 7 => .cancelResponse code
  | 8 => .cancelError code
  | 9 => .concludeRequest code
  | 10 => .concludeResponse code
  | 11 => .concludeError code
  | tag => .other tag code

def unrecognizedService : Int := 1
def invalidArgument : Int := 4

structure Reject where
  originalInvokeId : Option Int
  reason : RejectReason
  deriving DecidableEq, Repr

def Reject.confirmedRequest (invokeId code : Int) : Reject := ⟨some invokeId, .confirmedRequest code⟩

/-- `invoke_id_of`: an invoke identifier is an `Unsigned32` in every PDU that carries one. -/
def invokeIdOf (t : Tlv) : Except Error Int := do
  let v ← t.integerI64
  if 0 ≤ v ∧ v ≤ (u32Max : Int) then .ok v else t.badValue

/-- `Reject::parse`: the reason is a primitive context tag other than 0, and nothing follows it. -/
def Reject.parse (t : Tlv) : Except Error Reject := do
  let (id, c) ← optional t.children (Tag.context 0) invokeIdOf
  let (reason, c) ← c.nextRequired
  if reason.tag.cls ≠ .context ∨ reason.tag.constructed ∨ reason.tag.number = 0 then
    .error (.decode .unexpectedTag reason.offset)
  else do
    c.finish
    let code ← reason.integerI64
    .ok ⟨id, RejectReason.fromParts reason.tag.number code⟩

/-- The `originalInvokeID` of a reject: out of its range is an encode error. -/
def writeOriginalInvokeId (id : Int) : Except Error Bytes :=
  if 0 ≤ id ∧ id ≤ (u32Max : Int) then Ber.unsigned (Tag.context 0) id.toNat
  else .error (.encode "originalInvokeID is Unsigned32")

def Reject.write (r : Reject) : Except Error Bytes :=
  constructed (Tag.contextConstructed 4) (concatM [
    optM r.originalInvokeId writeOriginalInvokeId,
    Ber.integer (Tag.context r.reason.parts.1) r.reason.parts.2])

end Iec61850.Mms
