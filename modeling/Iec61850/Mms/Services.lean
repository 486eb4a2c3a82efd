import Iec61850.Mms.Types

/-!
# The confirmed services of MMS

`ConfirmedRequest` and `ConfirmedResponse` of `proto/mms/mod.rs`, with one arm per service
number in the parsers and one per service in the writers.
-/

namespace Iec61850.Mms

open Theory Ber

/-! ### Service numbers -/

def serviceStatus : Nat := 0
def serviceGetNameList : Nat := 1
def serviceIdentify : Nat := 2
def serviceRead : Nat := 4
def serviceWrite : Nat := 5
def serviceGetVariableAccessAttributes : Nat := 6
def serviceDefineNvl : Nat := 11
def serviceGetNvlAttributes : Nat := 12
def serviceDeleteNvl : Nat := 13
def serviceReadJournal : Nat := 65
def serviceGetCapabilityList : Nat := 71
def serviceFileOpen : Nat := 72
def serviceFileRead : Nat := 73
def serviceFileClose : Nat := 74
def serviceFileDelete : Nat := 76
def serviceFileDirectory : Nat := 77

/-- `scopeOfDelete`: delete exactly the named lists. -/
def deleteScopeSpecific : Int := 0

/-- The context tag of a service in its constructed form. -/
def svc (n : Nat) : Tag := Tag.contextConstructed n

/-! ### Requests -/

structure ReadJournal where
  name : Option ObjectName := none
  start : Option RangeStart := none
  stop : Option RangeStop := none
  vars : List Bytes := []
  after : Option AfterEntry := none
  deriving DecidableEq, Repr

namespace ReadJournal

def parseStart (r : Tlv) : Except Error RangeStart := do
  let inner ← firstChild r
  match inner.tag.number with
  | 0 => .time <$> TimeOfDay.fromOctets inner.value
  | 1 => .ok (.entry inner.value)
  | _ => .error (.decode .unexpectedTag inner.offset)

def parseStop (r : Tlv) : Except Error RangeStop := do
  let inner ← firstChild r
  match inner.tag.number with
  | 0 => .time <$> TimeOfDay.fromOctets inner.value
  | 1 => .count <$> inner.integerI32
  | _ => .error (.decode .unexpectedTag inner.offset)

def parseAfter (a : Tlv) : Except Error AfterEntry := do
  let (time, m) ← required a.children (Tag.context 0) (fun t => TimeOfDay.fromOctets t.value)
  let (id, _) ← m.nextTag (Tag.context 1)
  .ok ⟨time, id.value⟩

def parse (t : Tlv) : Except Error ReadJournal := do
  let (name, c) ← optional t.children (svc 0) (fun n => firstChild n >>= ObjectName.parse)
  let (start, c) ← optional c (svc 1) parseStart
  let (stop, c) ← optional c (svc 2) parseStop
  let (vars, c) ← optional c (svc 4) (fun list =>
    forItems list.children [] (fun out v => do
      let s ← v.visibleString
      .ok (out ++ [s])))
  let (after, _) ← optional c (svc 5) parseAfter
  .ok ⟨name, start, stop, vars.getD [], after⟩

def writeStart : RangeStart → Except Error Bytes
  | .time t => primitive (Tag.context 0) t.toOctets
  | .entry id => primitive (Tag.context 1) id

def writeStop : RangeStop → Except Error Bytes
  | .time t => primitive (Tag.context 0) t.toOctets
  | .count n => integer (Tag.context 1) n

def write (r : ReadJournal) : Except Error Bytes :=
  constructed (svc serviceReadJournal) (concatM [
    optM r.name (fun n => constructed (svc 0) n.write),
    optM r.start (fun s => constructed (svc 1) (writeStart s)),
    optM r.stop (fun s => constructed (svc 2) (writeStop s)),
    if r.vars.isEmpty then .ok []
      else constructed (svc 4) (concatM (r.vars.map (visibleString tagIdentifier))),
    optM r.after (fun a => constructed (svc 5) (concatM [
      primitive (Tag.context 0) a.time.toOctets, primitive (Tag.context 1) a.entryId]))])

end ReadJournal

inductive ConfirmedRequest where
  | status (extendedDerivation : Bool)
  | getCapabilityList (continueAfter : Option Bytes)
  | getNameList (objectClass : Int) (scope : ObjectScope) (continueAfter : Option Bytes)
  | identify
  | read (specificationWithResult : Bool) (access : VariableAccess)
  | write (access : VariableAccess) (values : List Tlv)
  | getNamedVariableListAttributes (name : ObjectName)
  | getVariableAccessAttributes (name : ObjectName)
  | defineNamedVariableList (name : ObjectName) (members : List VariableSpecification)
  | deleteNamedVariableList (scope : Int) (names : List ObjectName) (domain : Option Bytes)
  | readJournal (r : ReadJournal)
  | fileOpen (name : FileName) (position : Nat)
  | fileRead (frsmId : Int)
  | fileClose (frsmId : Int)
  | fileDelete (name : FileName)
  | fileDirectory (specification continueAfter : Option FileName)
  | other (t : Tlv)
  deriving Repr

namespace ConfirmedRequest

/-- One value of a Write: it has to decode, and its encoded element is what is kept. -/
def parseWriteValue (v : Tlv) : Except Error Tlv := do
  let _ ← DataView.fromTlv v
  .ok v

def parse (t : Tlv) (limits : Limits) : Except Error ConfirmedRequest :=
  if t.tag.cls ≠ .context then .error (.decode .unexpectedTag t.offset)
  else
    match t.tag.number with
    | 1 => do
        let (cls, c) ← required t.children (svc 0) firstChild
        let objectClass ← cls.integerI64
        let (scope, c) ← required c (svc 1) (fun s => firstChild s >>= ObjectScope.parse)
        let (continueAfter, _) ← optional c (Tag.context 2) Tlv.visibleString
        .ok (.getNameList objectClass scope continueAfter)
    | 0 => .status <$> t.boolean
    | 2 => .ok .identify
    | 71 => do
        let (continueAfter, _) ← optional t.children tagIdentifier Tlv.visibleString
        .ok (.getCapabilityList continueAfter)
    | 4 => do
        let (spec, c) ← optional t.children (Tag.context 0) Tlv.boolean
        let (access, _) ← required c (svc 1) (fun a => firstChild a >>= VariableAccess.parse)
        .ok (.read (spec.getD false) access)
    | 5 => do
        let (a, c) ← t.children.nextRequired
        let access ← VariableAccess.parse a
        let (values, _) ← required c (svc 0) (fun list =>
          collectItems "max_dataset_members" limits.maxDatasetMembers list.children parseWriteValue)
        .ok (.write access values)
    | 12 => do
        let child ← firstChild t
        .getNamedVariableListAttributes <$> ObjectName.parse child
    | 6 => do
        let (name, _) ← required t.children (svc 0) firstChild
        .getVariableAccessAttributes <$> ObjectName.parse name
    | 11 => do
        let (n, c) ← t.children.nextRequired
        let name ← ObjectName.parse n
        let (list, _) ← c.nextTag (svc 0)
        .defineNamedVariableList name <$> parseVariableList list limits
    | 13 => do
        let (scope, c) ← optional t.children (Tag.context 0) Tlv.integerI64
        let (names, c) ← optional c (svc 1) (fun list =>
          collectItems "max_list_items" limits.maxListItems list.children ObjectName.parse)
        let (domain, _) ← optional c (Tag.context 2) Tlv.visibleString
        .ok (.deleteNamedVariableList (scope.getD deleteScopeSpecific) (names.getD []) domain)
    | 65 => .readJournal <$> ReadJournal.parse t
    | 72 => do
        let (name, c) ← required t.children (svc 0) (fun t => FileName.parse t limits)
        let (position, _) ← required c (Tag.context 1) Tlv.unsignedLenientU32
        .ok (.fileOpen name position)
    | 73 => .fileRead <$> t.integerI32
    | 74 => .fileClose <$> t.integerI32
    | 76 => .fileDelete <$> FileName.parse t limits
    | 77 => do
        let (specification, c) ← optional t.children (svc 0) (fun t => FileName.parse t limits)
        let (continueAfter, _) ← optional c (svc 1) (fun t => FileName.parse t limits)
        .ok (.fileDirectory specification continueAfter)
    | _ => .ok (.other t)

/-- `ConfirmedRequest::write`. -/
def encode : ConfirmedRequest → Except Error Bytes
  | .getNameList objectClass scope continueAfter =>
    constructed (svc serviceGetNameList) (concatM [
      constructed (svc 0) (integer (Tag.context 0) objectClass),
      constructed (svc 1) scope.write,
      optM continueAfter (visibleString (Tag.context 2))])
  | .status extendedDerivation => Ber.boolean (Tag.context serviceStatus) extendedDerivation
  | .getCapabilityList continueAfter =>
    constructed (svc serviceGetCapabilityList) (optM continueAfter (visibleString tagIdentifier))
  | .identify => primitive (Tag.context serviceIdentify) []
  | .read specificationWithResult access =>
    constructed (svc serviceRead) (concatM [
      if specificationWithResult then Ber.boolean (Tag.context 0) true else .ok [],
      constructed (svc 1) access.write])
  | .write access values =>
    constructed (svc serviceWrite) (concatM [
      access.write,
      constructed (svc 0) (concatM (values.map fun v => primitive v.tag v.value))])
  | .getNamedVariableListAttributes name => constructed (svc serviceGetNvlAttributes) name.write
  | .getVariableAccessAttributes name =>
    constructed (svc serviceGetVariableAccessAttributes) (constructed (svc 0) name.write)
  | .defineNamedVariableList name members =>
    constructed (svc serviceDefineNvl) (concatM [name.write, writeVariableList members (svc 0)])
  | .deleteNamedVariableList scope names domain =>
    constructed (svc serviceDeleteNvl) (concatM [
      if scope ≠ deleteScopeSpecific then integer (Tag.context 0) scope else .ok [],
      if names.isEmpty then .ok []
        else constructed (svc 1) (concatM (names.map ObjectName.write)),
      optM domain (visibleString (Tag.context 2))])
  | .readJournal r => r.write
  | .fileOpen name position =>
    constructed (svc serviceFileOpen) (concatM [
      constructed (svc 0) (.ok name), Ber.unsigned (Tag.context 1) position])
  | .fileRead id => integer (Tag.context serviceFileRead) id
  | .fileClose id => integer (Tag.context serviceFileClose) id
  | .fileDelete name => constructed (svc serviceFileDelete) (.ok name)
  | .fileDirectory specification continueAfter =>
    constructed (svc serviceFileDirectory) (concatM [
      optM specification (fun n => constructed (svc 0) (.ok n)),
      optM continueAfter (fun n => constructed (svc 1) (.ok n))])
  | .other t => primitive t.tag t.value

end ConfirmedRequest

/-! ### Responses -/

inductive WriteResult where
  | failure (code : Int)
  | success
  deriving DecidableEq, Repr

inductive ConfirmedResponse where
  | status (logical physical : Int) (localDetail : Option (UInt8 × Bytes))
  | getCapabilityList (capabilities : List Bytes) (moreFollows : Bool)
  | getNameList (identifiers : List Bytes) (moreFollows : Bool)
  | identify (vendor model revision : Bytes)
  | read (access : Option VariableAccess) (results : List AccessResult)
  | write (results : List WriteResult)
  | getNamedVariableListAttributes (deletable : Bool) (members : List VariableSpecification)
  | getVariableAccessAttributes (deletable : Bool) (typeSpec : TypeSpec)
  | defineNamedVariableList
  | deleteNamedVariableList (matched deleted : Nat)
  | readJournal (entries : List JournalEntry) (moreFollows : Bool)
  | fileOpen (frsmId : Int) (attributes : FileAttributes)
  | fileRead (data : Bytes) (moreFollows : Bool)
  | fileClose
  | fileDelete
  | fileDirectory (entries : List DirectoryEntry) (moreFollows : Bool)
  | other (t : Tlv)
  deriving Repr

namespace ConfirmedResponse

/-- A visible string that must carry the given universal tag. -/
def parseIdentifier (t : Tlv) : Except Error Bytes := do
  let t ← t.expect tagIdentifier
  t.visibleString

/-- One result of a Write response. -/
def parseWriteResult (r : Tlv) : Except Error WriteResult :=
  match r.tag.number with
  | 0 => .failure <$> r.integerI64
  | _ => .ok .success

/-- The `moreFollows` field of a listing, with its default. -/
def moreFollowsField (c : Cursor) (dflt : Bool) : Except Error Bool := do
  let (more, _) ← optional c (Tag.context 1) Tlv.boolean
  .ok (more.getD dflt)

def parse (t : Tlv) (limits : Limits) : Except Error ConfirmedResponse :=
  if t.tag.cls ≠ .context then .error (.decode .unexpectedTag t.offset)
  else
    match t.tag.number with
    | 0 => do
        let (logical, c) ← required t.children (Tag.context 0) Tlv.integerI64
        let (physical, c) ← required c (Tag.context 1) Tlv.integerI64
        let (localDetail, _) ← optional c (Tag.context 2) Tlv.bitString
        .ok (.status logical physical localDetail)
    | 71 => do
        let (list, c) ← t.children.nextTag (svc 0)
        let capabilities ←
          collectItems "max_list_items" limits.maxListItems list.children parseIdentifier
        .getCapabilityList capabilities <$> moreFollowsField c true
    | 1 => do
        let (list, c) ← t.children.nextTag (svc 0)
        let identifiers ←
          collectItems "max_list_items" limits.maxListItems list.children parseIdentifier
        .getNameList identifiers <$> moreFollowsField c true
    | 2 => do
        let (vendor, c) ← required t.children (Tag.context 0) Tlv.visibleString
        let (model, c) ← required c (Tag.context 1) Tlv.visibleString
        let (revision, _) ← required c (Tag.context 2) Tlv.visibleString
        .ok (.identify vendor model revision)
    | 4 => do
        let (access, c) ← optional t.children (svc 0) (fun a => firstChild a >>= VariableAccess.parse)
        let (list, _) ← c.nextTag (svc 1)
        .read access <$> parseAccessResults list limits
    | 5 => .write <$> forItems t.children [] (fun out r => do
        let r ← parseWriteResult r
        .ok (out ++ [r]))
    | 12 => do
        let (deletable, c) ← optional t.children (Tag.context 0) Tlv.boolean
        let (list, _) ← c.nextTag (svc 1)
        .getNamedVariableListAttributes (deletable.getD false) <$> parseVariableList list limits
    | 6 => do
        let (deletable, c) ← optional t.children (Tag.context 0) Tlv.boolean
        let (_, c) ← c.nextIfTag (svc 1)
        let (type, _) ← required c (svc 2) firstChild
        .getVariableAccessAttributes (deletable.getD false) <$> TypeSpec.parse type limits
    | 11 => .ok .defineNamedVariableList
    | 13 => do
        let (matched, c) ← required t.children (Tag.context 0) Tlv.unsignedLenientU32
        let (deleted, _) ← required c (Tag.context 1) Tlv.unsignedLenientU32
        .ok (.deleteNamedVariableList matched deleted)
    | 65 => do
        let (list, c) ← t.children.nextTag (svc 0)
        let entries ← collectItems "max_list_items" limits.maxListItems list.children
          (fun entry => JournalEntry.parse entry limits)
        .readJournal entries <$> moreFollowsField c false
    | 72 => do
        let (frsmId, c) ← required t.children (Tag.context 0) Tlv.integerI32
        let (attributes, _) ← required c (svc 1) FileAttributes.parse
        .ok (.fileOpen frsmId attributes)
    | 73 => do
        let (data, c) ← t.children.nextTag (Tag.context 0)
        if data.value.length > limits.maxPrimitiveLen then
          .error (.limitExceeded "max_primitive_len" data.value.length)
        else .fileRead data.value <$> moreFollowsField c true
    | 74 => .ok .fileClose
    | 76 => .ok .fileDelete
    | 77 => do
        let (list, c) ← t.children.nextTag (svc 0)
        let entries ← collectItems "max_list_items" limits.maxListItems (directoryEntries list)
          (fun entry => DirectoryEntry.parse entry limits)
        .fileDirectory entries <$> moreFollowsField c false
    | _ => .ok (.other t)

/-- The `moreFollows` field of a listing, written only when it is not the default. -/
def writeMoreFollows (moreFollows dflt : Bool) : Except Error Bytes :=
  if moreFollows = dflt then .ok [] else Ber.boolean (Tag.context 1) moreFollows

/-- One result of a Write response. -/
def encodeWriteResult : WriteResult → Except Error Bytes
  | .failure code => integer (Tag.context 0) code
  | .success => primitive (Tag.context 1) []

/-- `ConfirmedResponse::write`. -/
def encode : ConfirmedResponse → Except Error Bytes
  | .getNameList identifiers moreFollows =>
    constructed (svc serviceGetNameList) (concatM [
      constructed (svc 0) (concatM (identifiers.map (visibleString tagIdentifier))),
      writeMoreFollows moreFollows true])
  | .status logical physical localDetail =>
    constructed (svc serviceStatus) (concatM [
      integer (Tag.context 0) logical,
      integer (Tag.context 1) physical,
      optM localDetail (fun d => Ber.bitString (Tag.context 2) d.1 d.2)])
  | .getCapabilityList capabilities moreFollows =>
    constructed (svc serviceGetCapabilityList) (concatM [
      constructed (svc 0) (concatM (capabilities.map (visibleString tagIdentifier))),
      writeMoreFollows moreFollows true])
  | .identify vendor model revision =>
    constructed (svc serviceIdentify) (concatM [
      visibleString (Tag.context 0) vendor,
      visibleString (Tag.context 1) model,
      visibleString (Tag.context 2) revision])
  | .read access results =>
    constructed (svc serviceRead) (concatM [
      optM access (fun a => constructed (svc 0) a.write),
      writeAccessResults results (svc 1)])
  | .write results => constructed (svc serviceWrite) (concatM (results.map encodeWriteResult))
  | .getNamedVariableListAttributes deletable members =>
    constructed (svc serviceGetNvlAttributes) (concatM [
      Ber.boolean (Tag.context 0) deletable, writeVariableList members (svc 1)])
  | .getVariableAccessAttributes deletable typeSpec =>
    constructed (svc serviceGetVariableAccessAttributes) (concatM [
      Ber.boolean (Tag.context 0) deletable, constructed (svc 2) typeSpec.write])
  | .defineNamedVariableList => primitive (Tag.context serviceDefineNvl) []
  | .deleteNamedVariableList matched deleted =>
    constructed (svc serviceDeleteNvl) (concatM [
      Ber.unsigned (Tag.context 0) matched, Ber.unsigned (Tag.context 1) deleted])
  | .readJournal entries moreFollows =>
    constructed (svc serviceReadJournal) (concatM [
      constructed (svc 0) (concatM (entries.map JournalEntry.write)),
      writeMoreFollows moreFollows false])
  | .fileOpen frsmId attributes =>
    constructed (svc serviceFileOpen) (concatM [
      integer (Tag.context 0) frsmId, attributes.write (svc 1)])
  | .fileRead data moreFollows =>
    constructed (svc serviceFileRead) (concatM [
      primitive (Tag.context 0) data, writeMoreFollows moreFollows true])
  | .fileClose => primitive (Tag.context serviceFileClose) []
  | .fileDelete => primitive (Tag.context serviceFileDelete) []
  | .fileDirectory entries moreFollows =>
    constructed (svc serviceFileDirectory) (concatM [
      constructed (svc 0) (constructed tagSequence (concatM (entries.map DirectoryEntry.write))),
      writeMoreFollows moreFollows false])
  | .other t => primitive t.tag t.value

end ConfirmedResponse

end Iec61850.Mms
