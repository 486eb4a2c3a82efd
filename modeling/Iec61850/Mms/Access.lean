import Iec61850.Common.Data

/-!
# Names and access specifications of MMS

The `ObjectName`, `ObjectScope`, `VariableSpecification`, `VariableAccess` and `AccessResult`
types of `proto/mms/mod.rs`, and the alternate access of `proto/mms/alternate.rs`.
-/

namespace Iec61850.Mms

open Theory Ber

def tagIdentifier : Tag := Tag.universal universalVisibleString false
def tagInteger : Tag := Tag.universal universalInteger false
def tagSequence : Tag := Tag.universal universalSequence true

/-- An optional element read with `f` when it is there (`next_if_tag(..)?.map(f).transpose()?`). -/
def optional {α : Type} (c : Cursor) (tag : Tag) (f : Tlv → Except Error α) :
    Except Error (Option α × Cursor) := do
  let (t, c) ← c.nextIfTag tag
  match t with
  | some t => do
      let a ← f t
      .ok (some a, c)
  | none => .ok (none, c)

/-- A required element read with `f` (`f(&c.next_tag(..)?)?`). -/
def required {α : Type} (c : Cursor) (tag : Tag) (f : Tlv → Except Error α) :
    Except Error (α × Cursor) := do
  let (t, c) ← c.nextTag tag
  let a ← f t
  .ok (a, c)

/-- The first child of an element (`t.children().next_required()?`). -/
def firstChild (t : Tlv) : Except Error Tlv := do
  let (child, _) ← t.children.nextRequired
  .ok child

/-! ### Object names -/

inductive ObjectName where
  | vmdSpecific (name : Bytes)
  | domainSpecific (domain item : Bytes)
  | aaSpecific (name : Bytes)
  deriving DecidableEq, Repr

def ObjectName.parse (t : Tlv) : Except Error ObjectName :=
  if t.tag.cls ≠ .context then .error (.decode .unexpectedTag t.offset)
  else
    match t.tag.number with
    | 0 => .vmdSpecific <$> t.visibleString
    | 1 => do
        let (domain, c) ← required t.children tagIdentifier Tlv.visibleString
        let (item, _) ← required c tagIdentifier Tlv.visibleString
        .ok (.domainSpecific domain item)
    | 2 => .aaSpecific <$> t.visibleString
    | _ => .error (.decode .unexpectedTag t.offset)

def ObjectName.write : ObjectName → Except Error Bytes
  | .vmdSpecific s => visibleString (Tag.context 0) s
  | .domainSpecific domain item =>
    constructed (Tag.contextConstructed 1)
      (concatM [visibleString tagIdentifier domain, visibleString tagIdentifier item])
  | .aaSpecific s => visibleString (Tag.context 2) s

inductive ObjectScope where
  | vmdSpecific
  | domainSpecific (domain : Bytes)
  | aaSpecific
  | other (t : Tlv)
  deriving DecidableEq, Repr

def ObjectScope.parse (t : Tlv) : Except Error ObjectScope :=
  if t.tag.cls ≠ .context then .error (.decode .unexpectedTag t.offset)
  else
    match t.tag.number with
    | 0 => .ok .vmdSpecific
    | 1 => .domainSpecific <$> t.visibleString
    | 2 => .ok .aaSpecific
    | _ => .ok (.other t)

def ObjectScope.write : ObjectScope → Except Error Bytes
  | .vmdSpecific => primitive (Tag.context 0) []
  | .domainSpecific d => visibleString (Tag.context 1) d
  | .aaSpecific => primitive (Tag.context 2) []
  | .other t => primitive t.tag t.value

/-! ### Alternate access -/

/-- `Selector`: one step of an alternate access. -/
inductive Selector where
  | component (name : Bytes)
  | index (i : Nat)
  | indexRange (low count : Nat)
  | allElements
  deriving DecidableEq, Repr

namespace Alternate

/-- How deep a chain of selectors may go. -/
def maxDepth : Nat := 16

/-- The context tag a selector takes as the last step. -/
def lastTag : Selector → Nat
  | .component _ => 1
  | .index _ => 2
  | .indexRange _ _ => 3
  | .allElements => 4

/-- The tag the same selector takes when more steps follow. -/
def innerTag (s : Selector) : Nat := lastTag s - 1

/-- `Path::selector`: one selection, read against the last-step tag numbers. -/
def selector (t : Tlv) (asLast : Nat) : Except Error Selector :=
  if t.tag.cls ≠ .context then .error (.decode .unexpectedTag t.offset)
  else
    match asLast with
    | 1 => .component <$> t.visibleString
    | 2 => .index <$> t.unsignedLenientU32
    | 3 => do
        let (low, c) ← required t.children (Tag.context 0) Tlv.unsignedLenientU32
        let (count, _) ← required c (Tag.context 1) Tlv.unsignedLenientU32
        .ok (.indexRange low count)
    | 4 => .ok .allElements
    | _ => .error (.decode .unexpectedTag t.offset)

/-- `Path::parse_into`: `left` counts the levels still allowed. The tag number is a `u32`, so
the successor the source takes wraps. -/
def parseInto : Nat → Tlv → Except Error (List Selector)
  | 0, _ => .error (.limitExceeded "alternate_access_depth" (maxDepth + 1))
  | left + 1, t => do
      let (first, c) ← t.children.nextRequired
      if ¬ c.isEmpty then .error (.decode .badValue first.offset)
      else if first.tag = Tag.contextConstructed 0 then do
        let (selection, inner) ← first.children.nextRequired
        let here ← selector selection ((selection.tag.number + 1) % 2 ^ 32)
        let (rest, inner) ← inner.nextTag tagSequence
        inner.finish
        let steps ← parseInto left rest
        .ok (here :: steps)
      else do
        let last ← selector first first.tag.number
        .ok [last]

/-- `Path::parse`. -/
def parse (t : Tlv) : Except Error (List Selector) := parseInto maxDepth t

/-- `Path::write_selector`. -/
def writeSelector (s : Selector) (tag : Nat) : Except Error Bytes :=
  match s with
  | .component name => visibleString (Tag.context tag) name
  | .index i => unsigned (Tag.context tag) i
  | .indexRange low count =>
    constructed (Tag.contextConstructed tag)
      (concatM [unsigned (Tag.context 0) low, unsigned (Tag.context 1) count])
  | .allElements => primitive (Tag.context tag) []

/-- `Path::write_steps`. -/
def writeSteps : List Selector → Except Error Bytes
  | [] => .ok []
  | [last] => writeSelector last (lastTag last)
  | first :: rest =>
    constructed (Tag.contextConstructed 0)
      (concatM [writeSelector first (innerTag first), constructed tagSequence (writeSteps rest)])

/-- `Path::write`: an empty path is never encoded. -/
def write (steps : List Selector) : Except Error Bytes :=
  if steps.isEmpty then .ok [] else constructed (Tag.contextConstructed 5) (writeSteps steps)

end Alternate

/-! ### Variable access -/

inductive VariableSpecification where
  | name (n : ObjectName)
  | element (n : ObjectName) (access : List Selector)
  | other (t : Tlv)
  deriving DecidableEq, Repr

/-- One item of `parse_variable_list`. -/
def VariableSpecification.parse (item : Tlv) : Except Error VariableSpecification := do
  let item ← item.expect tagSequence
  let (spec, c) ← item.children.nextRequired
  if spec.tag = Tag.contextConstructed 0 then do
    let child ← firstChild spec
    let n ← ObjectName.parse child
    let (access, _) ← optional c (Tag.contextConstructed 5) Alternate.parse
    .ok (match access with
      | some access => .element n access
      | none => .name n)
  else .ok (.other spec)

def parseVariableList (t : Tlv) (limits : Limits) : Except Error (List VariableSpecification) :=
  collectItems "max_dataset_members" limits.maxDatasetMembers t.children VariableSpecification.parse

/-- One item of `write_variable_list`. -/
def VariableSpecification.write : VariableSpecification → Except Error Bytes
  | .name n => constructed (Tag.contextConstructed 0) n.write
  | .element n access => concatM [constructed (Tag.contextConstructed 0) n.write, Alternate.write access]
  | .other t => primitive t.tag t.value

def writeVariableList (items : List VariableSpecification) (tag : Tag) : Except Error Bytes :=
  constructed tag (concatM (items.map fun item => constructed tagSequence item.write))

inductive VariableAccess where
  | listOfVariable (items : List VariableSpecification)
  | variableListName (n : ObjectName)
  deriving DecidableEq, Repr

/-- `VariableAccess::parse`: the member list is bounded by the default limits. -/
def VariableAccess.parse (t : Tlv) : Except Error VariableAccess :=
  match t.tag.cls, t.tag.number with
  | .context, 0 => .listOfVariable <$> parseVariableList t Limits.default
  | .context, 1 => do
      let child ← firstChild t
      .variableListName <$> ObjectName.parse child
  | _, _ => .error (.decode .unexpectedTag t.offset)

def VariableAccess.write : VariableAccess → Except Error Bytes
  | .listOfVariable items => writeVariableList items (Tag.contextConstructed 0)
  | .variableListName n => constructed (Tag.contextConstructed 1) n.write

/-- `AccessResult`: a success keeps the encoded element. -/
inductive AccessResult where
  | failure (code : Int)
  | success (t : Tlv)
  deriving DecidableEq, Repr

/-- `AccessResult::parse`: a value that does not decode is refused here. -/
def AccessResult.parse (t : Tlv) : Except Error AccessResult :=
  if t.tag = Tag.context 0 then .failure <$> t.integerI64
  else do
    let _ ← DataView.fromTlv t
    .ok (.success t)

def parseAccessResults (t : Tlv) (limits : Limits) : Except Error (List AccessResult) :=
  collectItems "max_dataset_members" limits.maxDatasetMembers t.children AccessResult.parse

/-- One result of `write_access_results`. -/
def AccessResult.write : AccessResult → Except Error Bytes
  | .failure code => integer (Tag.context 0) code
  | .success t => primitive t.tag t.value

def writeAccessResults (results : List AccessResult) (tag : Tag) : Except Error Bytes :=
  constructed tag (concatM (results.map AccessResult.write))

end Iec61850.Mms
