import Iec61850.Server.RcbEffects
import Iec61850.Theory.History
import Iec61850.Theory.Runs

/-!
# Runs of a report control block

What happens to a block, one action at a time, and the journal this leaves: the changes it picked
up, the entries it made, evicted and purged, and the reports that went out. A commit and a timeout
are several actions, so that what holds between actions holds between the calls too.
-/

namespace Iec61850.Server.ControlBlock

open Theory Mms

/-! ### Actions -/

/-- One action on the block. -/
inductive Action where
  | write (ied : Ied) (peers : Peers) (assoc : AssocId) (a : Attribute) (value : Value)
      (now : Instant)
  | writeWhole (assoc : AssocId) (value : Value)
  | gather (ied : Ied) (dirty : Bytes → Option TrgOps) (now : Instant)
  | interrogate (ied : Ied) (peers : Peers) (wall : EntryTime)
  | purge
  | integrity (ied : Ied) (peers : Peers) (wall : EntryTime) (now : Instant)
  | change (ied : Ied) (peers : Peers) (wall : EntryTime) (now : Instant)
  | flush
  | closed (peers : Peers) (assoc : AssocId) (now : Instant)
  | expire (now : Instant)

/-- `Acsi::commit`: the reports that waited for the response go out after those of the commit. -/
def commit (ied : Ied) (peers : Peers) (dirty : Bytes → Option TrgOps) (wall : EntryTime)
    (now : Instant) : List Action :=
  [.gather ied dirty now, .interrogate ied peers wall, .purge, .integrity ied peers wall now,
    .change ied peers wall now, .flush]

/-- `Acsi::on_timeout`. -/
def onTimeout (ied : Ied) (peers : Peers) (wall : EntryTime) (now : Instant) : List Action :=
  [.expire now, .interrogate ied peers wall, .purge, .integrity ied peers wall now,
    .change ied peers wall now]

/-- The block after an action. -/
def next (b : ControlBlock) : Action → ControlBlock
  | .write ied peers assoc a value now => (b.writeAttribute ied peers assoc a value now).1
  | .writeWhole _ value => (b.writeWhole value).1
  | .gather ied dirty now => b.gather ied dirty now
  | .interrogate ied peers wall => (b.emitInterrogation ied peers wall).1
  | .purge => b.purge
  | .integrity ied peers wall now => (b.emitIntegrity ied peers wall now).1
  | .change ied peers wall now => (b.emitChange ied peers wall now).1
  | .flush => { b with deferred := [] }
  | .closed peers assoc now => b.closed peers assoc now
  | .expire now => b.expire now

/-- No action stops the block. -/
def step (b : ControlBlock) (x : Action) : Option ControlBlock := some (b.next x)

/-! ### The journal -/

inductive Event where
  | hit (member : Bytes) (reason : ReasonCode)
  | made (entry : Buffered) (kept : Bool)
  | evicted (entry : Buffered) (raised : Bool)
  | purgeRequested (assoc : AssocId)
  | purged (entry : Buffered)
  | lost
  | sent (delivery : Delivery)
  | released

/-- A report none of whose PDUs can be encoded does not go out. -/
def sends (deliveries : List Delivery) : List Event :=
  (deliveries.filter fun d => !d.pdus.isEmpty).map .sent

/-- The block has stopped being enabled. -/
def releases (b b' : ControlBlock) : List Event :=
  if b.rcb.owner.isSome && b'.rcb.owner.isNone then [.released] else []

variable (b : ControlBlock)

/-- What keeping an entry costs. -/
def evictions (entry : Buffered) : List Event :=
  if defaultBuffer ≤ b.rcb.buffer.length then
    b.rcb.buffer.head?.toList.map fun old => .evicted old (b.record entry).rcb.overflowed
  else []

/-- What building a report leaves in the journal. -/
def buildEvents (ied : Ied) (peers : Peers) (trigger : Trigger) (wall : EntryTime) : List Event :=
  match b.entryMade ied trigger wall with
  | none => []
  | some entry =>
    (if b.keeps trigger then b.evictions entry else []) ++ [.made entry (b.keeps trigger)] ++
      sends (b.build ied peers trigger wall).2

/-- Whether a general interrogation is asked for. -/
def interrogated : Bool := b.rcb.owner.isSome && (b.values .gi).bind boolOf == some true

def purgeAsked : Bool := ((b.values .purgeBuf).bind boolOf).getD false

/-- Whether the write enables the block. -/
def enables (assoc : AssocId) (a : Attribute) (value : Value) : Bool :=
  a = .rptEna && boolOf value == some true && !b.ownedByOther assoc && !b.reservedByOther assoc

/-- Whether the resume point has gone from the buffer. -/
def resumeLost : Bool := (b.resumePoint ((b.values .entryID).bind entryIdOf)).2

/-- What an action leaves in the journal. -/
def events (b : ControlBlock) : Action → List Event
  | .write ied peers assoc a value now =>
    let (b', result) := b.writeAttribute ied peers assoc a value now
    (if a = .purgeBuf && boolOf value == some true && result.isOk then [.purgeRequested assoc]
      else []) ++
    releases b b' ++ if b.enables assoc a value && b.resumeLost then [.lost] else []
  | .writeWhole assoc value =>
    if (b.writeWhole value).1.purgeAsked then [.purgeRequested assoc] else []
  | .gather ied dirty _ =>
    if b.rcb.owner.isNone && !b.rcb.buffered then []
    else (b.hits ied dirty).map fun (m, reason) => .hit m reason
  | .interrogate ied peers wall =>
    if b.interrogated then
      (b.setInternal .gi (.boolean false)).buildEvents ied peers .generalInterrogation wall
    else []
  | .purge => if b.purgeAsked then b.rcb.buffer.map .purged else []
  | .integrity ied peers wall now =>
    if b.rcb.integrityDue.any (· ≤ now) then
      (b.rearm now).buildEvents ied peers .integrity wall
    else []
  | .change ied peers wall now =>
    if b.rcb.due.any (· ≤ now) then b.buildEvents ied peers .change wall else []
  | .flush => sends b.deferred
  | .closed peers assoc now => releases b (b.closed peers assoc now)
  | .expire _ => []

/-! ### Actions that build a report -/

/-- What a block is before a report of it is built: itself, but for the next integrity period and a
general interrogation taken back. -/
structure Prepared (b c : ControlBlock) : Prop where
  rcb : ∃ integrityDue, c.rcb = { b.rcb with integrityDue }
  deferred : c.deferred = b.deferred
  reference : c.reference = b.reference
  values : ∀ a, a ≠ .gi → c.values a = b.values a

theorem prepared_refl (b : ControlBlock) : Prepared b b :=
  ⟨⟨b.rcb.integrityDue, rfl⟩, rfl, rfl, fun _ _ => rfl⟩

/-- The action does nothing, or builds one report. -/
def Emits (b : ControlBlock) (x : Action) : Prop :=
  (b.next x = b ∧ b.events x = []) ∨
    ∃ c ied peers trigger wall, Prepared b c ∧ b.next x = (c.build ied peers trigger wall).1 ∧
      b.events x = c.buildEvents ied peers trigger wall

theorem emits_interrogate (b : ControlBlock) (ied : Ied) (peers : Peers) (wall : EntryTime) :
    b.Emits (.interrogate ied peers wall) := by
  rw [Emits, next, emitInterrogation, events, interrogated]
  split
  · right
    refine ⟨b.setInternal .gi (.boolean false), ied, peers, .generalInterrogation, wall, ?_, rfl, rfl⟩
    exact ⟨⟨b.rcb.integrityDue, setInternal_rcb b _ _⟩, setInternal_deferred b _ _,
      setInternal_reference b _ _, fun a ha => setInternal_values b _ _ ha⟩
  · exact Or.inl ⟨rfl, rfl⟩

theorem emits_integrity (b : ControlBlock) (ied : Ied) (peers : Peers) (wall : EntryTime)
    (now : Instant) : b.Emits (.integrity ied peers wall now) := by
  rw [Emits, next, emitIntegrity, events]
  split
  · right
    exact ⟨b.rearm now, ied, peers, .integrity, wall, ⟨⟨_, rfl⟩, rfl, rfl, fun _ _ => rfl⟩, rfl, rfl⟩
  · exact Or.inl ⟨rfl, rfl⟩

theorem emits_change (b : ControlBlock) (ied : Ied) (peers : Peers) (wall : EntryTime)
    (now : Instant) : b.Emits (.change ied peers wall now) := by
  rw [Emits, next, emitChange, events]
  split
  · exact Or.inr ⟨b, ied, peers, .change, wall, prepared_refl b, rfl, rfl⟩
  · exact Or.inl ⟨rfl, rfl⟩

end Iec61850.Server.ControlBlock
