import Iec61850.Common.Quality
import Iec61850.Server.StoreWrites
import Iec61850.Server.Uncommitted

/-!
# Supervision of subscriptions

`server/supervision.rs`, and the transactions of `server/net.rs` that publish with it. What a status
has to write is found when it is staged, by a comparison with the model as it is then, and written
when the transaction is committed.
-/

namespace Iec61850.Server

open Theory Mms

/-! ### What a status writes -/

structure SubscriptionStatus where
  live : Bool
  needsCommissioning : Bool
  simulated : Bool
  lastStNum : Option UInt32
  expectedConfRev : Option UInt32
  receivedConfRev : Option UInt32
  deriving DecidableEq, Repr

/-- The value of a supervision object of a logical node. -/
def stValOf (node : Reference) (name : Bytes) : Reference :=
  ⟨node.domain, node.item ++ [ascii "ST", name, ascii "stVal"]⟩

def SubscriptionStatus.writes (status : SubscriptionStatus) (node : Reference) :
    List (Reference × Value) :=
  [(ascii "St", status.live), (ascii "NdsCom", status.needsCommissioning),
      (ascii "SimSt", status.simulated)].map (fun e => (stValOf node e.1, Value.boolean e.2)) ++
    [(ascii "LastStNum", status.lastStNum), (ascii "ConfRevNum", status.expectedConfRev),
      (ascii "RxConfRevNum", status.receivedConfRev)].filterMap fun e =>
        e.2.map fun v => (stValOf node e.1, Value.integer v.toNat)

/-- `Quality::to_octets`. -/
def qualityOctets (q : Quality) : Bytes :=
  let v := if q.toBitsMsb.testBit 18 then q.toBitsMsb - 2 ^ 18 else q.toBitsMsb
  [UInt8.ofNat (v >>> 24), UInt8.ofNat (v >>> 16)]

/-- `Value::quality`. -/
def qualityValue (q : Quality) : Value := .bitString 3 (qualityOctets q)

/-- Another attribute of the object whose value this is. -/
def besides (r : Reference) (name : Bytes) : Reference :=
  let object :=
    if 2 ≤ r.item.length ∧ r.item.getLast? = some (ascii "stVal") then r.item.dropLast else r.item
  ⟨r.domain, object ++ [name]⟩

def qualityAndTime (r : Reference) (now : UtcTime) : List (Reference × Value) :=
  [(besides r (ascii "q"), qualityValue .allGood), (besides r (ascii "t"), .utcTime now)]

/-- `ServerHandle::supervision_writes`. -/
def supervisionWrites (ied : Store) (now : UtcTime) (candidates : List (Reference × Value)) :
    List (Reference × Value) :=
  candidates.flatMap fun w =>
    match ied.values w.1 with
    | none => []
    | some current =>
      if current.equals w.2 then []
      else ((qualityAndTime w.1 now).filter fun p => (ied.values p.1).isSome) ++ [w]

/-! ### Transactions -/

/-- A call on a transaction. -/
inductive TxnCall where
  | set (reference : Reference) (value : Value)
  | supervise (node : Reference) (status : SubscriptionStatus) (now : UtcTime)

/-- A call that was made, with the model as it was then. -/
structure Staged where
  call : TxnCall
  seen : Store

/-- What a call stages (`Txn::set`, `Txn::supervise`). -/
def Staged.writes (c : Staged) : List (Reference × Value) :=
  match c.call with
  | .set r v => [(r, v)]
  | .supervise node status now => supervisionWrites c.seen now (status.writes node)

/-- The values that a call supervises with. -/
def TxnCall.statuses : TxnCall → List (Reference × Value)
  | .set _ _ => []
  | .supervise node status _ => status.writes node

/-- All that a transaction has staged (`Txn::writes`). -/
def stagedWrites (cs : List Staged) : List (Reference × Value) := cs.flatMap Staged.writes

/-- The values that its statuses have for the supervision objects. -/
def statusesOf (cs : List Staged) : List (Reference × Value) := cs.flatMap (·.call.statuses)

/-- The server, and what the transactions of its threads have staged so far. -/
structure Shared where
  acsi : Acsi
  txns : Nat → List Staged

/-- What threads do: calls on their transactions, each under the lock, and everything else that the
server loop handles. -/
inductive TxnEvent where
  | call (txn : Nat) (c : TxnCall)
  | commit (txn : Nat) (now : Now)
  | loop (x : LoopEvent)

namespace Shared

variable (s : Shared)

/-- The server after an event. -/
def next : TxnEvent → Shared
  | .call k c =>
    { s with txns := Function.update s.txns k (s.txns k ++ [⟨c, s.acsi.control.ied⟩]) }
  | .commit k now =>
    { acsi := s.acsi.next (.transaction (stagedWrites (s.txns k)) now)
      txns := Function.update s.txns k [] }
  | .loop x => { s with acsi := s.acsi.next x }

/-- Nothing of it stops the server. -/
def step (s : Shared) (e : TxnEvent) : Option Shared := some (s.next e)

end Shared

/-! ### What a commit is to leave -/

/-- The last value that writes have for a reference. -/
def lastOf (ws : List (Reference × Value)) (r : Reference) : Option Value :=
  ((ws.filter fun w => w.1 = r).getLast?).map (·.2)

/-- The data after a transaction has been written, and before it is published. -/
def writeAll (ied : Store) (ws : List (Reference × Value)) : Store :=
  ws.foldl (fun ied w => (ied.writeLeaf w.1 w.2).1) ied

/-- The quality and the time of a supervision object. -/
def stamps (r : Reference) : List Reference := [besides r (ascii "q"), besides r (ascii "t")]

/-- What is asked of the commit of a transaction. -/
structure Supervised (a : Acsi) (cs : List Staged) (a' : Acsi) : Prop where
  /-- An object whose type accepts it has the last value. -/
  holds : ∀ r v, lastOf (statusesOf cs) r = some v → a.control.ied.takes r v = true →
    a'.control.ied.values r = some v
  /-- Its quality and its time are written exactly when its value is changed. -/
  stamped : ∀ w ∈ statusesOf cs, ∀ x ∈ stamps w.1, (a.control.ied.values x).isSome = true →
    ((∃ u ∈ stagedWrites cs, u.1 = x ∧ a.control.ied.takes x u.2 = true) ↔
      a'.control.ied.values w.1 ≠ a.control.ied.values w.1)
  /-- A value that is there already marks nothing. -/
  unmarked : ∀ r v, lastOf (statusesOf cs) r = some v → a.control.ied.values r = some v →
    ∀ x ∈ r :: stamps r,
      (writeAll a.control.ied (stagedWrites cs)).dirty x = a.control.ied.dirty x
  /-- When there are no other values, nothing happens at all. -/
  quiet : (∀ c ∈ cs, (∀ r v, c.call ≠ .set r v) ∧ ∀ w ∈ c.call.statuses,
      a.control.ied.values w.1 = some w.2 ∨ a.control.ied.values w.1 = none) → a' = a

/-- Under which condition it is. -/
structure Undisturbed (ied : Store) (cs : List Staged) : Prop where
  /-- Whether the model has the value is as it was when the status was staged. -/
  same : ∀ c ∈ cs, ∀ w ∈ c.call.statuses,
    c.seen.values w.1 = some w.2 ↔ ied.values w.1 = some w.2
  /-- When the last value of an object is the one the model has, no other was staged before. -/
  settled : ∀ r v, lastOf (statusesOf cs) r = some v → ied.values r = some v →
    ∀ w ∈ statusesOf cs, w.1 = r → w.2 = v
  /-- The application does not set the attributes of the objects itself. -/
  apart : ∀ c ∈ cs, ∀ r v, c.call = .set r v → ∀ w ∈ statusesOf cs, r ∉ w.1 :: stamps w.1
  /-- The types of an object that has a quality or a time accept what is written. -/
  typed : ∀ w ∈ statusesOf cs, ∀ now, ∀ p ∈ qualityAndTime w.1 now,
    (ied.values w.1).isSome = true → (ied.values p.1).isSome = true →
      ied.takes w.1 w.2 = true ∧ ied.takes p.1 p.2 = true

/-- The condition, at a step. -/
def Shared.Calm (s : Shared) (e : TxnEvent) : Prop :=
  ∀ k now, e = .commit k now → Undisturbed s.acsi.control.ied (s.txns k)

/-- What is asked, of a step. -/
def Shared.Supervises (s : Shared) (e : TxnEvent) : Prop :=
  ∀ k now, e = .commit k now → Supervised s.acsi (s.txns k) (s.next e).acsi

/-! ### References -/

theorem besides_stValOf (node : Reference) (name x : Bytes) :
    besides (stValOf node name) x = ⟨node.domain, node.item ++ [ascii "ST", name, x]⟩ := by
  have hlast : (node.item ++ [ascii "ST", name, ascii "stVal"]).getLast? =
      some (ascii "stVal") := by simp
  have hdrop : (node.item ++ [ascii "ST", name, ascii "stVal"]).dropLast =
      node.item ++ [ascii "ST", name] := by
    rw [List.dropLast_append_of_ne_nil (by simp)]
    rfl
  rw [besides, stValOf, if_pos ⟨by simp, hlast⟩, hdrop]
  simp

/-- A reference of what a status writes. -/
def IsStVal (r : Reference) : Prop := ∃ node name, r = stValOf node name

variable {r r' x : Reference} {w : Reference × Value}

theorem besides_injective (hr : IsStVal r) (hr' : IsStVal r') {x y : Bytes}
    (h : besides r x = besides r' y) : r = r' ∧ x = y := by
  obtain ⟨node, name, rfl⟩ := hr
  obtain ⟨node', name', rfl⟩ := hr'
  rw [besides_stValOf, besides_stValOf, Reference.mk.injEq] at h
  obtain ⟨hdomain, hitem⟩ := h
  obtain ⟨hnode, htail⟩ := List.append_inj' hitem rfl
  simp only [List.cons.injEq, and_true, true_and] at htail
  refine ⟨?_, htail.2⟩
  rw [stValOf, stValOf, hdomain, hnode, htail.1]

theorem besides_ne (hr : IsStVal r) (hr' : IsStVal r') {x : Bytes} (hx : x ≠ ascii "stVal") :
    besides r x ≠ r' := by
  obtain ⟨node, name, rfl⟩ := hr
  obtain ⟨node', name', rfl⟩ := hr'
  rw [besides_stValOf, stValOf]
  intro h
  rw [Reference.mk.injEq] at h
  have htail := (List.append_inj' h.2 rfl).2
  simp only [List.cons.injEq, and_true, true_and] at htail
  exact hx htail.2

/-! ### What is staged -/

/-- A boolean or an integer. -/
def Scalar (v : Value) : Prop := (∃ b, v = .boolean b) ∨ ∃ i, v = .integer i

theorem equals_iff {v : Value} (hv : Scalar v) (current : Value) :
    current.equals v = true ↔ current = v := by
  rcases hv with ⟨b, rfl⟩ | ⟨i, rfl⟩
  · cases current <;> simp [Value.equals]
  · cases current <;> simp [Value.equals]

theorem writes_spec {status : SubscriptionStatus} {node : Reference} (hw : w ∈ status.writes node) :
    IsStVal w.1 ∧ Scalar w.2 := by
  rcases List.mem_append.mp hw with hw | hw
  · obtain ⟨e, -, rfl⟩ := List.mem_map.mp hw
    exact ⟨⟨node, e.1, rfl⟩, Or.inl ⟨e.2, rfl⟩⟩
  · obtain ⟨e, -, hsome⟩ := List.mem_filterMap.mp hw
    obtain ⟨v, -, rfl⟩ := Option.map_eq_some_iff.mp hsome
    exact ⟨⟨node, e.1, rfl⟩, Or.inr ⟨v.toNat, rfl⟩⟩

theorem statuses_spec {c : TxnCall} (hw : w ∈ c.statuses) : IsStVal w.1 ∧ Scalar w.2 := by
  cases c with
  | set => cases hw
  | supervise node status now => exact writes_spec hw

/-- The model has the object, with another value. -/
def moves (ied : Store) (w : Reference × Value) : Bool :=
  (ied.values w.1).any fun current => ! current.equals w.2

variable {ied : Store} {now : UtcTime} {ws : List (Reference × Value)}

theorem moves_iff (hw : Scalar w.2) :
    moves ied w = true ↔ (ied.values w.1).isSome = true ∧ ied.values w.1 ≠ some w.2 := by
  unfold moves
  cases ied.values w.1 with
  | none => simp
  | some current =>
    have heq := equals_iff hw current
    cases hequals : current.equals w.2 with
    | true =>
      have hsame := heq.mp hequals
      rw [hsame] at hequals ⊢
      simp [hequals]
    | false =>
      have hne : current ≠ w.2 := by
        intro h
        rw [heq.mpr h] at hequals
        cases hequals
      simp [hne, hequals]

theorem supervisionWrites_eq (ied : Store) (now : UtcTime) (ws : List (Reference × Value)) :
    supervisionWrites ied now ws = ws.flatMap fun w => if moves ied w then
        ((qualityAndTime w.1 now).filter fun p => (ied.values p.1).isSome) ++ [w] else [] := by
  unfold supervisionWrites
  congr 1
  funext w
  unfold moves
  cases ied.values w.1 with
  | none => rfl
  | some current =>
    cases hequals : current.equals w.2 with
    | true => simp [hequals]
    | false => simp [hequals]

theorem mem_qualityAndTime {p : Reference × Value} (hp : p ∈ qualityAndTime r now) :
    p.1 ∈ stamps r := by
  rcases List.mem_cons.mp hp with rfl | hp
  · exact List.mem_cons_self
  · rw [List.mem_singleton.mp hp]
    exact List.mem_cons_of_mem _ List.mem_cons_self

theorem exists_qualityAndTime (hx : x ∈ stamps r) (now : UtcTime) :
    ∃ v, (x, v) ∈ qualityAndTime r now := by
  rcases List.mem_cons.mp hx with rfl | hx
  · exact ⟨_, List.mem_cons_self⟩
  · rw [List.mem_singleton.mp hx]
    exact ⟨_, List.mem_cons_of_mem _ List.mem_cons_self⟩

theorem stamps_ne (hr : IsStVal r) (hr' : IsStVal r') (hx : x ∈ stamps r) : x ≠ r' := by
  rcases List.mem_cons.mp hx with rfl | hx
  · exact besides_ne hr hr' (by decide)
  · rw [List.mem_singleton.mp hx]
    exact besides_ne hr hr' (by decide)

theorem eq_of_mem_stamps (hr : IsStVal r) (hr' : IsStVal r') (hx : x ∈ stamps r)
    (hx' : x ∈ stamps r') : r = r' := by
  have hof {r₀ : Reference} (h : x ∈ stamps r₀) : ∃ name, x = besides r₀ name := by
    rcases List.mem_cons.mp h with h | h
    · exact ⟨_, h⟩
    · exact ⟨_, List.mem_singleton.mp h⟩
  obtain ⟨name, hname⟩ := hof hx
  obtain ⟨name', hname'⟩ := hof hx'
  exact (besides_injective hr hr' (hname.symm.trans hname')).1

theorem filter_supervisionWrites (hws : ∀ w ∈ ws, IsStVal w.1) (hr : IsStVal r) :
    ((supervisionWrites ied now ws).filter fun w => w.1 = r) =
      ws.filter fun w => decide (w.1 = r) && moves ied w := by
  rw [supervisionWrites_eq]
  induction ws with
  | nil => rfl
  | cons w ws ih =>
    rw [List.forall_mem_cons] at hws
    have hstamps : ((qualityAndTime w.1 now).filter fun p => (ied.values p.1).isSome).filter
        (fun w => w.1 = r) = [] := by
      rw [List.filter_eq_nil_iff]
      intro p hp
      have hne := stamps_ne hws.1 hr (mem_qualityAndTime (List.mem_filter.mp hp).1)
      simpa using hne
    rw [List.flatMap_cons, List.filter_append, ih hws.2]
    cases hmoves : moves ied w with
    | false => simp [hmoves]
    | true =>
      rw [if_pos rfl, List.filter_append, hstamps, List.nil_append]
      by_cases hwr : w.1 = r
      · simp [hwr, hmoves]
      · simp [hwr]

/-! ### What is written -/

theorem lastOf_cons (w : Reference × Value) (ws : List (Reference × Value)) (r : Reference) :
    lastOf (w :: ws) r = if w.1 = r then some ((lastOf ws r).getD w.2) else lastOf ws r := by
  unfold lastOf
  by_cases hwr : w.1 = r
  · rw [List.filter_cons_of_pos (by simpa using hwr), List.getLast?_cons, if_pos hwr]
    cases (ws.filter fun u => u.1 = r).getLast? <;> rfl
  · rw [List.filter_cons_of_neg (by simpa using hwr), if_neg hwr]

theorem values_writeAll (ied : Store) (ws : List (Reference × Value)) (r : Reference) :
    (writeAll ied ws).values r =
      (lastOf (ws.filter fun w => ied.takes w.1 w.2) r).or (ied.values r) := by
  induction ws generalizing ied with
  | nil => rfl
  | cons w ws ih =>
    have hnext := ih (ied.writeLeaf w.1 w.2).1
    simp only [LeafStore.writeLeaf_takes] at hnext
    change (writeAll (ied.writeLeaf w.1 w.2).1 ws).values r = _
    have hkept : (w :: ws).filter (fun w => ied.takes w.1 w.2) =
        if ied.takes w.1 w.2 then w :: ws.filter fun w => ied.takes w.1 w.2
        else ws.filter fun w => ied.takes w.1 w.2 := List.filter_cons
    rw [hnext, hkept]
    by_cases hwr : w.1 = r
    · subst hwr
      rw [LeafStore.writeLeaf_values_self]
      cases ied.takes w.1 w.2 with
      | false => rfl
      | true =>
        simp only [if_true, lastOf_cons]
        cases lastOf (ws.filter fun w => ied.takes w.1 w.2) w.1 <;> rfl
    · rw [LeafStore.writeLeaf_values_ne _ _ _ (Ne.symm hwr)]
      cases ied.takes w.1 w.2 with
      | false => rfl
      | true => simp only [if_true, lastOf_cons, if_neg hwr]

theorem dirty_writeAll (h : ∀ w ∈ ws, w.1 ≠ r) (ied : Store) :
    (writeAll ied ws).dirty r = ied.dirty r := by
  induction ws generalizing ied with
  | nil => rfl
  | cons w ws ih =>
    rw [List.forall_mem_cons] at h
    change (writeAll (ied.writeLeaf w.1 w.2).1 ws).dirty r = _
    rw [ih h.2]
    unfold LeafStore.writeLeaf
    split
    · rfl
    · rfl
    · split
      · exact Function.update_of_ne (Ne.symm h.1) _ _
      · rfl

/-! ### One commit -/

section Commit

variable {ied : Store} {cs : List Staged} (h : Undisturbed ied cs)
  (hseen : ∀ c ∈ cs, c.seen.Typed ∧ Overwritten c.seen ied)

include h hseen

theorem moves_seen {c : Staged} (hc : c ∈ cs) {w : Reference × Value}
    (hw : w ∈ c.call.statuses) : moves c.seen w = moves ied w := by
  have hscalar := (statuses_spec hw).2
  have hsome := (hseen c hc).2.isSome (hseen c hc).1 w.1
  rw [Bool.eq_iff_iff, moves_iff hscalar, moves_iff hscalar, hsome, Ne, Ne, h.same c hc w hw]

theorem filter_stagedWrites {r : Reference} (hr : ∃ w ∈ statusesOf cs, w.1 = r) :
    ((stagedWrites cs).filter fun w => w.1 = r) =
      (statusesOf cs).filter fun w => decide (w.1 = r) && moves ied w := by
  obtain ⟨w₀, hw₀, rfl⟩ := hr
  have hval : IsStVal w₀.1 := by
    obtain ⟨c, -, hw⟩ := List.mem_flatMap.mp hw₀
    exact (statuses_spec hw).1
  rw [stagedWrites, statusesOf, List.filter_flatMap, List.filter_flatMap]
  apply List.flatMap_congr
  intro c hc
  have hmoves : ∀ w ∈ c.call.statuses, moves c.seen w = moves ied w :=
    fun w hw => moves_seen h hseen hc hw
  obtain ⟨call, seen⟩ := c
  cases call with
  | set r v =>
    have hne : r ≠ w₀.1 := by
      intro hr
      exact h.apart _ hc r v rfl w₀ hw₀ (hr ▸ List.mem_cons_self)
    simp [Staged.writes, TxnCall.statuses, hne]
  | supervise node status now =>
    have hws : ∀ w ∈ status.writes node, IsStVal w.1 := fun w hw => (writes_spec hw).1
    change ((supervisionWrites seen now (status.writes node)).filter fun w => w.1 = w₀.1) = _
    rw [filter_supervisionWrites hws hval]
    apply List.filter_congr
    intro w hw
    rw [hmoves w hw]

variable {w₀ : Reference × Value} {v : Value}

theorem moves_of_stamp (hw₀ : w₀ ∈ statusesOf cs) {u : Reference × Value} (hu : u ∈ stagedWrites cs)
    (hx : u.1 ∈ stamps w₀.1) : ∃ w ∈ statusesOf cs, w.1 = w₀.1 ∧ moves ied w = true := by
  obtain ⟨c₀, hc₀, hw₀'⟩ := List.mem_flatMap.mp hw₀
  have hval := (statuses_spec hw₀').1
  obtain ⟨c, hc, hu⟩ := List.mem_flatMap.mp hu
  have hmoves : ∀ w ∈ c.call.statuses, moves c.seen w = moves ied w :=
    fun w hw => moves_seen h hseen hc hw
  have hmem : ∀ w ∈ c.call.statuses, w ∈ statusesOf cs :=
    fun w hw => List.mem_flatMap.mpr ⟨c, hc, hw⟩
  obtain ⟨call, seen⟩ := c
  cases call with
  | set r v =>
    rw [List.mem_singleton.mp hu] at hx
    exact absurd (List.mem_cons_of_mem _ hx) (h.apart _ hc r v rfl w₀ hw₀)
  | supervise node status now =>
    change u ∈ supervisionWrites seen now (status.writes node) at hu
    rw [supervisionWrites_eq] at hu
    obtain ⟨w, hw, hu⟩ := List.mem_flatMap.mp hu
    have hwval := (writes_spec hw).1
    split at hu
    case isFalse => cases hu
    case isTrue hmove =>
      rcases List.mem_append.mp hu with hu | hu
      · have hstamp := mem_qualityAndTime (List.mem_filter.mp hu).1
        refine ⟨w, hmem w hw, eq_of_mem_stamps hwval hval hstamp hx, ?_⟩
        rw [← hmoves w hw]
        exact hmove
      · rw [List.mem_singleton.mp hu] at hx
        exact absurd rfl (stamps_ne hval hwval hx)

/-- Beside a value that moves, the stamps are staged that the model has. -/
theorem stamp_of_moves {w : Reference × Value} (hw : w ∈ statusesOf cs)
    (hmoves : moves ied w = true) {x : Reference} (hx : x ∈ stamps w.1)
    (hsome : (ied.values x).isSome = true) :
    ∃ u ∈ stagedWrites cs, u.1 = x ∧ ied.takes x u.2 = true := by
  obtain ⟨c, hc, hwc⟩ := List.mem_flatMap.mp hw
  have hmove := moves_seen h hseen hc hwc
  have hkept := (hseen c hc).2.isSome (hseen c hc).1 x
  have hvalue : (ied.values w.1).isSome = true := ((moves_iff (statuses_spec hwc).2).mp hmoves).1
  have hin : ∀ u ∈ c.writes, u ∈ stagedWrites cs := fun u hu => List.mem_flatMap.mpr ⟨c, hc, hu⟩
  obtain ⟨call, seen⟩ := c
  cases call with
  | set r v => cases hwc
  | supervise node status now =>
    obtain ⟨v, hv⟩ := exists_qualityAndTime hx now
    refine ⟨(x, v), hin _ ?_, rfl, (h.typed w hw now (x, v) hv hvalue hsome).2⟩
    change (x, v) ∈ supervisionWrites seen now (status.writes node)
    rw [supervisionWrites_eq]
    refine List.mem_flatMap.mpr ⟨w, hwc, ?_⟩
    dsimp only at hmove hkept
    rw [hmove, hmoves, if_pos rfl]
    exact List.mem_append_left _ (List.mem_filter.mpr ⟨hv, hkept.symm.trans hsome⟩)

omit hseen in
theorem not_staged {r : Reference} (hlast : lastOf (statusesOf cs) r = some v)
    (hheld : ied.values r = some v) : ∀ w ∈ statusesOf cs, w.1 = r → moves ied w = false := by
  intro w hw hwr
  obtain ⟨c, -, hwc⟩ := List.mem_flatMap.mp hw
  rw [← Bool.not_eq_true, moves_iff (statuses_spec hwc).2, hwr, hheld,
    h.settled r v hlast hheld w hw hwr]
  exact fun hmoves => hmoves.2 rfl

theorem untouched (hw₀ : w₀ ∈ statusesOf cs)
    (hstill : ∀ w ∈ statusesOf cs, w.1 = w₀.1 → moves ied w = false) :
    ∀ x ∈ w₀.1 :: stamps w₀.1, ∀ u ∈ stagedWrites cs, u.1 ≠ x := by
  intro x hx u hu hux
  rcases List.mem_cons.mp hx with rfl | hx
  · have hfilter := filter_stagedWrites h hseen ⟨w₀, hw₀, rfl⟩
    have hmem : u ∈ (stagedWrites cs).filter fun w => w.1 = w₀.1 :=
      List.mem_filter.mpr ⟨hu, decide_eq_true hux⟩
    rw [hfilter, List.mem_filter, Bool.and_eq_true, decide_eq_true_eq] at hmem
    have hnot := hstill u hmem.1 hmem.2.1
    rw [hmem.2.2] at hnot
    cases hnot
  · rw [← hux] at hx
    obtain ⟨w, hw, hwr, hmoves⟩ := moves_of_stamp h hseen hw₀ hu hx
    have hnot := hstill w hw hwr
    rw [hmoves] at hnot
    cases hnot

/-- The value of an object after all writes: the last that moves it and that its type accepts. -/
theorem values_staged (hw₀ : w₀ ∈ statusesOf cs) : (writeAll ied (stagedWrites cs)).values w₀.1 =
      ((((statusesOf cs).filter fun w => decide (w.1 = w₀.1) && moves ied w).filter fun w =>
        ied.takes w₀.1 w.2).getLast?.map (·.2)).or (ied.values w₀.1) := by
  have hfilter := filter_stagedWrites h hseen ⟨w₀, hw₀, rfl⟩
  have hswap : ((stagedWrites cs).filter fun w => ied.takes w.1 w.2).filter (fun w => w.1 = w₀.1) =
      ((stagedWrites cs).filter fun w => w.1 = w₀.1).filter fun w => ied.takes w₀.1 w.2 := by
    rw [List.filter_filter, List.filter_filter]
    apply List.filter_congr
    intro w _
    by_cases hw : w.1 = w₀.1
    · simp [hw]
    · simp [hw]
  rw [values_writeAll, lastOf, hswap, hfilter]

theorem holds_staged (htyped : ied.Typed) {r : Reference}
    (hlast : lastOf (statusesOf cs) r = some v) (htakes : ied.takes r v = true) :
    (writeAll ied (stagedWrites cs)).values r = some v := by
  obtain ⟨w, hgetLast, rfl⟩ := Option.map_eq_some_iff.mp hlast
  obtain ⟨before, hbefore⟩ := List.getLast?_eq_some_iff.mp hgetLast
  have hmem : w ∈ (statusesOf cs).filter fun w => w.1 = r := by
    rw [hbefore]
    exact List.mem_append_right _ (List.mem_singleton.mpr rfl)
  obtain ⟨hw, hwr⟩ := List.mem_filter.mp hmem
  have hwr := of_decide_eq_true hwr
  subst hwr
  have hscalar : Scalar w.2 := by
    obtain ⟨c, -, hwc⟩ := List.mem_flatMap.mp hw
    exact (statuses_spec hwc).2
  have hboth : ((statusesOf cs).filter fun u => decide (u.1 = w.1) && moves ied u) =
      (before ++ [w]).filter (moves ied) := by
    rw [← hbefore, List.filter_filter]
    apply List.filter_congr
    intro u _
    exact Bool.and_comm _ _
  rw [values_staged h hseen hw, hboth]
  by_cases hheld : ied.values w.1 = some w.2
  · have hstill : ((before ++ [w]).filter (moves ied)) = [] := by
      rw [List.filter_eq_nil_iff, ← hbefore]
      intro u hu
      obtain ⟨hu, hur⟩ := List.mem_filter.mp hu
      rw [not_staged h hlast hheld u hu (of_decide_eq_true hur)]
      exact Bool.false_ne_true
    rw [hstill, hheld]
    rfl
  · have hsome : (ied.values w.1).isSome = true := by
      rw [LeafStore.takes] at htakes
      split at htakes
      case h_1 btype hleaf =>
        obtain ⟨current, hcurrent, -⟩ := htyped w.1 btype hleaf
        rw [hcurrent]
        rfl
      case h_2 => cases htakes
    have hmoves : moves ied w = true := (moves_iff hscalar).mpr ⟨hsome, hheld⟩
    simp [hmoves, htakes]

/-- The stamps of an object that the model has are written exactly when its value is changed. -/
theorem stamped_iff (hw₀ : w₀ ∈ statusesOf cs) {x : Reference} (hx : x ∈ stamps w₀.1)
    (hsome : (ied.values x).isSome = true) :
    (∃ u ∈ stagedWrites cs, u.1 = x ∧ ied.takes x u.2 = true) ↔
      (writeAll ied (stagedWrites cs)).values w₀.1 ≠ ied.values w₀.1 := by
  by_cases hmove : ∃ w ∈ statusesOf cs, w.1 = w₀.1 ∧ moves ied w = true
  · obtain ⟨w, hw, hwr, hmoves⟩ := hmove
    refine iff_of_true (stamp_of_moves h hseen hw hmoves (hwr ▸ hx) hsome) ?_
    have hall : ∀ u ∈ (statusesOf cs).filter fun u => decide (u.1 = w₀.1) && moves ied u,
        ied.takes w₀.1 u.2 = true ∧ ied.values w₀.1 ≠ some u.2 := by
      intro u hu
      obtain ⟨hu, hur⟩ := List.mem_filter.mp hu
      rw [Bool.and_eq_true, decide_eq_true_eq] at hur
      obtain ⟨c, -, huc⟩ := List.mem_flatMap.mp hu
      obtain ⟨hvalue, hne⟩ := (moves_iff (statuses_spec huc).2).mp hur.2
      obtain ⟨v, hv⟩ := exists_qualityAndTime (hur.1.symm ▸ hx) ⟨0, 0, .synchronized⟩
      rw [← hur.1]
      exact ⟨(h.typed u hu _ (x, v) hv hvalue hsome).1, hne⟩
    rw [values_staged h hseen hw₀, List.filter_eq_self.mpr fun u hu => (hall u hu).1]
    have hin : w ∈ (statusesOf cs).filter fun u => decide (u.1 = w₀.1) && moves ied u :=
      List.mem_filter.mpr ⟨hw, by simp [hwr, hmoves]⟩
    obtain ⟨u, hu⟩ := Option.isSome_iff_exists.mp
      (List.getLast?_isSome.mpr (List.ne_nil_of_mem hin))
    have hmem := List.mem_of_getLast? hu
    rw [hu]
    exact fun heq => (hall u hmem).2 heq.symm
  · have hstill : ∀ w ∈ statusesOf cs, w.1 = w₀.1 → moves ied w = false := by
      intro w hw hwr
      rw [← Bool.not_eq_true]
      exact fun hmoves => hmove ⟨w, hw, hwr, hmoves⟩
    have huntouched := untouched h hseen hw₀ hstill
    refine iff_of_false ?_ ?_
    · rintro ⟨u, hu, hux, -⟩
      exact huntouched x (List.mem_cons_of_mem _ hx) u hu hux
    · rw [not_not, values_writeAll, lastOf, List.filter_eq_nil_iff.mpr]
      · rfl
      · intro u hu
        have hne := huntouched w₀.1 List.mem_cons_self u (List.mem_filter.mp hu).1
        simpa using hne

end Commit

/-! ### Runs -/

theorem foldl_writes_ied (a : Acsi) (ws : List (Reference × Value)) :
    (ws.foldl (fun a w => a.perform (.write w.1 w.2)) a).control.ied =
      writeAll a.control.ied ws := by
  induction ws generalizing a with
  | nil => rfl
  | cons w ws ih => exact ih _

theorem transaction_values (a : Acsi) (ws : List (Reference × Value)) (now : Now) :
    (a.next (.transaction ws now)).control.ied.values = (writeAll a.control.ied ws).values := by
  rw [Acsi.next]
  cases ws with
  | nil => rfl
  | cons w ws =>
    rw [if_neg (by simp), Acsi.commit_ied, foldl_writes_ied]

theorem commit_supervised {a : Acsi} {cs : List Staged} (htyped : a.control.ied.Typed)
    (hseen : ∀ c ∈ cs, c.seen.Typed ∧ Overwritten c.seen a.control.ied)
    (h : Undisturbed a.control.ied cs) (now : Now) :
    Supervised a cs (a.next (.transaction (stagedWrites cs) now)) := by
  refine ⟨?_, ?_, ?_, ?_⟩
  · intro r v hlast htakes
    rw [transaction_values]
    exact holds_staged h hseen htyped hlast htakes
  · intro w hw x hx hsome
    rw [transaction_values]
    exact stamped_iff h hseen hw hx hsome
  · intro r v hlast hheld x hx
    obtain ⟨w, hgetLast, rfl⟩ := Option.map_eq_some_iff.mp hlast
    obtain ⟨hw, hwr⟩ := List.mem_filter.mp (List.mem_of_getLast? hgetLast)
    have hwr := of_decide_eq_true hwr
    subst hwr
    have hstill := not_staged h hlast hheld
    exact dirty_writeAll (untouched h hseen hw hstill x hx) a.control.ied
  · intro hquiet
    have hnone : stagedWrites cs = [] := by
      rw [stagedWrites, List.flatMap_eq_nil_iff]
      intro c hc
      obtain ⟨hset, hheld⟩ := hquiet c hc
      have hstill : ∀ w ∈ c.call.statuses, moves c.seen w = false := by
        intro w hw
        rw [moves_seen h hseen hc hw, ← Bool.not_eq_true, moves_iff (statuses_spec hw).2]
        rintro ⟨hsome, hne⟩
        rcases hheld w hw with hsame | hnone
        · exact hne hsame
        · rw [hnone] at hsome
          cases hsome
      obtain ⟨call, seen⟩ := c
      cases call with
      | set r v => exact absurd rfl (hset r v)
      | supervise node status now =>
        change supervisionWrites seen now (status.writes node) = []
        rw [supervisionWrites_eq, List.flatMap_eq_nil_iff]
        intro w hw
        rw [hstill w hw]
        rfl
    rw [hnone]
    rfl

namespace Shared

/-- What the calls have seen has been written over since. -/
structure Consistent (s : Shared) : Prop where
  typed : s.acsi.control.ied.Typed
  seen : ∀ k, ∀ c ∈ s.txns k, c.seen.Typed ∧ Overwritten c.seen s.acsi.control.ied

theorem Consistent.next {s : Shared} (h : s.Consistent) (e : TxnEvent) : (s.next e).Consistent := by
  cases e with
  | call k c =>
    refine ⟨h.typed, ?_⟩
    intro j c' hc'
    change c' ∈ Function.update s.txns k (s.txns k ++ [⟨c, s.acsi.control.ied⟩]) j at hc'
    by_cases hj : j = k
    · subst hj
      rw [Function.update_self] at hc'
      rcases List.mem_append.mp hc' with hc' | hc'
      · exact h.seen j c' hc'
      · rw [List.mem_singleton.mp hc']
        exact ⟨h.typed, .refl _⟩
    · rw [Function.update_of_ne hj] at hc'
      exact h.seen j c' hc'
  | commit k now =>
    have hwritten := s.acsi.next_written (.transaction (stagedWrites (s.txns k)) now)
    refine ⟨hwritten.typed h.typed, ?_⟩
    intro j c' hc'
    change c' ∈ Function.update s.txns k [] j at hc'
    by_cases hj : j = k
    · subst hj
      rw [Function.update_self] at hc'
      cases hc'
    · rw [Function.update_of_ne hj] at hc'
      obtain ⟨hseen, hover⟩ := h.seen j c' hc'
      exact ⟨hseen, hover.trans hwritten⟩
  | loop x =>
    have hwritten := s.acsi.next_written x
    refine ⟨hwritten.typed h.typed, ?_⟩
    intro j c' hc'
    obtain ⟨hseen, hover⟩ := h.seen j c' hc'
    exact ⟨hseen, hover.trans hwritten⟩

/-- In every run of the server, with transactions of several threads at once, from when none is
open: when every transaction that is committed is undisturbed, every commit leaves the last status
of each object, stamps what it changes and nothing else, and marks nothing for a status that the
model has already. -/
theorem run_supervised {s : Shared} (hnone : ∀ k, s.txns k = [])
    (htyped : s.acsi.control.ied.Typed) {es : List TxnEvent} (hcalm : Meets step Calm s es) :
    Meets step Supervises s es := by
  have hstart : s.Consistent := by
    refine ⟨htyped, ?_⟩
    intro k c hc
    rw [hnone k] at hc
    cases hc
  refine invariant_meets ?_ ?_ hstart hcalm
  · rintro s e s' hs - hstep
    cases hstep
    exact hs.next e
  · intro s e hs hcalm k now he
    rw [he]
    exact commit_supervised hs.typed (hs.seen k) (hcalm k now he) now

/-! ### Two statuses in one transaction -/

/-- A logical node that supervises a subscription. -/
def lgos : Reference := ⟨ascii "LD0", [ascii "LGOS1"]⟩

def stReference : Reference := stValOf lgos (ascii "St")

/-- The subscription is not live, and nothing else is declared. -/
def lgosStore : Store where
  node r :=
    if r = stReference then some (.leaf .boolean)
    else if r = besides stReference (ascii "q") then some (.leaf .quality)
    else if r = besides stReference (ascii "t") then some (.leaf .timestamp)
    else none
  values r :=
    if r = stReference then some (.boolean false)
    else if r = besides stReference (ascii "q") then some (qualityValue .allGood)
    else if r = besides stReference (ascii "t") then some (.utcTime ⟨0, 0, .synchronized⟩)
    else none
  dirty _ := none

/-- A server of this node, and no open transaction. -/
def lgosServer : Shared := ⟨{ Acsi.switchServer with control := ⟨.new, lgosStore⟩ }, fun _ => []⟩

theorem lgosStore_typed : lgosStore.Typed := by
  intro r btype hr
  by_cases hvalue : r = stReference
  · subst hvalue
    cases hr
    exact ⟨.boolean false, rfl, rfl⟩
  · by_cases hquality : r = besides stReference (ascii "q")
    · subst hquality
      cases hr
      exact ⟨qualityValue .allGood, rfl, rfl⟩
    · by_cases htime : r = besides stReference (ascii "t")
      · subst htime
        cases hr
        exact ⟨.utcTime ⟨0, 0, .synchronized⟩, rfl, rfl⟩
      · simp [lgosStore, hvalue, hquality, htime] at hr

/-- The status of a subscription that is live or not, and nothing else. -/
def liveness (live : Bool) : TxnCall :=
  .supervise lgos ⟨live, false, false, none, none, none⟩ ⟨1, 0, .synchronized⟩

theorem statusesOf_liveness : statusesOf [⟨liveness true, lgosStore⟩] =
    [(stReference, .boolean true), (stValOf lgos (ascii "NdsCom"), .boolean false),
      (stValOf lgos (ascii "SimSt"), .boolean false)] := rfl

theorem undisturbed_live : Undisturbed lgosStore [⟨liveness true, lgosStore⟩] := by
  refine ⟨?_, ?_, ?_, ?_⟩
  · intro c hc w _
    rw [List.mem_singleton.mp hc]
  · intro r v hlast _ w hw hwr
    subst hwr
    rw [statusesOf_liveness] at hlast hw
    simp only [List.mem_cons, List.not_mem_nil, or_false] at hw
    rcases hw with rfl | rfl | rfl
    · exact Option.some.inj hlast
    · exact Option.some.inj hlast
    · exact Option.some.inj hlast
  · intro c hc r v hset
    rw [List.mem_singleton.mp hc] at hset
    cases hset
  · intro w hw now p hp hvalue _
    rw [statusesOf_liveness] at hw
    simp only [List.mem_cons, List.not_mem_nil, or_false] at hw
    rcases hw with rfl | rfl | rfl
    · refine ⟨rfl, ?_⟩
      simp only [qualityAndTime, List.mem_cons, List.not_mem_nil, or_false] at hp
      rcases hp with rfl | rfl
      · rfl
      · rfl
    · cases hvalue
    · cases hvalue

theorem run_supervised_live : Meets step Supervises lgosServer
      [.call 1 (liveness true), .commit 1 ⟨0, ⟨2, 0, .synchronized⟩⟩] := by
  refine run_supervised (fun _ => rfl) lgosStore_typed ⟨?_, ?_⟩
  · intro k now he
    cases he
  · intro s' hs'
    cases hs'
    refine ⟨?_, fun _ _ => trivial⟩
    intro k now he
    cases he
    exact undisturbed_live

/-- The status that the model had at first is staged last, and it is dropped. -/
theorem last_status_dropped :
    ¬ ∀ (s : Shared) (es : List TxnEvent), (∀ k, s.txns k = []) → s.acsi.control.ied.Typed →
      Meets step Supervises s es := by
  intro h
  have hrun := h lgosServer [.call 1 (liveness true), .call 1 (liveness false),
    .commit 1 ⟨0, ⟨2, 0, .synchronized⟩⟩] (fun _ => rfl) lgosStore_typed
  have hcommit := (((hrun.2 _ rfl).2 _ rfl).1 1 _ rfl).holds stReference (.boolean false) rfl rfl
  cases hcommit

end Shared

end Iec61850.Server
