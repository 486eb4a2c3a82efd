import Iec61850.Mms.AssociationRuns
import Iec61850.Mms.Outgoing
import Iec61850.Theory.History

/-!
# The outbound queue of an association

Reports and command terminations reach a client through a bounded queue: any thread that holds
the lock dispatches into it, and the connection thread drains it once in each round of its loop.
A PDU that finds no room marks the association as stalled, and the connection thread closes it
when it next looks at the mark, at the end of a round. Every step below is one operation of one
thread, so a run is an interleaving.
-/

namespace Iec61850.Server

open Theory Mms

/-- Where the connection thread is in the loop of `serve`. -/
inductive Stage where
  | reading
  | polling
  | working
  | flushing
  | checking
  | left
  deriving DecidableEq, Repr

/-- One association as the server's threads share it: its `Outbound` (`queue`, `capacity`,
`stalled`), whether `Shared::outbound` lists it and the receiver lives, and the locals of
`serve`. The last four are what has happened so far, for statements to speak of: the packets
written on the socket, the PDUs that found room, those the association took off the queue, each
with the number of packets ahead of its end, and whether it refused one. -/
structure Connection where
  assoc : Association
  queue : List Bytes
  capacity : Nat
  stalled : Bool
  listed : Bool
  attached : Bool
  stage : Stage
  requests : List (Int × Bytes)
  closed : Bool
  written : List Bytes
  admitted : List Bytes
  taken : List (Bytes × Nat)
  refused : Bool

namespace Connection

/-- What a thread can do: those under the lock dispatch a PDU, the connection thread goes through
its loop, and the network decides what a read or a write of the socket gives. -/
inductive Action where
  | dispatch (pdu : Bytes)
  | receive (now : Instant) (octets : Bytes)
  | idle (now : Instant)
  | hangUp
  | poll
  | answer (encoded : Option Bytes)
  | drain
  | write (sent : Bool)
  | check
  | remove

/-- The association `accept_one` hands to its thread. -/
def opened (cfg : AssociationConfig) (outboundQueue : Nat) : Connection where
  assoc := Association.server cfg
  queue := []
  capacity := max outboundQueue 1
  stalled := false
  listed := true
  attached := true
  stage := .reading
  requests := []
  closed := false
  written := []
  admitted := []
  taken := []
  refused := false

/-- `try_send` has room: the receiver lives and the queue is not full. -/
def room (c : Connection) : Bool := c.attached && decide (c.queue.length < c.capacity)

/-- `Outbound::send`. -/
def send (pdu : Bytes) (c : Connection) : Connection :=
  if c.room then { c with queue := c.queue ++ [pdu], admitted := c.admitted ++ [pdu] }
  else { c with stalled := true }

/-- `dispatch`, for one PDU: an association that is not listed is passed over. -/
def dispatch (pdu : Bytes) (c : Connection) : Connection := if c.listed then c.send pdu else c

/-- A PDU off the queue, handed to the association: `send_encoded`, the result ignored. -/
def hand (pdu : Bytes) (c : Connection) : Connection :=
  match Association.sendEncoded pdu c.assoc with
  | (assoc, .ok ()) =>
    { c with assoc, taken := c.taken ++ [(pdu, c.written.length + assoc.out.length)] }
  | (assoc, .error _) => { c with assoc, refused := true }

/-- What an event means to the loop: a request is kept for later, a close ends the round. -/
def onEvent (event : AssociationEvent) (c : Connection) : Connection :=
  match event with
  | .request invokeId pdu => { c with requests := c.requests ++ [(invokeId, pdu)] }
  | .closed _ => { c with closed := true }
  | _ => c

/-- One step; `none` where the thread is elsewhere in its loop. A panic inside `on_bytes` drops
the receiver and unwinds past the removal from `Shared::outbound`. -/
def next (c : Connection) : Action → Option Connection
  | .dispatch pdu => some (c.dispatch pdu)
  | .receive now octets =>
    if c.stage = .reading then
      match Association.onBytes now octets c.assoc with
      | some assoc => some { c with assoc, stage := .polling, requests := [], closed := false }
      | none => some { c with stage := .left, attached := false }
    else none
  | .idle now =>
    if c.stage = .reading then
      some { c with
        assoc := Association.onTimeout now c.assoc
        stage := .polling
        requests := []
        closed := false }
    else none
  | .hangUp => if c.stage = .reading then some { c with stage := .left } else none
  | .poll =>
    if c.stage = .polling then
      match c.assoc.pollEvent with
      | (some event, assoc) => some (onEvent event { c with assoc })
      | (none, assoc) => some { c with assoc, stage := .working }
    else none
  | .answer encoded =>
    if c.stage = .working then
      match c.requests, encoded with
      | [], _ => none
      | _ :: requests, none => some { c with requests }
      | _ :: requests, some pdu =>
        some { c with requests, assoc := (Association.sendEncoded pdu c.assoc).1 }
    else none
  | .drain =>
    if c.stage = .working ∧ c.requests = [] then
      match c.queue with
      | [] => some { c with stage := if c.listed then .flushing else .left }
      | pdu :: queue => some (hand pdu { c with queue })
    else none
  | .write sent =>
    if c.stage = .flushing then
      match c.assoc.pollTransmit with
      | (none, assoc) => some { c with assoc, stage := .checking }
      | (some packet, assoc) =>
        -- What a failed write leaves of the association is dropped with it.
        if sent then some { c with assoc, written := c.written ++ [packet] }
        else some { c with stage := .left }
    else none
  | .check =>
    if c.stage = .checking then
      some { c with stage := if c.closed || c.stalled then .left else .reading }
    else none
  | .remove =>
    if c.stage = .left ∧ c.attached ∧ c.listed then some { c with listed := false } else none

/-! ### What a client is sent -/

/-- The PDU an action dispatches to the association. -/
def Action.pdus : Action → List Bytes
  | .dispatch pdu => [pdu]
  | _ => []

/-- The PDUs a list of actions dispatches to the association, in order. -/
def dispatched (is : List Action) : List Bytes := is.flatMap Action.pdus

/-- The dispatched PDUs that were transmitted: all their packets are on the socket. -/
def transmitted (c : Connection) : List Bytes :=
  (c.taken.filter (fun t => decide (t.2 ≤ c.written.length))).map Prod.fst

/-- A PDU dispatched now is queued. -/
def admits (c : Connection) : Bool := c.listed && c.room

/-- The association takes a PDU that is handed to it now. -/
def takes (c : Connection) (pdu : Bytes) : Bool :=
  match (Association.sendEncoded pdu c.assoc).2 with
  | .ok () => true
  | .error _ => false

/-- No gap is papered over: once a PDU found no room none is queued behind it, and once the
association refused one off the queue it refuses the next. -/
def Unbroken (c : Connection) : Action → Prop
  | .dispatch _ => c.stalled = true → c.admits = false
  | .drain => c.refused = true → ∀ pdu ∈ c.queue.head?, c.takes pdu = false
  | _ => True

instance Unbroken.decidable (c : Connection) : ∀ i, Decidable (c.Unbroken i)
  | .dispatch _ => inferInstanceAs (Decidable (_ → _))
  | .drain => inferInstanceAs (Decidable (_ → _))
  | .receive _ _ | .idle _ | .hangUp | .poll | .answer _ | .write _ | .check | .remove =>
    inferInstanceAs (Decidable True)

/-! ### What a step can do -/

/-- A step that hands nothing to the association leaves alone what reaches it from the queue, may
take the association off the list, and withdraws no packet. -/
structure Elsewhere (c c' : Connection) : Prop where
  queue : c'.queue = c.queue
  stalled : c'.stalled = c.stalled
  listed : c'.listed = true → c.listed = true
  admitted : c'.admitted = c.admitted
  taken : c'.taken = c.taken
  refused : c'.refused = c.refused
  packets : c.written.length + c.assoc.out.length ≤ c'.written.length + c'.assoc.out.length

theorem hand_of_takes {c : Connection} {pdu : Bytes} (h : c.takes pdu = true) :
    ∃ assoc, c.assoc.out <+: assoc.out ∧ hand pdu c =
      { c with assoc, taken := c.taken ++ [(pdu, c.written.length + assoc.out.length)] } := by
  have hkeeps := Association.sendEncoded_keeps pdu c.assoc
  unfold takes at h
  unfold hand
  cases hsent : Association.sendEncoded pdu c.assoc with
  | mk assoc r =>
    rw [hsent] at hkeeps h
    cases r with
    | error e => cases h
    | ok u => exact ⟨assoc, hkeeps, rfl⟩

theorem hand_of_not_takes {c : Connection} {pdu : Bytes} (h : c.takes pdu = false) :
    ∃ assoc, c.assoc.out <+: assoc.out ∧ hand pdu c = { c with assoc, refused := true } := by
  have hkeeps := Association.sendEncoded_keeps pdu c.assoc
  unfold takes at h
  unfold hand
  cases hsent : Association.sendEncoded pdu c.assoc with
  | mk assoc r =>
    rw [hsent] at hkeeps h
    cases r with
    | error e => exact ⟨assoc, hkeeps, rfl⟩
    | ok u => cases h

variable {c c' : Connection} {i : Action} {D : List Bytes} {is : List Action}

theorem pollEvent_elsewhere {event : Option AssociationEvent} {assoc : Association}
    (h : c.assoc.pollEvent = (event, assoc)) : assoc.out = c.assoc.out := by
  have hout := Association.out_pollEvent c.assoc
  rwa [h] at hout

theorem onEvent_elsewhere (event : AssociationEvent) (c : Connection) :
    Elsewhere c (onEvent event c) := by
  unfold onEvent
  split
  all_goals exact ⟨rfl, rfl, id, rfl, rfl, rfl, Nat.le_refl _⟩

/-- Only the drain hands a PDU to the association, and only a dispatch queues one. -/
theorem next_elsewhere (h : c.next i = some c') (hdispatch : ∀ pdu, i ≠ .dispatch pdu) :
    Elsewhere c c' ∨
      ∃ pdu queue, i = .drain ∧ c.queue = pdu :: queue ∧ c' = hand pdu { c with queue } := by
  cases i with
  | dispatch pdu => exact absurd rfl (hdispatch pdu)
  | receive now octets =>
    left
    simp only [next] at h
    split at h
    · split at h
      · rename_i assoc hbytes
        cases h
        exact ⟨rfl, rfl, id, rfl, rfl, rfl,
          Nat.add_le_add_left (Association.onBytes_keeps hbytes).length_le _⟩
      · cases h
        exact ⟨rfl, rfl, id, rfl, rfl, rfl, Nat.le_refl _⟩
    · cases h
  | idle now =>
    left
    simp only [next] at h
    split at h
    · cases h
      refine ⟨rfl, rfl, id, rfl, rfl, rfl, ?_⟩
      simp only [Association.onTimeout_keeps, Nat.le_refl]
    · cases h
  | hangUp =>
    left
    simp only [next] at h
    split at h
    · cases h
      exact ⟨rfl, rfl, id, rfl, rfl, rfl, Nat.le_refl _⟩
    · cases h
  | poll =>
    left
    simp only [next] at h
    split at h
    · split at h
      · rename_i event assoc hpoll
        cases h
        have hout := pollEvent_elsewhere hpoll
        obtain ⟨hqueue, hstalled, hlisted, hadmitted, htaken, hrefused, hpackets⟩ :=
          onEvent_elsewhere event { c with assoc }
        refine ⟨hqueue, hstalled, hlisted, hadmitted, htaken, hrefused, ?_⟩
        simpa only [hout] using hpackets
      · rename_i assoc hpoll
        cases h
        refine ⟨rfl, rfl, id, rfl, rfl, rfl, ?_⟩
        simp only [pollEvent_elsewhere hpoll, Nat.le_refl]
    · cases h
  | answer encoded =>
    left
    simp only [next] at h
    split at h
    · split at h
      · cases h
      · cases h
        exact ⟨rfl, rfl, id, rfl, rfl, rfl, Nat.le_refl _⟩
      · rename_i pdu _
        cases h
        exact ⟨rfl, rfl, id, rfl, rfl, rfl,
          Nat.add_le_add_left (Association.sendEncoded_keeps pdu c.assoc).length_le _⟩
    · cases h
  | drain =>
    simp only [next] at h
    split at h
    · split at h
      · cases h
        exact Or.inl ⟨rfl, rfl, id, rfl, rfl, rfl, Nat.le_refl _⟩
      · rename_i pdu queue hqueue
        cases h
        exact Or.inr ⟨pdu, queue, rfl, hqueue, rfl⟩
    · cases h
  | write sent =>
    left
    simp only [next] at h
    split at h
    · unfold Association.pollTransmit at h
      cases hout : c.assoc.out with
      | nil =>
        simp only [hout] at h
        cases h
        exact ⟨rfl, rfl, id, rfl, rfl, rfl, Nat.le_refl _⟩
      | cons packet rest =>
        simp only [hout] at h
        split at h
        · cases h
          refine ⟨rfl, rfl, id, rfl, rfl, rfl, ?_⟩
          simp only [hout, List.length_cons, List.length_append, List.length_nil]
          omega
        · cases h
          exact ⟨rfl, rfl, id, rfl, rfl, rfl, Nat.le_refl _⟩
    · cases h
  | check =>
    left
    simp only [next] at h
    split at h
    · cases h
      exact ⟨rfl, rfl, id, rfl, rfl, rfl, Nat.le_refl _⟩
    · cases h
  | remove =>
    left
    simp only [next] at h
    split at h
    · rename_i hstage
      cases h
      exact ⟨rfl, rfl, fun _ => hstage.2.2, rfl, rfl, rfl, Nat.le_refl _⟩
    · cases h

theorem dispatch_of_admits (pdu : Bytes) (h : c.admits = true) : c.dispatch pdu =
      { c with queue := c.queue ++ [pdu], admitted := c.admitted ++ [pdu] } := by
  obtain ⟨hlisted, hroom⟩ := Bool.and_eq_true_iff.mp h
  rw [dispatch, if_pos hlisted, send, if_pos hroom]

/-- A PDU that is not queued leaves a mark, unless nothing is sent on the association any more. -/
theorem dispatch_of_not_admits (pdu : Bytes) (h : c.admits = false) :
    c.dispatch pdu = { c with stalled := c.stalled || c.listed } := by
  unfold dispatch
  by_cases hlisted : c.listed = true
  · have hroom : ¬ c.room = true := by
      intro hroom
      rw [admits, hlisted, hroom] at h
      cases h
    rw [if_pos hlisted, send, if_neg hroom, hlisted, Bool.or_true]
  · rw [if_neg hlisted, Bool.eq_false_iff.mpr hlisted, Bool.or_false, ← Bool.eq_false_iff.mpr hlisted]

/-! ### Nothing is queued behind a gap -/

/-- Something dispatched was not queued. -/
def Gapped (c : Connection) : Prop := c.stalled = true ∨ c.listed = false

theorem gapped_dispatch (pdu : Bytes) (h : c.admits = false) : (c.dispatch pdu).Gapped := by
  rw [dispatch_of_not_admits pdu h]
  cases hlisted : c.listed with
  | true => exact Or.inl (by simp)
  | false => exact Or.inr rfl

/-- How far the PDUs `D` dispatched so far have come: a first part of them was queued, all of them
while there is no gap, and a first part of what left the queue was taken, all of it while nothing
was refused. -/
structure Ordered (D : List Bytes) (c : Connection) : Prop where
  admitted : c.admitted <+: D
  current : ¬ c.Gapped → c.admitted = D
  drained : ∃ out, c.admitted = out ++ c.queue ∧ c.taken.map Prod.fst <+: out ∧
    (c.refused = false → c.taken.map Prod.fst = out)

theorem Elsewhere.gapped (h : Elsewhere c c') (hgap : c.Gapped) : c'.Gapped := by
  rcases hgap with hstalled | hlisted
  · left
    rw [h.stalled, hstalled]
  · right
    rw [Bool.eq_false_iff] at hlisted ⊢
    exact fun hlisted' => hlisted (h.listed hlisted')

theorem Elsewhere.ordered (h : Elsewhere c c') (ho : Ordered D c) : Ordered D c' := by
  obtain ⟨hadmitted, hcurrent, hdrained⟩ := ho
  constructor
  · rw [h.admitted]
    exact hadmitted
  · intro hgap
    rw [h.admitted]
    exact hcurrent fun hgap' => hgap (h.gapped hgap')
  · rw [h.admitted, h.queue, h.taken, h.refused]
    exact hdrained

theorem Ordered.hand {pdu : Bytes} {queue : List Bytes} (ho : Ordered D c)
    (hqueue : c.queue = pdu :: queue) (hC : c.refused = true → c.takes pdu = false) :
    Ordered D (hand pdu { c with queue }) := by
  obtain ⟨hadmitted, hcurrent, out, hout, htaken, hall⟩ := ho
  have hout' : c.admitted = (out ++ [pdu]) ++ queue := by
    rw [hout, hqueue, List.append_assoc, List.singleton_append]
  by_cases htakes : c.takes pdu = true
  · have hrefused : c.refused = false := by
      rw [Bool.eq_false_iff]
      intro hrefused
      rw [hC hrefused] at htakes
      cases htakes
    obtain ⟨assoc, -, heq⟩ := @hand_of_takes { c with queue } pdu htakes
    rw [heq]
    refine ⟨hadmitted, hcurrent, out ++ [pdu], hout', ?_, ?_⟩
    · rw [List.map_append, hall hrefused]
      exact List.prefix_refl _
    · intro _
      rw [List.map_append, hall hrefused]
      rfl
  · obtain ⟨assoc, -, heq⟩ :=
      @hand_of_not_takes { c with queue } pdu (Bool.eq_false_iff.mpr htakes)
    rw [heq]
    refine ⟨hadmitted, hcurrent, out ++ [pdu], hout', ?_, ?_⟩
    · exact htaken.trans (List.prefix_append out [pdu])
    · intro hrefused
      cases hrefused

theorem Ordered.dispatch (ho : Ordered D c) (pdu : Bytes)
    (hC : c.stalled = true → c.admits = false) : Ordered (D ++ [pdu]) (c.dispatch pdu) := by
  obtain ⟨hadmitted, hcurrent, out, hout, htaken, hall⟩ := ho
  by_cases hadmits : c.admits = true
  · have hgap : ¬ c.Gapped := by
      rintro (hstalled | hlisted)
      · rw [hC hstalled] at hadmits
        cases hadmits
      · rw [admits, hlisted] at hadmits
        cases hadmits
    rw [dispatch_of_admits pdu hadmits]
    refine ⟨?_, ?_, out, ?_, htaken, hall⟩
    · exact ⟨[], by rw [List.append_nil, hcurrent hgap]⟩
    · intro _
      rw [hcurrent hgap]
    · rw [hout, List.append_assoc]
  · have hadmits : c.admits = false := Bool.eq_false_iff.mpr hadmits
    have hgap := gapped_dispatch pdu hadmits
    rw [dispatch_of_not_admits pdu hadmits] at hgap ⊢
    exact ⟨hadmitted.trans (List.prefix_append D [pdu]), fun hno => absurd hgap hno, out, hout,
      htaken, hall⟩

theorem Ordered.next (ho : Ordered D c) (hC : c.Unbroken i) (h : c.next i = some c') :
    Ordered (D ++ i.pdus) c' := by
  by_cases hdispatch : ∃ pdu, i = .dispatch pdu
  · obtain ⟨pdu, rfl⟩ := hdispatch
    cases h
    exact ho.dispatch pdu hC
  · have hpdus : i.pdus = [] := by
      cases i with
      | dispatch pdu => exact absurd ⟨pdu, rfl⟩ hdispatch
      | _ => rfl
    rw [hpdus, List.append_nil]
    rcases next_elsewhere h (fun pdu hi => hdispatch ⟨pdu, hi⟩) with
      helse | ⟨pdu, queue, rfl, hqueue, rfl⟩
    · exact helse.ordered ho
    · apply ho.hand hqueue
      intro hrefused
      exact hC hrefused pdu (by rw [hqueue]; rfl)

theorem Gapped.next (hgap : c.Gapped) (hC : c.Unbroken i) (h : c.next i = some c') :
    c'.Gapped ∧ c'.admitted = c.admitted := by
  by_cases hdispatch : ∃ pdu, i = .dispatch pdu
  · obtain ⟨pdu, rfl⟩ := hdispatch
    cases h
    have hadmits : c.admits = false := by
      rcases hgap with hstalled | hlisted
      · exact hC hstalled
      · rw [admits, hlisted, Bool.false_and]
    refine ⟨gapped_dispatch pdu hadmits, ?_⟩
    rw [dispatch_of_not_admits pdu hadmits]
  · rcases next_elsewhere h (fun pdu hi => hdispatch ⟨pdu, hi⟩) with
      helse | ⟨pdu, queue, rfl, hqueue, rfl⟩
    · exact ⟨helse.gapped hgap, helse.admitted⟩
    · unfold Gapped hand
      split
      · exact ⟨hgap, rfl⟩
      · exact ⟨hgap, rfl⟩

/-! ### What was taken leaves in order -/

/-- The ends of the PDUs taken come one after the other, and none is beyond what is queued for the
socket. -/
structure Placed (c : Connection) : Prop where
  sorted : c.taken.Pairwise fun t u => t.2 ≤ u.2
  within : ∀ t ∈ c.taken, t.2 ≤ c.written.length + c.assoc.out.length

theorem Elsewhere.placed (h : Elsewhere c c') (hp : Placed c) : Placed c' := by
  obtain ⟨hsorted, hwithin⟩ := hp
  constructor
  · rw [h.taken]
    exact hsorted
  · rw [h.taken]
    exact fun t ht => Nat.le_trans (hwithin t ht) h.packets

theorem Placed.hand (hp : Placed c) (pdu : Bytes) : Placed (hand pdu c) := by
  obtain ⟨hsorted, hwithin⟩ := hp
  by_cases htakes : c.takes pdu = true
  · obtain ⟨assoc, hkeeps, heq⟩ := hand_of_takes htakes
    have hgrown : ∀ t ∈ c.taken, t.2 ≤ c.written.length + assoc.out.length := fun t ht =>
      Nat.le_trans (hwithin t ht) (Nat.add_le_add_left hkeeps.length_le _)
    rw [heq]
    constructor
    · rw [List.pairwise_append]
      refine ⟨hsorted, List.pairwise_singleton _ _, ?_⟩
      intro t ht u hu
      rw [List.mem_singleton] at hu
      rw [hu]
      exact hgrown t ht
    · intro t ht
      rw [List.mem_append, List.mem_singleton] at ht
      rcases ht with ht | rfl
      · exact hgrown t ht
      · exact Nat.le_refl _
  · obtain ⟨assoc, hkeeps, heq⟩ := hand_of_not_takes (Bool.eq_false_iff.mpr htakes)
    rw [heq]
    exact ⟨hsorted, fun t ht =>
      Nat.le_trans (hwithin t ht) (Nat.add_le_add_left hkeeps.length_le _)⟩

theorem Placed.next (hp : Placed c) (h : c.next i = some c') : Placed c' := by
  by_cases hdispatch : ∃ pdu, i = .dispatch pdu
  · obtain ⟨pdu, rfl⟩ := hdispatch
    cases h
    by_cases hadmits : c.admits = true
    · rw [dispatch_of_admits pdu hadmits]
      exact ⟨hp.sorted, hp.within⟩
    · rw [dispatch_of_not_admits pdu (Bool.eq_false_iff.mpr hadmits)]
      exact ⟨hp.sorted, hp.within⟩
  · rcases next_elsewhere h (fun pdu hi => hdispatch ⟨pdu, hi⟩) with
      helse | ⟨pdu, queue, rfl, hqueue, rfl⟩
    · exact helse.placed hp
    · have hrest : Placed { c with queue } := ⟨hp.sorted, hp.within⟩
      exact hrest.hand pdu

theorem Placed.transmitted (hp : Placed c) : c.transmitted <+: c.taken.map Prod.fst := by
  apply List.IsPrefix.map
  apply filter_prefix
  refine hp.sorted.imp ?_
  intro t u htu hu
  rw [decide_eq_true_eq] at hu ⊢
  exact Nat.le_trans htu hu

theorem transmitted_prefix (ho : Ordered D c) (hp : Placed c) : c.transmitted <+: c.admitted := by
  obtain ⟨out, hout, htaken, -⟩ := ho.drained
  rw [hout]
  exact hp.transmitted.trans (htaken.trans (List.prefix_append out c.queue))

/-! ### Runs -/

theorem ordered_run {cfg : AssociationConfig} {size : Nat}
    (hC : Meets next Unbroken (opened cfg size) is) (hrun : run next (opened cfg size) is = some c) :
    Ordered (dispatched is) c := by
  have hstart : Ordered [] (opened cfg size) :=
    ⟨List.prefix_refl _, fun _ => rfl, [], rfl, List.prefix_refl _, fun _ => rfl⟩
  have hlog := journal_run (fun _ _ _ _ ho hi h => Ordered.next ho hi h) hstart hC hrun
  rw [journal_eq_flatMap hrun] at hlog
  exact hlog

theorem placed_run {cfg : AssociationConfig} {size : Nat}
    (hrun : run next (opened cfg size) is = some c) : Placed c :=
  invariant_run (C := fun _ _ => True) (fun _ _ _ hp _ h => Placed.next hp h)
    ⟨List.Pairwise.nil, fun _ ht => absurd ht List.not_mem_nil⟩
    (meets_of_forall (fun _ _ => trivial) _ _) hrun

theorem admitted_run (hgap : c.Gapped) (hC : Meets next Unbroken c is)
    (hrun : run next c is = some c') : c'.admitted = c.admitted := by
  have hkept : c'.Gapped ∧ c'.admitted = c.admitted :=
    invariant_run (I := fun d => d.Gapped ∧ d.admitted = c.admitted)
      (fun d i d' hd hi h => by
        obtain ⟨hgap', heq⟩ := hd.1.next hi h
        exact ⟨hgap', heq.trans hd.2⟩)
      ⟨hgap, rfl⟩ hC hrun
  exact hkept.2

/-- In every run in which nothing is queued behind a gap, and the association takes nothing after it
refused something, the PDUs transmitted are a first part of those dispatched; and once one could
not be queued nothing that was dispatched later is ever transmitted. -/
theorem run_prefix {cfg : AssociationConfig} {size : Nat} {is : List Action} {c : Connection}
    (hunbroken : Meets next Unbroken (opened cfg size) is)
    (hrun : run next (opened cfg size) is = some c) : c.transmitted <+: dispatched is ∧
    ∀ before pdu after m, is = before ++ .dispatch pdu :: after →
      run next (opened cfg size) before = some m → m.admits = false →
      c.transmitted <+: dispatched before := by
  have hordered := ordered_run hunbroken hrun
  have hsent := transmitted_prefix hordered (placed_run hrun)
  constructor
  · exact hsent.trans hordered.admitted
  · rintro before pdu after m rfl hbefore hadmits
    obtain ⟨m', hm', hrest⟩ := run_append hrun
    rw [hbefore] at hm'
    cases hm'
    have hrestC := meets_of_append hunbroken hbefore
    obtain ⟨n, hn, hafter⟩ := run_cons hrest
    have hgap : n.Gapped ∧ n.admitted = m.admitted := by
      cases hn
      refine ⟨gapped_dispatch pdu hadmits, ?_⟩
      rw [dispatch_of_not_admits pdu hadmits]
    have hkept := admitted_run hgap.1 (hrestC.2 n hn) hafter
    rw [hkept, hgap.2] at hsent
    exact hsent.trans (ordered_run hunbroken.append_left hbefore).admitted

/-- A report of one value. -/
def report (value : UInt8) : Bytes :=
  [0xA3, 14, 0xA0, 12, 0xA1, 5, 0x80, 3, 0x52, 0x50, 0x54, 0xA0, 3, 0x86, 1, value]

/-- The rounds in which a default client connects and associates. -/
def associating : List Action :=
  [.receive 0 Association.crPacket, .poll, .drain, .write true, .write true, .check,
    .receive 0 (Association.connectPacket {}), .poll, .poll, .drain, .write true, .write true,
    .check]

/-- Two reports in two rounds. -/
def inTurn : List Action :=
  associating ++ [.dispatch (report 1), .idle 0, .poll, .drain, .drain, .write true, .write true,
    .check, .dispatch (report 2), .idle 0, .poll, .drain, .drain, .write true, .write true, .check]

theorem run_prefix_inTurn : ∃ c, run next (opened {} 1) inTurn = some c ∧
    c.transmitted = [report 1, report 2] ∧ c.transmitted <+: dispatched inTurn := by
  have hsome : (run next (opened {} 1) inTurn).any
      (fun c => decide (c.transmitted = [report 1, report 2])) = true := by decide +kernel
  obtain ⟨c, hc, hsent⟩ := (Option.any_eq_true _ _).mp hsome
  have hrun := run_prefix (by decide +kernel) hc
  exact ⟨c, hc, of_decide_eq_true hsent, hrun.1⟩

/-- A report that finds the queue full, and one that is dispatched while the connection thread
drains it. -/
def overtaking : List Action :=
  associating ++ [.dispatch (report 1), .dispatch (report 2), .idle 0, .poll, .drain,
    .dispatch (report 3), .drain, .drain, .write true, .write true, .write true, .check]

/-- The client is sent the first report and the third, and then the association is closed. -/
theorem overtaken : ∃ c, run next (opened {} 1) overtaking = some c ∧
    dispatched overtaking = [report 1, report 2, report 3] ∧
    c.transmitted = [report 1, report 3] ∧ ¬ c.transmitted <+: dispatched overtaking ∧
    c.stage = .left := by
  have hsome : (run next (opened {} 1) overtaking).any
      (fun c => decide (c.transmitted = [report 1, report 3] ∧ c.stage = .left)) = true := by
    decide +kernel
  obtain ⟨c, hc, hsent⟩ := (Option.any_eq_true _ _).mp hsome
  obtain ⟨hsent, hleft⟩ := of_decide_eq_true hsent
  refine ⟨c, hc, by decide, hsent, ?_, hleft⟩
  rw [hsent]
  decide

end Connection

end Iec61850.Server
