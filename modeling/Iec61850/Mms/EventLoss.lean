import Iec61850.Mms.AssociationRuns

/-!
# What the bounded event queue loses

Every operation that raises events raises them through the one queue, so that what is waiting
afterwards is the newest of what was waiting and was raised. An application that takes all
events after every chunk therefore sees everything as long as no chunk raises more than the
queue holds; of a chunk that raises more it misses exactly the oldest excess, whatever kind of
event that is, and the queue counts it.
-/

namespace Iec61850.Mms.Association

open Theory

/-! ### Raising events -/

/-- The events of `d` are those of `c` with some more raised. -/
def Raised (c d : Core) : Prop :=
  ∃ raised : List AssociationEvent, d.events = raised.foldl EventQueue.push c.events

theorem Raised.refl (c : Core) : Raised c c := ⟨[], rfl⟩

theorem Raised.trans {c d e : Core} (h : Raised c d) (h' : Raised d e) : Raised c e := by
  obtain ⟨xs, hxs⟩ := h
  obtain ⟨ys, hys⟩ := h'
  exact ⟨xs ++ ys, by rw [List.foldl_append, ← hxs, hys]⟩

theorem raised_apply (c : Core) {e : Effect} (he : e ≠ .poll) : Raised c (e.apply c) := by
  cases e with
  | emit ev => exact ⟨[ev], rfl⟩
  | answer id ev => exact ⟨[ev], rfl⟩
  | unreadable peeked error =>
    simp only [Effect.apply]
    cases peeked.filter (fun id => c.outstanding.contains id) with
    | none => exact ⟨[.malformed none error], rfl⟩
    | some id => exact ⟨[.malformed (some id) error], rfl⟩
  | establish n => exact ⟨[.established n], rfl⟩
  | close r =>
    simp only [Effect.apply]
    split
    · exact Raised.refl c
    · exact ⟨[.closed r], rfl⟩
  | poll => exact absurd rfl he
  | _ => exact ⟨[], rfl⟩

variable {es : List Effect} {a b : Association} {op : Op}

theorem raised_after (c : Core) (hes : Effect.poll ∉ es) : Raised c (c.after es) := by
  induction es generalizing c with
  | nil => exact Raised.refl c
  | cons e es ih =>
    rw [List.mem_cons, not_or] at hes
    exact (raised_apply c fun heq => hes.1 heq.symm).trans (ih (e.apply c) hes.2)

theorem poll_not_mem (hes : ∀ e ∈ es, e.passive = true) : Effect.poll ∉ es := by
  intro hmem
  have := hes _ hmem
  cases this

theorem Causes.poll_not_mem {tpdu : Bytes} (h : Causes a tpdu es) : Effect.poll ∉ es := by
  cases h with
  | nothing => exact List.not_mem_nil
  | ends hends => exact Association.poll_not_mem hends.passive
  | endsAfterContexts k hends =>
    simpa using Association.poll_not_mem hends.passive
  | connects size hconnects htail =>
    rcases htail with rfl | hends
    · simp
    · simpa using Association.poll_not_mem hends.passive
  | connectFails size hconnects hends => simpa using Association.poll_not_mem hends.passive
  | completes k n => simp
  | carries hcarried => exact Association.poll_not_mem hcarried.passive

theorem OpCauses.poll_not_mem (h : OpCauses a op es) (hop : op ≠ .pollEvent) :
    Effect.poll ∉ es := by
  cases h with
  | polls => exact absurd rfl hop
  | expires now hdeadline =>
    intro hmem
    obtain ⟨id, -, hid⟩ := List.mem_map.mp hmem
    cases hid
  | _ => simp

theorem perform_raised (hop : op ≠ .pollEvent) (hb : perform a op = some b) :
    Raised a.core b.core := by
  have h := perform_keeps (I := fun _ => True) (C := fun _ _ => True) Raised.refl
    (fun _ _ _ => Raised.trans) (fun c _ => ⟨trivial, raised_after c (by simp)⟩)
    (fun a tpdu es _ _ _ hes => ⟨trivial, raised_after _ hes.poll_not_mem⟩)
    (fun a es _ hes => ⟨trivial, raised_after _ (hes.poll_not_mem hop)⟩)
    trivial (fun _ _ => trivial) hb
  exact h.2

/-! ### An application that drains the queue -/

/-- Poll until there is no event left. -/
def takeEvents : Nat → Association → List AssociationEvent × Association
  | 0, a => ([], a)
  | fuel + 1, a =>
    match a.pollEvent with
    | (none, a) => ([], a)
    | (some e, a) =>
      let (es, a) := takeEvents fuel a
      (e :: es, a)

/-- An association and the events the application has taken from it. -/
abbrev Drained := Association × List AssociationEvent

/-- A step of an application that takes all events after every chunk, and otherwise when it
likes. -/
def turn (s : Drained) (op : Op) : Option Drained :=
  (perform s.1 op).map fun b =>
    match op with
    | .onBytes _ _ =>
      let (es, c) := takeEvents b.events.items.length b
      (c, s.2 ++ es)
    | .pollEvent => (b, s.2 ++ s.1.pollEvent.1.toList)
    | _ => (b, s.2)

/-- As many polls as there are events waiting take them all, and leave the history and the
count of lost events alone. -/
theorem takeEvents_all (n : Nat) (a : Association) (h : a.events.items.length = n) :
    (takeEvents n a).1 = a.events.items ∧ (takeEvents n a).2.events.items = [] ∧
      (takeEvents n a).2.events.history = a.events.history ∧
      (takeEvents n a).2.events.dropped = a.events.dropped ∧
      (takeEvents n a).2.events.capacity = a.events.capacity := by
  induction n generalizing a with
  | zero =>
    have hempty : a.events.items = [] := List.eq_nil_of_length_eq_zero h
    exact ⟨hempty.symm, hempty, rfl, rfl, rfl⟩
  | succ n ih =>
    obtain ⟨e, rest, hitems⟩ := List.exists_cons_of_length_eq_add_one h
    have hpoll : a.pollEvent.1 = some e := by
      simp only [pollEvent, EventQueue.pop, hitems, List.head?_cons]
    have hleft : a.pollEvent.2.events.items = rest := by
      simp only [pollEvent, EventQueue.pop, hitems, List.tail_cons]
    have hlength : a.pollEvent.2.events.items.length = n := by
      rw [hleft]
      rw [hitems, List.length_cons] at h
      omega
    obtain ⟨hall, hrest⟩ := ih a.pollEvent.2 hlength
    have heq : takeEvents (n + 1) a =
        (e :: (takeEvents n a.pollEvent.2).1, (takeEvents n a.pollEvent.2).2) := by
      rw [takeEvents]
      split
      · rename_i hnone
        rw [hnone] at hpoll
        cases hpoll
      · rename_i e' b hsome
        rw [hsome] at hpoll
        cases hpoll
        rw [hsome]
    rw [heq]
    refine ⟨?_, hrest⟩
    simp only [hall, hleft, hitems]

/-! ### What is lost -/

/-- What an operation leaves in the queue, and what it loses: of the events waiting and raised,
the newest as many as the queue holds. -/
structure NewestKept (cap : Nat) (a b : Association) (raised : List AssociationEvent) : Prop where
  history : b.events.history = a.events.history ++ raised
  items : b.events.items = lastN cap (a.events.items ++ raised)
  dropped : b.events.dropped =
    min u64Max (a.events.dropped + (a.events.items.length + raised.length - cap))

theorem perform_newestKept (hop : op ≠ .pollEvent) (hb : perform a op = some b) :
    (∃ raised, NewestKept a.events.capacity a b raised) ∧
      b.events.capacity = a.events.capacity := by
  obtain ⟨raised, hraised⟩ := perform_raised hop hb
  have hevents : b.events = raised.foldl EventQueue.push a.events := hraised
  refine ⟨⟨raised, ?_, ?_, ?_⟩, ?_⟩
  · rw [hevents, EventQueue.foldl_push_history]
  · rw [hevents, EventQueue.foldl_push_items]
  · rw [hevents, EventQueue.foldl_push_dropped]
  · rw [hevents, EventQueue.foldl_push_capacity]

/-- The events waiting and those the operation raises all have room in the queue. -/
def HasRoom (s : Drained) (op : Op) : Prop :=
  ∀ b, perform s.1 op = some b →
    s.1.events.items.length + (b.events.history.length - s.1.events.history.length) ≤
      s.1.events.capacity

/-- The invariant of a run that has room: nothing was lost. -/
structure NothingLost (s : Drained) : Prop where
  all : s.2 ++ s.1.events.items = s.1.events.history
  dropped : s.1.events.dropped = 0

theorem NothingLost.perform {taken : List AssociationEvent} (h : NothingLost (a, taken))
    (hroom : HasRoom (a, taken) op) (hop : op ≠ .pollEvent) (hb : perform a op = some b) :
    NothingLost (b, taken) := by
  obtain ⟨⟨raised, hkept⟩, -⟩ := perform_newestKept hop hb
  have hlength := hroom b hb
  simp only [hkept.history, List.length_append] at hlength
  have hall : taken ++ a.events.items = a.events.history := h.all
  have hdropped : a.events.dropped = 0 := h.dropped
  constructor
  · have hfits : (a.events.items ++ raised).length ≤ a.events.capacity := by
      rw [List.length_append]
      omega
    simp only [hkept.items, hkept.history, lastN_of_length_le hfits]
    rw [← List.append_assoc, hall]
  · simp only [hkept.dropped, hdropped]
    omega

theorem NothingLost.turn {s s' : Drained} (h : NothingLost s) (hroom : HasRoom s op)
    (hs : turn s op = some s') : NothingLost s' := by
  obtain ⟨a, taken⟩ := s
  obtain ⟨b, hb, rfl⟩ := Option.map_eq_some_iff.mp hs
  cases op with
  | onBytes now bytes =>
    have hin := h.perform hroom (by simp) hb
    obtain ⟨htaken, hempty, hhistory, hdropped, -⟩ :=
      takeEvents_all b.events.items.length b rfl
    constructor
    · simp only [htaken, hempty, hhistory, List.append_nil]
      exact hin.all
    · simp only [hdropped]
      exact hin.dropped
  | pollEvent =>
    cases hb
    have hall : taken ++ a.events.items = a.events.history := h.all
    refine ⟨?_, h.dropped⟩
    simp only [pollEvent, EventQueue.pop, ← hall, List.append_assoc]
    congr 1
    cases a.events.items <;> rfl
  | _ => exact h.perform hroom (by simp) hb

theorem turn_capacity {s s' : Drained} (hs : turn s op = some s') :
    s'.1.events.capacity = s.1.events.capacity := by
  obtain ⟨b, hb, rfl⟩ := Option.map_eq_some_iff.mp hs
  cases op with
  | onBytes now bytes =>
    have hcapacity := (perform_newestKept (by simp) hb).2
    have htake := (takeEvents_all b.events.items.length b rfl).2.2.2.2
    simp only [htake, hcapacity]
  | pollEvent =>
    cases hb
    rfl
  | _ => exact (perform_newestKept (by simp) hb).2

/-- In every run of an application that drains the queue after every chunk: whatever an
operation raises, the newest of the events waiting and raised are kept, as many as the queue
holds, in their order, and exactly the others are lost and counted; and when every operation
has room for what it raises, the application gets every event. -/
theorem newest_events_kept (cfg : AssociationConfig) (role : Role) (ops : List Op) (s : Drained)
    (hrun : run turn (new cfg role, []) ops = some s) :
    (∀ op b, op ≠ .pollEvent → perform s.1 op = some b →
      ∃ raised, NewestKept (max cfg.eventCapacity 1) s.1 b raised) ∧
    (Meets turn HasRoom (new cfg role, []) ops →
      s.2 ++ s.1.events.items = s.1.events.history ∧ s.1.events.dropped = 0) := by
  have hcapacity : s.1.events.capacity = max cfg.eventCapacity 1 :=
    invariant_run (C := fun _ _ => True)
      (I := fun t : Drained => t.1.events.capacity = max cfg.eventCapacity 1)
      (fun t op t' ht _ ht' => (turn_capacity ht').trans ht) rfl
      (meets_of_forall (fun _ _ => trivial) _ _) hrun
  refine ⟨fun op b hop hb => ?_, fun hroom => ?_⟩
  · rw [← hcapacity]
    exact (perform_newestKept hop hb).1
  · have hlost := invariant_run (fun t op t' ht hC ht' => NothingLost.turn ht hC ht')
      (show NothingLost (new cfg role, []) from ⟨rfl, rfl⟩) hroom hrun
    exact ⟨hlost.all, hlost.dropped⟩

/-- A chunk with two requests for an established server. -/
def twoRequestsRun : List Op :=
  [.onBytes 0 crPacket, .onBytes 0 (connectPacket {}),
    .onBytes 0 (mmsPacket [identifyPdu 1] ++ mmsPacket [identifyPdu 2])]

theorem newest_events_kept_two_requests : ∃ s, run turn (server {}, []) twoRequestsRun = some s ∧
    (∀ op b, op ≠ .pollEvent → perform s.1 op = some b →
      ∃ raised, NewestKept (max ({} : AssociationConfig).eventCapacity 1) s.1 b raised) ∧
    (Meets turn HasRoom (server {}, []) twoRequestsRun →
      s.2 ++ s.1.events.items = s.1.events.history ∧ s.1.events.dropped = 0) := by
  have hsome : (run turn (server {}, []) twoRequestsRun).isSome = true := by decide +kernel
  obtain ⟨s, hs⟩ := Option.isSome_iff_exists.mp hsome
  exact ⟨s, hs, newest_events_kept {} .server twoRequestsRun s hs⟩

/-- A queue for one event loses the first of two requests that arrive in one chunk. -/
theorem request_lost : ¬ ∀ (cfg : AssociationConfig) (role : Role) (ops : List Op) (s : Drained),
      run turn (new cfg role, []) ops = some s → ∀ id pdu, .request id pdu ∈ s.1.events.history →
          .request id pdu ∈ s.2 ++ s.1.events.items := by
  intro h
  have hlost : (run turn (new { eventCapacity := 1 } .server, []) twoRequestsRun).map (fun s =>
      (decide (.request 1 (identifyPdu 1) ∈ s.1.events.history),
        decide (.request 1 (identifyPdu 1) ∈ s.2 ++ s.1.events.items))) = some (true, false) := by
    decide +kernel
  obtain ⟨s, hs, heq⟩ := Option.map_eq_some_iff.mp hlost
  rw [Prod.mk.injEq, decide_eq_true_iff, decide_eq_false_iff_not] at heq
  exact heq.2 (h _ _ _ s hs 1 _ heq.1)

end Iec61850.Mms.Association
