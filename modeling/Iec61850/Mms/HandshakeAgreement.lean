import Iec61850.Mms.Handshake
import Iec61850.Theory.Runs

/-!
# Two ends and the octets between them

A client and a server association joined by two lossless streams. Octets are delivered in
chunks of any size at any time before a deadline, packets are put on the wire when the caller
gets to it, and between two compatible configurations the two ends always come up on the same
terms.
-/

namespace Iec61850.Mms.Association

open Theory Osi

/-! ### The joined ends -/

/-- Both ends, and the octets written by each that the other has not received. -/
structure Link where
  client : Association
  server : Association
  toServer : Bytes := []
  toClient : Bytes := []

/-- What can happen: octets arrive, a packet is put on the wire, a timer is looked at, an event
is taken. -/
inductive Move where
  | deliver (receiver : Role) (count : Nat) (now : Instant)
  | transmit (sender : Role)
  | wake (owner : Role) (now : Instant)
  | observe (owner : Role)
  deriving DecidableEq, Repr

namespace Link

/-- The next packet of an end, added to its stream. -/
def send (a : Association) (stream : Bytes) : Association × Bytes :=
  match a.pollTransmit with
  | (some packet, a) => (a, stream ++ packet)
  | (none, a) => (a, stream)

/-- One move; `none` is a panic of the end it concerns. -/
def step (l : Link) : Move → Option Link
  | .deliver .server count now =>
    (onBytes now (l.toServer.take count) l.server).map fun server =>
      { l with server, toServer := l.toServer.drop count }
  | .deliver .client count now =>
    (onBytes now (l.toClient.take count) l.client).map fun client =>
      { l with client, toClient := l.toClient.drop count }
  | .transmit .client =>
    let (client, toServer) := send l.client l.toServer
    some { l with client, toServer }
  | .transmit .server =>
    let (server, toClient) := send l.server l.toClient
    some { l with server, toClient }
  | .wake .client now => some { l with client := l.client.onTimeout now }
  | .wake .server now => some { l with server := l.server.onTimeout now }
  | .observe .client => some { l with client := l.client.pollEvent.2 }
  | .observe .server => some { l with server := l.server.pollEvent.2 }

/-- The end a move concerns has no deadline that has passed. -/
def BeforeDeadline (a : Association) (now : Instant) : Prop :=
  ∀ deadline, a.connectDeadline = some deadline → now < deadline

/-- Timers are looked at before any deadline. -/
def InTime (l : Link) : Move → Prop
  | .wake .client now => BeforeDeadline l.client now
  | .wake .server now => BeforeDeadline l.server now
  | _ => True

/-- A move that brings something forward: octets that arrive, a packet that is written. -/
def useful (l : Link) : Move → Bool
  | .deliver .server count _ => decide (0 < count) && !l.toServer.isEmpty
  | .deliver .client count _ => decide (0 < count) && !l.toClient.isEmpty
  | .transmit .client => !l.client.out.isEmpty
  | .transmit .server => !l.server.out.isEmpty
  | _ => false

/-- What the run leaves in the journal of useful moves. -/
def mark (l : Link) (m : Move) : List Move := if l.useful m then [m] else []

/-- Nothing is left to be written or delivered. -/
def Settled (l : Link) : Prop :=
  l.toServer = [] ∧ l.toClient = [] ∧ l.client.out = [] ∧ l.server.out = []

end Link

/-- The client has been started, and the server waits. -/
def opened (c s : AssociationConfig) (now : Instant) : Option Link :=
  match start now (client c) with
  | (a, .ok ()) => some { client := a, server := server s }
  | (_, .error _) => none

/-- Both ends are up, on terms that fit both configurations. -/
structure Agreed (c s : AssociationConfig) (l : Link) : Prop where
  clientUp : l.client.state = .established
  serverUp : l.server.state = .established
  terms : ∃ nc ns, l.client.negotiated = some nc ∧ l.server.negotiated = some ns ∧
    nc.maxOutstanding = min c.maxOutstanding.toNat s.maxOutstanding.toNat ∧
    ns.maxOutstanding = min c.maxOutstanding.toNat s.maxOutstanding.toNat ∧
    nc.tpduData = ns.tpduData ∧
    nc.tpduData ≤ Cotp.tpduSize c.tpduSizeExp.toNat - 3 ∧
    nc.tpduData ≤ Cotp.tpduSize s.tpduSizeExp.toNat - 3 ∧
    nc.maxPdu ≤ s.maxPdu.toNat ∧ ns.maxPdu ≤ c.maxPdu.toNat

/-- Whatever happens before a deadline, neither end panics, only so many moves bring anything
forward, and when none is left both ends are up and agree. -/
def HandshakeAgrees (c s : AssociationConfig) : Prop :=
  ∀ now, ∃ l, opened c s now = some l ∧ ∃ bound, ∀ moves, Meets Link.step Link.InTime l moves →
    ∃ l', run Link.step l moves = some l' ∧
      (journal Link.step Link.mark l moves).length ≤ bound ∧ (l'.Settled → Agreed c s l')

/-! ### Stages do not depend on the queues -/

/-- The two associations differ in nothing a stage looks at. -/
structure SameStage (a b : Association) : Prop where
  cfg : b.cfg = a.cfg
  role : b.role = a.role
  acse : b.acseContext = a.acseContext
  mms : b.mmsContext = a.mmsContext
  outstanding : b.outstanding = a.outstanding
  state : b.state = a.state
  reassembler : b.reassembler = a.reassembler
  tpduData : b.tpduData = a.tpduData
  negotiated : b.negotiated = a.negotiated

section Stages

variable {c s : AssociationConfig} {x : Exchange c s} {todo owes : List Bytes} {a b : Association}

theorem Opening.same {cfg : AssociationConfig} {role : Role} (h : Opening cfg role a)
    (hsame : SameStage a b) : Opening cfg role b :=
  ⟨hsame.cfg.trans h.config, hsame.role.trans h.role, hsame.acse.trans h.acse,
    hsame.mms.trans h.mms, hsame.outstanding.trans h.outstanding⟩

theorem ClientStage.same (h : ClientStage x todo owes a) (hsame : SameStage a b) :
    ClientStage x todo owes b := by
  cases h with
  | connecting hopening hstate hparts hlimit =>
    exact .connecting (hopening.same hsame) (hsame.state.trans hstate)
      (by rw [hsame.reassembler, hparts]) (by rw [hsame.reassembler, hlimit])
  | associating hopening hstate hdata hreceiving hpackable =>
    exact .associating (hopening.same hsame) (hsame.state.trans hstate)
      (hsame.tpduData.trans hdata) (by rwa [hsame.reassembler]) hpackable
  | established hopening hstate hterms =>
    exact .established (hopening.same hsame) (hsame.state.trans hstate)
      (hsame.negotiated.trans hterms)

theorem ServerStage.same (h : ServerStage x todo owes a) (hsame : SameStage a b) :
    ServerStage x todo owes b := by
  cases h with
  | idle hopening hstate hparts hlimit =>
    exact .idle (hopening.same hsame) (hsame.state.trans hstate)
      (by rw [hsame.reassembler, hparts]) (by rw [hsame.reassembler, hlimit])
  | associating hopening hstate hdata hreceiving hpackable =>
    exact .associating (hopening.same hsame) (hsame.state.trans hstate)
      (hsame.tpduData.trans hdata) (by rwa [hsame.reassembler]) hpackable
  | established hopening hstate hterms =>
    exact .established (hopening.same hsame) (hsame.state.trans hstate)
      (hsame.negotiated.trans hterms)

theorem packable_map {segs : List (Bool × Bytes)} (h : ∀ seg ∈ segs, Packable (dataTpdu seg)) :
    ∀ tpdu ∈ segs.map dataTpdu, Packable tpdu := by
  intro tpdu htpdu
  obtain ⟨seg, hseg, rfl⟩ := List.mem_map.mp htpdu
  exact h seg hseg

theorem ClientStage.packable (h : ClientStage x todo owes a) : ∀ tpdu ∈ todo, Packable tpdu := by
  cases h with
  | connecting =>
    intro tpdu htpdu
    rcases List.mem_cons.mp htpdu with rfl | htpdu
    · exact x.confirm_packable
    · exact packable_map (Exchange.segments_packable x.accept) tpdu htpdu
  | associating hopening hstate hdata hreceiving hpackable => exact packable_map hpackable
  | established => simp

theorem ServerStage.packable (h : ServerStage x todo owes a) : ∀ tpdu ∈ todo, Packable tpdu := by
  cases h with
  | idle =>
    intro tpdu htpdu
    rcases List.mem_cons.mp htpdu with rfl | htpdu
    · exact x.request_packable
    · exact packable_map (Exchange.segments_packable x.connect) tpdu htpdu
  | associating hopening hstate hdata hreceiving hpackable => exact packable_map hpackable
  | established => simp

theorem ClientStage.outstanding (h : ClientStage x todo owes a) :
    a.outstanding = ∅ ∧ a.state ≠ .closed := by
  cases h with
  | connecting hopening hstate => exact ⟨hopening.outstanding, by rw [hstate]; simp⟩
  | associating hopening hstate => exact ⟨hopening.outstanding, by rw [hstate]; simp⟩
  | established hopening hstate => exact ⟨hopening.outstanding, by rw [hstate]; simp⟩

theorem ServerStage.outstanding (h : ServerStage x todo owes a) :
    a.outstanding = ∅ ∧ a.state ≠ .closed := by
  cases h with
  | idle hopening hstate => exact ⟨hopening.outstanding, by rw [hstate]; simp⟩
  | associating hopening hstate => exact ⟨hopening.outstanding, by rw [hstate]; simp⟩
  | established hopening hstate => exact ⟨hopening.outstanding, by rw [hstate]; simp⟩

end Stages

/-! ### One end among arriving octets -/

/-- What an end is known to be: at a stage, with whole packets in its queue and no whole packet
in its buffer. -/
structure Standing (Stage : List Bytes → List Bytes → Association → Prop) (todo owes : List Bytes)
    (a : Association) : Prop where
  stage : Stage todo owes a
  whole : ∀ packet ∈ a.out, packet ≠ []
  waiting : a.reader.nextTpdu = .ok none

/-- The octets an end has still to write. -/
def pending (a : Association) (owes : List Bytes) : Bytes := a.out.flatten ++ packetStream owes

/-- The stages of one end, as far as both ends have them in common. -/
structure Staged (Stage : List Bytes → List Bytes → Association → Prop) : Prop where
  same : ∀ {todo owes a b}, Stage todo owes a → SameStage a b → Stage todo owes b
  packable : ∀ {todo owes a}, Stage todo owes a → ∀ tpdu ∈ todo, Packable tpdu
  outstanding : ∀ {todo owes a}, Stage todo owes a → a.outstanding = ∅ ∧ a.state ≠ .closed
  step : ∀ {tpdu todo owes a} now, Stage (tpdu :: todo) owes a →
    Advances Stage now tpdu todo owes a

section Ends

variable {Stage : List Bytes → List Bytes → Association → Prop} (hstaged : Staged Stage)
  {todo owes : List Bytes} {a : Association}

include hstaged

/-- An end follows its stages, and what it has written and still owes together stays what it
was. -/
theorem Staged.script (total : Bytes) :
    Script (fun todo a => ∃ owes, Stage todo owes a ∧ (∀ packet ∈ a.out, packet ≠ []) ∧
      pending a owes = total) where
  packable := fun ⟨_, hstage, _, _⟩ => hstaged.packable hstage
  isOpen := fun ⟨_, hstage, _, _⟩ => (hstaged.outstanding hstage).2
  received := fun _ ⟨owes, hstage, hwhole, htotal⟩ =>
    ⟨owes, hstaged.same hstage ⟨rfl, rfl, rfl, rfl, rfl, rfl, rfl, rfl, rfl⟩, hwhole, htotal⟩
  handles := by
    rintro tpdu todo a now ⟨owes, hstage, hwhole, htotal⟩
    obtain ⟨a', made, owes', hdone, hreader, hout, howes, hstage'⟩ := hstaged.step now hstage
    refine ⟨a', hdone, hreader, owes', hstage', fun p hp => ?_, ?_⟩
    · rw [hout, List.mem_append] at hp
      rcases hp with hp | hp
      · exact hwhole p hp
      · obtain ⟨tpdu, -, rfl⟩ := List.mem_map.mp hp
        simp [packet_eq]
    · rw [← htotal, pending, pending, hout, howes, packetStream_append, List.flatten_append,
        List.append_assoc]
      rfl

/-- Octets that arrive. -/
theorem Staged.deliver (now : Instant) (h : Standing Stage todo owes a) (bytes rest : Bytes)
    (hstream : a.reader.buf ++ bytes ++ rest = packetStream todo) :
    ∃ a' todo' owes', onBytes now bytes a = some a' ∧ Standing Stage todo' owes' a' ∧
      pending a' owes' = pending a owes ∧ a'.reader.buf ++ rest = packetStream todo' := by
  obtain ⟨a', todo', hbytes, ⟨owes', hstage, hwhole, htotal⟩, hstream', hwaiting⟩ :=
    onBytes_stream (hstaged.script (pending a owes)) now
      (fun reader => ⟨owes, hstaged.same h.stage ⟨rfl, rfl, rfl, rfl, rfl, rfl, rfl, rfl, rfl⟩,
        h.whole, rfl⟩) (hstaged.outstanding h.stage).2 hstream
  exact ⟨a', todo', owes', hbytes, ⟨hstage, hwhole, hwaiting⟩, htotal, hstream'⟩

/-- A packet that is written. -/
theorem Staged.transmit (h : Standing Stage todo owes a) (stream : Bytes) :
    Standing Stage todo owes (Link.send a stream).1 ∧ (Link.send a stream).1.reader = a.reader ∧
      (Link.send a stream).2 ++ pending (Link.send a stream).1 owes = stream ++ pending a owes ∧
      (pending (Link.send a stream).1 owes).length + (!a.out.isEmpty).toNat ≤
        (pending a owes).length := by
  unfold Link.send pollTransmit
  cases hout : a.out with
  | nil => exact ⟨h, rfl, rfl, Nat.le_refl _⟩
  | cons p rest =>
    have hp : p ≠ [] := h.whole p (by rw [hout]; exact List.mem_cons_self)
    refine ⟨⟨hstaged.same h.stage ⟨rfl, rfl, rfl, rfl, rfl, rfl, rfl, rfl, rfl⟩, ?_, h.waiting⟩, rfl,
      ?_, ?_⟩
    · intro q hq
      exact h.whole q (by rw [hout]; exact List.mem_cons_of_mem p hq)
    · simp [pending, hout]
    · have hpos := List.length_pos_iff.mpr hp
      simp only [pending, hout, List.flatten_cons, List.length_append, List.isEmpty_cons,
        Bool.not_false, Bool.toNat_true]
      omega

theorem Staged.wake {now : Instant} (h : Standing Stage todo owes a)
    (hintime : Link.BeforeDeadline a now) : a.onTimeout now = a := by
  have hempty := (hstaged.outstanding h.stage).1
  have hexpire : expireRequests now a = a := by
    have hnone : a.expired now = [] := by
      rw [expired, hempty]
      rfl
    rw [expireRequests, hnone]
    split <;> rfl
  unfold onTimeout
  cases hdeadline : a.connectDeadline with
  | none => exact hexpire
  | some deadline =>
    simp only
    rw [if_pos (hintime deadline hdeadline), hexpire]

theorem Staged.observe (h : Standing Stage todo owes a) : Standing Stage todo owes a.pollEvent.2 :=
  ⟨hstaged.same h.stage ⟨rfl, rfl, rfl, rfl, rfl, rfl, rfl, rfl, rfl⟩, h.whole, h.waiting⟩

end Ends

/-! ### Both ends together -/

section Linked

variable {c s : AssociationConfig} {x : Exchange c s}

theorem staged_client (hcompat : Compatible c s) : Staged (ClientStage x) where
  same := ClientStage.same
  packable := ClientStage.packable
  outstanding := ClientStage.outstanding
  step := fun now h => client_step now hcompat h

theorem staged_server (hcompat : Compatible c s) : Staged (ServerStage x) where
  same := ServerStage.same
  packable := ServerStage.packable
  outstanding := ServerStage.outstanding
  step := fun now h => server_step now hcompat h

/-- What the receiver has in its buffer, what is on the wire and what the sender has still to
write are together the packets the receiver has still to handle. -/
def Feeds (receiver : Association) (stream : Bytes) (todo : List Bytes) (sender : Association)
    (owes : List Bytes) : Prop :=
  receiver.reader.buf ++ stream ++ pending sender owes = packetStream todo

/-- How many useful moves can still be made: an octet that is not written yet counts twice. -/
def load (l : Link) (owesC owesS : List Bytes) : Nat :=
  2 * (pending l.client owesC).length + 2 * (pending l.server owesS).length +
    l.toServer.length + l.toClient.length

/-- Both ends at a stage, the streams between them fitting, at most `k` useful moves ahead. -/
def Linked (x : Exchange c s) (k : Nat) (l : Link) : Prop :=
  ∃ todoC owesC todoS owesS,
    Standing (ClientStage x) todoC owesC l.client ∧ Standing (ServerStage x) todoS owesS l.server ∧
      Feeds l.client l.toClient todoC l.server owesS ∧
      Feeds l.server l.toServer todoS l.client owesC ∧ load l owesC owesS ≤ k

theorem length_drop_useful (stream : Bytes) (count : Nat) :
    (stream.drop count).length + (decide (0 < count) && !stream.isEmpty).toNat ≤ stream.length := by
  rw [List.length_drop]
  cases stream with
  | nil => simp
  | cons b stream =>
    by_cases hcount : 0 < count
    · simp [hcount]
      omega
    · simp [hcount]

theorem mark_length (l : Link) (m : Move) : (l.mark m).length = (l.useful m).toNat := by
  unfold Link.mark
  cases l.useful m <;> rfl

variable {k : Nat} {l : Link} {a : Association} {owes : List Bytes}

/-- Every move keeps both ends at a stage, and a useful one uses up part of what is ahead. -/
theorem linked_step (hcompat : Compatible c s) (h : Linked x k l) {m : Move}
    (hintime : Link.InTime l m) :
    ∃ l', Link.step l m = some l' ∧ ∃ k', Linked x k' l' ∧ k' + (l.mark m).length ≤ k := by
  have hclientStaged : Staged (ClientStage x) := staged_client hcompat
  have hserverStaged : Staged (ServerStage x) := staged_server hcompat
  obtain ⟨todoC, owesC, todoS, owesS, hclient, hserver, htoClient, htoServer, hload⟩ := h
  rw [mark_length]
  simp only [load] at hload
  cases m with
  | deliver receiver count now =>
    cases receiver with
    | client =>
      obtain ⟨a', todo', owes', hbytes, hstanding, hpending, hstream⟩ :=
        hclientStaged.deliver now hclient (l.toClient.take count)
          (l.toClient.drop count ++ pending l.server owesS) (by
            rw [List.append_assoc, ← List.append_assoc (l.toClient.take count),
              List.take_append_drop, ← List.append_assoc]
            exact htoClient)
      refine ⟨{ l with client := a', toClient := l.toClient.drop count },
        by rw [Link.step, hbytes]; rfl, _, ⟨todo', owes', todoS, owesS, hstanding, hserver, ?_, ?_,
        Nat.le_refl _⟩, ?_⟩
      · rw [Feeds, List.append_assoc]
        exact hstream
      · rw [Feeds, hpending]
        exact htoServer
      · have hshorter := length_drop_useful l.toClient count
        simp only [load, hpending, Link.useful]
        omega
    | server =>
      obtain ⟨a', todo', owes', hbytes, hstanding, hpending, hstream⟩ :=
        hserverStaged.deliver now hserver (l.toServer.take count)
          (l.toServer.drop count ++ pending l.client owesC) (by
            rw [List.append_assoc, ← List.append_assoc (l.toServer.take count),
              List.take_append_drop, ← List.append_assoc]
            exact htoServer)
      refine ⟨{ l with server := a', toServer := l.toServer.drop count },
        by rw [Link.step, hbytes]; rfl, _, ⟨todoC, owesC, todo', owes', hclient, hstanding, ?_, ?_,
        Nat.le_refl _⟩, ?_⟩
      · rw [Feeds, hpending]
        exact htoClient
      · rw [Feeds, List.append_assoc]
        exact hstream
      · have hshorter := length_drop_useful l.toServer count
        simp only [load, hpending, Link.useful]
        omega
  | transmit sender =>
    cases sender with
    | client =>
      obtain ⟨hstanding, hreader, hstream, hless⟩ := hclientStaged.transmit hclient l.toServer
      refine ⟨{ l with client := (Link.send l.client l.toServer).1,
                       toServer := (Link.send l.client l.toServer).2 }, rfl, _,
        ⟨todoC, owesC, todoS, owesS, hstanding, hserver, ?_, ?_, Nat.le_refl _⟩, ?_⟩
      · rw [Feeds, hreader]
        exact htoClient
      · rw [Feeds, List.append_assoc, hstream, ← List.append_assoc]
        exact htoServer
      · have hlength := congrArg List.length hstream
        simp only [List.length_append] at hlength
        simp only [load, Link.useful]
        omega
    | server =>
      obtain ⟨hstanding, hreader, hstream, hless⟩ := hserverStaged.transmit hserver l.toClient
      refine ⟨{ l with server := (Link.send l.server l.toClient).1,
                       toClient := (Link.send l.server l.toClient).2 }, rfl, _,
        ⟨todoC, owesC, todoS, owesS, hclient, hstanding, ?_, ?_, Nat.le_refl _⟩, ?_⟩
      · rw [Feeds, List.append_assoc, hstream, ← List.append_assoc]
        exact htoClient
      · rw [Feeds, hreader]
        exact htoServer
      · have hlength := congrArg List.length hstream
        simp only [List.length_append] at hlength
        simp only [load, Link.useful]
        omega
  | wake owner now =>
    cases owner with
    | client =>
      refine ⟨l, by rw [Link.step, hclientStaged.wake hclient hintime], k, ?_, Nat.le_refl k⟩
      exact ⟨todoC, owesC, todoS, owesS, hclient, hserver, htoClient, htoServer, hload⟩
    | server =>
      refine ⟨l, by rw [Link.step, hserverStaged.wake hserver hintime], k, ?_, Nat.le_refl k⟩
      exact ⟨todoC, owesC, todoS, owesS, hclient, hserver, htoClient, htoServer, hload⟩
  | observe owner =>
    cases owner with
    | client =>
      exact ⟨_, rfl, k, ⟨todoC, owesC, todoS, owesS, hclientStaged.observe hclient, hserver,
        htoClient, htoServer, hload⟩, Nat.le_refl k⟩
    | server =>
      exact ⟨_, rfl, k, ⟨todoC, owesC, todoS, owesS, hclient, hserverStaged.observe hserver,
        htoClient, htoServer, hload⟩, Nat.le_refl k⟩

/-- Any number of moves, by induction on them. -/
theorem linked_run (hcompat : Compatible c s) (h : Linked x k l) {moves : List Move}
    (hintime : Meets Link.step Link.InTime l moves) :
    ∃ l', run Link.step l moves = some l' ∧ ∃ k', Linked x k' l' ∧
      k' + (journal Link.step Link.mark l moves).length ≤ k := by
  induction moves generalizing l k with
  | nil => exact ⟨l, rfl, k, h, Nat.le_refl k⟩
  | cons m moves ih =>
    obtain ⟨l', hstep, k', hlinked, hle⟩ := linked_step hcompat h hintime.1
    obtain ⟨l'', hrun, k'', hlinked', hle'⟩ := ih hlinked (hintime.2 l' hstep)
    refine ⟨l'', by rw [run, hstep]; exact hrun, k'', hlinked', ?_⟩
    rw [journal, hstep, List.length_append]
    simp only
    omega

/-! ### The end of it -/

/-- A reader that waits for more has nothing left of a stream that has arrived completely. -/
theorem stream_arrived (todo tail : List Bytes) (hwaiting : a.reader.nextTpdu = .ok none)
    (hpackable : ∀ tpdu ∈ todo, Packable tpdu)
    (h : a.reader.buf ++ packetStream tail = packetStream (todo ++ tail)) : todo = [] := by
  cases todo with
  | nil => rfl
  | cons tpdu todo =>
    rw [packetStream_append, List.append_cancel_right_eq, packetStream_cons] at h
    have hnext := nextTpdu_packet (hpackable tpdu List.mem_cons_self) (packetStream todo)
    rw [← h] at hnext
    rw [show a.reader = ⟨a.reader.buf⟩ from rfl, hnext] at hwaiting
    cases hwaiting

theorem clientStage_owes {todo : List Bytes} (h : ClientStage x todo owes a) :
    (∃ first, Packable first ∧ todo = first :: x.acceptTpdus ∧ owes = x.connectTpdus) ∨ owes = [] := by
  cases h with
  | connecting => exact Or.inl ⟨x.confirm, x.confirm_packable, rfl, rfl⟩
  | associating => exact Or.inr rfl
  | established => exact Or.inr rfl

theorem marked_ne_nil {segs : List (Bool × Bytes)} (h : Marked segs) : segs ≠ [] := by
  obtain ⟨front, last, rfl, -⟩ := h
  simp

theorem clientStage_nil (h : ClientStage x [] owes a) :
    a.state = .established ∧ a.negotiated = some (clientTerms c s) := by
  generalize hlist : ([] : List Bytes) = todo at h
  cases h with
  | connecting => cases hlist
  | associating _ _ _ hreceiving =>
    exact absurd (List.map_eq_nil_iff.mp hlist.symm) (marked_ne_nil hreceiving.marked)
  | established _ hstate hterms => exact ⟨hstate, hterms⟩

theorem serverStage_nil (h : ServerStage x [] owes a) :
    a.state = .established ∧ a.negotiated = some (serverTerms c s) ∧ owes = [] := by
  generalize hlist : ([] : List Bytes) = todo at h
  cases h with
  | idle => cases hlist
  | associating _ _ _ hreceiving =>
    exact absurd (List.map_eq_nil_iff.mp hlist.symm) (marked_ne_nil hreceiving.marked)
  | established _ hstate hterms => exact ⟨hstate, hterms, rfl⟩

theorem serverStage_owes {todo : List Bytes} (h : ServerStage x todo owes a) :
    todo = x.request :: x.connectTpdus ∨ owes = x.acceptTpdus ∨ owes = [] := by
  cases h with
  | idle => exact Or.inl rfl
  | associating => exact Or.inr (Or.inl rfl)
  | established => exact Or.inr (Or.inr rfl)

/-- When nothing is on its way any more, both ends have handled everything. -/
theorem linked_settled (h : Linked x k l) (hsettled : l.Settled) :
    l.client.state = .established ∧ l.client.negotiated = some (clientTerms c s) ∧
      l.server.state = .established ∧ l.server.negotiated = some (serverTerms c s) := by
  obtain ⟨todoC, owesC, todoS, owesS, hclient, hserver, htoClient, htoServer, -⟩ := h
  obtain ⟨hstreamS, hstreamC, houtC, houtS⟩ := hsettled
  have hfeedC : l.client.reader.buf ++ packetStream owesS = packetStream todoC := by
    simpa [Feeds, pending, hstreamC, houtS] using htoClient
  have hfeedS : l.server.reader.buf ++ packetStream owesC = packetStream todoS := by
    simpa [Feeds, pending, hstreamS, houtC] using htoServer
  have harrivedC : owesS = [] → todoC = [] := fun howes =>
    stream_arrived todoC [] hclient.waiting hclient.stage.packable (by
      rw [howes] at hfeedC
      simpa using hfeedC)
  rcases clientStage_owes hclient.stage with ⟨first, hfirst, htodoC, howesC⟩ | howesC
  · -- a client that still waits for the CC has nothing to wait for
    exfalso
    rcases serverStage_owes hserver.stage with htodoS | howesS | howesS
    · have hnil := stream_arrived [x.request] x.connectTpdus hserver.waiting
        (by simp [x.request_packable]) (by
          rw [howesC, htodoS] at hfeedS
          exact hfeedS)
      cases hnil
    · have hnil := stream_arrived [first] x.acceptTpdus hclient.waiting
        (by simp [hfirst]) (by
          rw [howesS, htodoC] at hfeedC
          exact hfeedC)
      cases hnil
    · rw [harrivedC howesS] at htodoC
      cases htodoC
  · have htodoS : todoS = [] :=
      stream_arrived todoS [] hserver.waiting hserver.stage.packable (by
        rw [howesC] at hfeedS
        simpa using hfeedS)
    subst htodoS
    obtain ⟨hserverUp, hserverTerms, howesS⟩ := serverStage_nil hserver.stage
    have htodoC := harrivedC howesS
    subst htodoC
    obtain ⟨hclientUp, hclientTerms⟩ := clientStage_nil hclient.stage
    exact ⟨hclientUp, hclientTerms, hserverUp, hserverTerms⟩

/-- The terms of compatible configurations are the same, and within both of them. -/
theorem terms_agree (hcompat : Compatible c s)
    (h : l.client.state = .established ∧ l.client.negotiated = some (clientTerms c s) ∧
      l.server.state = .established ∧ l.server.negotiated = some (serverTerms c s)) :
    Agreed c s l := by
  obtain ⟨hclientUp, hclientTerms, hserverUp, hserverTerms⟩ := h
  obtain ⟨hdataC, hdataS⟩ := agreedData_le c s
  have hsizes := hcompat.sizes
  refine ⟨hclientUp, hserverUp, clientTerms c s, serverTerms c s, hclientTerms, hserverTerms, rfl, rfl,
    rfl, hdataC, hdataS, ?_, ?_⟩
  · simp only [clientTerms]
    split <;> omega
  · simp only [serverTerms]
    split <;> omega

theorem opened_linked (x : Exchange c s) (now : Instant) :
    ∃ l k, opened c s now = some l ∧ Linked x k l := by
  have hqueued : queueTpdu (.connectionRequest (proposedConnection c)) (client c) =
      done { client c with out := [packet x.request] } := by
    unfold queueTpdu
    rw [x.request_ok]
    exact queueTpkt_eq x.request_packable (client c)
  obtain ⟨d, hd⟩ : ∃ d, start now (client c) = done { client c with
      out := [packet x.request], state := .connecting, connectDeadline := d } := by
    unfold start
    rw [if_neg (by simp [client, new]), if_neg (by simp [client, new])]
    have hsame : Cotp.Connect.request localRef (client c).cfg.localEnd.tSel
        (client c).cfg.remoteEnd.tSel (client c).cfg.tpduSizeExp.toNat = proposedConnection c := rfl
    rw [hsame, hqueued]
    simp only [andThen, done, armConnectDeadline]
    split
    · exact ⟨_, rfl⟩
    · exact ⟨_, rfl⟩
  refine ⟨_, _, by rw [opened, hd]; rfl, x.confirm :: x.acceptTpdus, x.connectTpdus,
    x.request :: x.connectTpdus, x.confirm :: x.acceptTpdus, ⟨?_, ?_, rfl⟩, ⟨?_, ?_, rfl⟩, ?_, ?_,
    Nat.le_refl _⟩
  · exact .connecting ⟨rfl, rfl, rfl, rfl, rfl⟩ rfl rfl rfl
  · simp [packet_eq]
  · exact .idle ⟨rfl, rfl, rfl, rfl, rfl⟩ rfl rfl rfl
  · simp [server, new]
  · simp [Feeds, pending, server, client, new]
  · simp [Feeds, pending, server, new, packetStream_cons]

end Linked

/-! ### The result -/

/-- Between compatible configurations whose messages can be encoded and taken, every way of
cutting and delaying the two streams brings both ends up in agreement. -/
theorem handshake_agrees {c s : AssociationConfig} (x : Exchange c s) (hcompat : Compatible c s) :
    HandshakeAgrees c s := by
  intro now
  obtain ⟨l, k, hopened, hlinked⟩ := opened_linked x now
  refine ⟨l, hopened, k, fun moves hintime => ?_⟩
  obtain ⟨l', hrun, k', hlinked', hle⟩ := linked_run hcompat hlinked hintime
  exact ⟨l', hrun, Nat.le_trans (Nat.le_add_left _ _) hle, fun hsettled =>
    terms_agree hcompat (linked_settled hlinked' hsettled)⟩

/-- What a write that succeeds produces. -/
def encoded (w : Except Error Bytes) : Bytes := w.toOption.getD []

theorem encoded_ok {w : Except Error Bytes} (h : w.isOk = true) : w = .ok (encoded w) := by
  cases w with
  | error e => cases h
  | ok bs => rfl

/-- The messages between two ends with the default configuration. -/
def defaultExchange : Exchange {} {} where
  request := encoded (Cotp.Tpdu.connectionRequest (proposedConnection {})).write
  confirm := encoded (connectionConfirm {} (proposedConnection {})).write
  connect := encoded (associateRequestTsdu {})
  accept := encoded (associateAnswerTsdu {} (proposedParameters {}) mmsContextDefault
    acseContextDefault (proposal {}))
  request_ok := encoded_ok (by decide +kernel)
  confirm_ok := encoded_ok (by decide +kernel)
  connect_ok := encoded_ok (by decide +kernel)
  accept_ok := encoded_ok (by decide +kernel)
  connect_takeable := Or.inl (by decide +kernel)
  accept_takeable := Or.inl (by decide +kernel)

theorem handshake_agrees_default : HandshakeAgrees {} {} :=
  handshake_agrees defaultExchange ⟨by decide, by decide, by decide⟩

/-- Every message of the handshake, delivered whole. -/
def wholeMessages : List Move :=
  [.transmit .client, .deliver .server 65535 1, .transmit .server, .deliver .client 65535 2,
    .transmit .client, .deliver .server 65535 3, .transmit .server, .deliver .client 65535 4]

/-- A client that wants no request outstanding panics on the answer it asked for. -/
theorem handshake_panics : ¬ HandshakeAgrees { maxOutstanding := 0 } {} := by
  intro h
  obtain ⟨l, hl, bound, hmoves⟩ := h 0
  have hpanic : (opened { maxOutstanding := 0 } {} 0).bind
      (fun l => run Link.step l wholeMessages) = none := by
    rw [← Option.isNone_iff_eq_none]
    decide +kernel
  have hintime : Meets Link.step Link.InTime l wholeMessages := by
    simp [Meets, wholeMessages, Link.InTime]
  obtain ⟨l', hrun, -⟩ := hmoves wholeMessages hintime
  rw [hl, Option.bind_some, hrun] at hpanic
  cases hpanic

end Iec61850.Mms.Association
