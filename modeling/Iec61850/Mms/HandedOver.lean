import Iec61850.Mms.AssociationRuns
import Iec61850.Theory.History

/-!
# What is handed over while an association is up

Requests, responses and unconfirmed PDUs are handed over to the application between
`Established` and `Closed`. The handlers for user data do not look at the state they are in, so
this holds of the runs in which the peer does not make use of that: the condition
`HandedOverWhenUp` on each TPDU says exactly when it does not.
-/

namespace Iec61850.Mms

open Theory

/-! ### Kinds of events and of PDUs -/

/-- The events that hand a PDU over: `Request`, `Response` and `Unconfirmed`. -/
def AssociationEvent.isReport : AssociationEvent → Bool
  | .request _ _ | .response _ _ | .unconfirmed _ => true
  | _ => false

def AssociationEvent.isEstablished : AssociationEvent → Bool
  | .established _ => true
  | _ => false

def AssociationEvent.isClosed : AssociationEvent → Bool
  | .closed _ => true
  | _ => false

namespace Association

/-- The PDUs that are handed over. -/
def reports (limits : Limits) (p : Bytes) : Bool :=
  match Pdu.parse p limits with
  | .ok (.reject _) | .ok (.cancelRequest _) | .ok (.cancelResponse _) => false
  | .ok (.cancelError _ _) | .ok .concludeRequest | .ok .concludeResponse => false
  | .ok _ => true
  | .error _ => false

/-- The PDUs that end the association. -/
def concludes (limits : Limits) (p : Bytes) : Bool :=
  match Pdu.parse p limits with
  | .ok .concludeRequest | .ok .concludeResponse => true
  | _ => false

/-- The PDUs of one TSDU that stand behind a conclude. -/
def afterConclude (limits : Limits) (ps : List Bytes) : List Bytes :=
  (ps.dropWhile (fun p => !concludes limits p)).tail

variable {limits : Limits} {p : Bytes} {c : Core} {es : List Effect}
  {T U : List (Association × Bytes)}

theorem afterConclude_cons (ps : List Bytes) : afterConclude limits (p :: ps) =
      if concludes limits p then ps else afterConclude limits ps := by
  unfold afterConclude
  cases h : concludes limits p with
  | true => simp [h]
  | false => simp [h]

theorem mmsEffects_of_concludes (h : concludes limits p = true) :
    ∃ r, mmsEffects limits p = [.close r] := by
  unfold concludes at h
  unfold mmsEffects
  cases hp : Pdu.parse p limits with
  | error e => simp [hp] at h
  | ok pdu =>
    rw [hp] at h
    cases pdu with
    | concludeRequest => exact ⟨.peerReleased, rfl⟩
    | concludeResponse => exact ⟨.released, rfl⟩
    | _ => simp at h

/-- What one PDU that does not end the association does: at most one request is answered, and
one event is emitted. -/
structure Delivery (limits : Limits) (p : Bytes) (c d : Core) (ev : AssociationEvent) : Prop where
  eq : d = { c with outstanding := d.outstanding, events := c.events.push ev }
  outstanding : d.outstanding = c.outstanding ∨ ∃ id, d.outstanding = c.outstanding.erase id
  report : ev.isReport = reports limits p
  notEstablished : ev.isEstablished = false
  notClosed : ev.isClosed = false

theorem delivery_of_not_concludes (h : concludes limits p = false) (c : Core) :
    ∃ ev, Delivery limits p c (c.after (mmsEffects limits p)) ev := by
  have hreports : reports limits p = match Pdu.parse p limits with
      | .ok (.reject _) | .ok (.cancelRequest _) | .ok (.cancelResponse _) => false
      | .ok (.cancelError _ _) | .ok .concludeRequest | .ok .concludeResponse => false
      | .ok _ => true
      | .error _ => false := rfl
  unfold concludes at h
  unfold mmsEffects
  cases hp : Pdu.parse p limits with
  | error e =>
    rw [hp] at hreports
    simp only [Core.after_cons, Core.after_nil, Effect.apply]
    cases (peekInvokeId p).filter (fun id => c.outstanding.contains id) with
    | none => exact ⟨_, rfl, Or.inl rfl, hreports.symm, rfl, rfl⟩
    | some id => exact ⟨_, rfl, Or.inr ⟨id, rfl⟩, hreports.symm, rfl, rfl⟩
  | ok pdu =>
    rw [hp] at hreports h
    cases pdu with
    | confirmedResponse id service =>
      exact ⟨_, rfl, Or.inr ⟨id, rfl⟩, hreports.symm, rfl, rfl⟩
    | confirmedError id modifier error =>
      exact ⟨_, rfl, Or.inr ⟨id, rfl⟩, hreports.symm, rfl, rfl⟩
    | cancelResponse id => exact ⟨_, rfl, Or.inr ⟨id, rfl⟩, hreports.symm, rfl, rfl⟩
    | reject r =>
      simp only [pduEffects]
      cases r.originalInvokeId with
      | none => exact ⟨_, rfl, Or.inl rfl, hreports.symm, rfl, rfl⟩
      | some id => exact ⟨_, rfl, Or.inr ⟨id, rfl⟩, hreports.symm, rfl, rfl⟩
    | concludeRequest => simp at h
    | concludeResponse => simp at h
    | _ => exact ⟨_, rfl, Or.inl rfl, hreports.symm, rfl, rfl⟩

/-! ### Handing over while up -/

/-- A PDU is handed over after `Established` and not after `Closed`. -/
def HandedOverUp (pre : List AssociationEvent) (e : AssociationEvent) : Prop :=
  e.isReport = true → (∃ n, .established n ∈ pre) ∧ ∀ r, .closed r ∉ pre

/-- What has to hold of a TPDU for nothing to be handed over outside the life of the
association: the handlers do not look at the state themselves. -/
structure HandedOverWhenUp (a : Association) (tpdu : Bytes) : Prop where
  afterHandshake : ∀ p ∈ deliveredBy a tpdu, reports a.cfg.limits p = true →
    a.negotiated.isSome = true
  beforeConclude : ∀ p ∈ afterConclude a.cfg.limits (deliveredBy a tpdu),
    reports a.cfg.limits p = false
  afterConnection : (completes a tpdu).isSome = true →
    a.state = .associating ∨ a.negotiated.isSome = true

/-- The part of the invariant that looks at the core only. -/
structure UpHistory (c : Core) : Prop where
  established : c.negotiated.isSome = true ↔ ∃ n, .established n ∈ c.history
  closed : ∀ r, .closed r ∈ c.history → c.state = .closed
  justified : Justified HandedOverUp c.history

theorem UpHistory.emit {d : Core} (h : UpHistory c) {ev : AssociationEvent}
    (hhistory : d.history = c.history ++ [ev]) (hstate : d.state = c.state)
    (hnegotiated : d.negotiated = c.negotiated) (hest : ev.isEstablished = false)
    (hclosed : ev.isClosed = false)
    (hup : ev.isReport = true → c.negotiated.isSome = true ∧ c.state ≠ .closed) : UpHistory d := by
  constructor
  · rw [hnegotiated, h.established, hhistory]
    constructor
    · rintro ⟨n, hn⟩
      exact ⟨n, List.mem_append_left _ hn⟩
    · rintro ⟨n, hn⟩
      rw [List.mem_append, List.mem_singleton] at hn
      rcases hn with hn | rfl
      · exact ⟨n, hn⟩
      · cases hest
  · intro r hr
    rw [hhistory, List.mem_append, List.mem_singleton] at hr
    rcases hr with hr | rfl
    · rw [hstate]
      exact h.closed r hr
    · cases hclosed
  · rw [hhistory, justified_concat]
    refine ⟨h.justified, fun hreport => ?_⟩
    obtain ⟨hn, hopen⟩ := hup hreport
    exact ⟨h.established.mp hn, fun r hr => hopen (h.closed r hr)⟩

theorem UpHistory.quiet {c d : Core} (h : UpHistory c) (hhistory : d.history = c.history)
    (hstate : d.state = c.state ∨ c.state ≠ .closed)
    (hnegotiated : d.negotiated = c.negotiated) : UpHistory d := by
  constructor
  · rw [hnegotiated, hhistory]
    exact h.established
  · intro r hr
    rw [hhistory] at hr
    rcases hstate with hstate | hopen
    · rw [hstate]
      exact h.closed r hr
    · exact absurd (h.closed r hr) hopen
  · rw [hhistory]
    exact h.justified

theorem UpHistory.close (h : UpHistory c) (r : CloseReason) : UpHistory (c.after [.close r]) := by
  simp only [Core.after_cons, Core.after_nil, Effect.apply]
  split
  · exact h
  · constructor
    · rw [show (Core.emit (.closed r) { c with state := .closed, outstanding := {} }).negotiated =
        c.negotiated from rfl, h.established]
      constructor
      · rintro ⟨n, hn⟩
        exact ⟨n, List.mem_append_left _ hn⟩
      · rintro ⟨n, hn⟩
        rcases List.mem_append.mp hn with hn | hn
        · exact ⟨n, hn⟩
        · rw [List.mem_singleton] at hn
          cases hn
    · intro _ _
      rfl
    · exact justified_concat.mpr ⟨h.justified, fun hreport => by cases hreport⟩

theorem UpHistory.ends (h : UpHistory c) (hes : Ends es) : UpHistory (c.after es) := by
  have hemit : ∀ ev : AssociationEvent, ev.isEstablished = false → ev.isClosed = false →
      ev.isReport = false → UpHistory (c.emit ev) := fun ev he hc hr =>
    h.emit rfl rfl rfl he hc (fun hreport => by rw [hr] at hreport; cases hreport)
  cases hes with
  | closed r => exact h.close r
  | refused layer code r => exact (hemit (.refused layer code) rfl rfl rfl).close r
  | failed e r => exact (hemit (.malformed none e) rfl rfl rfl).close r

/-- A walk over user data, by induction on what it delivers: as long as no conclude was among
it the association is open, and behind a conclude nothing is handed over. -/
theorem UpHistory.delivered {ps : List Bytes} (h : UpHistory c)
    (hup : ∀ p ∈ ps, reports limits p = true → c.negotiated.isSome = true)
    (hafter : ∀ p ∈ afterConclude limits ps, reports limits p = false)
    (hopen : c.state ≠ .closed ∨ ∀ p ∈ ps, reports limits p = false) :
    UpHistory (c.after (ps.flatMap (mmsEffects limits))) := by
  induction ps generalizing c with
  | nil => exact h
  | cons p ps ih =>
    rw [List.flatMap_cons, Core.after_append]
    rw [afterConclude_cons] at hafter
    cases hconcludes : concludes limits p with
    | true =>
      obtain ⟨r, hr⟩ := mmsEffects_of_concludes hconcludes
      simp only [hconcludes, if_true] at hafter
      rw [hr]
      have hclosed := h.close r
      refine ih hclosed ?_ ?_ (Or.inr hafter)
      · intro q hq hreport
        rw [hafter q hq] at hreport
        cases hreport
      · intro q hq
        exact hafter q ((List.dropWhile_suffix _).mem (List.mem_of_mem_tail hq))
    | false =>
      obtain ⟨ev, hdelivery⟩ := delivery_of_not_concludes hconcludes c
      simp only [hconcludes, Bool.false_eq_true, if_false] at hafter
      have hfields := hdelivery.eq
      generalize hd : c.after (mmsEffects limits p) = d at hdelivery hfields
      have hstate : d.state = c.state := by rw [hfields]
      have hnegotiated : d.negotiated = c.negotiated := by rw [hfields]
      have hstep : UpHistory d := by
        refine h.emit (by rw [hfields]; rfl) hstate hnegotiated hdelivery.notEstablished
          hdelivery.notClosed fun hreport => ?_
        rw [hdelivery.report] at hreport
        refine ⟨hup p List.mem_cons_self hreport, ?_⟩
        rcases hopen with hopen | hnone
        · exact hopen
        · rw [hnone p List.mem_cons_self] at hreport
          cases hreport
      refine ih hstep ?_ hafter ?_
      · intro q hq hreport
        rw [hnegotiated]
        exact hup q (List.mem_cons_of_mem p hq) hreport
      · rw [hstate]
        exact hopen.imp_right fun hnone q hq => hnone q (List.mem_cons_of_mem p hq)

instance HandedOverWhenUp.decidable (a : Association) (tpdu : Bytes) :
    Decidable (HandedOverWhenUp a tpdu) :=
  decidable_of_iff
    ((∀ p ∈ deliveredBy a tpdu, reports a.cfg.limits p = true → a.negotiated.isSome = true) ∧
      (∀ p ∈ afterConclude a.cfg.limits (deliveredBy a tpdu), reports a.cfg.limits p = false) ∧
      ((completes a tpdu).isSome = true → a.state = .associating ∨ a.negotiated.isSome = true))
    ⟨fun h => ⟨h.1, h.2.1, h.2.2⟩, fun h => ⟨h.1, h.2, h.3⟩⟩

/-- A connection was made at the transport layer. -/
def Connected (T : List (Association × Bytes)) : Prop :=
  ∃ v ∈ T, connects v.1.core v.2 = true

/-- A connection was made at the transport layer, and after it a session CONNECT or ACCEPT
completed the exchange of all layers above it. -/
def Exchanged (T : List (Association × Bytes)) : Prop :=
  ∃ v w, [v, w].Sublist T ∧ connects v.1.core v.2 = true ∧ (completes w.1 w.2).isSome = true

theorem Connected.append (h : Connected T) : Connected (T ++ U) := by
  obtain ⟨v, hv, hconnects⟩ := h
  exact ⟨v, List.mem_append_left U hv, hconnects⟩

theorem Exchanged.append (h : Exchanged T) : Exchanged (T ++ U) := by
  obtain ⟨v, w, hsub, hrest⟩ := h
  exact ⟨v, w, hsub.trans (List.sublist_append_left T U), hrest⟩

theorem Connected.exchanged {w : Association × Bytes} (h : Connected T)
    (hw : (completes w.1 w.2).isSome = true) : Exchanged (T ++ [w]) := by
  obtain ⟨v, hv, hconnects⟩ := h
  exact ⟨v, w, (List.singleton_sublist.mpr hv).append (List.Sublist.refl [w]), hconnects, hw⟩

/-- The invariant: what is handed over is, and the exchange is behind an association that was
established. -/
structure UpJournal (T : List (Association × Bytes)) (c : Core) : Prop where
  up : UpHistory c
  connected : c.state = .associating → Connected T
  exchanged : c.negotiated.isSome = true → Exchanged T

theorem UpJournal.calmer {d : Core} (h : UpJournal T c) (hup : UpHistory d) (hcalm : Calmer c d) :
    UpJournal (T ++ U) d := by
  refine ⟨hup, fun hstate => ?_, fun hn => ?_⟩
  · rcases hcalm.state with heq | hclosed
    · rw [heq] at hstate
      exact (h.connected hstate).append
    · rw [hclosed] at hstate
      cases hstate
  · rw [hcalm.negotiated] at hn
    exact (h.exchanged hn).append

theorem UpJournal.close (h : UpJournal T c) (r : CloseReason) :
    UpJournal T (c.after [.close r]) := by
  have hcalm := calmer_after (Ends.closed r).passive c
  have hstep := h.calmer (U := []) (h.up.close r) hcalm
  rwa [List.append_nil] at hstep

theorem UpJournal.tpdu {a : Association} {tpdu : Bytes} (hopen : a.state ≠ .closed)
    (h : UpJournal T a.core) (hC : HandedOverWhenUp a tpdu) (hes : Causes a tpdu es) :
    UpJournal (T ++ [(a, tpdu)]) (a.core.after es) := by
  have hopen' : a.core.state ≠ .closed := hopen
  cases hes with
  | nothing => exact h.calmer h.up (Calmer.refl _)
  | ends hends => exact h.calmer (h.up.ends hends) (calmer_after hends.passive _)
  | endsAfterContexts k hends =>
    have hup : UpHistory (a.core.after [.contexts k]) := h.up.quiet rfl (Or.inl rfl) rfl
    refine h.calmer (hup.ends hends) (calmer_after ?_ _)
    intro e he
    rcases List.mem_cons.mp he with rfl | he
    · rfl
    · exact hends.passive e he
  | connects size hconnects htail =>
    have hin : UpJournal (T ++ [(a, tpdu)])
        (a.core.after [.resize size, .enter .associating]) := by
      refine ⟨h.up.quiet rfl (Or.inr hopen') rfl, fun _ => ?_, fun hn => ?_⟩
      · exact ⟨(a, tpdu), List.mem_append_right T List.mem_cons_self, hconnects⟩
      · exact (h.exchanged hn).append
    rcases htail with rfl | hends
    · exact hin
    · have hout := hin.calmer (U := []) (hin.up.ends hends) (calmer_after hends.passive _)
      rwa [List.append_nil] at hout
  | connectFails size hconnects hends =>
    have hin : UpJournal (T ++ [(a, tpdu)]) (a.core.after [.resize size]) :=
      ⟨h.up.quiet rfl (Or.inl rfl) rfl, fun hs => (h.connected hs).append,
        fun hn => (h.exchanged hn).append⟩
    have hout := hin.calmer (U := []) (hin.up.ends hends) (calmer_after hends.passive _)
    rwa [List.append_nil] at hout
  | completes k n hcompletes hsize =>
    have hsome : (completes a tpdu).isSome = true := by rw [hcompletes]; rfl
    refine ⟨⟨?_, ?_, ?_⟩, fun hs => ?_, fun _ => ?_⟩
    · refine ⟨fun _ => ⟨n, List.mem_append_right _ List.mem_cons_self⟩, fun _ => rfl⟩
    · intro r hr
      rcases List.mem_append.mp hr with hr | hr
      · exact absurd (h.up.closed r hr) hopen'
      · rw [List.mem_singleton] at hr
        cases hr
    · exact justified_concat.mpr ⟨h.up.justified, fun hreport => by cases hreport⟩
    · cases hs
    · rcases hC.afterConnection hsome with hstate | hn
      · exact (h.connected hstate).exchanged hsome
      · exact (h.exchanged hn).append
  | carries hcarried =>
    refine h.calmer ?_ (calmer_after hcarried.passive _)
    obtain ⟨tail, htail, rfl⟩ := hcarried
    have hup := h.up.delivered hC.afterHandshake hC.beforeConclude (Or.inl hopen')
    rw [Core.after_append]
    rcases htail with rfl | ⟨r, rfl⟩
    · exact hup
    · exact hup.close r

theorem UpHistory.timeouts (h : UpHistory c) (ids : List Int) :
    UpHistory (c.after (ids.map timeoutEffect)) := by
  induction ids generalizing c with
  | nil => exact h
  | cons id ids ih =>
    exact ih (h.emit rfl rfl rfl rfl rfl (fun hreport => by cases hreport))

theorem passive_timeouts (ids : List Int) : ∀ e ∈ ids.map timeoutEffect, e.passive = true := by
  intro e he
  obtain ⟨id, -, rfl⟩ := List.mem_map.mp he
  rfl

theorem UpJournal.op {a : Association} {op : Op} (h : UpJournal T a.core) (hes : OpCauses a op es) :
    UpJournal T (a.core.after es) := by
  have hcalmer : ∀ d, UpHistory d → Calmer a.core d → UpJournal T d := by
    intro d hup hcalm
    have hstep := h.calmer (U := []) hup hcalm
    rwa [List.append_nil] at hstep
  cases hes with
  | nothing => exact h
  | starts now hrole hidle =>
    have hidle' : a.core.state = .idle := hidle
    refine ⟨h.up.quiet rfl (Or.inr ?_) rfl, fun hs => (by cases hs), h.exchanged⟩
    rw [hidle']
    exact Phase.noConfusion
  | expires now hdeadline => exact hcalmer _ (h.up.timeouts _) (calmer_after (passive_timeouts _) _)
  | timesOut now r hdeadline hopen => exact h.close r
  | refused => exact h
  | draws now service f hcall hstate hsize =>
    exact ⟨h.up.quiet rfl (Or.inl rfl) rfl, h.connected, h.exchanged⟩
  | calls now service hcall hstate hsize deadline =>
    exact ⟨h.up.quiet rfl (Or.inl rfl) rfl, h.connected, h.exchanged⟩
  | releases now hstate =>
    have hstate' : a.core.state = .established := hstate
    refine ⟨h.up.quiet rfl (Or.inr ?_) rfl, fun hs => (by cases hs), h.exchanged⟩
    rw [hstate']
    exact Phase.noConfusion
  | aborts r => exact h.close r
  | polls => exact ⟨h.up.quiet rfl (Or.inl rfl) rfl, h.connected, h.exchanged⟩

theorem upJournal_new (cfg : AssociationConfig) (role : Role) :
    UpJournal [] (new cfg role).core := by
  refine ⟨⟨⟨fun h => ?_, ?_⟩, ?_, justified_nil _⟩, fun h => ?_, fun h => ?_⟩
  · cases h
  · rintro ⟨n, hn⟩
    cases hn
  · intro r hr
    cases hr
  · cases h
  · cases h

/-- In a run in which no TPDU brings a PDU before the handshake or behind a conclude, and no
handshake is completed without a connection, whatever is handed over is handed over after
`Established` and before `Closed`, and `Established` comes after the whole exchange. -/
theorem handed_over_while_up (cfg : AssociationConfig) (role : Role) (ops : List Op)
    (a : Association) (hC : Meets perform (EachVisit HandedOverWhenUp) (new cfg role) ops)
    (hrun : run perform (new cfg role) ops = some a) : Justified HandedOverUp a.events.history ∧
      ((∃ n, .established n ∈ a.events.history) → Exchanged (handled (new cfg role) ops)) := by
  have hstep : ∀ T s op s', UpJournal T s.core → EachVisit HandedOverWhenUp s op →
      perform s op = some s' → UpJournal (T ++ visits s op) s'.core := by
    intro T s op s' hs hCs hs'
    have h : UpJournal (T ++ marks (fun a tpdu => [(a, tpdu)]) (fun _ _ => []) s op) s'.core := by
      refine perform_journal (fun T c hc => hc.close .protocolError)
        (fun T a tpdu es hopen hJ hCa hes => hJ.tpdu hopen hCa hes) (fun _ _ _ => rfl) ?_ hs hCs hs'
      intro T a es hJ hes
      rw [List.append_nil]
      exact hJ.op hes
    rwa [marks_visits] at h
  have hJ := journal_run hstep (upJournal_new cfg role) hC hrun
  rw [List.nil_append] at hJ
  exact ⟨hJ.up.justified, fun hn => hJ.exchanged (hJ.up.established.mpr hn)⟩

/-- A server that is connected, established and asked for its identity. -/
def servedRun : List Op :=
  [.onBytes 0 crPacket, .onBytes 0 (connectPacket {}), .onBytes 0 (mmsPacket [identifyPdu 1])]

theorem handed_over_while_up_served :
    ∃ a, run perform (server {}) servedRun = some a ∧ Justified HandedOverUp a.events.history ∧
      ((∃ n, .established n ∈ a.events.history) → Exchanged (handled (server {}) servedRun)) := by
  have hsome : (run perform (server {}) servedRun).isSome = true := by decide +kernel
  obtain ⟨a, ha⟩ := Option.isSome_iff_exists.mp hsome
  exact ⟨a, ha, handed_over_while_up {} .server servedRun a (by decide +kernel) ha⟩

/-- A server hands over a request that comes before any handshake. -/
theorem handed_over_before_handshake :
    ¬ ∀ (cfg : AssociationConfig) (role : Role) (ops : List Op) (a : Association),
      run perform (new cfg role) ops = some a → Justified HandedOverUp a.events.history := by
  intro h
  have hhistory : (run perform (new {} .server) [.onBytes 0 (mmsPacket [identifyPdu 1])]).map
      (fun a => a.events.history) = some [.request 1 (identifyPdu 1)] := by decide +kernel
  obtain ⟨a, ha, hevents⟩ := Option.map_eq_some_iff.mp hhistory
  have hjustified := h {} .server _ a ha
  rw [hevents] at hjustified
  obtain ⟨⟨n, hn⟩, -⟩ := hjustified [] _ (List.prefix_refl _) rfl
  cases hn

end Association

end Iec61850.Mms
