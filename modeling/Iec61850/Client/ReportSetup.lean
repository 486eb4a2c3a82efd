import Iec61850.Client.ReportAnswers

/-!
# What setting up a report control block keeps to

What a service says is written is written, a block is turned on only after that, and what is shown
of a block is the block's. The number of results is not looked at, so all this holds as long as the
answers a service goes on from have as many results as there were items.
-/

namespace Iec61850.Client

open Theory Ber Mms Server

/-! ### What the services keep to -/

def RcbCall.Miscounted (k : RcbCall) : Prop := k.answer.Miscounts k.asked

/-- Each of the writes was asked for, and individually reported written. -/
def AllWritten (writes : List (Bytes × Value)) (calls : List RcbCall) : Prop :=
  ∀ w ∈ writes, ∃ k ∈ calls, ∃ asked results, k.asked = .write asked ∧
    k.answer = .response (.ok (.write results)) ∧ results.length = asked.length ∧
    (w, WriteResult.success) ∈ asked.zip results

/-- The block is what the last call has read, every attribute taken from its own result. -/
def OwnIn (limits : Limits) (base : Bytes) (buffered : Bool) (calls : List RcbCall) (rcb : Rcb) :
    Prop :=
  ∃ k results, calls.getLast? = some k ∧
    k.asked = .read ((attributeNames buffered).map (RcbAttribute.under base)) ∧
    k.answer.read? = some results ∧ results.length = (attributeNames buffered).length ∧
    rcb = ({ reference := base, buffered } : Rcb).updated (valueOf limits buffered results)

/-- What turns reporting on. -/
def enabling (base : Bytes) (on : Bool) : Asked :=
  .write [(RcbAttribute.under base .rptEna, .boolean on)]

/-- What the reading of a block is to keep to. -/
structure ReadKept (limits : Limits) (base : Bytes) (buffered : Bool) (c : RcbSession)
    (result : Except Failure Rcb) : Prop where
  own : ∀ rcb, result = .ok rcb → OwnIn limits base buffered c.calls rcb
  counted : ∀ rcb, result = .ok rcb → ∀ k ∈ c.calls, ¬ k.Miscounted

/-- What the configuration of a block is to keep to. -/
structure WriteKept (writes : List (Bytes × Value)) (c : RcbSession)
    (result : Except Failure Unit) : Prop where
  written : result = .ok () → AllWritten writes c.calls
  counted : result = .ok () → ∀ k ∈ c.calls, ¬ k.Miscounted

/-- What the enabling of a block is to keep to. -/
structure EnableKept (limits : Limits) (base : Bytes) (buffered : Bool)
    (writes : List (Bytes × Value)) (c : RcbSession) (result : Except Failure Rcb) : Prop where
  written : ∀ rcb, result = .ok rcb → AllWritten writes c.calls
  enabled : ∀ before k after, c.calls = before ++ k :: after → k.asked = enabling base true →
    AllWritten writes before
  own : ∀ rcb, result = .ok rcb → OwnIn limits base buffered c.calls rcb
  counted : ∀ rcb, result = .ok rcb → ∀ k ∈ c.calls, ¬ k.Miscounted

/-- What the services on a block keep to, for a client that begins with any of them. -/
structure RcbKept (limits : Limits) (answers : Nat → Answer) (up : Bool) (reference : Bytes)
    (fc : Fc) (settings : RcbSettings) : Prop where
  refused : ∀ e, rcbBase reference fc = .error e →
    ((RcbSession.fresh up).readRcb limits answers reference fc).2 = .error (.own e) ∧
    ((RcbSession.fresh up).writeRcb answers reference fc settings).2 = .error (.own e) ∧
    (RcbSession.fresh up).enableRcb limits answers reference fc settings =
      (RcbSession.fresh up, .error (.own e))
  read : ∀ base buffered, rcbBase reference fc = .ok (base, buffered) →
    ReadKept limits base buffered
      ((RcbSession.fresh up).readRcb limits answers reference fc).1
      ((RcbSession.fresh up).readRcb limits answers reference fc).2
  write : ∀ base buffered, rcbBase reference fc = .ok (base, buffered) →
    WriteKept (settingsWrites base buffered settings)
      ((RcbSession.fresh up).writeRcb answers reference fc settings).1
      ((RcbSession.fresh up).writeRcb answers reference fc settings).2
  enable : ∀ base buffered, rcbBase reference fc = .ok (base, buffered) →
    EnableKept limits base buffered (settingsWrites base buffered settings)
      ((RcbSession.fresh up).enableRcb limits answers reference fc settings).1
      ((RcbSession.fresh up).enableRcb limits answers reference fc settings).2

/-! ### What the answers have to be -/

section Answers

variable (limits : Limits) (answers : Nat → Answer) (base : Bytes) (buffered : Bool)
  (writes : List (Bytes × Value))

/-- What is asked for to read the block. -/
def reading : Asked := .read ((attributeNames buffered).map (RcbAttribute.under base))

/-- The settings can be encoded, and the answer to them speaks of no refusal. -/
def Taken (i : Nat) : Prop :=
  (∃ request, writeManyRequest writes = .ok request) ∧ (answers i).agrees = true

/-- The block is shown, and given back if it is shown enabled. -/
def TakenOver : Prop :=
  (answers 0).Shows limits buffered ∧
    ((answers 0).showsEnabled limits buffered = true → (answers 1).Accepts)

/-- The place of the settings among the calls of `enable_rcb`. -/
def settingsAt : Nat := if (answers 0).showsEnabled limits buffered then 2 else 1

/-- The place of the call that turns the block on. -/
def turnOnAt : Nat := if writes.isEmpty then 0 else settingsAt limits answers buffered + 1

/-- The block is turned on, and shown as enabled. -/
def TurnedOn (i : Nat) : Prop :=
  (answers i).Accepts ∧ (answers (i + 1)).Shows limits buffered ∧
    (answers (i + 1)).showsEnabled limits buffered = true

/-- The answers with which the block is taken over have as many results as there were items. -/
def TakeOverCounted : Prop :=
  ¬ (answers 0).Miscounts (reading base buffered) ∧
    ((answers 0).showsEnabled limits buffered = true →
      ¬ (answers 1).Miscounts (enabling base false))

/-- The answers that a service goes on from, and all before them, have as many results as there were
items. -/
structure RightlyCounted : Prop where
  /-- A block is read. -/
  read : (answers 0).Shows limits buffered → ¬ (answers 0).Miscounts (reading base buffered)
  /-- A block is configured. -/
  write : writes ≠ [] → Taken answers writes 0 → ¬ (answers 0).Miscounts (.write writes)
  /-- A block is configured to be enabled. -/
  settings : writes ≠ [] → TakenOver limits answers buffered →
    Taken answers writes (settingsAt limits answers buffered) →
    ¬ (answers (settingsAt limits answers buffered)).Miscounts (.write writes)
  /-- A block is enabled. -/
  whole : (writes ≠ [] → TakenOver limits answers buffered ∧
      Taken answers writes (settingsAt limits answers buffered)) →
    TurnedOn limits answers buffered (turnOnAt limits answers buffered writes) →
    (writes ≠ [] → TakeOverCounted limits answers base buffered) ∧
      ¬ (answers (turnOnAt limits answers buffered writes)).Miscounts (enabling base true) ∧
      ¬ (answers (turnOnAt limits answers buffered writes + 1)).Miscounts (reading base buffered)

end Answers

/-! ### Reading and configuring -/

section Services

variable {limits : Limits} {answers : Nat → Answer} {base reference : Bytes} {buffered : Bool}
  {fc fc' : Fc} {c : RcbSession} {settings : RcbSettings}

theorem mem_rcbCalled {asked : Asked} {request : ConfirmedRequest} {k : RcbCall} :
    k ∈ (c.called answers asked request).calls ↔
      k ∈ c.calls ∨ k = ⟨asked, request, answers c.calls.length⟩ := by
  rw [RcbSession.called, List.mem_append, List.mem_singleton]

theorem length_of_read {a : Answer} {results : List AccessResult} (h : a.read? = some results)
    (hright : ¬ a.Miscounts (reading base buffered)) :
    results.length = (attributeNames buffered).length := by
  by_contra hlength
  apply hright
  refine ⟨results.length, ?_, ?_⟩
  · unfold Answer.read? at h
    split at h
    · cases h
      rfl
    · cases h
  · rw [reading, Asked.size, List.length_map]
    exact hlength

theorem ownIn_called {request : ConfirmedRequest} {rcb : Rcb}
    (hrcb : (answers c.calls.length).rcb limits base buffered = .ok rcb)
    (hright : ¬ (answers c.calls.length).Miscounts (reading base buffered)) :
    OwnIn limits base buffered (c.called answers (reading base buffered) request).calls rcb := by
  obtain ⟨-, results, hresults, hupdated⟩ := Answer.rcb_eq_ok.mp hrcb
  refine ⟨⟨reading base buffered, request, answers c.calls.length⟩, results, ?_, rfl, hresults,
    length_of_read hresults hright, hupdated⟩
  rw [RcbSession.called, List.getLast?_concat]

theorem read_kept_iff (htext : BlockText base buffered fc')
    (hbase : rcbBase reference fc = .ok (base, buffered)) : ReadKept limits base buffered
        ((RcbSession.fresh true).readRcb limits answers reference fc).1
        ((RcbSession.fresh true).readRcb limits answers reference fc).2 ↔
      ((answers 0).Shows limits buffered → ¬ (answers 0).Miscounts (reading base buffered)) := by
  obtain ⟨request, hread⟩ :=
    @RcbSession.readRcb_up limits answers (RcbSession.fresh true) _ _ _ _ _ rfl hbase htext
  rw [hread]
  dsimp only
  constructor
  · intro h hshows
    obtain ⟨rcb, hrcb⟩ := hshows.exists_rcb base
    exact h.counted _ hrcb _ (mem_rcbCalled.mpr (Or.inr rfl))
  · intro h
    have hright {rcb : Rcb} (hrcb : (answers 0).rcb limits base buffered = .ok rcb) :=
      h (Answer.rcb_eq_ok.mp hrcb).1
    constructor
    · intro rcb hrcb
      exact ownIn_called hrcb (hright hrcb)
    · intro rcb hrcb k hk
      rw [List.mem_singleton.mp hk]
      exact hright hrcb

/-- A call that has no result too few and none refused reports its writes written. -/
theorem writtenIn_of_agrees {writes : List (Bytes × Value)} {calls : List RcbCall} {k : RcbCall}
    (hk : k ∈ calls) (hasked : k.asked = .write writes) (hagrees : k.answer.agrees = true)
    (hright : ¬ k.Miscounted) : AllWritten writes calls := by
  obtain ⟨results, hanswer, hall⟩ := exists_of_agrees hagrees
  have hlength : results.length = writes.length := by
    by_contra hne
    apply hright
    rw [RcbCall.Miscounted, hanswer, hasked]
    exact ⟨results.length, rfl, hne⟩
  intro w hw
  refine ⟨k, hk, writes, results, hasked, hanswer, hlength, ?_⟩
  obtain ⟨i, hi, rfl⟩ := List.getElem_of_mem hw
  have hi' : i < results.length := hlength ▸ hi
  have hpair : (writes.zip results)[i]? = some (writes[i], results[i]) := by
    rw [List.getElem?_zip_eq_some]
    exact ⟨List.getElem?_eq_getElem hi, List.getElem?_eq_getElem hi'⟩
  rw [hall _ (List.getElem_mem hi')] at hpair
  exact List.mem_of_getElem? hpair

/-- Among calls for other things, one that asked for the writes has reported them. -/
theorem not_miscounted_of_writtenIn {writes : List (Bytes × Value)} {calls : List RcbCall}
    {k : RcbCall} (hne : writes ≠ []) (hwritten : AllWritten writes calls)
    (hasked : k.asked = .write writes)
    (honly : ∀ k' ∈ calls, ∀ asked, k'.asked = .write asked → (∃ w ∈ writes, w ∈ asked) → k' = k) :
    ¬ k.Miscounted := by
  obtain ⟨w, rest, rfl⟩ := List.exists_cons_of_ne_nil hne
  obtain ⟨k', hk', asked, results, hasked', hanswer, hlength, hmem⟩ :=
    hwritten w List.mem_cons_self
  have hthis := honly k' hk' asked hasked'
    ⟨w, List.mem_cons_self, (List.of_mem_zip hmem).1⟩
  rw [hthis] at hasked' hanswer
  rintro ⟨n, hn, hsize⟩
  rw [hasked'] at hn hsize
  rw [hanswer] at hn
  cases hn
  exact hsize hlength

theorem rcbWrite_kept_iff (hbase : rcbBase reference fc = .ok (base, buffered)) :
    WriteKept (settingsWrites base buffered settings)
        ((RcbSession.fresh true).writeRcb answers reference fc settings).1
        ((RcbSession.fresh true).writeRcb answers reference fc settings).2 ↔
      (settingsWrites base buffered settings ≠ [] →
        Taken answers (settingsWrites base buffered settings) 0 →
        ¬ (answers 0).Miscounts (.write (settingsWrites base buffered settings))) := by
  cases hempty : (settingsWrites base buffered settings).isEmpty with
  | true =>
    rw [RcbSession.writeRcb_nothing hbase hempty, List.isEmpty_iff.mp hempty]
    refine iff_of_true ⟨?_, ?_⟩ fun hne => absurd rfl hne
    · intro _ w hw
      cases hw
    · intro _ k hk
      cases hk
  | false =>
    have hne := List.isEmpty_eq_false_iff.mp hempty
    cases hrequest : writeManyRequest (settingsWrites base buffered settings) with
    | error e =>
      rw [RcbSession.writeRcb_unsent hbase hempty hrequest]
      refine iff_of_true ⟨(fun h => nomatch h), fun h => nomatch h⟩ ?_
      rintro - ⟨⟨request, hok⟩, -⟩
      rw [hrequest] at hok
      cases hok
    | ok request =>
      rw [RcbSession.writeRcb_up rfl hbase hempty hrequest]
      dsimp only
      constructor
      · intro h _ htaken
        have hok := (outcome_eq_ok _).mpr htaken.2
        exact h.counted hok _ (mem_rcbCalled.mpr (Or.inr rfl))
      · intro h
        have hright (hok : (answers 0).outcome = .ok ()) :=
          h hne ⟨⟨request, hrequest⟩, (outcome_eq_ok _).mp hok⟩
        constructor
        · intro hok
          exact writtenIn_of_agrees (mem_rcbCalled.mpr (Or.inr rfl)) rfl
            ((outcome_eq_ok _).mp hok) (hright hok)
        · intro hok k hk
          rw [List.mem_singleton.mp hk]
          exact hright hok

end Services

end Iec61850.Client
