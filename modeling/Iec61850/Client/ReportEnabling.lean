import Iec61850.Client.ReportSetup

/-!
# Enabling a report control block

`enable_rcb` in its two halves: the block is taken over and configured, and it is turned on and read
back. With this the services on a block keep to what they owe exactly when every answer they go on
from has as many results as there were items (`rcb_kept_iff`).
-/

namespace Iec61850.Client

open Theory Ber Mms Server

section Services

variable {limits : Limits} {answers : Nat → Answer} {base reference : Bytes} {buffered : Bool}
  {fc fc' : Fc} {c : RcbSession} {settings : RcbSettings}

/-! ### Enabling -/

theorem fst_ne_of_mem_settingsWrites {w : Bytes × Value}
    (hw : w ∈ settingsWrites base buffered settings) : w.1 ≠ RcbAttribute.under base .rptEna := by
  have hname : ∃ a : RcbAttribute, a ≠ .rptEna ∧ w.1 = a.under base := by
    simp only [settingsWrites, List.mem_append, List.mem_map] at hw
    rcases hw with (((((⟨v, -, rfl⟩ | ⟨v, -, rfl⟩) | ⟨v, -, rfl⟩) | ⟨v, -, rfl⟩) | ⟨v, -, rfl⟩) |
      ⟨v, -, rfl⟩) | hw
    · exact ⟨.rptId, by decide, rfl⟩
    · exact ⟨.datSet, by decide, rfl⟩
    · exact ⟨.optFlds, by decide, rfl⟩
    · exact ⟨.trgOps, by decide, rfl⟩
    · exact ⟨.bufTm, by decide, rfl⟩
    · exact ⟨.intgPd, by decide, rfl⟩
    · split at hw
      · simp only [List.mem_append, List.mem_map] at hw
        rcases hw with ⟨v, -, rfl⟩ | ⟨v, -, rfl⟩
        · exact ⟨.resvTms, by decide, rfl⟩
        · exact ⟨.entryId, by decide, rfl⟩
      · cases hw
  obtain ⟨a, hne, hname⟩ := hname
  rw [hname]
  intro hsame
  have htail := List.append_cancel_left hsame
  cases a <;> first | exact hne rfl | exact absurd htail (by decide)

theorem split_unique {α : Type} {p : α → Prop} {xs before rest after : List α} {x y : α}
    (hxs : ∀ a ∈ xs, ¬ p a) (hrest : ∀ a ∈ rest, ¬ p a) (hy : p y)
    (h : xs ++ x :: rest = before ++ y :: after) : before = xs := by
  induction xs generalizing before with
  | nil =>
    cases before with
    | nil => rfl
    | cons b before =>
      have hmem : y ∈ rest := by
        rw [(List.cons.inj h).2]
        exact List.mem_append_right _ List.mem_cons_self
      exact absurd hy (hrest y hmem)
  | cons a xs ih =>
    cases before with
    | nil =>
      rw [(List.cons.inj h).1] at hxs
      exact absurd hy (hxs y List.mem_cons_self)
    | cons b before =>
      obtain ⟨hhead, htail⟩ := List.cons.inj h
      rw [hhead, ih (fun a ha => hxs a (List.mem_cons_of_mem _ ha)) htail]

/-- Enabling is asked for once, and what was written before it is what had been asked for by
then. -/
theorem enabled_iff {writes : List (Bytes × Value)} {calls rest : List RcbCall} {k : RcbCall}
    (hcalls : ∀ k ∈ calls, k.asked ≠ enabling base true) (hk : k.asked = enabling base true)
    (hrest : ∀ k ∈ rest, k.asked ≠ enabling base true) :
    (∀ before k' after, calls ++ k :: rest = before ++ k' :: after →
      k'.asked = enabling base true → AllWritten writes before) ↔ AllWritten writes calls := by
  constructor
  · intro h
    exact h calls k rest rfl hk
  · intro h before k' after hsplit hk'
    rw [@split_unique _ (fun k : RcbCall => k.asked = enabling base true) _ _ _ _ _ _ hcalls hrest
      hk' hsplit]
    exact h

theorem AllWritten.mono {writes : List (Bytes × Value)} {calls calls' : List RcbCall}
    (h : AllWritten writes calls) (hsub : ∀ k ∈ calls, k ∈ calls') : AllWritten writes calls' := by
  intro w hw
  obtain ⟨k, hk, rest⟩ := h w hw
  exact ⟨k, hsub k hk, rest⟩

theorem enable_kept_of_error {writes : List (Bytes × Value)} (f : Failure)
    (hcalls : ∀ k ∈ c.calls, k.asked ≠ enabling base true) :
    EnableKept limits base buffered writes c (.error f) where
  written := fun _ h => nomatch h
  enabled := by
    intro before k after hsplit hk
    refine absurd hk (hcalls k ?_)
    rw [hsplit]
    exact List.mem_append_right _ List.mem_cons_self
  own := fun _ h => nomatch h
  counted := fun _ h => nomatch h

/-- An enabling that got as far as turning the block on. -/
theorem enable_kept_split {writes : List (Bytes × Value)} {calls rest : List RcbCall} {k : RcbCall}
    (hc : c.calls = calls ++ k :: rest) (hcalls : ∀ k ∈ calls, k.asked ≠ enabling base true)
    (hk : k.asked = enabling base true) (hrest : ∀ k ∈ rest, k.asked ≠ enabling base true)
    (result : Except Failure Rcb) : EnableKept limits base buffered writes c result ↔
      AllWritten writes calls ∧ ∀ rcb, result = .ok rcb →
        OwnIn limits base buffered c.calls rcb ∧ ∀ k ∈ c.calls, ¬ k.Miscounted := by
  have henabled := @enabled_iff base writes calls rest k hcalls hk hrest
  constructor
  · intro h
    refine ⟨henabled.mp (hc ▸ h.enabled), ?_⟩
    intro rcb hrcb
    exact ⟨h.own rcb hrcb, h.counted rcb hrcb⟩
  · rintro ⟨hwritten, hok⟩
    refine ⟨?_, hc ▸ henabled.mpr hwritten, fun rcb hrcb => (hok rcb hrcb).1,
      fun rcb hrcb => (hok rcb hrcb).2⟩
    intro _ _
    rw [hc]
    exact hwritten.mono fun k hk => List.mem_append_left _ hk

/-- What `enable_rcb` makes of what it reads back. -/
def Answer.readBack (limits : Limits) (base : Bytes) (buffered : Bool) (a : Answer) :
    Except Failure Rcb :=
  match a.rcb limits base buffered with
  | .error f => .error f
  | .ok rcb =>
    if rcb.rptEna then .ok rcb
    else .error (.own (.invalidValue
      "the server accepted the write but did not enable reporting"))

theorem Answer.readBack_eq_ok {a : Answer} {rcb : Rcb} : a.readBack limits base buffered = .ok rcb ↔
      a.rcb limits base buffered = .ok rcb ∧ a.showsEnabled limits buffered = true := by
  unfold Answer.readBack
  cases hrcb : a.rcb limits base buffered with
  | error f => exact iff_of_false (fun h => nomatch h) fun h => nomatch h.1
  | ok shown =>
    dsimp only
    rw [Answer.rptEna_eq hrcb]
    cases a.showsEnabled limits buffered <;> simp

theorem turnOn_error (htext : BlockText base buffered fc') (hup : c.up = true) {f : Failure}
    (hverdict : (answers c.calls.length).verdict = .error f) :
    ∃ request, c.turnOn limits answers base fc =
      (c.called answers (enabling base true) request, .error f) := by
  obtain ⟨request, hrequest⟩ := htext.exists_enableRequest true
  refine ⟨request, ?_⟩
  rw [RcbSession.turnOn, RcbSession.writeOne_up hup hrequest, hverdict]
  rfl

theorem turnOn_ok (htext : BlockText base buffered fc') (hup : c.up = true)
    (hverdict : (answers c.calls.length).verdict = .ok ()) :
    ∃ request again, c.turnOn limits answers base fc =
      ((c.called answers (enabling base true) request).called answers (reading base buffered) again,
        (answers (c.calls.length + 1)).readBack limits base buffered) := by
  obtain ⟨request, hrequest⟩ := htext.exists_enableRequest true
  have hup₁ : (c.called answers (enabling base true) request).up = true :=
    Answer.alive_of_accepts ((Answer.accepts_iff _).mpr hverdict)
  have hlength : (c.called answers (enabling base true) request).calls.length =
      c.calls.length + 1 := by
    rw [RcbSession.called, List.length_append]
    rfl
  obtain ⟨again, hread⟩ := @RcbSession.readRcb_up limits answers _ _ _ _ _ _ hup₁
    (htext.again fc) htext
  refine ⟨request, again, ?_⟩
  rw [hlength] at hread
  have hone : c.writeOne answers (RcbAttribute.under base .rptEna) (.boolean true) =
      (c.called answers (enabling base true) request, .ok ()) := by
    rw [RcbSession.writeOne_up hup hrequest, hverdict]
    rfl
  rw [RcbSession.turnOn, hone]
  dsimp only
  rw [hread, Answer.readBack]
  cases (answers (c.calls.length + 1)).rcb limits base buffered with
  | error f => rfl
  | ok rcb =>
    dsimp only
    cases rcb.rptEna <;> rfl

/-- The end of the enabling, behind the calls that come before it. -/
theorem turnOn_kept_iff {writes : List (Bytes × Value)} (htext : BlockText base buffered fc')
    (hup : c.up = true) (hcalls : ∀ k ∈ c.calls, k.asked ≠ enabling base true) :
    EnableKept limits base buffered writes (c.turnOn limits answers base fc).1
        (c.turnOn limits answers base fc).2 ↔
      AllWritten writes c.calls ∧ (TurnedOn limits answers buffered c.calls.length →
        (∀ k ∈ c.calls, ¬ k.Miscounted) ∧
        ¬ (answers c.calls.length).Miscounts (enabling base true) ∧
        ¬ (answers (c.calls.length + 1)).Miscounts (reading base buffered)) := by
  cases hverdict : (answers c.calls.length).verdict with
  | error f =>
    obtain ⟨request, hrun⟩ := @turnOn_error limits answers _ _ fc _ c htext hup f hverdict
    have hnot : ¬ TurnedOn limits answers buffered c.calls.length := by
      intro hon
      rw [(Answer.accepts_iff _).mp hon.1] at hverdict
      cases hverdict
    rw [hrun]
    refine (enable_kept_split rfl hcalls rfl ?_ _).trans (and_congr Iff.rfl ?_)
    · intro k hk
      cases hk
    · exact iff_of_true (fun _ h => nomatch h) fun hon => absurd hon hnot
  | ok _ =>
    have haccepts := (Answer.accepts_iff _).mpr hverdict
    obtain ⟨request, again, hrun⟩ := @turnOn_ok limits answers _ _ fc _ c htext hup hverdict
    generalize hc₁ : c.called answers (enabling base true) request = c₁ at hrun
    have hcalls₁ : c₁.calls =
        c.calls ++ [⟨enabling base true, request, answers c.calls.length⟩] := by
      rw [← hc₁]
      rfl
    have hlength : c₁.calls.length = c.calls.length + 1 := by
      rw [hcalls₁, List.length_append]
      rfl
    have hall : (c₁.called answers (reading base buffered) again).calls = c.calls ++
        ⟨enabling base true, request, answers c.calls.length⟩ ::
          [⟨reading base buffered, again, answers (c.calls.length + 1)⟩] := by
      rw [RcbSession.called, hlength, hcalls₁]
      simp
    rw [hrun]
    refine (enable_kept_split hall hcalls rfl ?_ _).trans (and_congr Iff.rfl ?_)
    · intro k hk
      rw [List.mem_singleton.mp hk]
      exact Asked.noConfusion
    · have hcounted : (∀ k ∈ (c₁.called answers (reading base buffered) again).calls,
          ¬ k.Miscounted) ↔ (∀ k ∈ c.calls, ¬ k.Miscounted) ∧
            ¬ (answers c.calls.length).Miscounts (enabling base true) ∧
            ¬ (answers (c.calls.length + 1)).Miscounts (reading base buffered) := by
        rw [hall]
        simp [RcbCall.Miscounted, or_imp, forall_and]
      rw [hcounted]
      constructor
      · intro h hon
        obtain ⟨rcb, hrcb⟩ := hon.2.1.exists_rcb base
        exact (h rcb (Answer.readBack_eq_ok.mpr ⟨hrcb, hon.2.2⟩)).2
      · intro h rcb hback
        obtain ⟨hrcb, henabled⟩ := Answer.readBack_eq_ok.mp hback
        have hright := h ⟨haccepts, (Answer.rcb_eq_ok.mp hrcb).1, henabled⟩
        rw [← hlength] at hrcb
        refine ⟨ownIn_called hrcb ?_, hright⟩
        rw [hlength]
        exact hright.2.2

/-- Where taking the block over leaves a client that goes on. -/
structure TookOver (limits : Limits) (answers : Nat → Answer) (base : Bytes) (buffered : Bool)
    (c : RcbSession) : Prop where
  took : TakenOver limits answers buffered
  up : c.up = true
  length : c.calls.length = settingsAt limits answers buffered
  asked : ∀ k ∈ c.calls, k.asked = reading base buffered ∨ k.asked = enabling base false
  counted : (∀ k ∈ c.calls, ¬ k.Miscounted) ↔ TakeOverCounted limits answers base buffered

/-- The start of the enabling, with something to write. -/
theorem takeOver_cases (htext : BlockText base buffered fc')
    (hempty : (settingsWrites base buffered settings).isEmpty = false) :
    ∃ c', (∀ k ∈ c'.calls, k.asked = reading base buffered ∨ k.asked = enabling base false) ∧
      ((∃ f, (RcbSession.fresh true).takeOver limits answers base buffered fc settings =
          (c', .error f) ∧ ¬ TakenOver limits answers buffered) ∨
        ((RcbSession.fresh true).takeOver limits answers base buffered fc settings = (c', .ok ()) ∧
          TookOver limits answers base buffered c')) := by
  obtain ⟨request, hread⟩ := @RcbSession.readRcb_up limits answers (RcbSession.fresh true)
    _ _ _ _ _ rfl (htext.again fc) htext
  generalize hc₁ : (RcbSession.fresh true).called answers (reading base buffered) request = c₁
  have hcalls₁ : c₁.calls = [⟨reading base buffered, request, answers 0⟩] := by
    rw [← hc₁]
    rfl
  have hrun : (RcbSession.fresh true).readRcb limits answers base fc =
      (c₁, (answers 0).rcb limits base buffered) := by
    rw [hread, ← hc₁]
    rfl
  rw [RcbSession.takeOver, if_neg (by rw [hempty]; exact Bool.false_ne_true), hrun]
  have hasked₁ : ∀ k ∈ c₁.calls, k.asked = reading base buffered ∨
      k.asked = enabling base false := by
    intro k hk
    rw [hcalls₁] at hk
    rw [List.mem_singleton.mp hk]
    exact Or.inl rfl
  cases hrcb : (answers 0).rcb limits base buffered with
  | error f =>
    refine ⟨c₁, hasked₁, Or.inl ⟨f, rfl, ?_⟩⟩
    intro htook
    obtain ⟨rcb, hok⟩ := htook.1.exists_rcb base
    rw [hrcb] at hok
    cases hok
  | ok rcb =>
    have hshows := (Answer.rcb_eq_ok.mp hrcb).1
    have hup₁ : c₁.up = true := by
      rw [← hc₁]
      unfold Answer.rcb at hrcb
      change (answers 0).alive = true
      split at hrcb
      · rename_i hanswer
        rw [hanswer]
        rfl
      all_goals cases hrcb
    dsimp only
    rw [Answer.rptEna_eq hrcb]
    cases henabled : (answers 0).showsEnabled limits buffered with
    | false =>
      refine ⟨c₁, hasked₁, Or.inr ⟨rfl, ⟨hshows, ?_⟩, hup₁, ?_, hasked₁, ?_⟩⟩
      · rw [henabled]
        intro h
        cases h
      · rw [hcalls₁, settingsAt, henabled]
        rfl
      · rw [hcalls₁, TakeOverCounted, henabled]
        simp [RcbCall.Miscounted]
    | true =>
      obtain ⟨request', hrequest'⟩ := htext.exists_enableRequest false
      rw [if_pos rfl, RcbSession.writeOne_up hup₁ hrequest']
      generalize hc₂ : c₁.called answers (enabling base false) request' = c₂
      have hcalls₂ : c₂.calls = [⟨reading base buffered, request, answers 0⟩,
          ⟨enabling base false, request', answers 1⟩] := by
        rw [← hc₂, RcbSession.called, hcalls₁]
        rfl
      have hasked₂ : ∀ k ∈ c₂.calls, k.asked = reading base buffered ∨
          k.asked = enabling base false := by
        intro k hk
        rw [← hc₂] at hk
        rcases mem_rcbCalled.mp hk with hbefore | rfl
        · exact hasked₁ k hbefore
        · exact Or.inr rfl
      have hverdict : (answers c₁.calls.length).verdict = (answers 1).verdict := by
        rw [hcalls₁]
        rfl
      rw [hverdict]
      refine ⟨c₂, hasked₂, ?_⟩
      cases hone : (answers 1).verdict with
      | error f =>
        refine Or.inl ⟨f, congrArg (·, _) hc₂, ?_⟩
        intro htook
        have haccepts := (Answer.accepts_iff _).mp (htook.2 henabled)
        rw [hone] at haccepts
        cases haccepts
      | ok _ =>
        have haccepts := (Answer.accepts_iff _).mpr hone
        refine Or.inr ⟨congrArg (·, _) hc₂, ⟨hshows, fun _ => haccepts⟩, ?_, ?_, hasked₂, ?_⟩
        · rw [← hc₂, RcbSession.called, hcalls₁]
          exact Answer.alive_of_accepts haccepts
        · rw [hcalls₂, settingsAt, henabled]
          rfl
        · rw [hcalls₂, TakeOverCounted, henabled]
          simp [RcbCall.Miscounted]

/-- A call for what a block is taken over with is not one that turns it on or writes settings. -/
theorem asked_takeOver {asked : Asked}
    (h : asked = reading base buffered ∨ asked = enabling base false) :
    asked ≠ enabling base true ∧ ∀ writes, asked = .write writes →
      ∀ w ∈ settingsWrites base buffered settings, w ∉ writes := by
  rcases h with rfl | rfl
  · exact ⟨Asked.noConfusion, fun _ h => Asked.noConfusion h⟩
  · refine ⟨?_, ?_⟩
    · intro h
      simp [enabling] at h
    · intro writes h w hw hmem
      cases h
      rw [List.mem_singleton.mp hmem] at hw
      exact fst_ne_of_mem_settingsWrites hw rfl

theorem settings_ne_enabling (on : Bool) :
    Asked.write (settingsWrites base buffered settings) ≠ enabling base on := by
  intro h
  refine @fst_ne_of_mem_settingsWrites base buffered settings
    (RcbAttribute.under base .rptEna, .boolean on) ?_ rfl
  rw [Asked.write.inj h]
  exact List.mem_cons_self

/-- The enabling of a block, once it is taken over. -/
theorem configured_kept_iff (htext : BlockText base buffered fc')
    (hempty : (settingsWrites base buffered settings).isEmpty = false)
    (htook : TookOver limits answers base buffered c) (request : ConfirmedRequest)
    (hagrees : (answers (settingsAt limits answers buffered)).agrees = true) :
    let c' := c.called answers (.write (settingsWrites base buffered settings)) request
    let s := settingsAt limits answers buffered
    EnableKept limits base buffered (settingsWrites base buffered settings)
        (c'.turnOn limits answers base fc).1 (c'.turnOn limits answers base fc).2 ↔
      ¬ (answers s).Miscounts (.write (settingsWrites base buffered settings)) ∧
        (TurnedOn limits answers buffered (s + 1) →
          TakeOverCounted limits answers base buffered ∧
          ¬ (answers (s + 1)).Miscounts (enabling base true) ∧
          ¬ (answers (s + 2)).Miscounts (reading base buffered)) := by
  intro c' s
  have hanswer : answers c.calls.length = answers s := by rw [htook.length]
  have hup : c'.up = true := by
    change (answers c.calls.length).alive = true
    rw [hanswer]
    exact alive_of_agrees hagrees
  have hlength : c'.calls.length = s + 1 := by
    change (c.calls ++ [_]).length = s + 1
    rw [List.length_append, htook.length]
    rfl
  have hcalls : ∀ k ∈ c'.calls, k.asked ≠ enabling base true := by
    intro k hk
    rcases mem_rcbCalled.mp hk with hbefore | rfl
    · exact (@asked_takeOver base buffered settings _ (htook.asked k hbefore)).1
    · exact settings_ne_enabling true
  have hthis : (⟨.write (settingsWrites base buffered settings), request,
      answers c.calls.length⟩ : RcbCall) ∈ c'.calls := mem_rcbCalled.mpr (Or.inr rfl)
  have hwritten : AllWritten (settingsWrites base buffered settings) c'.calls ↔
      ¬ (answers s).Miscounts (.write (settingsWrites base buffered settings)) := by
    rw [← hanswer] at hagrees ⊢
    constructor
    · intro h
      refine @not_miscounted_of_writtenIn _ c'.calls ⟨_, request, answers c.calls.length⟩
        (List.isEmpty_eq_false_iff.mp hempty) h rfl ?_
      intro k' hk' asked hasked hcommon
      rcases mem_rcbCalled.mp hk' with hbefore | rfl
      · obtain ⟨w, hw, hmem⟩ := hcommon
        exact absurd hmem ((asked_takeOver (htook.asked k' hbefore)).2 asked hasked w hw)
      · rfl
    · intro h
      exact writtenIn_of_agrees hthis rfl hagrees h
  have hcounted : (∀ k ∈ c'.calls, ¬ k.Miscounted) ↔
      TakeOverCounted limits answers base buffered ∧
        ¬ (answers s).Miscounts (.write (settingsWrites base buffered settings)) := by
    rw [← htook.counted, ← hanswer]
    constructor
    · intro h
      exact ⟨fun k hk => h k (mem_rcbCalled.mpr (Or.inl hk)), h _ hthis⟩
    · rintro ⟨hbefore, hlast⟩ k hk
      rcases mem_rcbCalled.mp hk with hk | rfl
      · exact hbefore k hk
      · exact hlast
  rw [turnOn_kept_iff htext hup hcalls, hwritten, hcounted, hlength]
  constructor
  · rintro ⟨hright, hon⟩
    refine ⟨hright, fun h => ?_⟩
    obtain ⟨⟨htakeOver, -⟩, hrest⟩ := hon h
    exact ⟨htakeOver, hrest⟩
  · rintro ⟨hright, hon⟩
    refine ⟨hright, fun h => ?_⟩
    obtain ⟨htakeOver, hrest⟩ := hon h
    exact ⟨⟨htakeOver, hright⟩, hrest⟩

theorem enable_kept_iff (htext : BlockText base buffered fc')
    (hbase : rcbBase reference fc = .ok (base, buffered)) :
    EnableKept limits base buffered (settingsWrites base buffered settings)
        ((RcbSession.fresh true).enableRcb limits answers reference fc settings).1
        ((RcbSession.fresh true).enableRcb limits answers reference fc settings).2 ↔
      (settingsWrites base buffered settings ≠ [] → TakenOver limits answers buffered →
        Taken answers (settingsWrites base buffered settings)
          (settingsAt limits answers buffered) →
        ¬ (answers (settingsAt limits answers buffered)).Miscounts
          (.write (settingsWrites base buffered settings))) ∧
      ((settingsWrites base buffered settings ≠ [] → TakenOver limits answers buffered ∧
          Taken answers (settingsWrites base buffered settings)
            (settingsAt limits answers buffered)) →
        let t := turnOnAt limits answers buffered (settingsWrites base buffered settings)
        TurnedOn limits answers buffered t →
        (settingsWrites base buffered settings ≠ [] →
            TakeOverCounted limits answers base buffered) ∧
          ¬ (answers t).Miscounts (enabling base true) ∧
          ¬ (answers (t + 1)).Miscounts (reading base buffered)) := by
  rw [RcbSession.enableRcb, hbase]
  dsimp only
  cases hempty : (settingsWrites base buffered settings).isEmpty with
  | true =>
    have hnil := List.isEmpty_iff.mp hempty
    have htakeOver : (RcbSession.fresh true).takeOver limits answers base buffered fc settings =
        (RcbSession.fresh true, .ok ()) := by
      rw [RcbSession.takeOver, if_pos hempty]
    have hat : turnOnAt limits answers buffered (settingsWrites base buffered settings) = 0 := by
      rw [turnOnAt, if_pos hempty]
    rw [htakeOver]
    dsimp only
    rw [RcbSession.writeRcb_nothing (htext.again fc) hempty, hat, hnil]
    dsimp only
    have hwritten : AllWritten [] (RcbSession.fresh true).calls := by
      intro w hw
      cases hw
    have hnone : ∀ k ∈ (RcbSession.fresh true).calls, k.asked ≠ enabling base true := by
      intro k hk
      cases hk
    rw [turnOn_kept_iff htext rfl hnone, and_iff_right hwritten,
      and_iff_right fun h => absurd rfl h]
    constructor
    · intro h _ hon
      exact ⟨fun hne => absurd rfl hne, (h hon).2⟩
    · intro h hon
      refine ⟨?_, (h (fun hne => absurd rfl hne) hon).2⟩
      intro k hk
      cases hk
  | false =>
    have hne := List.isEmpty_eq_false_iff.mp hempty
    obtain ⟨c', hasked, ⟨f, hrun, hnot⟩ | ⟨hrun, htook⟩⟩ :=
      @takeOver_cases limits answers base buffered fc fc' settings htext hempty
    · rw [hrun]
      dsimp only
      have hkept := @enable_kept_of_error limits base buffered c'
        (settingsWrites base buffered settings) f
        fun k hk => (@asked_takeOver base buffered settings _ (hasked k hk)).1
      refine iff_of_true hkept ⟨fun _ h => absurd h hnot, ?_⟩
      intro hgoes
      exact absurd (hgoes hne).1 hnot
    · rw [hrun]
      dsimp only
      have hbefore : ∀ k ∈ c'.calls, k.asked ≠ enabling base true :=
        fun k hk => (@asked_takeOver base buffered settings _ (hasked k hk)).1
      cases hrequest : writeManyRequest (settingsWrites base buffered settings) with
      | error e =>
        have hnot : ¬ Taken answers (settingsWrites base buffered settings)
            (settingsAt limits answers buffered) := by
          rintro ⟨⟨request, hok⟩, -⟩
          rw [hrequest] at hok
          cases hok
        rw [RcbSession.writeRcb_unsent (htext.again fc) hempty hrequest]
        dsimp only
        refine iff_of_true (enable_kept_of_error _ hbefore) ⟨fun _ _ h => absurd h hnot, ?_⟩
        intro hgoes
        exact absurd (hgoes hne).2 hnot
      | ok request =>
        rw [RcbSession.writeRcb_up htook.up (htext.again fc) hempty hrequest, htook.length]
        have hat : turnOnAt limits answers buffered (settingsWrites base buffered settings) =
            settingsAt limits answers buffered + 1 := by
          rw [turnOnAt, if_neg (by rw [hempty]; exact Bool.false_ne_true)]
        cases houtcome : (answers (settingsAt limits answers buffered)).outcome with
        | error f =>
          have hnot : ¬ Taken answers (settingsWrites base buffered settings)
              (settingsAt limits answers buffered) := by
            rintro ⟨-, hagrees⟩
            rw [(outcome_eq_ok _).mpr hagrees] at houtcome
            cases houtcome
          dsimp only
          refine iff_of_true (enable_kept_of_error _ ?_) ⟨fun _ _ h => absurd h hnot, ?_⟩
          · intro k hk
            rcases mem_rcbCalled.mp hk with hk | rfl
            · exact hbefore k hk
            · exact settings_ne_enabling true
          · intro hgoes
            exact absurd (hgoes hne).2 hnot
        | ok _ =>
          have hagrees := (outcome_eq_ok _).mp houtcome
          have htaken : Taken answers (settingsWrites base buffered settings)
              (settingsAt limits answers buffered) := ⟨⟨request, hrequest⟩, hagrees⟩
          dsimp only
          rw [hat]
          refine (configured_kept_iff htext hempty htook request hagrees).trans ?_
          constructor
          · rintro ⟨hright, hon⟩
            refine ⟨fun _ _ _ => hright, fun _ h => ?_⟩
            exact ⟨fun _ => (hon h).1, (hon h).2⟩
          · rintro ⟨hright, hon⟩
            refine ⟨hright hne htook.took htaken, fun h => ?_⟩
            obtain ⟨htakeOver, hrest⟩ := hon (fun _ => ⟨htook.took, htaken⟩) h
            exact ⟨htakeOver hne, hrest⟩

/-! ### A client whose association is down -/

theorem readRcb_down (htext : BlockText base buffered fc')
    (hbase : rcbBase reference fc = .ok (base, buffered)) : ∃ f,
      (RcbSession.fresh false).readRcb limits answers reference fc =
        (RcbSession.fresh false, .error f) := by
  obtain ⟨request, hrequest⟩ := htext.exists_readRequest (attributeNames buffered)
  refine ⟨.io "association is not established", ?_⟩
  rw [RcbSession.readRcb, hbase]
  dsimp only
  rw [RcbSession.readManyResults, hrequest]
  rfl

theorem writeMany_down (writes : List (Bytes × Value)) : ∃ f,
    (RcbSession.fresh false).writeMany answers writes = (RcbSession.fresh false, .error f) := by
  rw [RcbSession.writeMany]
  cases writeManyRequest writes with
  | error e => exact ⟨.own e, rfl⟩
  | ok request => exact ⟨.io "association is not established", rfl⟩

theorem writeRcb_down (hbase : rcbBase reference fc = .ok (base, buffered)) :
    ∃ result, (RcbSession.fresh false).writeRcb answers reference fc settings =
        (RcbSession.fresh false, result) ∧
      (result = .ok () → settingsWrites base buffered settings = []) := by
  rw [RcbSession.writeRcb, hbase]
  dsimp only
  split
  · rename_i hempty
    exact ⟨.ok (), rfl, fun _ => List.isEmpty_iff.mp hempty⟩
  · obtain ⟨f, hmany⟩ := @writeMany_down answers (settingsWrites base buffered settings)
    rw [hmany]
    exact ⟨.error f, rfl, fun h => by cases h⟩

theorem enableRcb_down (htext : BlockText base buffered fc')
    (hbase : rcbBase reference fc = .ok (base, buffered)) : ∃ f,
      (RcbSession.fresh false).enableRcb limits answers reference fc settings =
        (RcbSession.fresh false, .error f) := by
  rw [RcbSession.enableRcb, hbase]
  dsimp only
  rw [RcbSession.takeOver]
  cases hempty : (settingsWrites base buffered settings).isEmpty with
  | false =>
    obtain ⟨f, hread⟩ := @readRcb_down limits answers _ _ _ fc _ htext (htext.again fc)
    rw [if_neg Bool.false_ne_true, hread]
    exact ⟨f, rfl⟩
  | true =>
    rw [if_pos rfl]
    dsimp only
    rw [RcbSession.writeRcb_nothing (htext.again fc) hempty]
    dsimp only
    obtain ⟨f, hmany⟩ := @writeMany_down answers
      [(RcbAttribute.under base .rptEna, .boolean true)]
    rw [RcbSession.turnOn, RcbSession.writeOne, hmany]
    exact ⟨f, rfl⟩

/-- The services on a block keep to what they owe if and only if every answer that one of them goes
on from has as many results as there were items. -/
theorem rcb_kept_iff (limits : Limits) (answers : Nat → Answer) (up : Bool) (reference : Bytes)
    (fc : Fc) (settings : RcbSettings) : RcbKept limits answers up reference fc settings ↔
      ∀ base buffered, up = true → rcbBase reference fc = .ok (base, buffered) →
        RightlyCounted limits answers base buffered (settingsWrites base buffered settings) := by
  constructor
  · rintro h base buffered rfl hbase
    obtain ⟨fc', htext⟩ := rcbBase_text hbase
    have henable := (enable_kept_iff htext hbase).mp (h.enable base buffered hbase)
    exact ⟨(read_kept_iff htext hbase).mp (h.read base buffered hbase),
      (rcbWrite_kept_iff hbase).mp (h.write base buffered hbase), henable.1, henable.2⟩
  · intro h
    refine ⟨?_, ?_, ?_, ?_⟩
    · intro e hbase
      refine ⟨?_, ?_, ?_⟩
      · rw [RcbSession.readRcb, hbase]
      · rw [RcbSession.writeRcb, hbase]
      · rw [RcbSession.enableRcb, hbase]
    · intro base buffered hbase
      obtain ⟨fc', htext⟩ := rcbBase_text hbase
      cases up with
      | true => exact (read_kept_iff htext hbase).mpr (h base buffered rfl hbase).read
      | false =>
        obtain ⟨f, hrun⟩ := @readRcb_down limits answers _ _ _ _ _ htext hbase
        rw [hrun]
        exact ⟨(fun _ h => by cases h), fun _ h => by cases h⟩
    · intro base buffered hbase
      cases up with
      | true => exact (rcbWrite_kept_iff hbase).mpr (h base buffered rfl hbase).write
      | false =>
        obtain ⟨result, hrun, hnothing⟩ := @writeRcb_down answers _ _ _ _ settings hbase
        rw [hrun]
        refine ⟨?_, ?_⟩
        · intro hok w hw
          rw [hnothing hok] at hw
          cases hw
        · intro _ k hk
          cases hk
    · intro base buffered hbase
      obtain ⟨fc', htext⟩ := rcbBase_text hbase
      cases up with
      | true =>
        have hright := h base buffered rfl hbase
        exact (enable_kept_iff htext hbase).mpr ⟨hright.settings, hright.whole⟩
      | false =>
        obtain ⟨f, hrun⟩ := @enableRcb_down limits answers _ _ _ _ _ settings htext hbase
        rw [hrun]
        refine enable_kept_of_error f ?_
        intro k hk
        cases hk

/-- A server whose answer to a `Write` has no results. -/
def silent : Nat → Answer := fun _ => .response (.ok (.write []))

/-- A block whose `RptID` was never reported written counts as configured. -/
theorem half_configured :
    ((RcbSession.fresh true).writeRcb silent (ascii "LD/LLN0$RP$urcb01") .rp
      { rptId := some (ascii "Trip") }).2 = .ok () ∧
    ¬ ∀ (limits : Limits) (answers : Nat → Answer) (up : Bool) (reference : Bytes) (fc : Fc)
      (settings : RcbSettings), RcbKept limits answers up reference fc settings := by
  have hbase : rcbBase (ascii "LD/LLN0$RP$urcb01") .rp = .ok (ascii "LD/LLN0$RP$urcb01", false) :=
    rfl
  obtain ⟨request, hrequest⟩ : ∃ request, writeManyRequest
      (settingsWrites (ascii "LD/LLN0$RP$urcb01") false { rptId := some (ascii "Trip") }) =
        .ok request := by
    refine @exists_writeManyRequest (ascii "LD/LLN0$RP$urcb01$RptID") _ rfl .rp rfl
      (.visibleString (ascii "Trip")) ?_
    exact exists_encodedElement_of_primitive rfl (by decide) (by decide)
  have hrun : (RcbSession.fresh true).writeRcb silent (ascii "LD/LLN0$RP$urcb01") .rp
      { rptId := some (ascii "Trip") } = (_, .ok ()) :=
    RcbSession.writeRcb_up rfl hbase rfl hrequest
  refine ⟨congrArg Prod.snd hrun, ?_⟩
  intro hall
  have hwrite := (hall Limits.default silent true (ascii "LD/LLN0$RP$urcb01") .rp
    { rptId := some (ascii "Trip") }).write _ _ hbase
  rw [hrun] at hwrite
  refine hwrite.counted rfl _ (mem_rcbCalled.mpr (Or.inr rfl)) ?_
  exact ⟨0, rfl, Nat.zero_ne_one⟩

end Services

end Iec61850.Client
