import Iec61850.Client.Addressed

/-!
# Editing a setting group

`Client::edit_setting_group` of `client/sg.rs` with `Client::write_many`: it reserves the group,
writes the settings, confirms the edit and gives the group back. The server may answer each request
as it likes, and the association may fail at any of them; what the client then has asked for is
read off the calls it has made.
-/

namespace Iec61850.Client

open Theory Ber Mms Server

/-! ### Calls and their answers -/

/-- What a service fails with: the client's own error, or one that came of the call. -/
inductive Failure where
  | own (e : Error)
  | service (cls code : Int)
  | io (what : String)
  deriving DecidableEq, Repr

/-- How `Client::call` ends. -/
inductive Answer where
  /-- A response arrived; it may not decode. -/
  | response (r : Except Error ConfirmedResponse)
  /-- The call was answered otherwise, or not in time. -/
  | failed (f : Failure)
  /-- The association did not take the request. -/
  | unsent (f : Failure)
  /-- The association failed. -/
  | lost (f : Failure)

/-- The places where `edit_setting_group` calls. -/
inductive Purpose where
  | select (group : Nat)
  | settings (writes : List (Bytes × Value))
  | confirm
  | release

/-- A call that was made, and how it ended. -/
structure Call where
  purpose : Purpose
  request : ConfirmedRequest
  answer : Answer

/-- A client: whether its association is up, and the calls it has made. -/
structure Session where
  up : Bool
  calls : List Call

/-- `{base}${attribute}`, an attribute of the control block. -/
def sgcbAttribute (base : Bytes) (name : String) : Bytes := base ++ sep :: ascii name

/-- What is written at each of the places. -/
def Purpose.writes (base : Bytes) : Purpose → List (Bytes × Value)
  | .select group => [(sgcbAttribute base "EditSG", .unsigned group)]
  | .settings writes => writes
  | .confirm => [(sgcbAttribute base "CnfEdit", .boolean true)]
  | .release => [(sgcbAttribute base "EditSG", .unsigned 0)]

def sgcbBase (reference : Bytes) : Except Error Bytes := do
  let parsed ← ObjectReference.parse reference
  if parsed.fc.getD .sp ≠ .sp then
    .error (.invalidReference "a setting group control block is under SP")
  else
    let (domain, item) := parsed.toMms .sp
    let item := if parsed.names.length = 0 then item ++ sep :: ascii "SGCB" else item
    .ok (domain ++ slash :: item)

namespace Session

variable (answers : Nat → Answer)

def call (c : Session) (purpose : Purpose) (request : ConfirmedRequest) :
    Session × Except Failure (Except Error ConfirmedResponse) :=
  if ¬ c.up then (c, .error (.io "association is not established"))
  else
    let a := answers c.calls.length
    let called : Session := ⟨true, c.calls ++ [⟨purpose, request, a⟩]⟩
    match a with
    | .response r => (called, .ok r)
    | .failed f | .unsent f => (called, .error f)
    | .lost f => ({ called with up := false }, .error f)

/-- The result of one value of a `Write`. -/
def writeResult : WriteResult → Except Failure Unit
  | .success => .ok ()
  | .failure code => .error (.own (.dataAccess code))

def writeMany (c : Session) (base : Bytes) (purpose : Purpose) :
    Session × Except Failure (List (Except Failure Unit)) :=
  match writeManyRequest (purpose.writes base) with
  | .error e => (c, .error (.own e))
  | .ok request =>
    match c.call answers purpose request with
    | (c, .error f) => (c, .error f)
    | (c, .ok (.error e)) => (c, .error (.own e))
    | (c, .ok (.ok (.write results))) => (c, .ok (results.map writeResult))
    | (c, .ok (.ok _)) => (c, .error (.own (.invalidValue "not a Write response")))

def writeSgcb (c : Session) (base : Bytes) (purpose : Purpose) : Session × Except Failure Unit :=
  match c.writeMany answers base purpose with
  | (c, .error f) => (c, .error f)
  | (c, .ok []) => (c, .error (.own (.invalidValue "empty Write response")))
  | (c, .ok (r :: _)) => (c, r)

/-- The results of a `Write` as one: the first refusal, if there is one. -/
def collected : List (Except Failure Unit) → Except Failure Unit
  | [] => .ok ()
  | .ok () :: results => collected results
  | .error f :: _ => .error f

/-- The writing of the settings. -/
def writeSettings (c : Session) (base : Bytes) (writes : List (Bytes × Value)) :
    Session × Except Failure Unit :=
  if writes.isEmpty then (c, .ok ())
  else
    match c.writeMany answers base (.settings writes) with
    | (c, .error f) => (c, .error f)
    | (c, .ok results) => (c, collected results)

/-- What follows the writing of the settings. -/
def finish (c : Session) (base : Bytes) : Except Failure Unit → Session × Except Failure Unit
  | .ok () =>
    let (c, confirmed) := c.writeSgcb answers base .confirm
    ((c.writeSgcb answers base .release).1, confirmed)
  | .error f => ((c.writeSgcb answers base .release).1, .error f)

def editSettingGroup (c : Session) (reference : Bytes) (group : Nat)
    (settings : List (Bytes × Value)) : Session × Except Failure Unit :=
  match sgcbBase reference with
  | .error e => (c, .error (.own e))
  | .ok base =>
    match c.writeSgcb answers base (.select group) with
    | (c, .error f) => (c, .error f)
    | (c, .ok ()) =>
      match editedSettings settings with
      | .error e => (c, .error (.own e))
      | .ok writes =>
        let (c, outcome) := c.writeSettings answers base writes
        c.finish answers base outcome

/-- A client that has not called yet. -/
def fresh (up : Bool) : Session := ⟨up, []⟩

end Session

/-! ### What an edit owes -/

/-- A `Write` whose first value was reported written. -/
def Answer.Accepts : Answer → Prop
  | .response (.ok (.write (.success :: _))) => True
  | _ => False

/-- The request reached the association. -/
def Answer.Sent : Answer → Prop
  | .unsent _ => False
  | _ => True

/-- The first `n` values of a `Write` were each reported written. -/
def Answer.Writes (n : Nat) : Answer → Prop
  | .response (.ok (.write results)) => ∀ i < n, results[i]? = some .success
  | _ => False

/-- What an edit of a group is to keep to, when it ends with these calls and this result. -/
structure Kept (settings : List (Bytes × Value)) (c : Session) (result : Except Failure Unit) :
    Prop where
  /-- It confirms only what was reported written. -/
  confirms : (∃ k ∈ c.calls, k.purpose = .confirm) → settings = [] ∨
    ∃ k ∈ c.calls, (∃ writes, k.purpose = .settings writes) ∧ k.answer.Writes settings.length
  /-- It succeeds only if the confirmation did. -/
  succeeds : result = .ok () → ∃ k ∈ c.calls, k.purpose = .confirm ∧ k.answer.Accepts
  /-- It has asked for the release of what it reserved. -/
  releases : (∃ k ∈ c.calls, (∃ group, k.purpose = .select group) ∧ k.answer.Accepts) →
    c.up = true → ∃ k ∈ c.calls, k.purpose = .release ∧ k.answer.Sent

/-! ### The requests can be made -/

/-- A value that is written as one short element can be encoded. -/
theorem exists_encodedElement_of_primitive {v : Value} {tag : Tag} {contents : Bytes}
    (henc : v.encode = primitive tag contents) (htag : tag.number ≤ u32Max)
    (hlen : contents.length ≤ u32Max) : ∃ element, encodedElement v = .ok element := by
  have hencode : v.encode = .ok (Ber.element tag contents) := by
    rw [henc, primitive, encodeLength_eq hlen]
    rfl
  have hall : Value.encodeAll [v] = .ok (elements [(tag, contents)]) := by
    rw [Value.encodeAll, hencode]
    rfl
  refine ⟨tlvAt 0 tag contents, ?_⟩
  rw [encodedElement, hall]
  dsimp only [bind, Except.bind]
  rw [elementOf, Cursor.new, nextRequired_elements 0 ⟨htag, hlen⟩]
  rfl

theorem exists_encodedElement_unsigned (n : Nat) :
    ∃ element, encodedElement (.unsigned n) = .ok element := by
  refine exists_encodedElement_of_primitive (unsigned_eq _ n) (by decide) ?_
  exact Nat.le_trans (unsignedContents_length_le n) (by decide)

/-- The attributes of a control block are read back as variables under `SP`. -/
theorem sgcbBase_attribute {reference base : Bytes} (h : sgcbBase reference = .ok base)
    {name : String} (hname : IsName (ascii name)) :
    ∃ r, ObjectReference.parse (sgcbAttribute base name) = .ok r ∧ r.fc = some .sp := by
  obtain ⟨r, hr, hbase⟩ := bind_ok h
  have hnamed := ObjectReference.parse_named hr
  split at hbase
  case isTrue => cases hbase
  case isFalse hsp =>
    rw [not_not] at hsp
    cases hbase
    obtain ⟨names, hnames, htext⟩ : ∃ names : List Bytes, (∀ name ∈ names, IsName name) ∧
        (if r.names.length = 0 then (r.toMms .sp).2 ++ sep :: ascii "SGCB" else (r.toMms .sp).2) =
          r.ln ++ sep :: Fc.sp.asStr ++ names.flatMap fun name => sep :: name := by
      split
      case isTrue hnil =>
        refine ⟨[ascii "SGCB"], ?_, ?_⟩
        · intro name hname
          rw [List.mem_singleton.mp hname]
          exact ⟨by decide, by decide⟩
        · rw [ObjectReference.toMms, ObjectReference.toMmsUnder, hsp,
            List.length_eq_zero_iff.mp hnil]
          simp
      case isFalse =>
        refine ⟨r.names, hnamed.names, ?_⟩
        rw [ObjectReference.toMms, ObjectReference.toMmsUnder, hsp]
    have hall : ∀ n ∈ names ++ [ascii name], IsName n := by
      intro n hn
      rcases List.mem_append.mp hn with hn | hn
      · exact hnames n hn
      · rw [List.mem_singleton.mp hn]
        exact hname
    refine ⟨⟨r.ld, r.ln, some .sp, ObjectReference.joined (names ++ [ascii name])⟩, ?_, rfl⟩
    rw [← ObjectReference.parse_mms hnamed.ld hnamed.ln .sp hall, sgcbAttribute]
    refine congrArg ObjectReference.parse ?_
    refine (congrArg (fun item => r.ld ++ slash :: item ++ sep :: ascii name) htext).trans ?_
    simp

theorem exists_writeManyRequest {text : Bytes} {r : ObjectReference}
    (hr : ObjectReference.parse text = .ok r) {fc : Fc} (hfc : r.fc = some fc) {v : Value}
    (hv : ∃ element, encodedElement v = .ok element) :
    ∃ request, writeManyRequest [(text, v)] = .ok request := by
  obtain ⟨element, hv⟩ := hv
  obtain ⟨encoded, hencoded, helement⟩ := bind_ok hv
  have hitem : writeItem (text, v) =
      .ok (⟨(r.toMms fc).1, (r.toMms fc).2, r.selection⟩, encoded) := by
    rw [writeItem]
    dsimp only
    rw [hr]
    dsimp only [bind, Except.bind]
    rw [hfc]
    dsimp only
    rw [Addressed.of, hr, hencoded]
    rfl
  rw [writeManyRequest, List.mapM_cons, hitem, List.mapM_nil]
  dsimp only [bind, Except.bind, pure, Except.pure]
  rw [List.mapM_cons, helement, List.mapM_nil]
  exact ⟨_, rfl⟩

/-- Whatever is written to the control block, the request can be made. -/
theorem exists_request {reference base : Bytes} (h : sgcbBase reference = .ok base)
    {purpose : Purpose} (hpurpose : ∀ writes, purpose ≠ .settings writes) :
    ∃ request, writeManyRequest (purpose.writes base) = .ok request := by
  have hedit : IsName (ascii "EditSG") := ⟨by decide, by decide⟩
  cases purpose with
  | settings writes => exact absurd rfl (hpurpose writes)
  | select group =>
    obtain ⟨r, hr, hfc⟩ := sgcbBase_attribute h hedit
    exact exists_writeManyRequest hr hfc (exists_encodedElement_unsigned group)
  | release =>
    obtain ⟨r, hr, hfc⟩ := sgcbBase_attribute h hedit
    exact exists_writeManyRequest hr hfc (exists_encodedElement_unsigned 0)
  | confirm =>
    obtain ⟨r, hr, hfc⟩ := @sgcbBase_attribute _ _ h "CnfEdit" ⟨by decide, by decide⟩
    exact exists_writeManyRequest hr hfc
      (exists_encodedElement_of_primitive rfl (by decide) (by decide))

/-! ### Where a call leaves the client -/

namespace Answer

/-- The association outlives a call that ends so. -/
def alive : Answer → Bool
  | .lost _ => false
  | _ => true

/-- What `write_many` makes of an answer. -/
def results : Answer → Except Failure (List (Except Failure Unit))
  | .response (.ok (.write results)) => .ok (results.map Session.writeResult)
  | .response (.ok _) => .error (.own (.invalidValue "not a Write response"))
  | .response (.error e) => .error (.own e)
  | .failed f | .unsent f | .lost f => .error f

/-- What `write_sgcb` makes of an answer. -/
def verdict (a : Answer) : Except Failure Unit :=
  match a.results with
  | .error f => .error f
  | .ok [] => .error (.own (.invalidValue "empty Write response"))
  | .ok (r :: _) => r

/-- A `Write` of which nothing was reported refused. -/
def agrees : Answer → Bool
  | .response (.ok (.write results)) => results.all (· = .success)
  | _ => false

theorem accepts_iff (a : Answer) : a.Accepts ↔ a.verdict = .ok () := by
  unfold Accepts verdict results
  split
  case h_1 => exact iff_of_true trivial rfl
  case h_2 a hother =>
    refine iff_of_false id ?_
    intro h
    split at h
    case h_1 => cases h
    case h_2 => cases h
    case h_3 r rest hresults =>
      split at hresults
      case h_1 results =>
        cases results with
        | nil => cases hresults
        | cons first rest =>
          cases hresults
          cases first with
          | success => exact hother rest rfl
          | failure code => cases h
      all_goals cases hresults

theorem alive_of_accepts {a : Answer} (h : a.Accepts) : a.alive = true := by
  unfold Accepts at h
  split at h
  · rfl
  · exact h.elim

theorem sent_of_not_alive {a : Answer} (h : a.alive = false) : a.Sent := by
  cases a with
  | lost f => trivial
  | response r => cases h
  | failed f => cases h
  | unsent f => cases h

theorem collected_eq_ok (results : List WriteResult) :
    Session.collected (results.map Session.writeResult) = .ok () ↔
      results.all (· = .success) = true := by
  induction results with
  | nil => exact iff_of_true rfl rfl
  | cons r results ih =>
    cases r with
    | success => simpa [Session.collected, Session.writeResult] using ih
    | failure code => simp [Session.collected, Session.writeResult]

end Answer

namespace Session

variable {answers : Nat → Answer} {c : Session} {base : Bytes} {purpose : Purpose}
  {request : ConfirmedRequest}

/-- The client after a call. -/
def called (answers : Nat → Answer) (c : Session) (purpose : Purpose) (request : ConfirmedRequest) :
    Session :=
  ⟨(answers c.calls.length).alive, c.calls ++ [⟨purpose, request, answers c.calls.length⟩]⟩

theorem writeMany_up (hup : c.up = true)
    (hrequest : writeManyRequest (purpose.writes base) = .ok request) :
    c.writeMany answers base purpose =
      (c.called answers purpose request, (answers c.calls.length).results) := by
  rw [writeMany, hrequest]
  dsimp only
  rw [call, if_neg (not_not.mpr hup), called]
  cases answers c.calls.length with
  | response r =>
    cases r with
    | error e => rfl
    | ok response => cases response <;> rfl
  | failed f => rfl
  | unsent f => rfl
  | lost f => rfl

theorem writeMany_down (hup : c.up = false)
    (hrequest : writeManyRequest (purpose.writes base) = .ok request) :
    c.writeMany answers base purpose = (c, .error (.io "association is not established")) := by
  have hdown : ¬ c.up = true := by
    rw [hup]
    exact Bool.false_ne_true
  rw [writeMany, hrequest]
  dsimp only
  rw [call, if_pos hdown]

theorem writeSgcb_up (hup : c.up = true)
    (hrequest : writeManyRequest (purpose.writes base) = .ok request) :
    c.writeSgcb answers base purpose =
      (c.called answers purpose request, (answers c.calls.length).verdict) := by
  rw [writeSgcb, writeMany_up hup hrequest, Answer.verdict]
  cases (answers c.calls.length).results with
  | error f => rfl
  | ok results => cases results <;> rfl

theorem writeSgcb_down (hup : c.up = false)
    (hrequest : writeManyRequest (purpose.writes base) = .ok request) :
    c.writeSgcb answers base purpose = (c, .error (.io "association is not established")) := by
  rw [writeSgcb, writeMany_down hup hrequest]

/-! ### How an edit ends -/

/-- The calls with which an edit ends that did not go well. -/
theorem finish_error (hbase : ∃ reference, sgcbBase reference = .ok base) (hup : c.up = true)
    (f : Failure) : ∃ request, c.finish answers base (.error f) =
      (c.called answers .release request, .error f) := by
  obtain ⟨reference, hbase⟩ := hbase
  obtain ⟨request, hrequest⟩ := @exists_request _ _ hbase .release fun _ h => Purpose.noConfusion h
  refine ⟨request, ?_⟩
  rw [finish, writeSgcb_up hup hrequest]

theorem finish_error_down (hbase : ∃ reference, sgcbBase reference = .ok base) (hup : c.up = false)
    (f : Failure) : c.finish answers base (.error f) = (c, .error f) := by
  obtain ⟨reference, hbase⟩ := hbase
  obtain ⟨request, hrequest⟩ := @exists_request _ _ hbase .release fun _ h => Purpose.noConfusion h
  rw [finish, writeSgcb_down hup hrequest]

/-- The calls with which an edit ends that is confirmed. -/
theorem finish_ok (hbase : ∃ reference, sgcbBase reference = .ok base) (hup : c.up = true) :
    ∃ confirm release, c.finish answers base (.ok ()) = (if (answers c.calls.length).alive then
          (c.called answers .confirm confirm).called answers .release release
        else c.called answers .confirm confirm, (answers c.calls.length).verdict) := by
  obtain ⟨reference, hbase⟩ := hbase
  obtain ⟨confirm, hconfirm⟩ := @exists_request _ _ hbase .confirm fun _ h => Purpose.noConfusion h
  obtain ⟨release, hrelease⟩ := @exists_request _ _ hbase .release fun _ h => Purpose.noConfusion h
  refine ⟨confirm, release, ?_⟩
  rw [finish, writeSgcb_up hup hconfirm]
  dsimp only
  by_cases halive : (answers c.calls.length).alive = true
  · rw [if_pos halive, writeSgcb_up halive hrelease]
  · rw [if_neg halive, writeSgcb_down (Bool.eq_false_iff.mpr halive) hrelease]

end Session

/-! ### What the answers have to be -/

/-- The answer to the settings speaks of each of them, if it speaks of no refusal. -/
def Answer.Covers (n : Nat) : Answer → Prop
  | .response (.ok (.write results)) => (∀ r ∈ results, r = .success) → n ≤ results.length
  | _ => True

/-- The values of the settings can be encoded. -/
def encodes (settings : List (Bytes × Value)) : Bool :=
  settings.all fun s => (encodedElement s.2).isOk

/-- The place of the release among the calls. -/
def releaseAt (answers : Nat → Answer) (settings : List (Bytes × Value)) : Nat :=
  if settings.isEmpty then 2
  else if encodes settings then if (answers 1).agrees then 3 else 2
  else 1

/-- The names of the settings are references, the server speaks of every setting, and the
association takes the request for the release unless it has failed before. -/
structure Orderly (answers : Nat → Answer) (settings : List (Bytes × Value)) : Prop where
  read : ∀ s ∈ settings, ∃ r, ObjectReference.parse s.1 = .ok r
  covers : encodes settings = true → settings ≠ [] → (answers 1).Covers settings.length
  released : (∃ i, 0 < i ∧ i < releaseAt answers settings ∧ (answers i).alive = false) ∨
    (answers (releaseAt answers settings)).Sent

/-- The group was reserved. -/
def Reserved (answers : Nat → Answer) (up : Bool) (reference : Bytes) : Prop :=
  up = true ∧ (∃ base, sgcbBase reference = .ok base) ∧ (answers 0).Accepts

/-! ### What is kept -/

/-- The group is reserved, and nothing was confirmed or released yet. -/
structure Begun (c : Session) : Prop where
  reserved : ∃ k ∈ c.calls, (∃ group, k.purpose = .select group) ∧ k.answer.Accepts
  confirms : ∀ k ∈ c.calls, k.purpose ≠ .confirm
  releases : ∀ k ∈ c.calls, k.purpose ≠ .release

section Ends

variable {answers : Nat → Answer} {c : Session} {settings : List (Bytes × Value)}

theorem mem_called {purpose : Purpose} {request : ConfirmedRequest} {k : Call} :
    k ∈ (c.called answers purpose request).calls ↔
      k ∈ c.calls ∨ k = ⟨purpose, request, answers c.calls.length⟩ := by
  rw [Session.called, List.mem_append, List.mem_singleton]

theorem kept_error_down (hb : Begun c) (hup : c.up = false) (f : Failure) :
    Kept settings c (.error f) where
  confirms := fun ⟨k, hk, hconfirm⟩ => absurd hconfirm (hb.confirms k hk)
  succeeds := fun h => nomatch h
  releases := fun _ h => by
    rw [hup] at h
    cases h

theorem kept_error_iff (hb : Begun c) (request : ConfirmedRequest) (f : Failure) :
    Kept settings (c.called answers .release request) (.error f) ↔
      (answers c.calls.length).Sent := by
  constructor
  · intro h
    cases halive : (answers c.calls.length).alive with
    | false => exact Answer.sent_of_not_alive halive
    | true =>
      obtain ⟨k, hk, hselect⟩ := hb.reserved
      obtain ⟨k', hk', hrelease, hsent⟩ := h.releases
        ⟨k, mem_called.mpr (Or.inl hk), hselect⟩ halive
      rcases mem_called.mp hk' with hbefore | rfl
      · exact absurd hrelease (hb.releases k' hbefore)
      · exact hsent
  · intro hsent
    refine ⟨?_, (fun h => nomatch h), ?_⟩
    · rintro ⟨k, hk, hconfirm⟩
      rcases mem_called.mp hk with hbefore | rfl
      · exact absurd hconfirm (hb.confirms k hbefore)
      · cases hconfirm
    · intro _ _
      exact ⟨_, mem_called.mpr (Or.inr rfl), rfl, hsent⟩

/-- What the confirmation of an edit rests on. -/
def Written (c : Session) (settings : List (Bytes × Value)) : Prop :=
  settings = [] ∨
    ∃ k ∈ c.calls, (∃ writes, k.purpose = .settings writes) ∧ k.answer.Writes settings.length

theorem written_called {purpose : Purpose} {request : ConfirmedRequest}
    (hpurpose : ∀ writes, purpose ≠ .settings writes) :
    Written (c.called answers purpose request) settings ↔ Written c settings := by
  refine or_congr Iff.rfl ?_
  constructor
  · rintro ⟨k, hk, ⟨writes, hwrites⟩, hall⟩
    rcases mem_called.mp hk with hbefore | rfl
    · exact ⟨k, hbefore, ⟨writes, hwrites⟩, hall⟩
    · exact absurd hwrites (hpurpose writes)
  · rintro ⟨k, hk, hwrites, hall⟩
    exact ⟨k, mem_called.mpr (Or.inl hk), hwrites, hall⟩

theorem confirm_not_settings : ∀ writes, Purpose.confirm ≠ .settings writes :=
  fun _ h => Purpose.noConfusion h

theorem release_not_settings : ∀ writes, Purpose.release ≠ .settings writes :=
  fun _ h => Purpose.noConfusion h

/-- An edit whose confirmation ends the association. -/
theorem kept_ok_down_iff (request : ConfirmedRequest)
    (hdown : (answers c.calls.length).alive = false) :
    Kept settings (c.called answers .confirm request) (answers c.calls.length).verdict ↔
      Written c settings := by
  have hwritten : Written (c.called answers .confirm request) settings ↔ Written c settings :=
    written_called confirm_not_settings
  rw [← hwritten]
  constructor
  · intro h
    exact h.confirms ⟨_, mem_called.mpr (Or.inr rfl), rfl⟩
  · intro h
    refine ⟨fun _ => h, ?_, ?_⟩
    · intro hok
      exact ⟨_, mem_called.mpr (Or.inr rfl), rfl, (Answer.accepts_iff _).mpr hok⟩
    · intro _ hup
      rw [show (c.called answers .confirm request).up = false from hdown] at hup
      cases hup

/-- An edit that is confirmed and released. -/
theorem kept_ok_iff (hb : Begun c) (confirm release : ConfirmedRequest) :
    Kept settings ((c.called answers .confirm confirm).called answers .release release)
        (answers c.calls.length).verdict ↔
      Written c settings ∧ (answers (c.calls.length + 1)).Sent := by
  have hlen : (c.called answers .confirm confirm).calls.length = c.calls.length + 1 := by
    rw [Session.called, List.length_append, List.length_singleton]
  have hwritten : Written ((c.called answers .confirm confirm).called answers .release release)
      settings ↔ Written c settings :=
    (written_called release_not_settings).trans (written_called confirm_not_settings)
  have hconfirm : ∃ k ∈ ((c.called answers .confirm confirm).called answers .release release).calls,
      k.purpose = .confirm ∧ k.answer = answers c.calls.length :=
    ⟨_, mem_called.mpr (Or.inl (mem_called.mpr (Or.inr rfl))), rfl, rfl⟩
  have hrelease : ∀ k ∈ ((c.called answers .confirm confirm).called answers .release release).calls,
      k.purpose = .release → k.answer = answers (c.calls.length + 1) := by
    intro k hk hpurpose
    rcases mem_called.mp hk with hbefore | rfl
    · rcases mem_called.mp hbefore with hbefore | rfl
      · exact absurd hpurpose (hb.releases k hbefore)
      · cases hpurpose
    · rw [hlen]
  constructor
  · intro h
    obtain ⟨k, hk, hpurpose, -⟩ := hconfirm
    refine ⟨hwritten.mp (h.confirms ⟨k, hk, hpurpose⟩), ?_⟩
    cases halive : (answers (c.calls.length + 1)).alive with
    | false => exact Answer.sent_of_not_alive halive
    | true =>
      obtain ⟨k, hk, hselect⟩ := hb.reserved
      obtain ⟨k', hk', hpurpose', hsent⟩ := h.releases
        ⟨k, mem_called.mpr (Or.inl (mem_called.mpr (Or.inl hk))), hselect⟩
        (by rw [Session.called, hlen]; exact halive)
      rwa [hrelease k' hk' hpurpose'] at hsent
  · rintro ⟨hsettings, hsent⟩
    refine ⟨fun _ => hwritten.mpr hsettings, ?_, ?_⟩
    · intro hok
      obtain ⟨k, hk, hpurpose, hanswer⟩ := hconfirm
      rw [← Answer.accepts_iff, ← hanswer] at hok
      exact ⟨k, hk, hpurpose, hok⟩
    · intro _ _
      refine ⟨_, mem_called.mpr (Or.inr rfl), rfl, ?_⟩
      rwa [hlen]

end Ends

/-! ### Every edit -/

section Edit

variable {answers : Nat → Answer} {up : Bool} {reference : Bytes} {group : Nat}
  {settings : List (Bytes × Value)}

/-- Without the reservation there is nothing to keep to. -/
theorem kept_unreserved (h : ¬ Reserved answers up reference) :
    Kept settings ((Session.fresh up).editSettingGroup answers reference group settings).1
      ((Session.fresh up).editSettingGroup answers reference group settings).2 := by
  have hempty : ∀ (b : Bool) (f : Failure), Kept settings (⟨b, []⟩ : Session) (.error f) := by
    intro b f
    refine ⟨?_, (fun h => nomatch h), ?_⟩
    · rintro ⟨k, hk, -⟩
      cases hk
    · rintro ⟨k, hk, -⟩
      cases hk
  rw [Session.editSettingGroup]
  cases hbase : sgcbBase reference with
  | error e => exact hempty up _
  | ok base =>
    obtain ⟨request, hrequest⟩ := @exists_request _ _ hbase (.select group)
      fun _ h => Purpose.noConfusion h
    cases up with
    | false =>
      dsimp only
      rw [Session.writeSgcb_down rfl hrequest]
      exact hempty false _
    | true =>
      have hrefused : ¬ (answers 0).Accepts := fun hacc => h ⟨rfl, ⟨base, hbase⟩, hacc⟩
      dsimp only
      rw [Session.writeSgcb_up rfl hrequest]
      have hverdict : (answers (Session.fresh true).calls.length).verdict =
          (answers 0).verdict := rfl
      rw [hverdict]
      cases hv : (answers 0).verdict with
      | ok _ => exact absurd ((Answer.accepts_iff _).mpr hv) hrefused
      | error f =>
        dsimp only
        refine ⟨?_, (fun h => nomatch h), ?_⟩
        · rintro ⟨k, hk, hconfirm⟩
          rw [List.mem_singleton.mp hk] at hconfirm
          cases hconfirm
        · rintro ⟨k, hk, -, hacc⟩
          rw [List.mem_singleton.mp hk] at hacc
          exact absurd hacc hrefused

/-- The client once the group is reserved. -/
def reserving (answers : Nat → Answer) (group : Nat) (request : ConfirmedRequest) : Session :=
  ⟨true, [⟨.select group, request, answers 0⟩]⟩

theorem begun_reserving (hacc : (answers 0).Accepts) (request : ConfirmedRequest) :
    Begun (reserving answers group request) where
  reserved := ⟨_, List.mem_singleton_self _, ⟨group, rfl⟩, hacc⟩
  confirms := fun k hk => by
    rw [List.mem_singleton.mp hk]
    exact fun h => Purpose.noConfusion h
  releases := fun k hk => by
    rw [List.mem_singleton.mp hk]
    exact fun h => Purpose.noConfusion h

/-- What is done with a reserved group. -/
theorem edit_reserved (h : Reserved answers up reference) (group : Nat)
    (settings : List (Bytes × Value)) :
    ∃ base request, sgcbBase reference = .ok base ∧
      (Session.fresh up).editSettingGroup answers reference group settings =
        match editedSettings settings with
        | .error e => (reserving answers group request, .error (.own e))
        | .ok writes =>
          let (c, outcome) := (reserving answers group request).writeSettings answers base writes
          c.finish answers base outcome := by
  obtain ⟨rfl, ⟨base, hbase⟩, hacc⟩ := h
  obtain ⟨request, hrequest⟩ := @exists_request _ _ hbase (.select group)
    fun _ h => Purpose.noConfusion h
  refine ⟨base, request, hbase, ?_⟩
  have hcalled : (Session.fresh true).called answers (.select group) request =
      reserving answers group request := by
    rw [Session.called, reserving]
    exact congrArg (fun b => Session.mk b _) (Answer.alive_of_accepts hacc)
  rw [Session.editSettingGroup, hbase]
  dsimp only
  rw [Session.writeSgcb_up rfl hrequest, hcalled]
  have hverdict : (answers (Session.fresh true).calls.length).verdict = .ok () :=
    (Answer.accepts_iff _).mp hacc
  rw [hverdict]

theorem editedSettings_isOk : (∃ writes, editedSettings settings = .ok writes) ↔
      ∀ s ∈ settings, ∃ r, ObjectReference.parse s.1 = .ok r := by
  constructor
  · rintro ⟨writes, hwrites⟩ s hs
    obtain ⟨write, -, hwrite⟩ := exists_of_mapM hwrites hs
    obtain ⟨r, hr, -⟩ := bind_ok hwrite
    exact ⟨r, hr⟩
  · intro h
    refine exists_mapM fun s hs => ?_
    obtain ⟨r, hr⟩ := h s hs
    exact ⟨_, by rw [editedSetting, hr]; rfl⟩

variable {writes : List (Bytes × Value)} {c : Session} {base : Bytes} {a : Answer}

theorem isEmpty_editedSettings (h : editedSettings settings = .ok writes) :
    writes.isEmpty = settings.isEmpty := by
  have hlen := (mapM_ok_iff.mp h).length_eq
  cases settings <;> cases writes <;> first | rfl | cases hlen

theorem encodes_iff :
    encodes settings = true ↔ ∀ s ∈ settings, ∃ element, encodedElement s.2 = .ok element := by
  rw [encodes, List.all_eq_true]
  refine forall₂_congr fun s _ => ?_
  cases encodedElement s.2 with
  | error e => simp [Except.isOk, Except.toBool]
  | ok element => simp [Except.isOk, Except.toBool]

/-- The write of the settings is requested exactly when their values can be encoded. -/
theorem writeManyRequest_isOk (h : editedSettings settings = .ok writes)
    (hne : settings.isEmpty = false) :
    (∃ request, writeManyRequest writes = .ok request) ↔ encodes settings = true := by
  have hwrites : writes.isEmpty = false := (isEmpty_editedSettings h).trans hne
  have hall := @editSettingsRequest_isOk settings
  rw [← encodes_iff, and_iff_right (editedSettings_isOk.mp ⟨writes, h⟩)] at hall
  rw [← hall, editSettingsRequest, h]
  dsimp only [bind, Except.bind]
  rw [hwrites]
  cases writeManyRequest writes <;> simp

theorem kept_finish_ok (hbase : ∃ reference, sgcbBase reference = .ok base) (hb : Begun c)
    (hup : c.up = true) :
    Kept settings (c.finish answers base (.ok ())).1 (c.finish answers base (.ok ())).2 ↔
      Written c settings ∧ ((answers c.calls.length).alive = false ∨
        (answers (c.calls.length + 1)).Sent) := by
  obtain ⟨confirm, release, hfinish⟩ := Session.finish_ok hbase hup
  rw [hfinish]
  dsimp only
  cases halive : (answers c.calls.length).alive with
  | true =>
    rw [if_pos rfl, kept_ok_iff hb]
    simp
  | false =>
    rw [if_neg Bool.false_ne_true, kept_ok_down_iff confirm halive]
    simp

theorem kept_finish_error (hbase : ∃ reference, sgcbBase reference = .ok base) (hb : Begun c)
    (f : Failure) :
    Kept settings (c.finish answers base (.error f)).1 (c.finish answers base (.error f)).2 ↔
      (c.up = true → (answers c.calls.length).Sent) := by
  cases hup : c.up with
  | true =>
    obtain ⟨request, hfinish⟩ := Session.finish_error hbase hup f
    rw [hfinish, kept_error_iff hb]
    simp
  | false =>
    rw [Session.finish_error_down hbase hup f]
    refine iff_of_true (kept_error_down hb hup f) ?_
    intro h
    cases h

theorem begun_called {c : Session} (hb : Begun c) (writes : List (Bytes × Value))
    (request : ConfirmedRequest) : Begun (c.called answers (.settings writes) request) := by
  obtain ⟨⟨k, hk, hselect⟩, hconfirms, hreleases⟩ := hb
  refine ⟨⟨k, mem_called.mpr (Or.inl hk), hselect⟩, ?_, ?_⟩
  · intro k' hk'
    rcases mem_called.mp hk' with hbefore | rfl
    · exact hconfirms k' hbefore
    · exact fun h => Purpose.noConfusion h
  · intro k' hk'
    rcases mem_called.mp hk' with hbefore | rfl
    · exact hreleases k' hbefore
    · exact fun h => Purpose.noConfusion h

/-- What `write_settings` makes of an answer. -/
def Answer.outcome (a : Answer) : Except Failure Unit :=
  match a.results with
  | .error f => .error f
  | .ok results => Session.collected results

theorem outcome_eq_ok (a : Answer) : a.outcome = .ok () ↔ a.agrees = true := by
  cases a with
  | response r =>
    cases r with
    | error e => exact iff_of_false (fun h => nomatch h) Bool.false_ne_true
    | ok response =>
      cases response
      case write results => exact Answer.collected_eq_ok results
      all_goals exact iff_of_false (fun h => nomatch h) Bool.false_ne_true
  | failed f => exact iff_of_false (fun h => nomatch h) Bool.false_ne_true
  | unsent f => exact iff_of_false (fun h => nomatch h) Bool.false_ne_true
  | lost f => exact iff_of_false (fun h => nomatch h) Bool.false_ne_true

theorem exists_of_agrees (h : a.agrees = true) :
    ∃ results, a = .response (.ok (.write results)) ∧ ∀ r ∈ results, r = .success := by
  unfold Answer.agrees at h
  split at h
  · rename_i results
    refine ⟨results, rfl, ?_⟩
    intro r hr
    exact of_decide_eq_true (List.all_eq_true.mp h r hr)
  · cases h

theorem alive_of_agrees (h : a.agrees = true) : a.alive = true := by
  obtain ⟨results, rfl, -⟩ := exists_of_agrees h
  rfl

/-- An answer that speaks of no refusal reports the settings written when it speaks of them all. -/
theorem writes_iff_covers (h : a.agrees = true) (n : Nat) : a.Writes n ↔ a.Covers n := by
  obtain ⟨results, rfl, hall⟩ := exists_of_agrees h
  constructor
  · intro hwrites _
    by_contra hlt
    have hnone := hwrites results.length (Nat.lt_of_not_le hlt)
    rw [List.getElem?_eq_none (Nat.le_refl _)] at hnone
    cases hnone
  · intro hcovers i hi
    have hlt : i < results.length := Nat.lt_of_lt_of_le hi (hcovers hall)
    rw [List.getElem?_eq_getElem hlt, hall _ (List.getElem_mem hlt)]

theorem covers_of_not_agrees (h : a.agrees = false) (n : Nat) : a.Covers n := by
  unfold Answer.Covers
  split
  · rename_i results
    intro hall
    have hagrees : (Answer.response (.ok (.write results))).agrees = true :=
      List.all_eq_true.mpr fun r hr => decide_eq_true (hall r hr)
    rw [hagrees] at h
    cases h
  · trivial

theorem writeSettings_up {request : ConfirmedRequest} (hup : c.up = true)
    (hne : writes.isEmpty = false) (hrequest : writeManyRequest writes = .ok request) :
    c.writeSettings answers base writes =
      (c.called answers (.settings writes) request, (answers c.calls.length).outcome) := by
  have hmany := @Session.writeMany_up answers c base (.settings writes) request hup hrequest
  rw [Session.writeSettings, if_neg (by rw [hne]; exact Bool.false_ne_true), hmany, Answer.outcome]
  cases (answers c.calls.length).results <;> rfl

/-- The settings are written, if the answer to them is that they are. -/
theorem written_reserving {select request : ConfirmedRequest} (hne : settings.isEmpty = false) :
    Written ((reserving answers group select).called answers (.settings writes) request) settings ↔
      (answers 1).Writes settings.length := by
  constructor
  · rintro (hnil | ⟨k, hk, ⟨w, hw⟩, hall⟩)
    · rw [hnil] at hne
      cases hne
    · rcases mem_called.mp hk with hbefore | rfl
      · rw [List.mem_singleton.mp hbefore] at hw
        cases hw
      · exact hall
  · intro h
    exact Or.inr ⟨_, mem_called.mpr (Or.inr rfl), ⟨writes, rfl⟩, h⟩

/-- What is left of the condition once the settings are read. -/
theorem orderly_iff (hread : ∀ s ∈ settings, ∃ r, ObjectReference.parse s.1 = .ok r) {n : Nat}
    (hn : releaseAt answers settings = n) : Orderly answers settings ↔
      (encodes settings = true → settings ≠ [] → (answers 1).Covers settings.length) ∧
        ((∃ i, 0 < i ∧ i < n ∧ (answers i).alive = false) ∨ (answers n).Sent) := by
  constructor
  · intro h
    exact ⟨h.covers, hn ▸ h.released⟩
  · rintro ⟨hcovers, hreleased⟩
    exact ⟨hread, hcovers, hn ▸ hreleased⟩

section Reserved

variable {base : Bytes} {writes : List (Bytes × Value)} {request : ConfirmedRequest}

/-- Without settings the edit is confirmed as it is. -/
theorem kept_without_settings (hbase : ∃ reference, sgcbBase reference = .ok base)
    (hb : Begun (reserving answers group request)) :
    Kept [] ((reserving answers group request).finish answers base (.ok ())).1
        ((reserving answers group request).finish answers base (.ok ())).2 ↔
      Orderly answers [] := by
  have hread : ∀ s ∈ ([] : List (Bytes × Value)), ∃ r, ObjectReference.parse s.1 = .ok r := by
    intro s hs
    cases hs
  rw [kept_finish_ok hbase hb rfl, @orderly_iff answers [] hread 2 rfl]
  constructor
  · rintro ⟨-, hdown | hsent⟩
    · exact ⟨fun _ hne => absurd rfl hne, Or.inl ⟨1, Nat.zero_lt_one, Nat.one_lt_two, hdown⟩⟩
    · exact ⟨fun _ hne => absurd rfl hne, Or.inr hsent⟩
  · rintro ⟨-, ⟨i, hpos, hlt, hdown⟩ | hsent⟩
    · obtain rfl : i = 1 := by omega
      exact ⟨Or.inl rfl, Or.inl hdown⟩
    · exact ⟨Or.inl rfl, Or.inr hsent⟩

/-- A value that cannot be encoded ends the edit before the settings are sent. -/
theorem kept_unencodable (hbase : ∃ reference, sgcbBase reference = .ok base)
    (hb : Begun (reserving answers group request)) (hne : settings.isEmpty = false)
    (hread : ∀ s ∈ settings, ∃ r, ObjectReference.parse s.1 = .ok r)
    (hencodes : encodes settings = false) (f : Failure) :
    Kept settings ((reserving answers group request).finish answers base (.error f)).1
        ((reserving answers group request).finish answers base (.error f)).2 ↔
      Orderly answers settings := by
  have hat : releaseAt answers settings = 1 := by
    rw [releaseAt, hne, hencodes]
    rfl
  rw [kept_finish_error hbase hb, orderly_iff hread hat, hencodes]
  constructor
  · intro h
    exact ⟨fun h => Bool.noConfusion h, Or.inr (h rfl)⟩
  · rintro ⟨-, ⟨i, hpos, hlt, -⟩ | hsent⟩ -
    · omega
    · exact hsent

/-- Once the settings are sent, it is the answer to them that counts. -/
theorem kept_sent (hbase : ∃ reference, sgcbBase reference = .ok base)
    (hb : Begun (reserving answers group request)) (hne : settings.isEmpty = false)
    (hread : ∀ s ∈ settings, ∃ r, ObjectReference.parse s.1 = .ok r)
    (hencodes : encodes settings = true) (sent : ConfirmedRequest) : Kept settings
        (((reserving answers group request).called answers (.settings writes) sent).finish answers
          base (answers 1).outcome).1
        (((reserving answers group request).called answers (.settings writes) sent).finish answers
          base (answers 1).outcome).2 ↔ Orderly answers settings := by
  have hbegun := @begun_called answers _ hb writes sent
  have hlen : ((reserving answers group request).called answers (.settings writes) sent).calls.length
      = 2 := rfl
  have hsettings : settings ≠ [] := by
    rintro rfl
    cases hne
  cases hagrees : (answers 1).agrees with
  | true =>
    have hat : releaseAt answers settings = 3 := by
      rw [releaseAt, hne, hencodes, hagrees]
      rfl
    have halive := alive_of_agrees hagrees
    rw [(outcome_eq_ok _).mpr hagrees, kept_finish_ok hbase hbegun halive, hlen,
      written_reserving hne, writes_iff_covers hagrees, orderly_iff hread hat]
    refine and_congr ⟨fun h _ _ => h, fun h => h hencodes hsettings⟩ (or_congr ?_ Iff.rfl)
    constructor
    · intro hdown
      exact ⟨2, by decide, by decide, hdown⟩
    · rintro ⟨i, hpos, hlt, hdown⟩
      rcases (by omega : i = 1 ∨ i = 2) with rfl | rfl
      · rw [halive] at hdown
        cases hdown
      · exact hdown
  | false =>
    have hat : releaseAt answers settings = 2 := by
      rw [releaseAt, hne, hencodes, hagrees]
      rfl
    obtain ⟨f, hf⟩ : ∃ f, (answers 1).outcome = .error f := by
      cases houtcome : (answers 1).outcome with
      | error f => exact ⟨f, rfl⟩
      | ok _ =>
        rw [(outcome_eq_ok _).mp houtcome] at hagrees
        cases hagrees
    rw [hf, kept_finish_error hbase hbegun, hlen, orderly_iff hread hat]
    have hup : ((reserving answers group request).called answers (.settings writes) sent).up =
        (answers 1).alive := rfl
    rw [hup]
    constructor
    · intro h
      refine ⟨fun _ _ => covers_of_not_agrees hagrees _, ?_⟩
      cases halive : (answers 1).alive with
      | true => exact Or.inr (h halive)
      | false => exact Or.inl ⟨1, Nat.zero_lt_one, Nat.one_lt_two, halive⟩
    · rintro ⟨-, ⟨i, hpos, hlt, hdown⟩ | hsent⟩ halive
      · obtain rfl : i = 1 := by omega
        rw [halive] at hdown
        cases hdown
      · exact hsent

end Reserved

/-- An edit keeps to what it owes if and only if, once the group is reserved, the names of the
settings are references, the server speaks of every setting, and the association takes the request
for the release. -/
theorem edit_kept_iff (answers : Nat → Answer) (up : Bool) (reference : Bytes) (group : Nat)
    (settings : List (Bytes × Value)) :
    Kept settings ((Session.fresh up).editSettingGroup answers reference group settings).1
        ((Session.fresh up).editSettingGroup answers reference group settings).2 ↔
      (Reserved answers up reference → Orderly answers settings) := by
  by_cases hreserved : Reserved answers up reference
  case neg => exact iff_of_true (kept_unreserved hreserved) fun h => absurd h hreserved
  case pos =>
    rw [imp_iff_right hreserved]
    obtain ⟨base, request, hbase, hrun⟩ := edit_reserved hreserved group settings
    have hb : Begun (reserving answers group request) := begun_reserving hreserved.2.2 request
    rw [hrun]
    cases hwrites : editedSettings settings with
    | error e =>
      refine iff_of_false ?_ ?_
      · intro h
        obtain ⟨k, hk, hrelease, -⟩ := h.releases hb.reserved rfl
        exact hb.releases k hk hrelease
      · intro h
        obtain ⟨writes, hok⟩ := editedSettings_isOk.mpr h.read
        rw [hwrites] at hok
        cases hok
    | ok writes =>
      dsimp only
      have hread := editedSettings_isOk.mp ⟨writes, hwrites⟩
      have hempty := isEmpty_editedSettings hwrites
      cases hne : settings.isEmpty with
      | true =>
        rw [List.isEmpty_iff.mp hne]
        rw [Session.writeSettings, if_pos (hempty.trans hne)]
        exact kept_without_settings ⟨reference, hbase⟩ hb
      | false =>
        cases hencodes : encodes settings with
        | true =>
          obtain ⟨sent, hsent⟩ := (writeManyRequest_isOk hwrites hne).mpr hencodes
          rw [writeSettings_up rfl (hempty.trans hne) hsent]
          exact kept_sent ⟨reference, hbase⟩ hb hne hread hencodes sent
        | false =>
          obtain ⟨f, hf⟩ : ∃ f, (reserving answers group request).writeSettings answers base
              writes = (reserving answers group request, .error f) := by
            cases hmany : writeManyRequest writes with
            | ok sent =>
              rw [(writeManyRequest_isOk hwrites hne).mp ⟨sent, hmany⟩] at hencodes
              cases hencodes
            | error e =>
              refine ⟨.own e, ?_⟩
              rw [Session.writeSettings, if_neg (by rw [hempty, hne]; decide),
                Session.writeMany, Purpose.writes, hmany]
          rw [hf]
          exact kept_unencodable ⟨reference, hbase⟩ hb hne hread hencodes f

/-- A server that accepts whatever is written first. -/
def obliging : Nat → Answer := fun _ => .response (.ok (.write [.success]))

/-- The name of a setting is not a reference, and the group stays reserved. -/
theorem left_reserved : ¬ ∀ (answers : Nat → Answer) (up : Bool) (reference : Bytes) (group : Nat)
      (settings : List (Bytes × Value)),
      Kept settings ((Session.fresh up).editSettingGroup answers reference group settings).1
        ((Session.fresh up).editSettingGroup answers reference group settings).2 := by
  intro hall
  have h := hall obliging true (ascii "LD/LLN0") 1 [(ascii "StrVal", .boolean true)]
  have hreserved : Reserved obliging true (ascii "LD/LLN0") := ⟨rfl, ⟨_, rfl⟩, trivial⟩
  obtain ⟨base, request, -, hrun⟩ := edit_reserved hreserved 1 [(ascii "StrVal", .boolean true)]
  have hname : editedSettings [(ascii "StrVal", .boolean true)] =
      .error (.invalidReference "missing `/` between LD and LN") := rfl
  have hb : Begun (reserving obliging 1 request) := begun_reserving hreserved.2.2 request
  rw [hrun, hname] at h
  obtain ⟨k, hk, hrelease, -⟩ := h.releases hb.reserved rfl
  exact hb.releases k hk hrelease

end Edit

end Iec61850.Client
