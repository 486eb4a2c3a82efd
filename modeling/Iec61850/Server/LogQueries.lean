import Iec61850.Mms.Services
import Iec61850.Server.LogPaging

/-!
# What a query asks of a log

`Acsi::read_journal` of `server/acsi.rs`. A request may state where to start, where to stop and an
entry to start after, and the server reduces these to one of the two queries of the store. The
entries that a request asks for are stated here without the queries, and the two are compared.
-/

namespace Iec61850.Server.Log

open Theory Mms

/-! ### The service -/

/-- `Answer`, as far as `read_journal` gives one. -/
inductive JournalAnswer where
  | notFound
  | journal (entries : List Entry) (more : Bool)

/-- The query that `read_journal` makes of a request. -/
def queryLog (s : MemoryLog) (reference : Bytes) (limit : Nat) (request : ReadJournal) :
    List Entry × Bool :=
  match request.after, request.start with
  | some after, _ =>
    s.afterEntry reference (MemoryLog.requestedId after.entryId) after.time.time limit
  | none, some (.entry id) => s.afterEntry reference (MemoryLog.requestedId id) ⟨0, 0⟩ limit
  | none, some (.time t) =>
    match request.stop with
    | some (.time u) => s.byTime reference (some t.time) (some u.time) limit
    | _ => s.byTime reference (some t.time) none limit
  | none, none =>
    match request.stop with
    | some (.time u) => s.byTime reference none (some u.time) limit
    | _ => s.byTime reference none none limit

/-- `{domain}/{item}`. -/
def logReference (domain item : Bytes) : Bytes := domain ++ 47 :: item

/-- `Acsi::read_journal`, over the logs that the model declares. -/
def readJournal (declared : List Bytes) (s : MemoryLog) (maxLogEntries : Nat)
    (request : ReadJournal) : JournalAnswer :=
  match request.name with
  | some (.domainSpecific domain item) =>
    if declared.contains (logReference domain item) then
      let (entries, more) := queryLog s (logReference domain item) maxLogEntries request
      .journal entries more
    else .notFound
  | _ => .notFound

/-! ### What a request asks for -/

/-- The moment of an entry, as a log compares it. -/
def toUnixMillis (t : EntryTime) : Nat := t.toUnixMillis

section Bounds

variable (held : List Entry)

/-- An entry, as an octet string names it. -/
def named (id : Bytes) (e : Entry) : Bool := decide (entryIdBytes e.entryId = id)

/-- An entry is among others. -/
def among (e : Entry) (entries : List Entry) : Bool := entries.any fun d => d.entryId = e.entryId

/-- The entries from the first one on that a test picks. -/
def fromFirst (test : Entry → Bool) : List Entry := held.dropWhile fun d => !test d

/-- `startingTime` is a moment. A `startingEntry` is a place in the log, or a place before it when
the log has dropped the entry. -/
def startAdmits (e : Entry) : RangeStart → Bool
  | .time t => decide (toUnixMillis t.time ≤ toUnixMillis e.occurred)
  | .entry id =>
    if held.any (named id) then among e (fromFirst held (named id))
    else (entryIdOf (.octetString id)).any fun n => decide (n ≤ e.entryId)

/-- `endingTime`. -/
def stopAdmits (e : Entry) : RangeStop → Bool
  | .time t => decide (toUnixMillis e.occurred ≤ toUnixMillis t.time)
  | .count _ => true

/-- `entryToStartAfter`: a place in the log, or a moment when the log does not hold the entry. -/
def afterAdmits (e : Entry) (a : AfterEntry) : Bool :=
  if held.any (named a.entryId) then among e (fromFirst held (named a.entryId)).tail
  else decide (toUnixMillis a.time.time < toUnixMillis e.occurred)

/-- An entry is within the bounds of a request that stand alone. -/
def bounded (request : ReadJournal) (e : Entry) : Bool :=
  request.start.all (startAdmits held e) && request.stop.all (stopAdmits e) &&
    request.after.all (afterAdmits held e)

/-- `numberOfEntries`: there are not yet that many before it. -/
def counted (request : ReadJournal) (e : Entry) : Bool :=
  match request.stop with
  | some (.count n) =>
    decide (((held.takeWhile fun d => d.entryId ≠ e.entryId).filter (bounded held request)).length <
      n.toNat)
  | _ => true

/-- An entry satisfies every bound that a request states. -/
def satisfies (request : ReadJournal) (e : Entry) : Bool :=
  bounded held request e && counted held request e

/-- What an answer has to be: a refusal, or the first of the held entries that satisfy every bound,
as many as a page takes, and whether there are more. -/
def Answers (limit : Nat) (request : ReadJournal) : JournalAnswer → Prop
  | .notFound => True
  | .journal entries more => (entries, more) = Theory.page limit (held.filter (satisfies held request))

/-! ### What the server looks for -/

/-- The entries that `after_entry` looks for. -/
def resumes (id : UInt64) (time : EntryTime) (e : Entry) : Bool :=
  if held.any fun d => d.entryId = id then among e (fromFirst held fun d => d.entryId = id).tail
  else decide (time < e.occurred)

/-- The entries that the query looks for which a request is reduced to. -/
def sought (request : ReadJournal) (e : Entry) : Bool :=
  match request.after, request.start with
  | some after, _ => resumes held (MemoryLog.requestedId after.entryId) after.time.time e
  | none, some (.entry id) => resumes held (MemoryLog.requestedId id) ⟨0, 0⟩ e
  | none, start =>
    start.all (fun s => match s with
      | .time t => decide (t.time ≤ e.occurred)
      | .entry _ => true) &&
    request.stop.all (fun s => match s with
      | .time t => decide (e.occurred ≤ t.time)
      | .count _ => true)

end Bounds

/-! ### The queries as selections -/

/-- Entries are told apart by their identifiers. -/
abbrev Distinct (entries : List Entry) : Prop := entries.Pairwise fun d e => d.entryId ≠ e.entryId

theorem fromFirst_append {test : Entry → Bool} {before after : List Entry} {e : Entry}
    (hbefore : ∀ d ∈ before, test d = false) (he : test e = true) :
    fromFirst (before ++ e :: after) test = e :: after := by
  rw [fromFirst, List.dropWhile_append_of_pos]
  · rw [List.dropWhile_cons_of_neg]
    simp [he]
  · intro d hd
    rw [hbefore d hd]
    rfl

theorem among_iff {e : Entry} {entries : List Entry} :
    among e entries = true ↔ ∃ d ∈ entries, d.entryId = e.entryId := by
  simp [among]

theorem filter_among {before rest : List Entry} (h : Distinct (before ++ rest)) :
    (before ++ rest).filter (fun e => among e rest) = rest := by
  obtain ⟨-, -, hcross⟩ := List.pairwise_append.mp h
  have hbefore : before.filter (fun e => among e rest) = [] := by
    rw [List.filter_eq_nil_iff]
    intro e he hamong
    obtain ⟨d, hd, heq⟩ := among_iff.mp hamong
    exact hcross e he d hd heq.symm
  have hrest : rest.filter (fun e => among e rest) = rest := by
    rw [List.filter_eq_self]
    intro e he
    exact among_iff.mpr ⟨e, he, rfl⟩
  rw [List.filter_append, hbefore, hrest, List.nil_append]

theorem matchingAfter_eq {j : Journal} (h : Distinct j.entries) (id : UInt64) (time : EntryTime) :
    j.matchingAfter id time = j.entries.filter (resumes j.entries id time) := by
  by_cases hheld : ∃ d ∈ j.entries, d.entryId = id
  · obtain ⟨e, he, rfl⟩ := hheld
    obtain ⟨before, after, hentries⟩ := List.append_of_mem he
    have hany : (j.entries.any fun d => d.entryId = e.entryId) = true := by
      rw [List.any_eq_true]
      exact ⟨e, he, decide_eq_true rfl⟩
    have hfirst : fromFirst j.entries (fun d => d.entryId = e.entryId) = e :: after := by
      rw [hentries]
      refine fromFirst_append ?_ (decide_eq_true rfl)
      intro d hd
      rw [hentries] at h
      exact decide_eq_false ((List.pairwise_append.mp h).2.2 d hd e List.mem_cons_self)
    have hresumes : resumes j.entries e.entryId time = fun d => among d after := by
      funext d
      rw [resumes, if_pos hany, hfirst, List.tail_cons]
    rw [MemoryLog.matchingAfter_held hentries h, hresumes, hentries]
    have hsplit : before ++ e :: after = (before ++ [e]) ++ after := by simp
    rw [hentries, hsplit] at h
    rw [hsplit, filter_among h]
  · have hgone : ∀ d ∈ j.entries, d.entryId ≠ id := fun d hd heq => hheld ⟨d, hd, heq⟩
    have hany : ¬ (j.entries.any fun d => d.entryId = id) = true := by
      rw [List.any_eq_true]
      rintro ⟨d, hd, heq⟩
      exact hgone d hd (of_decide_eq_true heq)
    have hresumes : resumes j.entries id time = fun d => decide (time < d.occurred) := by
      funext d
      rw [resumes, if_neg hany]
    rw [MemoryLog.matchingAfter_gone hgone, hresumes]

/-- The query is a page of what it looks for. -/
theorem queryLog_eq {s : MemoryLog} {reference : Bytes} {j : Journal}
    (hj : s.logs reference = some j) (h : Distinct j.entries) {limit : Nat} (hlimit : 1 ≤ limit)
    (request : ReadJournal) : queryLog s reference limit request =
      Theory.page limit (j.entries.filter (sought j.entries request)) := by
  have hpage : ∀ matching, page matching limit = Theory.page limit matching := by
    intro matching
    rw [page, Nat.max_eq_left hlimit]
  have hafter : ∀ id time, s.afterEntry reference id time limit =
      Theory.page limit (j.entries.filter (resumes j.entries id time)) := by
    intro id time
    rw [MemoryLog.afterEntry, hj]
    dsimp only
    rw [Journal.afterEntry, matchingAfter_eq h, hpage]
  have htime : ∀ start stop, s.byTime reference start stop limit =
      Theory.page limit (j.entries.filter fun e =>
        start.all (fun f => decide (f ≤ e.occurred)) &&
          stop.all (fun t => decide (e.occurred ≤ t))) := by
    intro start stop
    rw [MemoryLog.byTime, hj]
    dsimp only
    rw [Journal.byTime, hpage]
  obtain ⟨name, start, stop, vars, after⟩ := request
  unfold queryLog
  cases after with
  | some after =>
    dsimp only
    rw [hafter]
    rfl
  | none =>
    rcases start with _ | ⟨t⟩ | id
    · rcases stop with _ | ⟨u⟩ | n
      all_goals exact htime _ _
    · rcases stop with _ | ⟨u⟩ | n
      all_goals exact htime _ _
    · dsimp only
      rw [hafter]
      rfl

/-! ### Every request -/

/-- The log that a request names. -/
def requestedLog (request : ReadJournal) : Option Bytes :=
  match request.name with
  | some (.domainSpecific domain item) => some (logReference domain item)
  | _ => none

theorem readJournal_of_log {declared : List Bytes} {s : MemoryLog} {limit : Nat}
    {request : ReadJournal} {log : Bytes} (h : requestedLog request = some log) :
    readJournal declared s limit request = if declared.contains log then
        .journal (queryLog s log limit request).1 (queryLog s log limit request).2
      else .notFound := by
  unfold requestedLog at h
  split at h
  case h_1 domain item hname =>
    cases h
    rw [readJournal, hname]
  case h_2 => cases h

theorem Distinct.nodup {entries : List Entry} (h : Distinct entries) : entries.Nodup :=
  h.imp fun hne heq => hne (congrArg Entry.entryId heq)

/-- Three entries of one day, read two at a time from the second one's time on. -/
def threeNoted : List MemoryLog.Action :=
  [.append [76, 47, 77] (MemoryLog.noted ⟨4, 7⟩), .append [76, 47, 77] (MemoryLog.noted ⟨5, 7⟩),
    .append [76, 47, 77] (MemoryLog.noted ⟨6, 7⟩)]

def sinceSecond : ReadJournal :=
  { name := some (.domainSpecific [76] [77]), start := some (.time ⟨⟨5, 7⟩, true⟩) }

def oneEntry : ReadJournal :=
  { name := some (.domainSpecific [76] [77]), stop := some (.count 1) }

end Iec61850.Server.Log
