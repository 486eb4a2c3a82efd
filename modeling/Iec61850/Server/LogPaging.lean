import Iec61850.Server.Ied
import Iec61850.Server.LogResume

/-!
# Reading a whole log

Page after page, each one asked for from the last entry of the one before, a client reads every
entry a log holds, once and in order; and it stops. The identifiers it reads grow until they begin
again, after 2^64 entries. Each append keeps the newest entries, and says which ones they are.
-/

namespace Iec61850.Server.Log

open Theory Mms

namespace MemoryLog

/-! ### What an append leaves -/

/-- A log that is not purged holds the newest of all the entries appended to it. -/
theorem held_eq_lastN {references : List Bytes} {log : Bytes} (hlog : log ∈ references)
    (capacity : UInt64) {xs : List Action} (hxs : ∀ x ∈ xs, x ≠ .purge log) :
    ((forLogs references capacity).after xs).held log =
      lastN (max capacity 1).toNat (history log xs) := by
  have hcapacity : ∀ ys, ((forLogs references capacity).after ys).capacity = max capacity 1 := by
    intro ys
    induction ys using List.reverseRecOn with
    | nil => rfl
    | append_singleton ys y ih => rw [after_concat, next_capacity, ih]
  induction xs using List.reverseRecOn with
  | nil =>
    rw [held, after, List.foldl_nil, forLogs]
    dsimp only
    rw [if_pos hlog]
    exact (lastN_of_length_le (Nat.zero_le _)).symm
  | append_singleton xs x ih =>
    have hbefore := ih fun y hy => hxs y (List.mem_append_left _ hy)
    obtain ⟨j, hj, htracks⟩ := after_tracks hlog capacity xs
    have hentries : j.entries = lastN (max capacity 1).toNat (history log xs) := by
      rw [← hbefore, held, hj]
      rfl
    rw [after_concat, held, history, appended_append]
    cases x with
    | append l entry =>
      rw [next, append_logs, appended_append_one, hj]
      by_cases hl : l = log
      · have hnumber : [j.number entry] =
            numbered (1 + .ofNat (appended log xs).length) [entry] := by
          rw [Journal.number, htracks.nextId]
          rfl
        rw [if_pos hl, if_pos hl, Option.map_some, Option.map_some, Option.getD_some,
          append_entries htracks.bounded, hcapacity, hentries, lastN_append_lastN,
          numbered_append, ← hnumber, history]
      · rw [if_neg hl, if_neg hl, List.append_nil]
        exact hentries
    | purge l =>
      have hl : l ≠ log := by
        rintro rfl
        exact hxs _ (List.mem_append_right _ List.mem_cons_self) rfl
      rw [next, purge_logs, appended_purge_one, if_neg hl, hj, List.append_nil]
      exact hentries

/-- An append leaves the newest entries, as many as the log may hold, with the new one last; and
the bounds it reports are those of the oldest and of the newest of them. -/
def KeepsNewest (s : MemoryLog) (log : Bytes) (entry : NewEntry) : Prop :=
  ∃ e bounds, (s.append log entry).2 = some bounds ∧
    e.occurred = entry.occurred ∧ e.values = entry.values ∧ e.reason = entry.reason ∧
    ((s.append log entry).1.held log).length ≤ s.capacity.toNat ∧
    (s.append log entry).1.held log = lastN s.capacity.toNat (s.held log ++ [e]) ∧
    ((s.append log entry).1.held log).head?.map Entry.key = some bounds.oldest ∧
    ((s.append log entry).1.held log).getLast?.map Entry.key = some bounds.newest

theorem getLast?_lastN {α : Type*} {n : Nat} (hn : 0 < n) (xs : List α) (x : α) :
    (lastN n (xs ++ [x])).getLast? = some x := by
  rw [lastN, List.drop_append_of_le_length, List.getLast?_concat]
  rw [List.length_append, List.length_singleton]
  omega

variable {s : MemoryLog} {log : Bytes} {j : Journal} {capacity : UInt64} {news : List NewEntry}
  {fuel : Nat}

theorem append_keepsNewest (hj : s.logs log = some j)
    (hbounded : j.entries.length ≤ s.capacity.toNat) (entry : NewEntry) :
    s.KeepsNewest log entry := by
  have hheld : s.held log = j.entries := by
    rw [held, hj]
    rfl
  have hafter : (s.append log entry).1.held log =
      lastN s.capacity.toNat (s.held log ++ [j.number entry]) := by
    rw [held, append_logs, if_pos rfl, hj, Option.map_some, Option.map_some, Option.getD_some,
      append_entries hbounded, hheld]
  have hlast : ((s.append log entry).1.held log).getLast? = some (j.number entry) := by
    rw [hafter]
    exact getLast?_lastN s.positive _ _
  have hbounds : (s.append log entry).2 = some (j.append s.capacity entry).2 := by
    rw [append, hj]
  refine ⟨j.number entry, _, hbounds, rfl, rfl, rfl, ?_, hafter, ?_, ?_⟩
  · rw [hafter]
    exact lastN_length_le _ _
  · have hentries : (j.append s.capacity entry).1.entries = (s.append log entry).1.held log := by
      rw [held, append_logs, if_pos rfl, hj]
      rfl
    have holdest : (j.append s.capacity entry).2.oldest =
        (((s.append log entry).1.held log).head?.map Entry.key).getD (j.number entry).key := by
      rw [← hentries]
      rfl
    rw [holdest]
    cases hhead : ((s.append log entry).1.held log).head? with
    | none =>
      rw [List.head?_eq_none_iff] at hhead
      rw [hhead] at hlast
      cases hlast
    | some e => rfl
  · rw [hlast]
    rfl

/-! ### Pages -/

/-- The whole log by time, and after each entry what is behind it, as pages of what is held. -/
theorem followPages_held (hj : s.logs log = some j) (h : Tracks capacity j news) (limit : Nat)
    (hfuel : (s.held log).length < fuel) :
    followPages (fun e => s.afterEntry log e.entryId e.occurred limit) fuel
      (s.byTime log none none limit) = some (s.held log) := by
  have hheld : s.held log = j.entries := by
    rw [held, hj]
    rfl
  have hfirst : s.byTime log none none limit = Theory.page (max limit 1) j.entries := by
    have hall : j.entries.filter (fun _ => true) = j.entries :=
      List.filter_eq_self.mpr fun _ _ => rfl
    rw [byTime, hj]
    exact congrArg (fun matching => page matching limit) hall
  rw [hheld] at hfuel ⊢
  rw [hfirst]
  refine followPages_eq ?_ ?_ hfuel
  · exact Nat.lt_of_lt_of_le Nat.zero_lt_one (Nat.le_max_right _ _)
  · intro before e rest hsplit
    rw [afterEntry, hj]
    dsimp only
    rw [Journal.afterEntry, matchingAfter_held hsplit h.distinct, page]

theorem Tracks.increasing (h : Tracks capacity j news) (hnews : news.length < 2 ^ 64) :
    j.entries.Pairwise fun d e => d.entryId < e.entryId := by
  refine List.Pairwise.sublist h.suffix.sublist ?_
  rw [List.pairwise_iff_getElem]
  intro i k hi hk hlt
  rw [numbered_entryId, numbered_entryId, UInt64.lt_iff_toNat_lt, UInt64.toNat_add,
    UInt64.toNat_add, UInt64.toNat_ofNat', UInt64.toNat_ofNat']
  rw [numbered_length] at hi hk
  have hone : (1 : UInt64).toNat = 1 := rfl
  omega

/-- Along every run, whatever the limit of a page, reading page after page gives the entries the log
holds, each of them once, with identifiers that grow as long as fewer than 2^64 entries have been
appended; and every append keeps the newest entries and reports their bounds. -/
theorem paging_complete {references : List Bytes} {log : Bytes} (hlog : log ∈ references)
    (capacity : UInt64) (xs : List Action) :
    let s := (forLogs references capacity).after xs
    (∀ limit fuel, (s.held log).length < fuel →
      followPages (fun e => s.afterEntry log e.entryId e.occurred limit) fuel
        (s.byTime log none none limit) = some (s.held log)) ∧
    ((s.held log).Pairwise fun d e => d.entryId ≠ e.entryId) ∧
    ((appended log xs).length < 2 ^ 64 →
      (s.held log).Pairwise fun d e => d.entryId < e.entryId) ∧
    ∀ entry, s.KeepsNewest log entry := by
  obtain ⟨j, hj, htracks⟩ := after_tracks hlog capacity xs
  have hheld : ((forLogs references capacity).after xs).held log = j.entries := by
    rw [held, hj]
    rfl
  refine ⟨?_, ?_, ?_, ?_⟩
  · intro limit fuel hfuel
    exact followPages_held hj htracks limit hfuel
  · rw [hheld]
    exact htracks.distinct
  · rw [hheld]
    exact htracks.increasing
  · exact append_keepsNewest hj htracks.bounded

/-- A log of two entries, read one entry at a time. -/
theorem paging_complete_two :
    let s := (forLogs [[76]] 2).after
      [.append [76] (noted ⟨5, 0⟩), .append [76] (noted ⟨5, 0⟩), .append [76] (noted ⟨4, 0⟩)]
    (∀ limit fuel, (s.held [76]).length < fuel →
      followPages (fun e => s.afterEntry [76] e.entryId e.occurred limit) fuel
        (s.byTime [76] none none limit) = some (s.held [76])) ∧
    ((s.held [76]).Pairwise fun d e => d.entryId ≠ e.entryId) ∧
    ((appended [76] [.append [76] (noted ⟨5, 0⟩), .append [76] (noted ⟨5, 0⟩),
        .append [76] (noted ⟨4, 0⟩)]).length < 2 ^ 64 →
      (s.held [76]).Pairwise fun d e => d.entryId < e.entryId) ∧
    ∀ entry, s.KeepsNewest [76] entry :=
  @paging_complete [[76]] [76] (by decide) 2
    [.append [76] (noted ⟨5, 0⟩), .append [76] (noted ⟨5, 0⟩), .append [76] (noted ⟨4, 0⟩)]

theorem appended_replicate (log : Bytes) (entry : NewEntry) (n : Nat) :
    (appended log (List.replicate n (.append log entry))).length = n := by
  induction n with
  | zero => rfl
  | succ n ih =>
    rw [List.replicate_succ', appended_append, List.length_append, ih, appended_append_one,
      if_pos rfl, List.length_singleton]

/-- The last two of 2^64 entries: the identifiers begin again at zero. -/
theorem paging_wraps :
    ¬ ∀ (references : List Bytes) (log : Bytes) (capacity : UInt64) (xs : List Action)
      (limit fuel : Nat), log ∈ references → 1 ≤ limit →
      (((forLogs references capacity).after xs).held log).length < fuel → ∃ entries, followPages
        (fun e => ((forLogs references capacity).after xs).afterEntry log e.entryId e.occurred limit)
        fuel (((forLogs references capacity).after xs).byTime log none none limit) = some entries ∧
      entries.Pairwise fun d e => d.entryId < e.entryId := by
  intro hall
  obtain ⟨n, hn⟩ : ∃ n : Nat, n = 2 ^ 64 := ⟨_, rfl⟩
  obtain ⟨xs, hxs⟩ : ∃ xs, xs = List.replicate n (Action.append [76] (noted ⟨5, 0⟩)) := ⟨_, rfl⟩
  have hmem : [76] ∈ ([[76]] : List Bytes) := List.mem_cons_self
  obtain ⟨entries, hentries, hpairwise⟩ := hall [[76]] [76] 2 xs 1 _ hmem (Nat.le_refl 1)
    (Nat.lt_succ_self _)
  obtain ⟨j, hj, htracks⟩ := after_tracks hmem 2 xs
  rw [followPages_held hj htracks 1 (Nat.lt_succ_self _)] at hentries
  cases hentries
  have hlen : (history [76] xs).length = n := by
    rw [history, numbered_length, hxs, appended_replicate]
  have hheld := @held_eq_lastN [[76]] [76] hmem 2 xs (by
    intro x hx
    rw [hxs] at hx
    rw [List.eq_of_mem_replicate hx]
    exact Action.noConfusion)
  have hcapacity : (max 2 1 : UInt64).toNat = 2 := by decide
  rw [hheld, hcapacity, lastN, List.pairwise_iff_getElem, hlen] at hpairwise
  have hlast : ((history [76] xs).drop (n - 2)).length = 2 := by
    rw [List.length_drop, hlen]
    omega
  have hlt := hpairwise 0 1 (by rw [hlast]; decide) (by rw [hlast]; decide) Nat.zero_lt_one
  rw [List.getElem_drop, List.getElem_drop] at hlt
  have hids : ∀ i (hi : i < (history [76] xs).length),
      ((history [76] xs)[i]).entryId = 1 + .ofNat i := fun i hi => numbered_entryId 1 _ i hi
  rw [hids, hids, hn] at hlt
  revert hlt
  decide

/-! ### What a client reads -/

/-- `LogEntry` of the client. -/
structure LogEntry where
  entryId : Bytes
  occurred : EntryTime
  vars : List (Bytes × Value)
  reason : Option ReasonCode

structure LogPage where
  entries : List LogEntry
  moreFollows : Bool

/-- An entry as a client is given it. -/
def delivered (e : Entry) : LogEntry :=
  ⟨entryIdBytes e.entryId, e.occurred, e.values, e.reason⟩

def LogPage.of (p : List Entry × Bool) : LogPage := ⟨p.1.map delivered, p.2⟩

/-- The identifier `Acsi::read_journal` takes from a request. -/
def requestedId (id : Bytes) : UInt64 := (entryIdOf (.octetString id)).getD 0

/-- `Client::query_log_by_time`, without an upper bound. -/
def queryLogByTime (s : MemoryLog) (log : Bytes) (limit : Nat) (start : EntryTime) : LogPage :=
  .of (s.byTime log (some start) (some EntryTime.max) limit)

/-- `Client::query_log_after_entry`. -/
def queryLogAfterEntry (s : MemoryLog) (log : Bytes) (limit : Nat) (id : Bytes)
    (time : EntryTime) : LogPage :=
  .of (s.afterEntry log (requestedId id) time limit)

/-- The loop of `Client::read_whole_log`, with what has been read so far. -/
def readPages (query : Bytes → EntryTime → LogPage) (maxEntries : Nat) :
    Nat → List LogEntry → LogPage → Option (Except Error (List LogEntry))
  | 0, _, _ => none
  | fuel + 1, out, page =>
    let out := out ++ page.entries
    if ¬ page.moreFollows then some (.ok out)
    else if maxEntries ≤ out.length then some (.error (.limitExceeded "max_entries" out.length))
    else
      match page.entries.getLast? with
      | none => some (.ok out)
      | some e => readPages query maxEntries fuel out (query e.entryId e.occurred)

/-- `Client::read_whole_log`. -/
def readWholeLog (s : MemoryLog) (log : Bytes) (limit : Nat) (start : EntryTime)
    (maxEntries fuel : Nat) : Option (Except Error (List LogEntry)) :=
  readPages (s.queryLogAfterEntry log limit) maxEntries fuel [] (s.queryLogByTime log limit start)

theorem requestedId_entryIdBytes (id : UInt64) : requestedId (entryIdBytes id) = id := by
  rw [requestedId, entryIdOf_entryIdBytes]
  rfl

end MemoryLog

end Iec61850.Server.Log
