import Iec61850.Server.Log
import Iec61850.Theory.BoundedQueue
import Mathlib.Data.List.Induction

/-!
# Resuming in a log

Along every run a log holds the end of everything that was ever appended to it, with identifiers
that are counted on from one. A client that resumes after an entry it was given is handed exactly
the held entries appended after it when the log still holds the entry; when it does not, the query
goes by the time of the entry, and misses every entry that is not later than that.
-/

namespace Iec61850.Server.Log

open Theory

namespace MemoryLog

/-! ### Numbering -/

@[simp] theorem numbered_length (id : UInt64) (news : List NewEntry) :
    (numbered id news).length = news.length := by
  induction news generalizing id with
  | nil => rfl
  | cons entry rest ih => rw [numbered, List.length_cons, List.length_cons, ih]

theorem numbered_append (id : UInt64) (news more : List NewEntry) :
    numbered id (news ++ more) = numbered id news ++ numbered (id + .ofNat news.length) more := by
  induction news generalizing id with
  | nil => simp [numbered]
  | cons entry rest ih =>
    have hid : id + 1 + .ofNat rest.length = id + .ofNat (rest.length + 1) := by
      rw [UInt64.ofNat_add, UInt64.add_assoc, UInt64.add_comm 1]
      rfl
    rw [List.cons_append, numbered, numbered, ih, hid]
    rfl

theorem numbered_entryId (id : UInt64) (news : List NewEntry) (i : Nat)
    (hi : i < (numbered id news).length) : ((numbered id news)[i]).entryId = id + .ofNat i := by
  induction news generalizing id i with
  | nil => exact absurd hi (Nat.not_lt_zero i)
  | cons entry rest ih =>
    cases i with
    | zero => simp [numbered]
    | succ i =>
      simp only [numbered, List.getElem_cons_succ]
      rw [ih, UInt64.ofNat_add, UInt64.add_assoc, UInt64.add_comm 1]
      rfl

variable {news : List NewEntry} {capacity : UInt64} {j : Journal}

theorem suffix_numbered {id : UInt64} {entries : List Entry} (h : entries <:+ numbered id news) :
    ∃ k, entries = numbered (id + .ofNat k) (news.drop k) := by
  obtain ⟨front, hfront⟩ := h
  have hle : front.length ≤ news.length := by
    rw [← numbered_length id news, ← hfront, List.length_append]
    exact Nat.le_add_right _ _
  refine ⟨front.length, ?_⟩
  have hsplit := numbered_append id (news.take front.length) (news.drop front.length)
  rw [List.take_append_drop, List.length_take, Nat.min_eq_left hle, ← hfront] at hsplit
  refine (List.append_inj hsplit ?_).2
  rw [numbered_length, List.length_take, Nat.min_eq_left hle]

theorem numbered_distinct (id : UInt64) (h : news.length ≤ 2 ^ 64) :
    (numbered id news).Pairwise fun d e => d.entryId ≠ e.entryId := by
  rw [List.pairwise_iff_getElem]
  intro i j hi hj hlt heq
  rw [numbered_entryId, numbered_entryId] at heq
  rw [numbered_length] at hi hj
  have hnat := congrArg UInt64.toNat heq
  rw [UInt64.toNat_add, UInt64.toNat_add, UInt64.toNat_ofNat', UInt64.toNat_ofNat'] at hnat
  omega

/-! ### What a log holds -/

/-- A log that `news` have been appended to: it holds the last of them, and counts on. -/
structure Tracks (capacity : UInt64) (j : Journal) (news : List NewEntry) : Prop where
  suffix : j.entries <:+ numbered 1 news
  nextId : j.nextId = 1 + .ofNat news.length
  bounded : j.entries.length ≤ capacity.toNat

theorem tracks_empty (capacity : UInt64) : Tracks capacity .empty [] := by
  constructor
  · exact List.suffix_refl _
  · rfl
  · exact Nat.zero_le _

theorem append_entries (h : j.entries.length ≤ capacity.toNat) (entry : NewEntry) :
    (j.append capacity entry).1.entries = lastN capacity.toNat (j.entries ++ [j.number entry]) := by
  have hlen : (j.entries ++ [j.number entry]).length = j.entries.length + 1 := by
    rw [List.length_append, List.length_singleton]
  rw [Journal.append, lastN]
  dsimp only
  split
  · rename_i hfull
    have hone : (j.entries ++ [j.number entry]).length - capacity.toNat = 1 := by omega
    rw [hone, List.drop_one]
  · rename_i hroom
    rw [Nat.sub_eq_zero_of_le (Nat.not_lt.mp hroom), List.drop_zero]

theorem Tracks.append (h : Tracks capacity j news) (entry : NewEntry) :
    Tracks capacity (j.append capacity entry).1 (news ++ [entry]) := by
  have hnumber : [j.number entry] = numbered (1 + .ofNat news.length) [entry] := by
    rw [Journal.number, h.nextId]
    rfl
  constructor
  · rw [append_entries h.bounded, numbered_append, ← hnumber]
    obtain ⟨front, hfront⟩ := h.suffix
    refine (List.drop_suffix _ _).trans ?_
    exact ⟨front, by rw [← List.append_assoc, hfront]⟩
  · have hnext : (j.append capacity entry).1.nextId = j.nextId + 1 := rfl
    rw [hnext, List.length_append, UInt64.ofNat_add, ← UInt64.add_assoc, ← h.nextId]
    rfl
  · rw [append_entries h.bounded]
    exact lastN_length_le _ _

theorem Tracks.purge (h : Tracks capacity j news) : Tracks capacity j.purge news := by
  constructor
  · exact List.nil_suffix
  · exact h.nextId
  · exact Nat.zero_le _

theorem after_concat (s : MemoryLog) (xs : List Action) (x : Action) :
    s.after (xs ++ [x]) = (s.after xs).next x := by
  rw [after, List.foldl_append]
  rfl

theorem next_capacity (s : MemoryLog) (x : Action) : (s.next x).capacity = s.capacity := by
  cases x with
  | append log entry =>
    rw [next, append]
    split <;> rfl
  | purge log =>
    rw [next, purge]
    split <;> rfl

theorem append_logs (s : MemoryLog) (l log : Bytes) (entry : NewEntry) :
    (s.append l entry).1.logs log =
      if l = log then (s.logs log).map fun j => (j.append s.capacity entry).1 else s.logs log := by
  rw [append]
  by_cases hl : l = log
  · subst hl
    rw [if_pos rfl]
    cases hj : s.logs l with
    | none => exact hj
    | some j => exact Function.update_self ..
  · rw [if_neg hl]
    cases s.logs l with
    | none => rfl
    | some j => exact Function.update_of_ne (Ne.symm hl) ..

theorem purge_logs (s : MemoryLog) (l log : Bytes) :
    (s.purge l).logs log = if l = log then (s.logs log).map Journal.purge else s.logs log := by
  rw [purge]
  by_cases hl : l = log
  · subst hl
    rw [if_pos rfl]
    cases hj : s.logs l with
    | none => exact hj
    | some j => exact Function.update_self ..
  · rw [if_neg hl]
    cases s.logs l with
    | none => rfl
    | some j => exact Function.update_of_ne (Ne.symm hl) ..

theorem appended_append_one (log l : Bytes) (entry : NewEntry) :
    appended log [.append l entry] = if l = log then [entry] else [] := by
  by_cases hl : l = log
  · simp [appended, hl]
  · simp [appended, hl]

theorem appended_purge_one (log l : Bytes) : appended log [.purge l] = [] := rfl

/-- What an action does to one log. -/
theorem next_tracks {s : MemoryLog} {log : Bytes} (hj : s.logs log = some j)
    (h : Tracks s.capacity j news) (x : Action) : ∃ j', (s.next x).logs log = some j' ∧
      Tracks (s.next x).capacity j' (news ++ appended log [x]) := by
  rw [next_capacity]
  cases x with
  | append l entry =>
    rw [next, append_logs, appended_append_one, hj]
    by_cases hl : l = log
    · rw [if_pos hl, if_pos hl]
      exact ⟨_, rfl, h.append entry⟩
    · rw [if_neg hl, if_neg hl, List.append_nil]
      exact ⟨j, rfl, h⟩
  | purge l =>
    rw [next, purge_logs, appended_purge_one, hj, List.append_nil]
    by_cases hl : l = log
    · rw [if_pos hl]
      exact ⟨_, rfl, h.purge⟩
    · rw [if_neg hl]
      exact ⟨j, rfl, h⟩

theorem appended_append (log : Bytes) (xs ys : List Action) :
    appended log (xs ++ ys) = appended log xs ++ appended log ys := List.filterMap_append

/-- Along every run a log that the store was made for holds the end of what was appended to it. -/
theorem after_tracks {references : List Bytes} {log : Bytes} (hlog : log ∈ references)
    (capacity : UInt64) (xs : List Action) :
    ∃ j, ((forLogs references capacity).after xs).logs log = some j ∧
      Tracks ((forLogs references capacity).after xs).capacity j (appended log xs) := by
  induction xs using List.reverseRecOn with
  | nil => exact ⟨.empty, if_pos hlog, tracks_empty _⟩
  | append_singleton xs x ih =>
    obtain ⟨j, hj, htracks⟩ := ih
    rw [after_concat, appended_append]
    exact next_tracks hj htracks x

theorem Tracks.distinct (h : Tracks capacity j news) :
    j.entries.Pairwise fun d e => d.entryId ≠ e.entryId := by
  obtain ⟨k, hk⟩ := suffix_numbered h.suffix
  have hbounded := h.bounded
  rw [hk, numbered_length] at hbounded
  rw [hk]
  exact numbered_distinct _ (Nat.le_trans hbounded (Nat.le_of_lt capacity.toNat_lt))

/-! ### The two ways to resume -/

/-- After an entry the log holds, the query gives the entries behind it. -/
theorem matchingAfter_held {before after : List Entry} {e : Entry}
    (hentries : j.entries = before ++ e :: after)
    (hdistinct : j.entries.Pairwise fun d e => d.entryId ≠ e.entryId) (time : EntryTime) :
    j.matchingAfter e.entryId time = after := by
  have hfind : j.entries.findIdx? (fun d => decide (d.entryId = e.entryId)) =
      some before.length := by
    rw [hentries, List.pairwise_append] at hdistinct
    have hbefore : before.findIdx? (fun d => decide (d.entryId = e.entryId)) = none := by
      rw [List.findIdx?_eq_none_iff]
      intro d hd
      exact decide_eq_false (hdistinct.2.2 d hd e List.mem_cons_self)
    rw [hentries, List.findIdx?_append, hbefore, List.findIdx?_cons,
      if_pos (decide_eq_true rfl)]
    simp
  have hdrop : (before ++ e :: after).drop (before.length + 1) = after := by
    rw [List.drop_append]
    simp
  rw [Journal.matchingAfter, hfind]
  dsimp only
  rw [hentries, hdrop]

theorem matchingAfter_gone {entryId : UInt64} (hgone : ∀ d ∈ j.entries, d.entryId ≠ entryId)
    (time : EntryTime) :
    j.matchingAfter entryId time = j.entries.filter fun d => decide (time < d.occurred) := by
  have hfind : j.entries.findIdx? (fun d => decide (d.entryId = entryId)) = none := by
    rw [List.findIdx?_eq_none_iff]
    intro d hd
    exact decide_eq_false (hgone d hd)
  rw [Journal.matchingAfter, hfind]

theorem take_filter_iff {α : Type*} {p : α → Bool} {n : Nat} {xs : List α} :
    (xs.filter p).take n = xs.take n ↔ ∀ x ∈ xs.take n, p x = true := by
  constructor
  · intro h x hx
    rw [← h] at hx
    exact (List.mem_filter.mp (List.mem_of_mem_take hx)).2
  · intro h
    have hfront : (xs.take n).filter p = xs.take n := List.filter_eq_self.mpr h
    have hsplit : xs.filter p = xs.take n ++ (xs.drop n).filter p := by
      rw [← hfront, ← List.filter_append, List.take_append_drop]
    rw [hsplit, List.take_append, List.take_take, Nat.min_self, List.length_take]
    by_cases hle : n ≤ xs.length
    · rw [Nat.min_eq_left hle, Nat.sub_self, List.take_zero, List.append_nil]
    · rw [List.drop_eq_nil_of_le (Nat.le_of_not_le hle), List.filter_nil, List.take_nil,
        List.append_nil]

/-- When another entry has the identifier, the page is not the first one: it leaves out that entry
and those before it. -/
theorem take_matchingAfter_ne {d : Entry} (hd : d ∈ j.entries)
    (hdistinct : j.entries.Pairwise fun d e => d.entryId ≠ e.entryId) (time : EntryTime) {n : Nat}
    (hn : 0 < n) : (j.matchingAfter d.entryId time).take n ≠ j.entries.take n := by
  obtain ⟨before, after, hentries⟩ := List.append_of_mem hd
  rw [matchingAfter_held hentries hdistinct]
  intro heq
  rw [hentries] at hdistinct heq
  have hfirst : ∃ x, x ∈ (before ++ d :: after).take n ∧ x ∉ after := by
    rw [List.pairwise_append, List.pairwise_cons] at hdistinct
    obtain ⟨m, rfl⟩ : ∃ m, n = m + 1 := ⟨n - 1, by omega⟩
    cases before with
    | nil => exact ⟨d, List.mem_cons_self, fun hmem => hdistinct.2.1.1 d hmem rfl⟩
    | cons x before =>
      refine ⟨x, List.mem_cons_self, fun hmem => ?_⟩
      exact hdistinct.2.2 x List.mem_cons_self x (List.mem_cons_of_mem _ hmem) rfl
  obtain ⟨x, hx, hnot⟩ := hfirst
  rw [← heq] at hx
  exact hnot (List.mem_of_mem_take hx)

theorem suffix_split {before after held : List Entry} {e : Entry}
    (h : held <:+ before ++ e :: after) :
    (∃ front, held = front ++ e :: after) ∨ held.length ≤ after.length := by
  obtain ⟨front, hfront⟩ := h
  rcases List.append_eq_append_iff.mp hfront with ⟨rest, -, hheld⟩ | ⟨rest, -, hrest⟩
  · exact Or.inl ⟨rest, hheld⟩
  · cases rest with
    | nil => exact Or.inl ⟨[], hrest.symm⟩
    | cons x rest =>
      right
      have hlen : after.length = (rest ++ held).length :=
        congrArg List.length (List.cons.inj hrest).2
      rw [List.length_append] at hlen
      omega

/-- The resume point finds its place: the entry is among the held ones, with `since` entries behind
it; or none of these has its identifier, and the first ones, as many as a page takes, are later. -/
def FindsPlace (held : List Entry) (e : Entry) (since limit : Nat) : Prop :=
  since < held.length ∨
    (∀ d ∈ held, d.entryId ≠ e.entryId) ∧ ∀ d ∈ held.take (max limit 1), e.occurred < d.occurred

/-- In every log that ever had an entry, the query after it gives exactly the held entries that
were appended after it, up to the limit, when the resume point finds its place; and only then. -/
theorem afterEntry_exact {references : List Bytes} {log : Bytes} (hlog : log ∈ references)
    (capacity : UInt64) {xs : List Action} {before after : List Entry} {e : Entry}
    (hhistory : history log xs = before ++ e :: after) (limit : Nat) :
    (((forLogs references capacity).after xs).afterEntry log e.entryId e.occurred limit).1 =
        (lastN after.length (((forLogs references capacity).after xs).held log)).take
          (max limit 1) ↔
      FindsPlace (((forLogs references capacity).after xs).held log) e after.length limit := by
  obtain ⟨j, hj, htracks⟩ := after_tracks hlog capacity xs
  have hheld : ((forLogs references capacity).after xs).held log = j.entries := by
    rw [held, hj]
    rfl
  have hpage : (((forLogs references capacity).after xs).afterEntry log e.entryId e.occurred
      limit).1 = (j.matchingAfter e.entryId e.occurred).take (max limit 1) := by
    rw [afterEntry, hj]
    rfl
  have hsuffix : j.entries <:+ before ++ e :: after := hhistory ▸ htracks.suffix
  rw [hpage, hheld, FindsPlace]
  rcases suffix_split hsuffix with ⟨front, hfront⟩ | hle
  · have hlast : lastN after.length j.entries = after := by
      have hlen : (front ++ e :: after).length - after.length = (front ++ [e]).length := by
        simp only [List.length_append, List.length_cons, List.length_nil]
        omega
      rw [lastN, hfront, hlen, List.append_cons front e after, List.drop_left]
    rw [matchingAfter_held hfront htracks.distinct, hlast]
    refine iff_of_true rfl (Or.inl ?_)
    rw [hfront, List.length_append, List.length_cons]
    omega
  · have hn : 0 < max limit 1 := Nat.lt_of_lt_of_le Nat.zero_lt_one (Nat.le_max_right _ _)
    rw [lastN_of_length_le hle]
    by_cases hgone : ∀ d ∈ j.entries, d.entryId ≠ e.entryId
    · rw [matchingAfter_gone hgone, take_filter_iff]
      constructor
      · intro hlater
        exact Or.inr ⟨hgone, fun d hd => of_decide_eq_true (hlater d hd)⟩
      · rintro (hlt | ⟨-, hlater⟩)
        · exact absurd hlt (Nat.not_lt.mpr hle)
        · exact fun d hd => decide_eq_true (hlater d hd)
    · constructor
      · intro heq
        push Not at hgone
        obtain ⟨d, hd, hid⟩ := hgone
        rw [← hid] at heq
        exact absurd heq (take_matchingAfter_ne hd htracks.distinct e.occurred hn)
      · rintro (hlt | ⟨hnone, -⟩)
        · exact absurd hlt (Nat.not_lt.mpr hle)
        · exact absurd hnone hgone

/-- An entry made at a time. -/
def noted (time : EntryTime) : NewEntry := ⟨time, [], none⟩

/-- The entry is still held, with another one of the same time behind it. -/
theorem afterEntry_exact_held :
    (((forLogs [[76]] 2).after [.append [76] (noted ⟨5, 0⟩), .append [76] (noted ⟨5, 0⟩)]).afterEntry
        [76] 1 ⟨5, 0⟩ 10).1 = (lastN 1 (((forLogs [[76]] 2).after
          [.append [76] (noted ⟨5, 0⟩), .append [76] (noted ⟨5, 0⟩)]).held [76])).take (max 10 1) ↔
      FindsPlace (((forLogs [[76]] 2).after
        [.append [76] (noted ⟨5, 0⟩), .append [76] (noted ⟨5, 0⟩)]).held [76])
        ⟨1, ⟨5, 0⟩, [], none⟩ 1 10 :=
  @afterEntry_exact [[76]] [76] (by decide) 2
    [.append [76] (noted ⟨5, 0⟩), .append [76] (noted ⟨5, 0⟩)] [] [⟨2, ⟨5, 0⟩, [], none⟩]
    ⟨1, ⟨5, 0⟩, [], none⟩ rfl 10

/-- Three entries of one moment in a log that holds two: after the first, which has been evicted,
the query gives none of the others. -/
theorem afterEntry_misses :
    ¬ ∀ (references : List Bytes) (log : Bytes) (capacity : UInt64) (xs : List Action)
      (before after : List Entry) (e : Entry) (limit : Nat), log ∈ references →
      history log xs = before ++ e :: after →
      (((forLogs references capacity).after xs).afterEntry log e.entryId e.occurred limit).1 =
        (lastN after.length (((forLogs references capacity).after xs).held log)).take
          (max limit 1) := by
  intro hall
  have heq := hall [[76]] [76] 2
    [.append [76] (noted ⟨5, 0⟩), .append [76] (noted ⟨5, 0⟩), .append [76] (noted ⟨5, 0⟩)] []
    [⟨2, ⟨5, 0⟩, [], none⟩, ⟨3, ⟨5, 0⟩, [], none⟩] ⟨1, ⟨5, 0⟩, [], none⟩ 10 (by decide) rfl
  have hlen := congrArg List.length heq
  revert hlen
  decide +kernel

end MemoryLog

end Iec61850.Server.Log
