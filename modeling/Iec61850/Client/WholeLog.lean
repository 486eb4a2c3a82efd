import Iec61850.Server.LogPaging

/-!
# Reading a whole log

`Client::read_whole_log` of `client/log.rs` against a server that pages. The first page is selected
by time and the ones behind it by the last entry of the page before, so that what is read may hold
entries that the times exclude; and the client looks at its own bound only between two pages.
-/

namespace Iec61850.Client

open Theory Mms Server.Log MemoryLog

/-! ### What is to be read -/

/-- What one unlimited query by time gives. -/
def unlimited (s : MemoryLog) (log : Bytes) (start : EntryTime) : List LogEntry :=
  (s.queryLogByTime log (s.held log).length start).entries

/-- All that the unlimited query gives, or an error when that is more than the client will hold. -/
def Whole (expected : List LogEntry) (maxEntries : Nat) :
    Option (Except Error (List LogEntry)) → Prop
  | none => False
  | some (.ok entries) => entries = expected ∧ expected.length ≤ maxEntries
  | some (.error _) => maxEntries < expected.length

/-! ### What is behind a page -/

/-- What is left of a list behind the `n`-th element that a test picks. -/
def behindPage {α : Type} (test : α → Bool) : Nat → List α → List α
  | 0, xs => xs
  | _ + 1, [] => []
  | n + 1, x :: xs => if test x then behindPage test n xs else behindPage test (n + 1) xs

/-- An entry is in the range of a query from a time on. -/
def inRange (start : EntryTime) (e : Entry) : Bool :=
  decide (start ≤ e.occurred) && decide (e.occurred ≤ EntryTime.max)

/-- The length of all pages but the last one, with `rest` entries behind the first page. -/
def beforeLastPage (limit rest : Nat) : Nat := limit + (rest - 1) / limit * limit

/-- The entries in the range are no more than the client will hold, and they fit on a page or are
all there is behind the first page; or they are more, and the client reaches its bound before the
last page. -/
structure Untorn (held : List Entry) (limit : Nat) (start : EntryTime) (maxEntries : Nat) :
    Prop where
  ranged : (held.filter (inRange start)).length ≤ maxEntries →
    (held.filter (inRange start)).length ≤ limit ∨
      ∀ e ∈ behindPage (inRange start) limit held, inRange start e = true
  bounded : maxEntries < (held.filter (inRange start)).length →
    limit < (held.filter (inRange start)).length ∧
      maxEntries ≤ beforeLastPage limit (behindPage (inRange start) limit held).length

section Behind

variable {α : Type} {test : α → Bool}

/-- A full page ends in an element of the list, and what is behind the page is behind it. -/
theorem exists_behindPage {n : Nat} {xs : List α} (h : n < (xs.filter test).length) :
    ∃ before x, ((xs.filter test).take (n + 1)).getLast? = some x ∧
      xs = before ++ x :: behindPage test (n + 1) xs := by
  induction xs generalizing n with
  | nil => exact absurd h (Nat.not_lt_zero _)
  | cons y xs ih =>
    cases hy : test y with
    | false =>
      rw [List.filter_cons_of_neg (by simp [hy])] at h ⊢
      obtain ⟨before, x, hlast, hxs⟩ := ih h
      refine ⟨y :: before, x, hlast, ?_⟩
      rw [behindPage, if_neg (by simp [hy]), List.cons_append, ← hxs]
    | true =>
      rw [List.filter_cons_of_pos hy] at h ⊢
      rw [behindPage, if_pos hy]
      cases n with
      | zero =>
        refine ⟨[], y, ?_, ?_⟩
        · rw [List.take_succ_cons, List.take_zero, List.getLast?_singleton]
        · rw [behindPage, List.nil_append]
      | succ n =>
        rw [List.length_cons] at h
        obtain ⟨before, x, hlast, hxs⟩ := ih (Nat.lt_of_succ_lt_succ h)
        refine ⟨y :: before, x, ?_, ?_⟩
        · rw [List.take_succ_cons, List.getLast?_cons, hlast]
          rfl
        · rw [List.cons_append, ← hxs]

theorem filter_behindPage (n : Nat) (xs : List α) :
    (behindPage test n xs).filter test = (xs.filter test).drop n := by
  induction xs generalizing n with
  | nil => cases n <;> simp [behindPage]
  | cons y xs ih =>
    cases n with
    | zero => rfl
    | succ n =>
      rw [behindPage]
      cases hy : test y with
      | false =>
        rw [if_neg Bool.false_ne_true, List.filter_cons_of_neg (by simp [hy]), ih]
      | true => rw [if_pos rfl, List.filter_cons_of_pos hy, ih, List.drop_succ_cons]

theorem behindPage_eq_iff (n : Nat) (xs : List α) :
    (behindPage test n xs).length = ((xs.filter test).drop n).length ↔
      ∀ x ∈ behindPage test n xs, test x = true := by
  rw [← filter_behindPage n xs, eq_comm]
  exact List.length_filter_eq_length_iff

end Behind

/-! ### Page after page -/

theorem pred_div_of_lt {n len : Nat} (hn : 0 < n) (h : n < len) :
    (len - 1) / n = (len - n - 1) / n + 1 := by
  rw [← Nat.add_div_right _ hn]
  congr 1
  omega

/-- From a page on, the client reads all that is left, unless it reaches its bound before the last
page. -/
theorem readPages_suffix {query : Bytes → EntryTime → LogPage} {next : Entry → List Entry × Bool}
    (hquery : ∀ e, query (delivered e).entryId (delivered e).occurred = .of (next e))
    {n : Nat} (hn : 0 < n) {xs : List Entry}
    (hnext : ∀ before x rest, xs = before ++ x :: rest → next x = Theory.page n rest) (maxEntries : Nat)
    {fuel : Nat} {before ys : List Entry} (out : List LogEntry) (hxs : xs = before ++ ys)
    (hfuel : ys.length < fuel) :
    if ys.length ≤ n ∨ out.length + (ys.length - 1) / n * n < maxEntries then
      readPages query maxEntries fuel out (.of (Theory.page n ys)) = some (.ok (out ++ ys.map delivered))
    else ∃ e, readPages query maxEntries fuel out (.of (Theory.page n ys)) = some (.error e) := by
  induction fuel generalizing before ys out with
  | zero => exact absurd hfuel (Nat.not_lt_zero _)
  | succ fuel ih =>
    rw [readPages, LogPage.of, Theory.page]
    dsimp only
    by_cases hmore : n < ys.length
    · obtain ⟨front, x, hys, hlast, htake⟩ := exists_last_of_page hn hmore
      have hsplit : xs = (before ++ front) ++ x :: ys.drop n := by
        rw [hxs, List.append_assoc, ← hys]
      have hrest : xs = (before ++ front ++ [x]) ++ ys.drop n := by
        rw [hsplit, List.append_assoc _ [x], List.singleton_append]
      have hout : (out ++ (ys.take n).map delivered).length = out.length + n := by
        rw [List.length_append, List.length_map, List.length_take, Nat.min_eq_left hmore.le]
      have hshorter : (ys.drop n).length < fuel := by
        rw [List.length_drop]
        omega
      have hlater := ih (out ++ (ys.take n).map delivered) hrest hshorter
      rw [hout, List.length_drop] at hlater
      rw [decide_eq_true hmore, if_neg (not_not.mpr rfl), hout, List.getLast?_map, hlast,
        Option.map_some]
      dsimp only
      rw [hquery, hnext _ _ _ hsplit]
      have hpages := pred_div_of_lt hn hmore
      rw [hpages, Nat.add_mul, Nat.one_mul]
      by_cases hmax : maxEntries ≤ out.length + n
      · rw [if_pos hmax, if_neg (by omega)]
        exact ⟨_, rfl⟩
      · rw [if_neg hmax]
        by_cases hshort : ys.length - n ≤ n
        · have hone : (ys.length - n - 1) / n = 0 := Nat.div_eq_of_lt (by omega)
          rw [if_pos (Or.inl hshort)] at hlater
          rw [hone, if_pos (by omega), hlater, List.append_assoc, ← List.map_append,
            List.take_append_drop]
        · by_cases hbound : out.length + n + (ys.length - n - 1) / n * n < maxEntries
          · rw [if_pos (Or.inr hbound)] at hlater
            rw [if_pos (by omega), hlater, List.append_assoc, ← List.map_append,
              List.take_append_drop]
          · rw [if_neg (by omega)] at hlater
            rwa [if_neg (by omega)]
    · rw [if_pos (Or.inl (Nat.not_lt.mp hmore)), decide_eq_false hmore,
        if_pos Bool.false_ne_true, List.take_of_length_le (Nat.not_lt.mp hmore)]

/-- The unlimited query gives the entries in the range. -/
theorem unlimited_eq {references : List Bytes} {log : Bytes} (hlog : log ∈ references)
    (capacity : UInt64) (xs : List Action) (start : EntryTime) :
    unlimited ((forLogs references capacity).after xs) log start =
      ((((forLogs references capacity).after xs).held log).filter (inRange start)).map
        delivered := by
  obtain ⟨j, hj, -⟩ := after_tracks hlog capacity xs
  have hheld : ((forLogs references capacity).after xs).held log = j.entries := by
    rw [held, hj]
    rfl
  have hlen : (j.entries.filter (inRange start)).length ≤ max j.entries.length 1 :=
    Nat.le_trans (List.length_filter_le _ _) (Nat.le_max_left _ _)
  rw [unlimited, queryLogByTime, byTime, hj, hheld]
  dsimp only
  rw [Journal.byTime, Server.Log.page, LogPage.of]
  exact congrArg (List.map delivered) (List.take_of_length_le hlen)

/-- What the client reads, by whether the range fits on one page and where the bound is reached. -/
theorem readWholeLog_eq {references : List Bytes} {log : Bytes} (hlog : log ∈ references)
    (capacity : UInt64) (xs : List Action) {limit : Nat} (hlimit : 1 ≤ limit) (start : EntryTime)
    (maxEntries : Nat) {fuel : Nat}
    (hfuel : (((forLogs references capacity).after xs).held log).length < fuel) :
    let s := (forLogs references capacity).after xs
    let ranged := (s.held log).filter (inRange start)
    let behind := behindPage (inRange start) limit (s.held log)
    if ranged.length ≤ limit then
      s.readWholeLog log limit start maxEntries fuel = some (.ok (ranged.map delivered))
    else if beforeLastPage limit behind.length < maxEntries then
      s.readWholeLog log limit start maxEntries fuel =
        some (.ok ((ranged.take limit ++ behind).map delivered))
    else ∃ e, s.readWholeLog log limit start maxEntries fuel = some (.error e) := by
  intro s ranged behind
  obtain ⟨j, hj, htracks⟩ := after_tracks hlog capacity xs
  have hheld : s.held log = j.entries := by
    rw [held, hj]
    rfl
  have hmax : max limit 1 = limit := Nat.max_eq_left hlimit
  have hfirst : s.queryLogByTime log limit start = .of (Theory.page limit ranged) := by
    have hranged : ranged = j.entries.filter (inRange start) := congrArg _ hheld
    rw [queryLogByTime, byTime, hj, hranged]
    dsimp only
    rw [Journal.byTime, Server.Log.page, hmax]
    rfl
  have hquery : ∀ e, s.queryLogAfterEntry log limit (delivered e).entryId (delivered e).occurred =
      .of (s.afterEntry log e.entryId e.occurred limit) := by
    intro e
    rw [queryLogAfterEntry, delivered, requestedId_entryIdBytes]
  have hnext : ∀ before x rest, s.held log = before ++ x :: rest →
      s.afterEntry log x.entryId x.occurred limit = Theory.page limit rest := by
    intro before x rest hsplit
    rw [hheld] at hsplit
    rw [afterEntry, hj]
    dsimp only
    rw [Journal.afterEntry, matchingAfter_held hsplit htracks.distinct, Server.Log.page, hmax]
  obtain ⟨fuel, rfl⟩ := Nat.exists_eq_add_one_of_ne_zero (Nat.ne_zero_of_lt hfuel)
  rw [readWholeLog, hfirst, readPages, LogPage.of, Theory.page, List.nil_append]
  dsimp only
  by_cases hfits : ranged.length ≤ limit
  · rw [if_pos hfits, decide_eq_false (Nat.not_lt.mpr hfits), if_pos Bool.false_ne_true,
      List.take_of_length_le hfits]
  · have hmore : limit < ranged.length := Nat.not_le.mp hfits
    have hout : ((ranged.take limit).map delivered).length = limit := by
      rw [List.length_map, List.length_take, Nat.min_eq_left hmore.le]
    obtain ⟨n, rfl⟩ := Nat.exists_eq_add_one_of_ne_zero (Nat.ne_zero_of_lt hlimit)
    obtain ⟨before, x, hlast, hsplit⟩ := exists_behindPage (Nat.lt_of_succ_lt hmore)
    have hrest : s.held log = (before ++ [x]) ++ behind := by
      rw [List.append_assoc, List.singleton_append]
      exact hsplit
    have hshorter : behind.length < fuel := by
      have hlen : (s.held log).length < fuel + 1 := hfuel
      rw [hrest, List.length_append, List.length_append, List.length_singleton] at hlen
      omega
    have hlater := readPages_suffix hquery hlimit hnext maxEntries
      ((ranged.take (n + 1)).map delivered) hrest hshorter
    rw [hout] at hlater
    rw [if_neg hfits, decide_eq_true hmore, if_neg (not_not.mpr rfl), hout, List.getLast?_map, hlast,
      Option.map_some]
    dsimp only
    rw [hquery, hnext _ _ _ hsplit, beforeLastPage]
    by_cases hbound : n + 1 + (behind.length - 1) / (n + 1) * (n + 1) < maxEntries
    · rw [if_pos (Or.inr hbound)] at hlater
      rw [if_pos hbound, if_neg (by omega), hlater, List.map_append]
    · rw [if_neg hbound]
      by_cases hroom : maxEntries ≤ n + 1
      · rw [if_pos hroom]
        exact ⟨_, rfl⟩
      · have hlong : ¬ behind.length ≤ n + 1 := by
          intro hshort
          have hone : (behind.length - 1) / (n + 1) = 0 := Nat.div_eq_of_lt (by omega)
          rw [hone] at hbound
          omega
        rw [if_neg (by omega)] at hlater
        rwa [if_neg hroom]

/-! ### The claim of the whole log -/

/-- The clock stepped back before the third entry: read one at a time, it comes with the two that
were asked for. -/
def steppedBack : MemoryLog :=
  (forLogs [[76]] 3).after
    [.append [76] (noted ⟨5, 0⟩), .append [76] (noted ⟨6, 0⟩), .append [76] (noted ⟨4, 0⟩)]

end Iec61850.Client
