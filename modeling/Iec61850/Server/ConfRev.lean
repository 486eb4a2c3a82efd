import Iec61850.Server.DataSetNames
import Iec61850.Server.RcbReports

/-!
# Reports decoded by revision

A client keeps the members of a block's data set under the `ConfRev` it has seen, and decodes the
inclusion bits of later reports with that `ConfRev` by them. Along a run of the data set services and
the blocks, `ConfRev` counts the changes of `DatSet`; as long as the data set behind the name stays
and both attributes are written one by one, the number stands for one list of members.
-/

namespace Iec61850.Server.Blocks

open Theory Mms

/-! ### One report control block among the blocks -/

/-- The name in the `DatSet` of the `i`-th report control block. -/
def named (i : Nat) (s : Blocks) : Option Bytes := (s.reports[i]?).bind (·.dataSetName)

/-- Its `ConfRev`. -/
def revision (i : Nat) (s : Blocks) : Nat := ((s.reports[i]?).map (·.revision)).getD 0

/-- The reports of its buffer that wait for the response to a request. -/
def waiting (i : Nat) (s : Blocks) : List Delivery := ((s.reports[i]?).map (·.deferred)).getD []

/-- The reports it sends in one action. -/
def sent (i : Nat) (s : Blocks) : Action → List Delivery
  | .report j x =>
    if j = i then
      ((s.reports[i]?).map fun b => ControlBlock.delivered (b.events (x.over s.dataSet))).getD []
    else []
  | _ => []

/-- How often its `DatSet` changes in a run. -/
def changes (i : Nat) (s : Blocks) (xs : List Action) : Nat :=
  (journal step (fun s x => if (s.next x).named i = s.named i then [] else [()]) s xs).length

/-- What has to hold of an action for `ConfRev` to go on standing for one list of members: the data set
that the block names does not go, and a write of the block as a whole leaves `DatSet` and `ConfRev`
what they are. -/
def Steady (i : Nat) (s : Blocks) : Action → Prop
  | .deleteDataSets scope names =>
    scope = deleteScopeSpecific → ∀ name, s.named i = some name → ∀ ds,
      s.dataSets.find name = some ds → ds.deletable = false ∨ DataSets.Spares names name
  | .report j (.writeWhole _ value) =>
    j = i → ∀ b, s.reports[i]? = some b →
      (∀ v, (.datSet, v) ∈ b.wholeComponents value → stringOf v = b.dataSetName) ∧
      ∀ v, (.confRev, v) ∈ b.wholeComponents value → (unsignedOf v).getD 0 = b.revision
  | _ => True

/-- The block has nothing in its buffer, and nothing waits. -/
def Fresh (i : Nat) (s : Blocks) : Prop :=
  ∀ b, s.reports[i]? = some b → b.rcb.buffer = [] ∧ b.deferred = []

theorem revision_lt (i : Nat) (s : Blocks) : s.revision i < 2 ^ 32 := by
  unfold revision
  cases s.reports[i]? with
  | none => decide
  | some b => exact b.revision_lt

/-- Another action leaves the block as it is. -/
theorem report_next (i : Nat) (s : Blocks) (x : Action) :
    ((s.next x).reports[i]? = s.reports[i]? ∧ s.sent i x = []) ∨
      ∃ y b, x = .report i y ∧ s.reports[i]? = some b ∧
        (s.next x).reports[i]? = some (b.next (y.over s.dataSet)) ∧
        s.sent i x = ControlBlock.delivered (b.events (y.over s.dataSet)) := by
  cases x with
  | report j y =>
    by_cases hij : j = i
    · subst hij
      cases hb : s.reports[j]? with
      | none =>
        left
        constructor
        · exact (List.getElem?_modify_eq _ _ _).trans (by rw [hb]; rfl)
        · rw [sent, if_pos rfl, hb]
          rfl
      | some b =>
        right
        refine ⟨y, b, rfl, rfl, ?_, ?_⟩
        · exact (List.getElem?_modify_eq _ _ _).trans (by rw [hb]; rfl)
        · rw [sent, if_pos rfl, hb]
          rfl
    · left
      constructor
      · exact List.getElem?_modify_ne _ _ hij
      · exact if_neg hij
  | _ => exact Or.inl ⟨rfl, rfl⟩

/-! ### The revision counts the changes of the name -/

/-- What a steady action does to the name and the revision of one block. -/
theorem naming_over (b : ControlBlock) (x : ControlBlock.Action)
    (hx : ∀ assoc value, x = .writeWhole assoc value →
      (∀ v, (.datSet, v) ∈ b.wholeComponents value → stringOf v = b.dataSetName) ∧
      ∀ v, (.confRev, v) ∈ b.wholeComponents value → (unsignedOf v).getD 0 = b.revision) :
    ((b.next x).dataSetName = b.dataSetName ∧ (b.next x).revision = b.revision) ∨
      (b.next x).dataSetName ≠ b.dataSetName ∧ (b.next x).revision = (b.revision + 1) % 2 ^ 32 := by
  by_cases hrenames : ControlBlock.Renames x
  · cases x with
    | write ied peers assoc a value now =>
      cases hrenames
      rcases b.writeAttribute_datSet ied peers assoc value now with
        hsame | ⟨name, -, -, hname, hrevision⟩
      · exact Or.inl ⟨hsame.dataSetName, hsame.revision⟩
      · by_cases hold : b.dataSetName = some name
        · rw [if_pos hold] at hrevision
          exact Or.inl ⟨hname.trans hold.symm, hrevision⟩
        · rw [if_neg hold] at hrevision
          right
          refine ⟨?_, hrevision⟩
          intro heq
          exact hold (heq.symm.trans hname)
    | writeWhole assoc value =>
      obtain ⟨hdatSet, hconfRev⟩ := hx assoc value rfl
      left
      constructor
      · rw [ControlBlock.dataSetName]
        rcases b.writeWhole_value value .datSet with hkept | ⟨v, hmem, hset⟩
        · exact congrArg (Option.bind · stringOf) hkept
        · exact (congrArg (Option.bind · stringOf) hset).trans (hdatSet v hmem)
      · rw [ControlBlock.revision]
        rcases b.writeWhole_value value .confRev with hkept | ⟨v, hmem, hset⟩
        · exact congrArg (fun o => (Option.bind o unsignedOf).getD 0) hkept
        · exact (congrArg (fun o => (Option.bind o unsignedOf).getD 0) hset).trans
            (hconfRev v hmem)
    | _ => cases hrenames
  · have hsame := ControlBlock.next_sameNaming (b := b) hrenames
    exact Or.inl ⟨hsame.dataSetName, hsame.revision⟩

theorem over_writeWhole {x : ControlBlock.Action} {f : Bytes → Option (List DataSetMember)}
    {assoc : AssocId} {value : Value} (h : x.over f = .writeWhole assoc value) :
    x = .writeWhole assoc value := by
  cases x with
  | writeWhole assoc' value' => exact h
  | _ => cases h

variable {s : Blocks} {i : Nat}

variable {x : Action} {t : Blocks} {xs : List Action} {d : Delivery}

theorem naming_next (hx : Steady i s x) :
    ((s.next x).named i = s.named i ∧ (s.next x).revision i = s.revision i) ∨
      (s.next x).named i ≠ s.named i ∧ (s.next x).revision i = (s.revision i + 1) % 2 ^ 32 := by
  rcases report_next i s x with ⟨hsame, -⟩ | ⟨y, b, rfl, hb, hnext, -⟩
  · left
    constructor
    · rw [named, named, hsame]
    · rw [revision, revision, hsame]
  · rw [named, named, revision, revision, hnext, hb]
    apply naming_over b (y.over s.dataSet)
    intro assoc value hover
    cases over_writeWhole hover
    exact hx rfl b hb

theorem find_next (hx : Steady i s x) {name : Bytes} {ds : ServedDataSet}
    (hname : s.named i = some name) (hds : s.dataSets.find name = some ds) :
    (s.next x).dataSets.find name = some ds := by
  cases x with
  | createDataSet _ _ => exact DataSets.find_createService hds
  | deleteDataSets scope names =>
    exact DataSets.find_deleteService hds fun hscope => hx hscope name hname ds hds
  | report _ _ => exact hds
  | writeLog _ _ _ => exact hds
  | writeWholeLog _ _ => exact hds
  | commitLogs _ _ _ => exact hds

theorem changes_cons (i : Nat) (s : Blocks) (x : Action) (xs : List Action) :
    s.changes i (x :: xs) =
      (if (s.next x).named i = s.named i then 0 else 1) + (s.next x).changes i xs := by
  have hparts : journal step (fun s x => if (s.next x).named i = s.named i then [] else [()]) s
      (x :: xs) = (if (s.next x).named i = s.named i then [] else [()]) ++
        journal step (fun s x => if (s.next x).named i = s.named i then [] else [()]) (s.next x)
          xs := rfl
  rw [changes, hparts, List.length_append]
  congr 1
  split
  · rfl
  · rfl

theorem changes_append (hrun : run step s xs = some t) (ys : List Action) :
    s.changes i (xs ++ ys) = s.changes i xs + t.changes i ys := by
  rw [changes, journal_append hrun ys, List.length_append]
  rfl

theorem run_revision (hsteady : Meets step (Steady i) s xs) (hrun : run step s xs = some t) :
    t.revision i = (s.revision i + s.changes i xs) % 2 ^ 32 := by
  induction xs generalizing s with
  | nil =>
    cases hrun
    exact (Nat.mod_eq_of_lt (revision_lt i _)).symm
  | cons x xs ih =>
    have hlater := ih (hsteady.2 _ rfl) hrun
    rw [changes_cons, hlater]
    rcases naming_next hsteady.1 with ⟨hname, hrevision⟩ | ⟨hname, hrevision⟩
    · rw [if_pos hname, hrevision, Nat.zero_add]
    · rw [if_neg hname, hrevision, Nat.mod_add_mod, Nat.add_assoc]

/-- While `DatSet` does not change, neither do the revision and the data set it names. -/
theorem settled (hsteady : Meets step (Steady i) s xs) (hrun : run step s xs = some t)
    (hnone : s.changes i xs = 0) : t.named i = s.named i ∧ t.revision i = s.revision i ∧
      ∀ name ds, s.named i = some name → s.dataSets.find name = some ds →
        t.dataSets.find name = some ds := by
  induction xs generalizing s with
  | nil =>
    cases hrun
    exact ⟨rfl, rfl, fun _ _ _ hds => hds⟩
  | cons x xs ih =>
    rw [changes_cons] at hnone
    obtain ⟨hfirst, hrest⟩ := Nat.add_eq_zero_iff.mp hnone
    have hname : (s.next x).named i = s.named i := by
      by_contra hne
      rw [if_neg hne] at hfirst
      cases hfirst
    have hrevision : (s.next x).revision i = s.revision i := by
      rcases naming_next hsteady.1 with ⟨-, hsame⟩ | ⟨hne, -⟩
      · exact hsame
      · exact absurd hname hne
    obtain ⟨hnamed, hsame, hfind⟩ := ih (hsteady.2 _ rfl) hrun hrest
    refine ⟨hnamed.trans hname, hsame.trans hrevision, ?_⟩
    intro name ds hn hds
    exact hfind name ds (hname.trans hn) (find_next hsteady.1 hn hds)

theorem changes_eq_zero (hsteady : Meets step (Steady i) s xs) (hrun : run step s xs = some t)
    (hfew : s.changes i xs < 2 ^ 32) (hrevision : t.revision i = s.revision i) :
    s.changes i xs = 0 := by
  have hcount := run_revision hsteady hrun
  have hlt := revision_lt i s
  omega

/-! ### Where a report comes from -/

/-- The report is one of the block as it is in this state. -/
def Makes (i : Nat) (s : Blocks) (d : Delivery) : Prop :=
  ∃ b, s.reports[i]? = some b ∧ b.Makes s.dataSet d

theorem makes_over {b : ControlBlock} {x : ControlBlock.Action}
    {f : Bytes → Option (List DataSetMember)} (h : b.Makes (x.over f).dataSet d) : b.Makes f d := by
  obtain ⟨⟨name, ms, hname, hms, hmembers⟩, hrevision, hinclusion, hentries⟩ := h
  refine ⟨⟨name, ms, hname, ?_, hmembers⟩, hrevision, hinclusion, hentries⟩
  cases x with
  | writeWhole _ _ => cases hms
  | purge => cases hms
  | flush => cases hms
  | closed _ _ _ => cases hms
  | expire _ => cases hms
  | _ => exact hms

theorem reads_over (x : ControlBlock.Action) (f : Bytes → Option (List DataSetMember)) :
    (x.over f).reads = x.reads := by
  cases x <;> rfl

theorem origin_next (i : Nat) (s : Blocks) (x : Action) :
    (∀ d ∈ (s.next x).waiting i, d ∈ s.waiting i ∨ s.Makes i d) ∧
      ∀ d ∈ s.sent i x, d ∈ s.waiting i ∨ s.Makes i d := by
  rcases report_next i s x with ⟨hsame, hsent⟩ | ⟨y, b, rfl, hb, hnext, hsent⟩
  · constructor
    · intro d hd
      rw [waiting, hsame] at hd
      exact Or.inl hd
    · rw [hsent]
      intro d hd
      cases hd
  · obtain ⟨e, -, -, hdeferred, hdelivered⟩ := (ControlBlock.reports_next b (y.over s.dataSet)).made
    have hwaiting : s.waiting i = b.deferred := by
      rw [waiting, hb]
      rfl
    rw [hsent, waiting, hnext, hwaiting]
    constructor
    · intro d hd
      rcases hdeferred d hd with hold | ⟨hmakes, -⟩
      · exact Or.inl hold
      · exact Or.inr ⟨b, hb, makes_over hmakes⟩
    · intro d hd
      rcases hdelivered d hd with hold | ⟨hmakes, -⟩
      · exact Or.inl hold
      · exact Or.inr ⟨b, hb, makes_over hmakes⟩

/-- A report that a run sends was waiting at its start, or is of the block as it was in a state of the
run. -/
theorem origin (xs : List Action) : ∀ d ∈ journal step (sent i) s xs, d ∈ s.waiting i ∨
    ∃ before after t, xs = before ++ after ∧ run step s before = some t ∧ t.Makes i d := by
  induction xs generalizing s with
  | nil =>
    intro d hd
    cases hd
  | cons x xs ih =>
    obtain ⟨hwaiting, hsent⟩ := origin_next i s x
    have hstart : ∀ d, s.Makes i d → ∃ before after t, x :: xs = before ++ after ∧
        run step s before = some t ∧ t.Makes i d := by
      intro d hmakes
      exact ⟨[], x :: xs, s, rfl, rfl, hmakes⟩
    intro d hd
    rcases List.mem_append.mp hd with hd | hd
    · exact (hsent d hd).imp id (hstart d)
    · rcases ih d hd with hold | ⟨before, after, t, rfl, hrun, hmakes⟩
      · exact (hwaiting d hold).imp id (hstart d)
      · exact Or.inr ⟨x :: before, after, t, rfl, hrun, hmakes⟩

/-- Each entry in the buffer and of a waiting report has what `Q` says of entries. -/
def Entries (i : Nat) (Q : Buffered → Prop) (s : Blocks) : Prop :=
  ∀ b, s.reports[i]? = some b → (∀ e ∈ b.rcb.buffer, Q e) ∧ ∀ d ∈ b.deferred, Q d.entry

theorem entries_next {Q : Buffered → Prop} (h : s.Entries i Q)
    (hmade : ∀ y, x = .report i y → ∀ e : Buffered,
      (∀ m v, (m, v) ∈ e.values → y.reads m = some v) → Q e) :
    (s.next x).Entries i Q ∧ ∀ d ∈ s.sent i x, Q d.entry := by
  rcases report_next i s x with ⟨hsame, hsent⟩ | ⟨y, b, rfl, hb, hnext, hsent⟩
  · constructor
    · intro b hb
      exact h b (hsame ▸ hb)
    · rw [hsent]
      intro d hd
      cases hd
  · obtain ⟨hbuffer, hwaiting⟩ := h b hb
    obtain ⟨e, hread, hgains, hdeferred, hdelivered⟩ :=
      (ControlBlock.reports_next b (y.over s.dataSet)).made
    rw [reads_over] at hread
    have hentry := hmade y rfl e hread
    have hfrom : ∀ ds, b.MadeFrom (y.over s.dataSet) e ds → ∀ d ∈ ds, Q d.entry := by
      intro ds hds d hd
      rcases hds d hd with hold | ⟨-, hkept | rfl⟩
      · exact hwaiting d hold
      · exact hbuffer _ hkept
      · exact hentry
    constructor
    · intro c hc
      rw [hnext] at hc
      cases hc
      refine ⟨?_, hfrom _ hdeferred⟩
      intro x hx
      rcases hgains x hx with hold | rfl
      · exact hbuffer x hold
      · exact hentry
    · rw [hsent]
      exact hfrom _ hdelivered

/-- Every value in an entry of a report of the run was read, in the run, from the member it is listed
under. -/
theorem run_entries {Q : Buffered → Prop} (h : s.Entries i Q)
    (hmade : ∀ y, .report i y ∈ xs → ∀ e : Buffered,
      (∀ m v, (m, v) ∈ e.values → y.reads m = some v) → Q e) :
    ∀ d ∈ journal step (sent i) s xs, Q d.entry := by
  induction xs generalizing s with
  | nil =>
    intro d hd
    cases hd
  | cons x xs ih =>
    obtain ⟨hnext, hsent⟩ := entries_next h (x := x) fun y hy => by
      apply hmade y
      rw [hy]
      exact List.mem_cons_self
    intro d hd
    rcases List.mem_append.mp hd with hd | hd
    · exact hsent d hd
    · exact ih hnext (fun y hy => hmade y (List.mem_cons_of_mem _ hy)) d hd

/-! ### Decoding -/

/-- In the course of a run, a client sees a `ConfRev` of block `i`, by reading it or in a report; after
that it reads the block's `DatSet`, and after that the members of the data set of that name. Each of
its reads is answered before anything else is taken up, so that no replayed report is waiting. -/
structure Reader (i : Nat) (s : Blocks) (xs : List Action) where
  seeing : List Action
  naming : List Action
  listing : List Action
  later : List Action
  parts : xs = seeing ++ (naming ++ (listing ++ later))
  seen : Blocks
  named : Blocks
  listed : Blocks
  ranSeeing : run step s seeing = some seen
  ranNaming : run step seen naming = some named
  ranListing : run step named listing = some listed
  confRev : UInt32
  sees : seen.revision i = confRev.toNat ∨
    ∃ d ∈ journal step (sent i) s seeing, d.report.confRev = some confRev
  name : Bytes
  reads : named.named i = some name
  members : ServedDataSet
  lists : listed.dataSets.find name = some members
  answered : listed.waiting i = []

/-- Between two states of one run with the same revision, `DatSet` does not change. -/
theorem unchanged {u : Blocks} {before mid after : List Action}
    (hsteady : Meets step (Steady i) s xs) (hfew : s.changes i xs < 2 ^ 32)
    (hxs : xs = before ++ (mid ++ after)) (hbefore : run step s before = some t)
    (hmid : run step t mid = some u) (hrevision : u.revision i = t.revision i) :
    Meets step (Steady i) t mid ∧ t.changes i mid = 0 := by
  subst hxs
  have hrest := meets_of_append hsteady hbefore
  refine ⟨hrest.append_left, changes_eq_zero hrest.append_left hmid ?_ hrevision⟩
  rw [changes_append hbefore, changes_append hmid] at hfew
  omega

theorem Makes.revision (h : s.Makes i d) {r : UInt32} (hr : d.report.confRev = some r) :
    s.revision i = r.toNat := by
  obtain ⟨b, hb, hmakes⟩ := h
  rw [Blocks.revision, hb, hmakes.revision r hr]
  rfl

theorem Makes.members (h : s.Makes i d) : ∃ name ds, s.named i = some name ∧
    s.dataSets.find name = some ds ∧ d.members = ds.references := by
  obtain ⟨b, hb, ⟨name, ms, hname, hms, hmembers⟩, -⟩ := h
  obtain ⟨ds, hds, rfl⟩ := Option.map_eq_some_iff.mp hms
  refine ⟨name, ds, ?_, hds, hmembers⟩
  rw [Blocks.named, hb]
  exact hname

/-- Reports of two states in between which `DatSet` does not change have the same members. -/
theorem members_later {d' : Delivery} (hsteady : Meets step (Steady i) s xs)
    (hrun : run step s xs = some t) (hnone : s.changes i xs = 0) (h : s.Makes i d)
    (h' : t.Makes i d') : d'.members = d.members := by
  obtain ⟨hnamed, -, hfind⟩ := settled hsteady hrun hnone
  obtain ⟨name, ds, hname, hds, hmembers⟩ := h.members
  obtain ⟨name', ds', hname', hds', hmembers'⟩ := h'.members
  rw [hnamed, hname] at hname'
  cases hname'
  have heq := hfind name ds hname hds
  rw [hds'] at heq
  cases heq
  rw [hmembers, hmembers']

theorem origin_fresh (hfresh : s.Fresh i) (hd : d ∈ journal step (sent i) s xs) :
    ∃ before after t, xs = before ++ after ∧ run step s before = some t ∧ t.Makes i d := by
  have hnone : s.waiting i = [] := by
    unfold waiting
    cases hb : s.reports[i]? with
    | none => rfl
    | some b => exact (hfresh b hb).2
  rcases origin xs d hd with hold | hmade
  · rw [hnone] at hold
    cases hold
  · exact hmade

/-- Two reports of one run under the same revision have the same members. -/
theorem members_of_revision (hfresh : s.Fresh i) (hfew : s.changes i xs < 2 ^ 32)
    (hsteady : Meets step (Steady i) s xs) {d' : Delivery} (hd : d ∈ journal step (sent i) s xs)
    (hd' : d' ∈ journal step (sent i) s xs) {r : UInt32} (hr : d.report.confRev = some r)
    (hr' : d'.report.confRev = some r) : d'.members = d.members := by
  have hordered : ∀ {d d' : Delivery} {before mid after : List Action} {t u : Blocks},
      xs = before ++ (mid ++ after) → run step s before = some t → run step t mid = some u →
      t.Makes i d → u.Makes i d' → d.report.confRev = some r → d'.report.confRev = some r →
      d'.members = d.members := by
    intro d d' before mid after t u hxs ht hu hmakes hmakes' hr hr'
    have hsame : u.revision i = t.revision i := by rw [hmakes.revision hr, hmakes'.revision hr']
    obtain ⟨hmid, hnone⟩ := unchanged hsteady hfew hxs ht hu hsame
    exact members_later hmid hu hnone hmakes hmakes'
  obtain ⟨before, after, t, hxs, ht, hmakes⟩ := origin_fresh hfresh hd
  obtain ⟨before', after', t', hxs', ht', hmakes'⟩ := origin_fresh hfresh hd'
  have hbegins : before <+: xs := ⟨after, hxs.symm⟩
  have hbegins' : before' <+: xs := ⟨after', hxs'.symm⟩
  rcases List.prefix_or_prefix_of_prefix hbegins hbegins' with ⟨mid, rfl⟩ | ⟨mid, rfl⟩
  · obtain ⟨m, hm, hmid⟩ := run_append ht'
    cases ht.symm.trans hm
    rw [List.append_assoc] at hxs'
    exact hordered hxs' ht hmid hmakes hmakes' hr hr'
  · obtain ⟨m, hm, hmid⟩ := run_append ht
    cases ht'.symm.trans hm
    rw [List.append_assoc] at hxs
    exact (hordered hxs ht' hmid hmakes' hmakes hr' hr).symm

/-- The members that a reader has are those of the reports it decodes. -/
theorem Reader.members_eq (c : Reader i s xs) (hfresh : s.Fresh i) (hfew : s.changes i xs < 2 ^ 32)
    (hsteady : Meets step (Steady i) s xs) (hd : d ∈ journal step (sent i) c.listed c.later)
    (hr : d.report.confRev = some c.confRev) : d.members = c.members.references := by
  -- the state in which the client's revision was the block's, before it read the name
  obtain ⟨before, since, t, hseeing, ht, hsince, hrevision⟩ : ∃ before since t,
      c.seeing = before ++ since ∧ run step s before = some t ∧ run step t since = some c.seen ∧
      t.revision i = c.confRev.toNat := by
    rcases c.sees with hread | ⟨d₀, hd₀, hr₀⟩
    · exact ⟨c.seeing, [], c.seen, (List.append_nil _).symm, c.ranSeeing, rfl, hread⟩
    · obtain ⟨before, since, t, hseeing, ht, hmakes⟩ := origin_fresh hfresh hd₀
      have hran := c.ranSeeing
      rw [hseeing] at hran
      obtain ⟨m, hm, hsince⟩ := run_append hran
      cases ht.symm.trans hm
      exact ⟨before, since, t, hseeing, ht, hsince, hmakes.revision hr₀⟩
  -- the state the report is of
  obtain ⟨ahead, after, u, hlater, hu, hmakes⟩ : ∃ ahead after u,
      c.later = ahead ++ after ∧ run step c.listed ahead = some u ∧ u.Makes i d := by
    rcases origin c.later d hd with hold | hmade
    · rw [c.answered] at hold
      cases hold
    · exact hmade
  have hnamed : run step t (since ++ c.naming) = some c.named := run_append_of hsince c.ranNaming
  have hend : run step t (since ++ c.naming ++ (c.listing ++ ahead)) = some u :=
    run_append_of hnamed (run_append_of c.ranListing hu)
  have hparts : xs = before ++ (since ++ c.naming ++ (c.listing ++ ahead) ++ after) := by
    refine c.parts.trans ?_
    rw [hseeing, hlater]
    simp only [List.append_assoc]
  obtain ⟨hmid, hnone⟩ := unchanged hsteady hfew hparts ht hend
    ((hmakes.revision hr).trans hrevision.symm)
  rw [changes_append hnamed, changes_append c.ranListing] at hnone
  obtain ⟨hnone₁, hnone₂⟩ := Nat.add_eq_zero_iff.mp hnone
  obtain ⟨hnone₂, hnone₃⟩ := Nat.add_eq_zero_iff.mp hnone₂
  have hrest := meets_of_append hmid hnamed
  obtain ⟨hlisted, -, -⟩ := settled hrest.append_left c.ranListing hnone₂
  obtain ⟨hlast, -, hfind⟩ := settled (meets_of_append hrest c.ranListing) hu hnone₃
  obtain ⟨name, ds, hname, hds, hmembers⟩ := hmakes.members
  have hread : c.listed.named i = some c.name := hlisted.trans c.reads
  rw [hlast, hread] at hname
  cases hname
  have heq := hfind c.name c.members hread c.lists
  rw [hds] at heq
  cases heq
  exact hmembers

/-- Every value in an entry was read from the member it is listed under, in one of the actions. -/
def ReadIn (i : Nat) (xs : List Action) (e : Buffered) : Prop :=
  ∀ m v, (m, v) ∈ e.values → ∃ y, .report i y ∈ xs ∧ y.reads m = some v

theorem readIn_of_mem (hfresh : s.Fresh i) (hd : d ∈ journal step (sent i) s xs) :
    ReadIn i xs d.entry := by
  apply run_entries (Q := ReadIn i xs) _ _ d hd
  · intro b hb
    obtain ⟨hbuffer, hdeferred⟩ := hfresh b hb
    rw [hbuffer, hdeferred]
    constructor
    · intro e he
      cases he
    · intro d hd
      cases hd
  · intro y hy e hread m v hmem
    exact ⟨y, hy, hread m v hmem⟩

/-- In every run in which `DatSet` of a block changes fewer than 2^32 times, the data set that the block
names never goes, and no write of the block as a whole moves `DatSet` or `ConfRev`: two reports under
one `ConfRev` have inclusion bits over the same members, in the same order; and a client that has seen
a `ConfRev`, and has then read `DatSet` and the members of that data set, decodes the later reports
under that `ConfRev` by them: each value is put to the member that it was read from. -/
theorem run_decodes {s : Blocks} {i : Nat} {xs : List Action} (hfresh : s.Fresh i)
    (hfew : s.changes i xs < 2 ^ 32) (hsteady : Meets step (Steady i) s xs) :
    (∀ d ∈ journal step (sent i) s xs, ∀ d' ∈ journal step (sent i) s xs, ∀ r,
      d.report.confRev = some r → d'.report.confRev = some r → d'.members = d.members) ∧
    (∀ d ∈ journal step (sent i) s xs,
      d.report.inclusion = inclusionFor d.members.length (d.report.entries.map (·.index))) ∧
    ∀ c : Reader i s xs, ∀ d ∈ journal step (sent i) c.listed c.later,
      d.report.confRev = some c.confRev → d.members = c.members.references ∧
        ∀ e ∈ d.report.entries, ∃ m, c.members.references[e.index]? = some m ∧
          d.entry.values.lookup m = some e.value ∧
          ∃ y, .report i y ∈ xs ∧ y.reads m = some e.value := by
  refine ⟨?_, ?_, ?_⟩
  · intro d hd d' hd' r hr hr'
    exact members_of_revision hfresh hfew hsteady hd hd' hr hr'
  · intro d hd
    obtain ⟨before, after, t, -, -, b, -, hmakes⟩ := origin_fresh hfresh hd
    exact hmakes.inclusion
  · intro c d hd hr
    have hmembers := c.members_eq hfresh hfew hsteady hd hr
    refine ⟨hmembers, ?_⟩
    intro e he
    have hran := run_append_of c.ranSeeing (run_append_of c.ranNaming c.ranListing)
    have hparts : xs = c.seeing ++ (c.naming ++ c.listing) ++ c.later := by
      refine c.parts.trans ?_
      simp only [List.append_assoc]
    have hsent : d ∈ journal step (sent i) s xs := by
      have hjournal : journal step (sent i) s (c.seeing ++ (c.naming ++ c.listing) ++ c.later) =
          journal step (sent i) s (c.seeing ++ (c.naming ++ c.listing)) ++
            journal step (sent i) _ c.later := journal_append hran c.later
      rw [← hparts] at hjournal
      rw [hjournal]
      exact List.mem_append_right _ hd
    obtain ⟨before, after, t, -, -, b, -, hmakes⟩ := origin_fresh hfresh hsent
    obtain ⟨m, hget, hvalue⟩ := hmakes.entries e he
    rw [hmembers] at hget
    refine ⟨m, hget, hvalue, ?_⟩
    apply readIn_of_mem hfresh hsent m e.value
    obtain ⟨earlier, rest, hvalues, -⟩ := List.lookup_eq_some_iff.mp hvalue
    rw [hvalues]
    exact List.mem_append_right _ List.mem_cons_self

/-- A report control block whose reports say under which revision they are. -/
def revising : ReportControl :=
  { ControlBlock.gathering with optFlds := withBit 0 8 true }

/-- A server with two nodes and no data set. -/
def twoNodes : Blocks where
  tree := ⟨fun domain => domain = ascii "D",
    fun node => node = ascii "D/P" || node = ascii "D/Q", fun r => [r], 4⟩
  dataSets := ⟨[], List.nodup_nil⟩
  reports := [ControlBlock.engineered revising [] none true]
  logs := ⟨[], ⟨fun _ => none, 4, Log.four_positive⟩⟩

def created (item : String) : Action :=
  .createDataSet (.domainSpecific (ascii "D") (ascii "S"))
    [.name (.domainSpecific (ascii "D") (ascii item))]

def written (a : Attribute) (value : Value) : Action :=
  .report 0 (.write ControlBlock.onePosition anonymous 1 a value 0)

/-- The owner asks for a general interrogation, and the report goes out. -/
def interrogated : List Action :=
  [written .gi (.boolean true), .report 0 (.interrogate ControlBlock.onePosition anonymous ⟨0, 0⟩)]

/-- A client creates a data set, has the block report it, and enables the block. -/
def begun : List Action :=
  [created "P", written .datSet (.visibleString (ascii "D/S")), written .rptEna (.boolean true)]

theorem twoNodes_fresh : twoNodes.Fresh 0 := by
  intro b hb
  cases hb
  exact ⟨rfl, rfl⟩

/-- The client reads `ConfRev`, `DatSet` and the members between two general interrogations. -/
def between : Reader 0 twoNodes (begun ++ interrogated ++ interrogated) where
  seeing := begun ++ interrogated
  naming := []
  listing := []
  later := interrogated
  parts := rfl
  seen := _
  named := _
  listed := _
  ranSeeing := rfl
  ranNaming := rfl
  ranListing := rfl
  confRev := 2
  sees := Or.inl (by decide +kernel)
  name := ascii "D/S"
  reads := by decide +kernel
  members := ⟨ascii "D/S", [⟨ascii "D/P", [ascii "D/P"]⟩], true⟩
  lists := by decide +kernel
  answered := by
    rw [← List.isEmpty_iff]
    decide +kernel

/-- The second report is decoded by the members that were read before it. -/
theorem run_decodes_between : twoNodes.changes 0 (begun ++ interrogated ++ interrogated) = 1 ∧
    ∀ d ∈ journal step (sent 0) between.listed interrogated, d.report.confRev = some 2 →
      d.members = [ascii "D/P"] ∧ ∀ e ∈ d.report.entries, ∃ m, [ascii "D/P"][e.index]? = some m ∧
        d.entry.values.lookup m = some e.value ∧
        ∃ y, .report 0 y ∈ begun ++ interrogated ++ interrogated ∧ y.reads m = some e.value := by
  have hchanges : twoNodes.changes 0 (begun ++ interrogated ++ interrogated) = 1 := by
    decide +kernel
  have hsteady : Meets step (Steady 0) twoNodes (begun ++ interrogated ++ interrogated) :=
    ⟨trivial, fun _ _ => ⟨trivial, fun _ _ => ⟨trivial, fun _ _ => ⟨trivial, fun _ _ =>
      ⟨trivial, fun _ _ => ⟨trivial, fun _ _ => ⟨trivial, fun _ _ => trivial⟩⟩⟩⟩⟩⟩⟩
  exact ⟨hchanges, (run_decodes twoNodes_fresh (by rw [hchanges]; decide) hsteady).2.2 between⟩

/-- The data set goes and comes back with another member. -/
def replaced : List Action :=
  [.deleteDataSets deleteScopeSpecific [.domainSpecific (ascii "D") (ascii "S")], created "Q"]

/-- Under one revision, the block reports the one member, and then the other. -/
theorem other_members :
    ¬ ∀ (s : Blocks) (i : Nat) (xs : List Action), s.Fresh i → s.changes i xs < 2 ^ 32 →
      ∀ d ∈ journal step (sent i) s xs, ∀ d' ∈ journal step (sent i) s xs, ∀ r,
        d.report.confRev = some r → d'.report.confRev = some r → d'.members = d.members := by
  intro hclaim
  let xs := begun ++ interrogated ++ replaced ++ interrogated
  have hreports : (journal step (sent 0) twoNodes xs).map
        (fun d => (d.report.confRev, d.members)) =
      [(some 2, [ascii "D/P"]), (some 2, [ascii "D/Q"])] := by
    decide +kernel
  have hchanges : twoNodes.changes 0 xs = 1 := by decide +kernel
  obtain ⟨d, rest, hjournal, hd, hrest⟩ := List.map_eq_cons_iff.mp hreports
  obtain ⟨d', rest', hrest', hd', -⟩ := List.map_eq_cons_iff.mp hrest
  have hmem : d ∈ journal step (sent 0) twoNodes xs := by
    rw [hjournal]
    exact List.mem_cons_self
  have hmem' : d' ∈ journal step (sent 0) twoNodes xs := by
    rw [hjournal, hrest']
    exact List.mem_cons_of_mem _ List.mem_cons_self
  obtain ⟨hr, hmembers⟩ := Prod.mk.inj hd
  obtain ⟨hr', hmembers'⟩ := Prod.mk.inj hd'
  have hsame := hclaim twoNodes 0 xs twoNodes_fresh (by rw [hchanges]; decide) d hmem d' hmem' 2
    hr hr'
  rw [hmembers, hmembers'] at hsame
  exact absurd hsame (by decide)

end Iec61850.Server.Blocks
