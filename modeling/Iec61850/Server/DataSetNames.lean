import Iec61850.Server.DataSets
import Iec61850.Server.Logs
import Iec61850.Server.RcbNaming

/-!
# The data sets that control blocks name

The data sets of a server together with its report and log control blocks, which name them in
`DatSet`: what clients can do to the three, and under which condition every block goes on naming a
data set the server has.
-/

namespace Iec61850.Server

open Theory Mms

/-- The action, with the data sets it finds. -/
def ControlBlock.Action.over (dataSet : Bytes → Option (List DataSetMember)) :
    ControlBlock.Action → ControlBlock.Action
  | .write ied peers assoc a value now => .write { ied with dataSet } peers assoc a value now
  | .writeWhole assoc value => .writeWhole assoc value
  | .gather ied dirty now => .gather { ied with dataSet } dirty now
  | .interrogate ied peers wall => .interrogate { ied with dataSet } peers wall
  | .purge => .purge
  | .integrity ied peers wall now => .integrity { ied with dataSet } peers wall now
  | .change ied peers wall now => .change { ied with dataSet } peers wall now
  | .flush => .flush
  | .closed peers assoc now => .closed peers assoc now
  | .expire now => .expire now

/-- The data sets, the report control blocks in the order of their references, and the logs. -/
structure Blocks where
  tree : ServedTree
  dataSets : DataSets
  reports : List ControlBlock
  logs : Logs

namespace Blocks

/-- What can happen to them: the two data set services, what happens to one report control block,
the writes of one log control block, and a commit of the logs. -/
inductive Action where
  | createDataSet (name : ObjectName) (specs : List VariableSpecification)
  | deleteDataSets (scope : Int) (names : List ObjectName)
  | report (i : Nat) (x : ControlBlock.Action)
  | writeLog (i : Nat) (a : LogAttribute) (value : Value)
  | writeWholeLog (i : Nat) (value : Value)
  | commitLogs (readReference : Bytes → Option Value) (dirty : Bytes → Option TrgOps)
      (wall : EntryTime)

variable (s : Blocks)

/-- `Ied::data_set`, as the engines use it. -/
def dataSet (reference : Bytes) : Option (List DataSetMember) :=
  (s.dataSets.find reference).map (·.members)

def next : Action → Blocks
  | .createDataSet name specs =>
    { s with dataSets := (s.dataSets.createService s.tree name specs).1 }
  | .deleteDataSets scope names => { s with dataSets := (s.dataSets.deleteService scope names).1 }
  | .report i x => { s with reports := s.reports.modify i fun b => b.next (x.over s.dataSet) }
  | .writeLog i a value =>
    { s with logs := { s.logs with
        controls := s.logs.controls.modify i fun b => (b.write a value).1 } }
  | .writeWholeLog i value =>
    { s with logs := { s.logs with
        controls := s.logs.controls.modify i fun b => (b.writeWhole value).1 } }
  | .commitLogs readReference dirty wall =>
    { s with logs := s.logs.commit ⟨s.dataSet, readReference⟩ dirty wall }

/-- No action stops the server. -/
def step (s : Blocks) (x : Action) : Option Blocks := some (s.next x)

/-! ### Names -/

/-- The names in the `DatSet` of the blocks. -/
def names : List Bytes :=
  s.reports.filterMap (·.dataSetName) ++ s.logs.controls.filterMap (·.dataSetName)

/-- Every block names a data set that the server has, or none. -/
def Named : Prop := ∀ name ∈ s.names, (s.dataSets.find name).isSome

/-- A write of the whole block brings no name that the server has no data set of. -/
def Known (v : Value) : Prop := ∀ name, stringOf v = some name → (s.dataSets.find name).isSome

/-- What has to hold of an action for the blocks to go on naming data sets the server has: no data set
goes that one of them names, and where `DatSet` is written without a check, alone in a log control
block or with the rest of a block, the server has the data set. -/
def Checked (s : Blocks) : Action → Prop
  | .deleteDataSets scope names =>
    scope = deleteScopeSpecific → ∀ name ∈ s.names, ∀ ds, s.dataSets.find name = some ds →
      ds.deletable = false ∨ DataSets.Spares names name
  | .writeLog i a value =>
    ∀ b, s.logs.controls[i]? = some b → a = .datSet → s.Known value
  | .writeWholeLog i value =>
    ∀ b, s.logs.controls[i]? = some b → ∀ v, (.datSet, v) ∈ b.wholeComponents value → s.Known v
  | .report i (.writeWhole _ value) =>
    ∀ b, s.reports[i]? = some b → ∀ v, (.datSet, v) ∈ b.wholeComponents value → s.Known v
  | _ => True

/-! ### One action -/

theorem mem_modify {α : Type} {l : List α} {i : Nat} {f : α → α} {a' : α}
    (h : a' ∈ l.modify i f) : a' ∈ l ∨ ∃ a, l[i]? = some a ∧ a' = f a := by
  obtain ⟨j, hj⟩ := List.mem_iff_getElem?.mp h
  by_cases hij : i = j
  · subst hij
    rw [List.getElem?_modify_eq] at hj
    obtain ⟨a, ha, rfl⟩ := Option.map_eq_some_iff.mp hj
    exact Or.inr ⟨a, ha, rfl⟩
  · rw [List.getElem?_modify_ne _ _ hij] at hj
    exact Or.inl (List.mem_of_getElem? hj)

variable {s}

theorem named_iff : s.Named ↔
    (∀ b ∈ s.reports, ∀ name, b.dataSetName = some name → (s.dataSets.find name).isSome) ∧
      ∀ b ∈ s.logs.controls, ∀ name, b.dataSetName = some name → (s.dataSets.find name).isSome := by
  unfold Named names
  constructor
  · intro h
    constructor
    · intro b hb name hname
      exact h name (List.mem_append_left _ (List.mem_filterMap.mpr ⟨b, hb, hname⟩))
    · intro b hb name hname
      exact h name (List.mem_append_right _ (List.mem_filterMap.mpr ⟨b, hb, hname⟩))
  · rintro ⟨hreports, hlogs⟩ name hname
    rcases List.mem_append.mp hname with hname | hname
    · obtain ⟨b, hb, hname⟩ := List.mem_filterMap.mp hname
      exact hreports b hb name hname
    · obtain ⟨b, hb, hname⟩ := List.mem_filterMap.mp hname
      exact hlogs b hb name hname

theorem Named.keep {d : DataSets} (h : s.Named)
    (hkeep : ∀ name ∈ s.names, ∀ ds, s.dataSets.find name = some ds →
      d.find name = some ds) : ({ s with dataSets := d } : Blocks).Named := by
  intro name hname
  obtain ⟨ds, hds⟩ := Option.isSome_iff_exists.mp (h name hname)
  rw [hkeep name hname ds hds]
  rfl

theorem isSome_dataSet {name : Bytes} (h : (s.dataSet name).isSome) :
    (s.dataSets.find name).isSome := by
  rwa [dataSet, Option.isSome_map] at h

theorem Named.report (h : s.Named) {i : Nat} {x : ControlBlock.Action}
    (hx : s.Checked (.report i x)) : (s.next (.report i x)).Named := by
  obtain ⟨hreports, hlogs⟩ := named_iff.mp h
  refine named_iff.mpr ⟨?_, hlogs⟩
  intro b' hb' name hname
  rcases mem_modify hb' with hb' | ⟨b, hb, rfl⟩
  · exact hreports b' hb' name hname
  · rcases b.dataSetName_next (x.over s.dataSet) with
      hsame | ⟨ied, peers, assoc, value, now, name', hover, hpresent, hset⟩ |
      ⟨assoc, value, v, hover, hmem, hset⟩
    · rw [hsame] at hname
      exact hreports b (List.mem_of_getElem? hb) name hname
    · rw [hset] at hname
      cases hname
      cases x with
      | write ied' _ _ _ _ _ =>
        cases hover
        exact isSome_dataSet hpresent
      | _ => cases hover
    · rw [hset] at hname
      cases x with
      | writeWhole assoc' value' =>
        cases hover
        exact hx b hb v hmem name hname
      | _ => cases hover

theorem Named.writeLog (h : s.Named) {i : Nat} {f : LogBlock → LogBlock}
    (hf : ∀ b, s.logs.controls[i]? = some b → (f b).dataSetName = b.dataSetName ∨
      ∃ v, s.Known v ∧ (f b).dataSetName = stringOf v) :
    ({ s with logs := { s.logs with controls := s.logs.controls.modify i f } } : Blocks).Named := by
  obtain ⟨hreports, hlogs⟩ := named_iff.mp h
  refine named_iff.mpr ⟨hreports, ?_⟩
  intro b' hb' name hname
  rcases mem_modify hb' with hb' | ⟨b, hb, rfl⟩
  · exact hlogs b' hb' name hname
  · rcases hf b hb with hsame | ⟨v, hknown, hset⟩
    · rw [hsame] at hname
      exact hlogs b (List.mem_of_getElem? hb) name hname
    · rw [hset] at hname
      exact hknown name hname

theorem Named.next (h : s.Named) {x : Action} (hx : s.Checked x) : (s.next x).Named := by
  cases x with
  | createDataSet name specs => exact h.keep fun _ _ _ hds => DataSets.find_createService hds
  | deleteDataSets scope names =>
    apply h.keep
    intro name hname ds hds
    exact DataSets.find_deleteService hds fun hscope => hx hscope name hname ds hds
  | report i x => exact h.report hx
  | writeLog i a value =>
    apply h.writeLog
    intro b hb
    rcases b.dataSetName_write a value with hsame | ⟨rfl, hset⟩
    · exact Or.inl hsame
    · exact Or.inr ⟨value, hx b hb rfl, hset⟩
  | writeWholeLog i value =>
    apply h.writeLog
    intro b hb
    rcases b.dataSetName_writeWhole value with hsame | ⟨v, hmem, hset⟩
    · exact Or.inl hsame
    · exact Or.inr ⟨v, hx b hb v hmem, hset⟩
  | commitLogs readReference dirty wall =>
    obtain ⟨hreports, hlogs⟩ := named_iff.mp h
    refine named_iff.mpr ⟨hreports, ?_⟩
    intro b' hb' name hname
    obtain ⟨b, hb, hkept⟩ := Logs.commit_kept _ _ _ _ b' hb'
    rw [hkept.dataSetName] at hname
    exact hlogs b hb name hname

/-! ### Runs -/

/-- From a server whose blocks name data sets it has, in every run in which no data set goes that a
block names and no `DatSet` is written unchecked with a name the server lacks, every block names
a data set the server has, or none, in every state. -/
theorem run_named {s : Blocks} {xs : List Action} (hnamed : s.Named)
    (hchecked : Meets step Checked s xs) : ∀ t ∈ states step s xs, t.Named := by
  apply invariant_states _ hnamed hchecked
  intro t x t' ht hx hstep
  cases hstep
  exact ht.next hx

/-- A server with one node and no data set, whose report control block and log control block name
none. -/
def nothingNamed : Blocks where
  tree := ⟨fun domain => domain = ascii "D", fun node => node = ascii "D/P", fun r => [r], 4⟩
  dataSets := ⟨[], List.nodup_nil⟩
  reports := [ControlBlock.engineered ControlBlock.gathering [] none true]
  logs := ⟨[.engineered ⟨false, false, 0, 0⟩ (ascii "D/L") []], ⟨fun _ => none, 4, Log.four_positive⟩⟩

/-- A client creates a data set and has the report control block name it. -/
def clientNamed : List Action :=
  [.createDataSet (.domainSpecific (ascii "D") (ascii "S"))
      [.name (.domainSpecific (ascii "D") (ascii "P"))],
    .report 0 (.write ControlBlock.onePosition anonymous 1 .datSet (.visibleString (ascii "D/S")) 0)]

/-- A client asks a data set away. -/
def askedAway (item : String) : Action :=
  .deleteDataSets deleteScopeSpecific [.domainSpecific (ascii "D") (ascii item)]

theorem nothingNamed_named : nothingNamed.Named := by
  have hnames : nothingNamed.names = [] := by decide +kernel
  intro name hname
  rw [hnames] at hname
  cases hname

/-- It is another data set than the block names. -/
theorem run_named_client : nothingNamed.Named ∧
      ∀ t ∈ states step nothingNamed (clientNamed ++ [askedAway "T"]), t.Named := by
  refine ⟨nothingNamed_named, run_named nothingNamed_named ?_⟩
  refine ⟨trivial, fun t ht => ⟨trivial, fun u hu => ⟨?_, fun _ _ => trivial⟩⟩⟩
  have hnames : (((nothingNamed.next (clientNamed.get ⟨0, by decide⟩)).next
      (clientNamed.get ⟨1, by decide⟩)).names) = [ascii "D/S"] := by decide +kernel
  cases ht
  cases hu
  intro _ name hname ds _
  right
  intro domain item hmem heq
  have hname' : name = ascii "D/S" := List.mem_singleton.mp (hnames ▸ hname)
  have hother : ∀ n ∈ [ObjectName.domainSpecific (ascii "D") (ascii "T")],
      n = .domainSpecific domain item → fullReference domain item ≠ ascii "D/S" := by
    intro n hn h
    rw [List.mem_singleton.mp hn] at h
    cases h
    decide
  exact hother _ hmem rfl (heq.trans hname')

/-- It is the one: the data set goes, and the block goes on naming it. -/
theorem left_named :
    ¬ ∀ (s : Blocks) (xs : List Action), s.Named → ∀ t ∈ states step s xs, t.Named := by
  intro hclaim
  have hgone : ((states step nothingNamed (clientNamed ++ [askedAway "S"])).any fun t =>
      t.names.any fun name => (t.dataSets.find name).isNone) = true := by
    decide +kernel
  obtain ⟨t, ht, hany⟩ := List.any_eq_true.mp hgone
  obtain ⟨name, hname, hnone⟩ := List.any_eq_true.mp hany
  have hsome := hclaim nothingNamed _ nothingNamed_named t ht name hname
  rw [Option.isNone_iff_eq_none] at hnone
  rw [hnone] at hsome
  cases hsome

end Blocks

end Iec61850.Server
