import Iec61850.Server.Rested
import Mathlib.Logic.Relation

/-!
# What the server loop does to the data

Whatever the loop handles, it changes the data by single writes of leaves, and it forgets what has
been written when it commits. So the tree stays, and a leaf that has a value goes on having one.
-/

namespace Iec61850.Server

open Theory Mms

/-! ### Writes -/

/-- One change of the data. -/
inductive WriteStep : Store → Store → Prop where
  | leaf (s : Store) (r : Reference) (v : Value) : WriteStep s (s.writeLeaf r v).1
  | clean (s : Store) : WriteStep s { s with dirty := fun _ => none }

/-- The second store is what changes leave of the first. -/
def Overwritten : Store → Store → Prop := Relation.ReflTransGen WriteStep

namespace Overwritten

variable {s s' s'' : Store}

theorem refl (s : Store) : Overwritten s s := Relation.ReflTransGen.refl

theorem trans (h : Overwritten s s') (h' : Overwritten s' s'') : Overwritten s s'' :=
  Relation.ReflTransGen.trans h h'

theorem writeLeaf (s : Store) (r : Reference) (v : Value) : Overwritten s (s.writeLeaf r v).1 :=
  Relation.ReflTransGen.single (.leaf s r v)

theorem node (h : Overwritten s s') : s'.node = s.node := by
  induction h with
  | refl => rfl
  | tail _ hstep ih =>
    cases hstep with
    | leaf r v => rw [LeafStore.writeLeaf_node, ih]
    | clean => exact ih

theorem typed (h : Overwritten s s') (htyped : s.Typed) : s'.Typed := by
  induction h with
  | refl => exact htyped
  | tail _ hstep ih =>
    cases hstep with
    | leaf r v => exact ih.writeLeaf r v
    | clean => exact ih

theorem isSome (h : Overwritten s s') (htyped : s.Typed) (r : Reference) :
    (s'.values r).isSome = (s.values r).isSome := by
  induction h with
  | refl => rfl
  | tail hbefore hstep ih =>
    rename_i t t'
    cases hstep with
    | clean => exact ih
    | leaf r' v =>
      rw [← ih, LeafStore.writeLeaf_values]
      split
      case isFalse => rfl
      case isTrue htakes =>
        by_cases hr : r = r'
        · subst hr
          rw [LeafStore.takes] at htakes
          split at htakes
          case h_1 btype hleaf =>
            obtain ⟨w, hw, -⟩ := typed hbefore htyped r btype hleaf
            rw [Function.update_self, hw]
            rfl
          case h_2 => cases htakes
        · rw [Function.update_of_ne hr]

end Overwritten

/-! ### The controls -/

namespace Control

theorem writeStatus_written (ied : Store) (object : Reference) (name : Bytes) (value : Value) :
    Overwritten ied (writeStatus ied object name value) := by
  unfold writeStatus
  split
  · exact .refl ied
  · exact .writeLeaf ied _ value

theorem apply_written (ied : Store) (object : Reference) (request : ControlRequest)
    (wall : UtcTime) : Overwritten ied (apply ied object request wall) :=
  (writeStatus_written ied object _ _).trans (writeStatus_written _ object _ _)

namespace Controls

variable (c : Controls)

theorem runTimed_written (ied : Store) (t : Timed) : Overwritten ied (c.runTimed ied t).2 := by
  unfold runTimed
  split
  · exact .refl ied
  · dsimp only
    split
    · exact apply_written ied _ _ _
    · exact apply_written ied _ _ _

theorem runAll_written (c : Controls) (ied : Store) (ts : List Timed) :
    Overwritten ied (runAll c ied ts).2 := by
  induction ts generalizing c ied with
  | nil => exact .refl ied
  | cons t ts ih => exact (c.runTimed_written ied t).trans (ih _ _)

theorem onTimeout_written (ied : Store) (now : Instant) : Overwritten ied (c.onTimeout ied now).2 :=
  runAll_written _ ied _

theorem operate_written (assoc : AssocId) (ied : Store) (object : Reference)
    (request : ControlRequest) (model : ControlModel) (now : Now) :
    Overwritten ied (c.operate assoc ied object request model now).2.1 := by
  unfold operate
  split
  · exact .refl ied
  · dsimp only
    split
    · exact .refl ied
    · split
      · exact apply_written ied _ _ _
      · exact apply_written ied _ _ _

theorem serve_written (assoc : AssocId) (ied : Store) (object : Reference) (a : Attribute)
    (request : ControlRequest) (model : ControlModel) (now : Now) :
    Overwritten ied (c.serve assoc ied object a request model now).2.1 := by
  unfold serve
  split
  · exact .refl ied
  · cases a with
    | sbow => exact .refl ied
    | cancel => exact .refl ied
    | oper => exact c.operate_written assoc ied object request model now
    | sbo => exact .refl ied

theorem write_written (assoc : AssocId) (ied : Store) (object : Reference) (a : Attribute)
    (value : Value) (now : Now) : Overwritten ied (c.write assoc ied object a value now).2.1 := by
  unfold write
  split
  · exact .refl ied
  · split
    · exact .refl ied
    · exact (c.onTimeout_written ied now.mono).trans (serve_written _ assoc _ object a _ _ now)

end Controls

theorem System.next_written (s : System) {x : Action} (h : ∀ ied, x ≠ .store ied) :
    Overwritten s.ied (s.next x).ied := by
  cases x with
  | write assoc object a value now => exact s.controls.write_written assoc s.ied object a value now
  | timeout now => exact s.controls.onTimeout_written s.ied now
  | store ied => exact absurd rfl (h ied)
  | select => exact .refl s.ied
  | closed => exact .refl s.ied
  | onControl => exact .refl s.ied
  | setSboTimeoutMs => exact .refl s.ied
  | takePending => exact .refl s.ied
  | takeLastCause => exact .refl s.ied

end Control

/-! ### The tracking objects -/

namespace Tracking

theorem write_written (ied : Store) (tracker : Reference) (name : Bytes) (value : Value) :
    Overwritten ied (write ied tracker name value) := by
  unfold write
  dsimp only
  split
  · exact .writeLeaf ied _ value
  · exact .refl ied

theorem mirror_written (shown : Bytes → Option Value) (tracker : Reference) (objRef : Bytes)
    (names : List Bytes) (ied : Store) :
    Overwritten ied (names.foldl (mirrorOne shown tracker objRef) ied) := by
  induction names generalizing ied with
  | nil => exact .refl ied
  | cons name names ih =>
    refine Overwritten.trans ?_ (ih _)
    unfold mirrorOne
    split
    · exact .refl ied
    · split
      · exact .refl ied
      · exact write_written ied tracker name _

theorem record_written (t : Tracking) (shown : Bytes → Option Value) (ied : Store)
    (event : Tracked) (now : Now) : Overwritten ied (t.record shown ied event now) := by
  unfold record
  split
  · exact .refl ied
  · rename_i tracker _
    dsimp only
    refine Overwritten.trans ?_ (write_written _ tracker _ _)
    refine Overwritten.trans ?_ (mirror_written shown tracker _ _ _)
    refine Overwritten.trans ?_ (write_written _ tracker _ _)
    refine Overwritten.trans ?_ (write_written _ tracker _ _)
    refine Overwritten.trans ?_ (write_written _ tracker _ _)
    exact write_written ied tracker _ _

end Tracking

/-! ### The loop -/

namespace Acsi

variable (a : Acsi)

theorem recordAll_written (shown : Bytes → Option Value) (ied : Store) (now : Now)
    (blocks : List Bytes) : Overwritten ied (a.recordAll shown ied now blocks) := by
  unfold recordAll
  induction blocks generalizing ied with
  | nil => exact .refl ied
  | cons block blocks ih => exact (a.tracking.record_written shown ied _ now).trans (ih _)

theorem trackReleased_written (now : Now) :
    Overwritten a.control.ied (a.trackReleased now).control.ied := by
  unfold trackReleased
  split
  · exact .refl _
  · exact a.recordAll_written _ _ now _

theorem perform_written (op : Operation) :
    Overwritten a.control.ied (a.perform op).control.ied := by
  cases op with
  | write r value => exact .writeLeaf _ r value
  | select assoc object now => exact a.control.next_written (by rintro ied ⟨⟩)
  | control assoc object x value now => exact a.control.next_written (by rintro ied ⟨⟩)
  | setting => exact .refl _
  | settingWhole => exact .refl _
  | report => exact .refl _
  | reportWhole => exact .refl _
  | log => exact .refl _
  | logWhole => exact .refl _
  | createDataSet => exact .refl _
  | deleteDataSets => exact .refl _

theorem foldl_perform_written (a : Acsi) (ops : List Operation) :
    Overwritten a.control.ied (ops.foldl perform a).control.ied := by
  induction ops generalizing a with
  | nil => exact .refl _
  | cons op ops ih => exact (a.perform_written op).trans (ih _)

theorem commit_ied (now : Now) :
    (a.commit now).1.control.ied = { a.control.ied with dirty := fun _ => none } := rfl

theorem commit_written (now : Now) : Overwritten a.control.ied (a.commit now).1.control.ied :=
  Relation.ReflTransGen.single (.clean a.control.ied)

theorem onTimeout_written (now : Now) :
    Overwritten a.control.ied (a.onTimeout now).1.control.ied := by
  have hcontrol : Overwritten a.control.ied (a.control.next (.timeout now.mono)).ied :=
    a.control.next_written (by rintro ied ⟨⟩)
  have htracked := trackReleased_written
    { a with
      control := a.control.next (.timeout now.mono)
      devices := a.devices.map fun d => d.next (.timeout now.mono) } now
  exact hcontrol.trans htracked

theorem onAssociationClosed_written (assoc : AssocId) (now : Now) :
    Overwritten a.control.ied (a.onAssociationClosed assoc now).control.ied :=
  trackReleased_written
    { a with
      reports := a.reports.map fun r => { r with block := r.block.closed a.peers assoc now.mono }
      released := a.released ++
        (a.reports.filter fun r => r.block.rcb.owner = some assoc).map (·.block.reference) } now

theorem next_written (x : LoopEvent) : Overwritten a.control.ied (a.next x).control.ied := by
  cases x with
  | request operations now =>
    exact (foldl_perform_written a operations).trans (commit_written _ now)
  | transaction writes now =>
    rw [next]
    split
    · exact .refl _
    · rw [foldl_writes]
      exact (foldl_perform_written a _).trans (commit_written _ now)
  | timeout now => exact a.onTimeout_written now
  | opened => exact .refl _
  | negotiated => exact .refl _
  | closed assoc now => exact a.onAssociationClosed_written assoc now

end Acsi

end Iec61850.Server
