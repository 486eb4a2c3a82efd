import Iec61850.Server.FileHandles
import Iec61850.Theory.Runs

/-!
# The numbers of open files

What `server/acsi.rs` keeps of its file handles over every run of opens, reads, closes and ends of
associations. The counter behind the numbers comes round and is not compared with the handles still
open; as long as no association is given a number that it still has, a number is one handle of it.
-/

namespace Iec61850.Server

open Theory

namespace FileHandles

/-- What the services name a handle by. -/
def names (s : FileHandles) : List (AssocId × Int) := s.handles.map fun h => (h.assoc, h.frsmId)

/-- The handles of an association. -/
def held (s : FileHandles) (assoc : AssocId) : List FileHandle :=
  s.handles.filter fun h => h.assoc = assoc

/-- One event, with the store as it is then. -/
def serve (limits : FileLimits) (s : FileHandles) (e : FileStore × FileEvent) :
    Option FileHandles := some (s.step limits e.1 e.2).2

/-- What a step keeps: no association has a number twice, or more handles than it may have, and a
close that is confirmed ends one handle, which had the number. -/
structure HandlesKept (limits : FileLimits) (s : FileHandles) (e : FileStore × FileEvent) :
    Prop where
  distinct : (s.step limits e.1 e.2).2.names.Nodup
  within : ∀ assoc, ((s.step limits e.1 e.2).2.held assoc).length ≤ limits.maxFileHandles
  one : ∀ assoc frsmId, e.2 = .close assoc frsmId →
    (s.step limits e.1 e.2).1 = some .fileClose →
      ∃ before h after, s.handles = before ++ h :: after ∧ h.isOf assoc frsmId = true ∧
        (s.step limits e.1 e.2).2.handles = before ++ after

/-- A file that is about to be opened is given a number that its association does not have. -/
def NumberFree (limits : FileLimits) (s : FileHandles) (e : FileStore × FileEvent) : Prop :=
  ∀ assoc path position, e.2 = .open assoc path position →
    (s.held assoc).length < limits.maxFileHandles → (e.1.info path).isSome = true →
      s.NextFree assoc

variable {limits : FileLimits} {store : FileStore} {s : FileHandles} {assoc : AssocId}
  {frsmId : Int}

/-! ### One event -/

variable {path : Bytes} {position : Nat} {s' : FileHandles} {e : FileStore × FileEvent}

/-- An open that has room and finds the file adds a handle under the next number. -/
theorem fileOpen_added (hroom : (s.held assoc).length < limits.maxFileHandles)
    (hinfo : (store.info path).isSome = true) :
    (s.fileOpen limits store assoc path position).2.names = s.names ++ [(assoc, s.nextFrsm)] := by
  obtain ⟨info, hinfo⟩ := Option.isSome_iff_exists.mp hinfo
  have hnotfull : ¬ limits.maxFileHandles ≤
      (s.handles.filter fun h => h.assoc = assoc).length := Nat.not_le.mpr hroom
  rw [fileOpen, if_neg hnotfull, hinfo]
  simp [names]

theorem fileOpen_refused
    (h : ¬ ((s.held assoc).length < limits.maxFileHandles ∧ (store.info path).isSome = true)) :
    (s.fileOpen limits store assoc path position).2 = s := by
  unfold fileOpen
  split
  · rfl
  · rename_i hroom
    cases hinfo : store.info path with
    | none => rfl
    | some info =>
      rw [hinfo] at h
      exact absurd ⟨Nat.not_le.mp hroom, rfl⟩ h

theorem nextFree_iff : s.NextFree assoc ↔ (assoc, s.nextFrsm) ∉ s.names := by
  simp only [NextFree, names, List.mem_map, Prod.mk.injEq, not_exists, not_and, Bool.eq_false_iff,
    Ne, isOf_eq_true]
  constructor
  · intro h handle hhandle hassoc hid
    exact h handle hhandle hid hassoc
  · intro h handle hhandle hid hassoc
    exact h handle hhandle hassoc hid

theorem map_deliveredTo {β : Type} {g : FileHandle → β}
    (hg : ∀ (h : FileHandle) (delivered : Nat), g { h with delivered := delivered } = g h)
    (delivered : Nat) (hs : List FileHandle) :
    (deliveredTo assoc frsmId delivered hs).map g = hs.map g := by
  induction hs with
  | nil => rfl
  | cons h hs ih =>
    rw [deliveredTo]
    split
    · rw [List.map_cons, List.map_cons, hg]
    · rw [List.map_cons, List.map_cons, ih]

theorem fileRead_names (limits : FileLimits) (store : FileStore) (s : FileHandles)
    (assoc : AssocId) (frsmId : Int) :
    (s.fileRead limits store assoc frsmId).2.names = s.names := by
  unfold fileRead
  split
  · rfl
  · exact map_deliveredTo (fun _ _ => rfl) _ _

theorem held_length (s : FileHandles) (assoc : AssocId) :
    (s.held assoc).length = s.names.countP fun name => name.1 = assoc := by
  rw [held, names, List.countP_map, List.countP_eq_length_filter]
  rfl

theorem names_sublist {e : FileEvent} (he : ∀ assoc path position, e ≠ .open assoc path position) :
    (s.step limits store e).2.names.Sublist s.names := by
  cases e with
  | «open» assoc path position => exact absurd rfl (he assoc path position)
  | read assoc frsmId =>
    rw [step]
    dsimp only
    rw [fileRead_names]
  | close assoc frsmId => exact List.filter_sublist.map _
  | ended assoc => exact List.filter_sublist.map _

/-- With distinct names, the handles that a close leaves out are one at most. -/
theorem filter_out {hs : List FileHandle} (hnodup : (hs.map fun h => (h.assoc, h.frsmId)).Nodup)
    (hsome : (hs.filter fun h => !h.isOf assoc frsmId).length ≠ hs.length) :
    ∃ before h after, hs = before ++ h :: after ∧ h.isOf assoc frsmId = true ∧
      (hs.filter fun h => !h.isOf assoc frsmId) = before ++ after := by
  induction hs with
  | nil => exact absurd rfl hsome
  | cons h hs ih =>
    rw [List.map_cons, List.nodup_cons] at hnodup
    by_cases hof : h.isOf assoc frsmId = true
    · refine ⟨[], h, hs, rfl, hof, ?_⟩
      rw [List.filter_cons_of_neg (by simp [hof]), List.nil_append, List.filter_eq_self]
      intro h' hh'
      rw [Bool.not_eq_true', Bool.eq_false_iff]
      intro hof'
      apply hnodup.1
      rw [List.mem_map]
      refine ⟨h', hh', ?_⟩
      rw [isOf_eq_true] at hof hof'
      rw [hof.1, hof.2, hof'.1, hof'.2]
    · have hkeep : (h :: hs).filter (fun h => !h.isOf assoc frsmId) =
          h :: hs.filter (fun h => !h.isOf assoc frsmId) :=
        List.filter_cons_of_pos (by simpa using hof)
      rw [hkeep, List.length_cons, List.length_cons] at hsome
      obtain ⟨before, h', after, rfl, hof', hrest⟩ := ih hnodup.2 fun heq => hsome (by rw [heq])
      refine ⟨h :: before, h', after, rfl, hof', ?_⟩
      rw [hkeep, hrest]
      rfl

/-! ### Every event -/

/-- The names in use differ, and no association has more than it may. -/
structure Differ (limits : FileLimits) (s : FileHandles) : Prop where
  distinct : s.names.Nodup
  within : ∀ assoc, (s.held assoc).length ≤ limits.maxFileHandles

theorem differ_initial (limits : FileLimits) : initial.Differ limits :=
  ⟨List.nodup_nil, fun _ => Nat.zero_le _⟩

theorem Differ.sublist (h : s.Differ limits) (hsub : s'.names.Sublist s.names) :
    s'.Differ limits := by
  refine ⟨h.distinct.sublist hsub, ?_⟩
  intro assoc
  have hle := h.within assoc
  rw [held_length] at hle ⊢
  exact Nat.le_trans hsub.countP_le hle

theorem Differ.added (h : s.Differ limits) (hroom : (s.held assoc).length < limits.maxFileHandles)
    (hfree : s.NextFree assoc) (hadded : s'.names = s.names ++ [(assoc, s.nextFrsm)]) :
    s'.Differ limits := by
  refine ⟨?_, ?_⟩
  · rw [hadded, ← List.concat_eq_append, List.nodup_concat]
    exact ⟨nextFree_iff.mp hfree, h.distinct⟩
  · intro assoc'
    have hle := h.within assoc'
    rw [held_length] at hroom hle ⊢
    rw [hadded, List.countP_append, List.countP_singleton]
    split
    · rename_i heq
      rw [decide_eq_true_eq] at heq
      subst heq
      exact hroom
    · exact hle

theorem Differ.step (h : s.Differ limits) (hfree : NumberFree limits s e) :
    (s.step limits e.1 e.2).2.Differ limits := by
  obtain ⟨store, e⟩ := e
  cases e with
  | «open» assoc path position =>
    by_cases hgood : (s.held assoc).length < limits.maxFileHandles ∧
        (store.info path).isSome = true
    · exact h.added hgood.1 (hfree assoc path position rfl hgood.1 hgood.2)
        (fileOpen_added hgood.1 hgood.2)
    · have hsame : (s.step limits store (.open assoc path position)).2 = s :=
        fileOpen_refused hgood
      rw [hsame]
      exact h
  | read assoc frsmId => exact h.sublist (names_sublist nofun)
  | close assoc frsmId => exact h.sublist (names_sublist nofun)
  | ended assoc => exact h.sublist (names_sublist nofun)

theorem Differ.kept (h : s.Differ limits) (hfree : NumberFree limits s e) :
    HandlesKept limits s e := by
  have hnext := h.step hfree
  refine ⟨hnext.distinct, hnext.within, ?_⟩
  intro assoc frsmId hclose hconfirmed
  rw [hclose] at hconfirmed ⊢
  rw [FileHandles.step] at hconfirmed ⊢
  dsimp only [fileClose] at hconfirmed ⊢
  apply filter_out h.distinct
  intro heq
  rw [if_pos heq] at hconfirmed
  cases hconfirmed

theorem HandlesKept.numberFree (h : HandlesKept limits s e) : NumberFree limits s e := by
  obtain ⟨store, e⟩ := e
  rintro assoc path position rfl hroom hinfo
  have hdistinct := h.distinct
  rw [FileHandles.step] at hdistinct
  dsimp only at hdistinct hinfo
  rw [fileOpen_added hroom hinfo, ← List.concat_eq_append, List.nodup_concat] at hdistinct
  exact nextFree_iff.mpr hdistinct.1

/-! ### Every run -/

theorem run_serve (s : FileHandles) (es : List (FileStore × FileEvent)) :
    Theory.run (serve limits) s es = some (run limits s es) := by
  induction es generalizing s with
  | nil => rfl
  | cons e es ih => exact ih _

theorem held_sublist (he : ∀ path position, e.2 ≠ .open assoc path position)
    (hnone : s.held assoc = []) : (s.step limits e.1 e.2).2.held assoc = [] := by
  obtain ⟨store, e⟩ := e
  have hcount := held_length s assoc
  rw [hnone, List.length_nil] at hcount
  apply List.eq_nil_of_length_eq_zero
  rw [held_length]
  apply Nat.eq_zero_of_le_zero
  rw [hcount]
  by_cases hopen : ∃ assoc' path position, e = .open assoc' path position
  · obtain ⟨assoc', path, position, rfl⟩ := hopen
    have hne : assoc' ≠ assoc := by
      rintro rfl
      exact he path position rfl
    by_cases hgood : (s.held assoc').length < limits.maxFileHandles ∧
        (store.info path).isSome = true
    · rw [FileHandles.step]
      dsimp only
      rw [fileOpen_added hgood.1 hgood.2, List.countP_append, List.countP_singleton,
        if_neg (by simpa using hne)]
      exact Nat.le_refl _
    · rw [FileHandles.step]
      dsimp only
      rw [fileOpen_refused hgood]
  · refine (names_sublist ?_).countP_le
    intro assoc' path position heq
    exact hopen ⟨assoc', path, position, heq⟩

theorem held_run {es : List (FileStore × FileEvent)}
    (hnone : s.held assoc = []) (hes : ∀ e ∈ es, ∀ path position, e.2 ≠ .open assoc path position) :
    (run limits s es).held assoc = [] := by
  induction es generalizing s with
  | nil => exact hnone
  | cons e es ih =>
    rw [List.forall_mem_cons] at hes
    rw [run]
    exact ih (held_sublist hes.1 hnone) hes.2

theorem held_ended (s : FileHandles) (assoc : AssocId) :
    (s.onAssociationClosed assoc).held assoc = [] := by
  rw [held, onAssociationClosed, List.filter_filter, List.filter_eq_nil_iff]
  simp

/-- In every run from the start of a server, the numbers of an association differ, a confirmed close
ends one handle and no association has too many, exactly as long as each file that is opened is given
a number that its association does not have; and an association that is over has no handle. -/
theorem numbers_differ_iff (limits : FileLimits) (es : List (FileStore × FileEvent)) :
    (Meets (serve limits) (HandlesKept limits) initial es ↔
        Meets (serve limits) (NumberFree limits) initial es) ∧
      ∀ before after store assoc, es = before ++ (store, .ended assoc) :: after →
        (∀ e ∈ after, ∀ path position, e.2 ≠ .open assoc path position) →
          (run limits initial es).held assoc = [] := by
  refine ⟨⟨Meets.mono fun _ _ h => h.numberFree, ?_⟩, ?_⟩
  · intro h
    refine invariant_meets ?_ (fun s e hs he => hs.kept he) (differ_initial limits) h
    intro s e s' hs he hs'
    cases hs'
    exact hs.step he
  · rintro before after store assoc rfl hafter
    rw [run_append, run]
    exact held_run (held_ended _ assoc) hafter

/-- When the counter has come round, the file that the first client still has open and the next one
it opens go by one number. -/
theorem numbers_differ_not : ¬ ∀ limits es, Meets (serve limits) (HandlesKept limits) initial es := by
  intro h
  have hlast := meets_last (h ⟨4, 4⟩ (roundTrip ++ [(twoRecords, .open 1 (ascii "b.cfg") 0)]))
    (run_serve initial roundTrip)
  rw [run_roundTrip] at hlast
  exact absurd hlast.distinct (by decide)

end FileHandles

end Iec61850.Server
