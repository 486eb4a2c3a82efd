import Iec61850.Server.SettingRuns
import Iec61850.Theory.History

/-!
# Whose edit a confirmation applies

The edit reservation over whole runs: who holds it while a group is selected, from whom a setting
write or a confirmation is accepted, and by whom the values were entered that a confirmation
applies.
-/

namespace Iec61850.Server

open Theory

/-! ### The journal -/

/-- The settings a group has values of. -/
def Groups.settingsIn (g : Groups) (group : Nat) : List SettingRef :=
  ((g.values group).map fun values => values.keys).getD []

theorem mem_settingsIn {g : Groups} {group : Nat} {r : SettingRef} :
    r ∈ g.settingsIn group ↔ (g.stored group r).isSome := by
  unfold Groups.settingsIn Groups.stored
  cases g.values group with
  | none => simp
  | some values =>
    rw [Option.map_some, Option.getD_some, Option.bind_some, AList.lookup_isSome, AList.mem_keys]

theorem settingsIn_confirm {g : Groups} {ied : LeafStore Key} {group group' : Nat}
    {r : SettingRef} (h : r ∈ (g.confirm ied group).settingsIn group') : r ∈ g.settingsIn group' := by
  rw [mem_settingsIn] at h ⊢
  rw [stored_confirm] at h
  split at h
  · rename_i hin
    rw [hin.1]
    exact hin.2
  · exact h

namespace Device

/-- What bears on the origin of the values under `SE`: a selection, which fills in the editing copy
of some settings, a setting write, and the confirmation of the values of some settings. -/
inductive Event where
  | selected (assoc : AssocId) (filled : List SettingRef)
  | entered (assoc : AssocId) (r : SettingRef)
  | confirmed (assoc : AssocId) (applied : List SettingRef)
  deriving DecidableEq, Repr

/-- What an action leaves in the journal. -/
def events (d : Device) (x : Action) : List Event :=
  if d.accepted x then
    match x with
    | .write assoc (.block .editSG) value _ =>
      let group := (unsignedOf value).getD 0
      if group = 0 then [] else [.selected assoc (d.groups.settingsIn group)]
    | .write assoc (.block .cnfEdit) value _ =>
      if boolOf value = some true then [.confirmed assoc (d.groups.settingsIn d.editGroup)] else []
    | .write assoc (.se r) _ _ => [.entered assoc r]
    | _ => []
  else []

/-- The event leaves another value under `SE` than was there. -/
def Event.Replaces (r : SettingRef) : Event → Prop
  | .selected _ filled => r ∈ filled
  | .entered _ r' => r' = r
  | .confirmed _ _ => False

/-- The value of a setting under `SE` is the one the association entered last. -/
def EnteredBy (log : List Event) (assoc : AssocId) (r : SettingRef) : Prop :=
  Since (fun _ e => e = .entered assoc r) (fun e => ¬ e.Replaces r) log

/-- A confirmation applies no value that another association entered. -/
def AppliesOwn (log : List Event) (e : Event) : Prop :=
  ∀ assoc applied, e = .confirmed assoc applied →
    ∀ r ∈ applied, ∀ other, EnteredBy log other r → other = assoc

variable {log : List Event} {d : Device}

theorem enteredBy_concat {e : Event} {assoc : AssocId} {r : SettingRef} :
    EnteredBy (log ++ [e]) assoc r ↔
      e = .entered assoc r ∨ EnteredBy log assoc r ∧ ¬ e.Replaces r :=
  since_concat

/-! ### What is promised -/

/-- While a group is selected exactly one association holds the reservation. -/
def Reserved (d : Device) : Prop :=
  d.editGroup ≠ 0 → ∃! assoc, d.groups.editor = some assoc

/-- A setting write or a confirmation is accepted only from the association that holds the
reservation at that moment. -/
def Guarded (d : Device) (x : Action) : Prop :=
  match x with
  | .write assoc (.se _) _ _ => d.accepted x = true → d.groups.editor = some assoc
  | .write assoc (.block .cnfEdit) value now =>
    d.accepted x = true → boolOf value = some true →
      (d.groups.expire now.mono).editor = some assoc
  | _ => True

/-! ### How a reservation ends -/

/-- The reservation has run out. -/
def lapsed (d : Device) (now : Instant) : Bool := d.groups.editorUntil.any (· ≤ now)

/-- The number a structured write of the block puts into `EditSG`. -/
def wholeEdit : Value → Nat
  | .structure members => ((members[2]?).bind unsignedOf).getD 0
  | _ => 0

/-- The action does not end a reservation and leave the group selected: the association that holds
it does not end; that it has run out is noticed by a timeout, or by a write that selects another
group or none; and a structured write of the block as a whole selects no group. -/
def KeepsEditor (d : Device) : Action → Prop
  | .closed assoc => d.editGroup = 0 ∨ d.groups.editor ≠ some assoc
  | .elsewhere now => d.editGroup = 0 ∨ d.lapsed now = false
  | .write _ (.block a) value now =>
    d.editGroup = 0 ∨ d.lapsed now.mono = false ∨ a.writable = false ∨
      a = .editSG ∧ (unsignedOf value).any (· ≤ d.groups.count) = true
  | .writeWhole _ value => wholeEdit value = 0 ∨ wholeEdit value = d.editGroup
  | .write _ (.sg _) _ _ | .write _ (.se _) _ _ | .timeout _ => True

instance (d : Device) (x : Action) : Decidable (d.KeepsEditor x) := by
  cases x with
  | write assoc key value now => cases key <;> (unfold KeepsEditor; infer_instance)
  | writeWhole assoc value => unfold KeepsEditor; infer_instance
  | elsewhere now => unfold KeepsEditor; infer_instance
  | closed assoc => unfold KeepsEditor; infer_instance
  | timeout now => unfold KeepsEditor; infer_instance

theorem expire_of_not_lapsed {now : Instant} (h : d.lapsed now = false) :
    d.groups.expire now = d.groups := by
  unfold Groups.expire
  unfold lapsed at h
  rw [if_neg (by rw [h]; exact Bool.false_ne_true)]

theorem expire_of_lapsed {now : Instant} (h : d.lapsed now = true) :
    d.groups.expire now = { d.groups with editor := none, editorUntil := none } := by
  unfold Groups.expire
  unfold lapsed at h
  rw [if_pos h]

theorem expire_values (g : Groups) (now : Instant) : (g.expire now).values = g.values := by
  unfold Groups.expire
  split
  · rfl
  · rfl

/-! ### The invariant -/

/-- The journal and the state: a selected group has its holder, and nobody else has entered what a
confirmation would apply. -/
structure Kept (log : List Event) (d : Device) : Prop where
  block : HasBlock d.ied
  held : d.editGroup ≠ 0 → ∃ assoc, d.groups.editor = some assoc
  own : d.editGroup ≠ 0 → ∀ r ∈ d.groups.settingsIn d.editGroup, ∀ assoc, EnteredBy log assoc r →
    d.groups.editor = some assoc
  applied : Justified AppliesOwn log

theorem Kept.reserved (h : Kept log d) : d.Reserved := by
  intro hgroup
  obtain ⟨assoc, heditor⟩ := h.held hgroup
  refine ⟨assoc, heditor, ?_⟩
  intro other hother
  rw [heditor] at hother
  exact (Option.some.inj hother).symm

theorem Kept.of_none {d' : Device} (h : Kept log d) (hnode : d'.ied.node = d.ied.node)
    (hgroup : d'.editGroup = 0) : Kept log d' where
  block a := by rw [hnode, h.block a]
  held hne := absurd hgroup hne
  own hne := absurd hgroup hne
  applied := h.applied

/-- The reservation, the selection and what each group has values of are as they were. -/
theorem Kept.of_same {d' : Device} (h : Kept log d) (hnode : d'.ied.node = d.ied.node)
    (hgroup : d'.editGroup = d.editGroup) (heditor : d'.groups.editor = d.groups.editor)
    (hsettings : ∀ r ∈ d'.groups.settingsIn d.editGroup, r ∈ d.groups.settingsIn d.editGroup) :
    Kept log d' where
  block a := by rw [hnode, h.block a]
  held hne := by
    rw [hgroup] at hne
    rw [heditor]
    exact h.held hne
  own hne := by
    rw [hgroup] at hne ⊢
    intro r hr
    rw [heditor]
    exact h.own hne r (hsettings r hr)
  applied := h.applied

theorem editor_of_heldByOther {g : Groups} {assoc holder : AssocId}
    (hheld : g.heldByOther assoc = false) (heditor : g.editor = some holder) :
    g.editor = some assoc := by
  unfold Groups.heldByOther at hheld
  rw [heditor, Option.any_some, decide_eq_false_iff_not, not_not] at hheld
  rw [heditor, hheld]

/-! ### One step -/

variable {log : List Event} {d : Device}

variable {value : Value} {assoc : AssocId} {x : Action} {a : SgAttribute} {now : Now}

theorem Kept.writeWhole (h : Kept log d)
    (hvalue : wholeEdit value = 0 ∨ wholeEdit value = d.editGroup) :
    Kept log (d.writeWhole value).1 := by
  unfold Device.writeWhole
  split
  · rename_i members
    split
    · rename_i hlen
      have hnode := writeComponents_node d.ied (SgAttribute.components.zip members)
      have hnumber := writeComponents_number d.ied (SgAttribute.components.zip members) .editSG
      dsimp only
      rcases hnumber with hsame | ⟨v, hv, hnew⟩
      · refine h.of_same hnode ?_ rfl (fun _ hr => hr)
        rw [editGroup, hsame, editGroup]
      · have hmember : members[2]? = some v := by
          rw [List.mem_iff_getElem?] at hv
          obtain ⟨i, hi⟩ := hv
          rw [List.getElem?_zip_eq_some] at hi
          obtain ⟨hcomponent, hi⟩ := hi
          have htwo : i = 2 := by
            rcases i with _ | _ | _ | _ | _ | _ | i
            all_goals first | rfl | cases hcomponent
          rw [← htwo, hi]
        have hgroup : ((writeComponents d.ied (SgAttribute.components.zip members)).1.number
            .editSG).getD 0 = wholeEdit (.structure members) := by
          rw [hnew, wholeEdit, hmember, Option.bind_some]
        rcases hvalue with hzero | hsame
        · refine h.of_none hnode ?_
          rw [editGroup, hgroup, hzero]
        · refine h.of_same hnode ?_ rfl (fun _ hr => hr)
          rw [editGroup, hgroup, hsame]
    · exact h
  · exact h

theorem Kept.closed (h : Kept log d) (hassoc : d.editGroup = 0 ∨ d.groups.editor ≠ some assoc) :
    Kept log (d.next (.closed assoc)) := by
  rcases hassoc with hzero | hother
  · exact h.of_none rfl hzero
  · refine h.of_same rfl rfl ?_ ?_
    · rw [next, Groups.onAssociationClosed, if_neg hother]
    · rw [next, Groups.onAssociationClosed, if_neg hother]
      exact fun _ hr => hr

theorem Kept.elsewhere (h : Kept log d) {now : Instant}
    (hnow : d.editGroup = 0 ∨ d.lapsed now = false) : Kept log (d.next (.elsewhere now)) := by
  rcases hnow with hzero | hlapsed
  · exact h.of_none rfl hzero
  · rw [next, expire_of_not_lapsed hlapsed]
    exact h

theorem Kept.timeout (h : Kept log d) (now : Instant) : Kept log (d.next (.timeout now)) := by
  rw [next]
  unfold Groups.onTimeout
  split
  · refine h.of_none (LeafStore.setInternal_node _ _ _) ?_
    have htakes : d.ied.takes (.block .editSG) (.unsigned 0) = true := by
      rw [h.block.takes]
      rfl
    rw [editGroup, LeafStore.number, LeafStore.setInternal_values_self, if_pos htakes]
    rfl
  · rename_i hnone
    by_cases hlapsed : d.lapsed now = true
    · -- What has run out was not held: nothing is selected then either.
      refine h.of_none rfl ?_
      by_contra hgroup
      obtain ⟨assoc, heditor⟩ := h.held hgroup
      apply hnone
      rw [heditor, Option.isSome_some, Bool.true_and]
      exact hlapsed
    · rw [Bool.not_eq_true] at hlapsed
      rw [expire_of_not_lapsed hlapsed]
      exact h

theorem events_of_refused (h : d.accepted x = false) : d.events x = [] := by
  unfold events
  rw [if_neg (by rw [h]; exact Bool.false_ne_true)]

theorem guarded_of_refused (h : d.accepted x = false) : d.Guarded x := by
  unfold Guarded
  split
  · rw [h]
    exact fun hok => absurd hok Bool.false_ne_true
  · rw [h]
    exact fun hok => absurd hok Bool.false_ne_true
  · trivial

/-- A setting write. -/
theorem Kept.writeEdit (h : Kept log d) (assoc : AssocId) (r : SettingRef) (value : Value)
    (now : Now) : Kept (log ++ d.events (.write assoc (.se r) value now))
        (d.next (.write assoc (.se r) value now)) ∧ d.Guarded (.write assoc (.se r) value now) := by
  rcases d.writeEdit_cases assoc value r with ⟨hsame, hrefused⟩ | ⟨heq, hgroup, hheld, -⟩
  · have haccepted : d.accepted (.write assoc (.se r) value now) = false := hrefused
    rw [events_of_refused haccepted, List.append_nil, next_se, hsame]
    refine ⟨h, ?_⟩
    intro hok
    rw [haccepted] at hok
    cases hok
  · obtain ⟨holder, hholder⟩ := h.held hgroup
    have heditor := editor_of_heldByOther hheld hholder
    have haccepted : d.accepted (.write assoc (.se r) value now) = true := by
      rw [accepted_se, heq]
      rfl
    have hnumber : (d.ied.writeLeaf (.se r) value).1.number .editSG = d.ied.number .editSG := by
      rw [LeafStore.number, LeafStore.number, LeafStore.writeLeaf_values_ne _ _ _ Key.noConfusion]
    have hafter : Kept log ⟨d.groups, (d.ied.writeLeaf (.se r) value).1⟩ := by
      refine h.of_same (LeafStore.writeLeaf_node _ _ _) ?_ rfl (fun _ hr => hr)
      rw [editGroup, hnumber, editGroup]
    rw [events, haccepted, if_pos rfl, next_se, heq]
    refine ⟨⟨hafter.block, hafter.held, ?_, justified_concat.mpr ⟨h.applied, ?_⟩⟩, fun _ => heditor⟩
    · intro hne r' hr' other hother
      rcases enteredBy_concat.mp hother with hnew | ⟨hold, -⟩
      · cases hnew
        exact heditor
      · exact hafter.own hne r' hr' other hold
    · intro _ _ heq
      cases heq

/-- A write to the block that is refused. -/
theorem Kept.refused (h : Kept log d) (hkeeps : d.KeepsEditor (.write assoc (.block a) value now))
    {e : Int} {g : Groups} (heq : d.writeBlock assoc a value now = (⟨g, d.ied⟩, .error e))
    (hg : g = d.groups ∨ g = d.groups.expire now.mono ∧ g.MayRefuse assoc value a) :
    Kept log ⟨g, d.ied⟩ := by
  rcases hg with rfl | ⟨rfl, hmay⟩
  · exact h
  · by_cases hlapsed : d.lapsed now.mono = true
    · rcases hkeeps with hzero | hnot | hwritable | ⟨rfl, hvalue⟩
      · exact h.of_none rfl hzero
      · rw [hlapsed] at hnot
        cases hnot
      · rw [Device.writeBlock, hwritable, if_neg Bool.false_ne_true, Prod.mk.injEq] at heq
        rw [← heq.1]
        exact h
      · -- Nobody holds the reservation any more, so the selection is not refused.
        rw [expire_of_lapsed hlapsed] at hmay
        cases hmay rfl hvalue
    · rw [Bool.not_eq_true] at hlapsed
      rw [expire_of_not_lapsed hlapsed]
      exact h

/-- The engine agrees to a write, and neither the selection nor who holds it changes. -/
theorem Kept.of_unselected (h : Kept log d) {g : Groups} {ied : LeafStore Key}
    (hlapsed : d.editGroup = 0 ∨ d.lapsed now.mono = false)
    (hg : g.editor = (d.groups.expire now.mono).editor)
    (hsettings : ∀ group, ∀ r ∈ g.settingsIn group, r ∈ d.groups.settingsIn group)
    (hnode : ied.node = d.ied.node) (hnumber : ied.number .editSG = d.ied.number .editSG)
    (ha : SgAttribute.editSG ≠ a) : Kept log ⟨g, settle ied a value⟩ := by
  have hgroup : (settle ied a value).number .editSG = d.ied.number .editSG := by
    rw [settle_number_ne ha SgAttribute.noConfusion, hnumber]
  have hsettle : (settle ied a value).node = d.ied.node := by rw [settle_node, hnode]
  rcases hlapsed with hzero | hlapsed
  · refine h.of_none hsettle ?_
    rw [editGroup, hgroup]
    exact hzero
  · refine h.of_same hsettle ?_ ?_ ?_
    · rw [editGroup, hgroup, editGroup]
    · rw [hg, expire_of_not_lapsed hlapsed]
    · exact hsettings d.editGroup

/-- A write to the block, when the reservation is not left behind. -/
theorem Kept.writeBlock (h : Kept log d)
    (hkeeps : d.KeepsEditor (.write assoc (.block a) value now)) :
    Kept (log ++ d.events (.write assoc (.block a) value now))
        (d.next (.write assoc (.block a) value now)) ∧
      d.Guarded (.write assoc (.block a) value now) := by
  rcases d.writeBlock_cases assoc a value now h.block with
    ⟨e, g, heq, hg⟩ | ⟨g', ied', heq, hserves⟩
  · have haccepted : d.accepted (.write assoc (.block a) value now) = false := by
      rw [accepted_block, heq]
      rfl
    rw [events_of_refused haccepted, List.append_nil, next_block, heq]
    exact ⟨h.refused hkeeps heq hg, guarded_of_refused haccepted⟩
  · have haccepted : d.accepted (.write assoc (.block a) value now) = true := by
      rw [accepted_block, heq]
      rfl
    have hlapsed : SgAttribute.editSG ≠ a → a.writable = true →
        d.editGroup = 0 ∨ d.lapsed now.mono = false := by
      intro ha hwritable
      rcases hkeeps with hzero | hnot | hdenied | ⟨rfl, -⟩
      · exact Or.inl hzero
      · exact Or.inr hnot
      · rw [hwritable] at hdenied
        cases hdenied
      · exact absurd rfl ha
    have hsettings : ∀ group, ∀ r ∈ (d.groups.expire now.mono).settingsIn group,
        r ∈ d.groups.settingsIn group := by
      intro group r hr
      rw [Groups.settingsIn, expire_values] at hr
      exact hr
    unfold events Guarded
    rw [haccepted, next_block, heq, if_pos rfl]
    cases hserves with
    | activated hvalue hgroup =>
      rw [List.append_nil]
      refine ⟨h.of_unselected (hlapsed SgAttribute.noConfusion rfl) rfl hsettings ?_ ?_
        SgAttribute.noConfusion, trivial⟩
      · rw [LeafStore.setInternal_node, Groups.applyGroup_node]
      · rw [number_setInternal_ne SgAttribute.noConfusion,
          Groups.applyGroup_number _ _ _ SgAttribute.noConfusion]
    | released hvalue hheld =>
      dsimp only
      rw [hvalue, Option.getD_some, if_pos rfl, List.append_nil]
      refine ⟨h.of_none (settle_node _ _ _) ?_, trivial⟩
      have htakes : d.ied.takes (.block .editSG) value = true := by
        rw [h.block.takes]
        exact isNumber_of_unsignedOf (by rw [hvalue, Option.isSome_some])
      rw [editGroup, settle_number_self SgAttribute.noConfusion htakes, hvalue, Option.getD_some]
    | selected hvalue hgroup hheld =>
      rename_i group
      dsimp only
      rw [hvalue, Option.getD_some, if_neg (by omega)]
      refine ⟨⟨?_, ?_, ?_, justified_concat.mpr ⟨h.applied, ?_⟩⟩, trivial⟩
      · intro a
        rw [settle_node, fill_node, h.block a]
      · exact fun _ => ⟨assoc, rfl⟩
      · intro _ r hr other hother
        -- What the selection fills in nobody has entered.
        have htakes : (fill (((d.groups.expire now.mono).values group).getD ∅) d.ied).takes
            (.block .editSG) value = true := by
          rw [fill_takes, h.block.takes]
          exact isNumber_of_unsignedOf (by rw [hvalue, Option.isSome_some])
        rw [editGroup, settle_number_self SgAttribute.noConfusion htakes, hvalue,
          Option.getD_some] at hr
        rcases enteredBy_concat.mp hother with hnew | ⟨-, hnot⟩
        · cases hnew
        · exact absurd (hsettings group r hr) hnot
      · intro _ _ heq
        cases heq
    | idle hvalue =>
      have hnot : boolOf value ≠ some true := by
        intro htrue
        rw [htrue] at hvalue
        cases hvalue
      dsimp only
      rw [if_neg hnot, List.append_nil]
      refine ⟨h.of_unselected (hlapsed SgAttribute.noConfusion rfl) rfl hsettings rfl rfl
        SgAttribute.noConfusion, ?_⟩
      intro _ htrue
      exact absurd htrue hnot
    | confirmed hvalue hheld hnumber hgroup =>
      rename_i group
      have hne : d.editGroup ≠ 0 := by
        rw [editGroup, hnumber]
        omega
      have hnot : d.lapsed now.mono = false := by
        rcases hlapsed SgAttribute.noConfusion rfl with hzero | hnot
        · exact absurd hzero hne
        · exact hnot
      rw [expire_of_not_lapsed hnot] at hheld ⊢
      obtain ⟨holder, hholder⟩ := h.held hne
      have heditor := editor_of_heldByOther hheld hholder
      have hafter : Kept log ⟨d.groups.confirm d.ied group,
          settle (if (d.ied.number .actSG).getD 1 = group then
            (d.groups.confirm d.ied group).applyGroup d.ied group else d.ied) .cnfEdit value⟩ := by
        refine h.of_unselected (Or.inr hnot) ?_ (fun _ _ hr => settingsIn_confirm hr) ?_ ?_
          SgAttribute.noConfusion
        · rw [expire_of_not_lapsed hnot]
          rfl
        · split
          · rw [Groups.applyGroup_node]
          · rfl
        · split
          · rw [Groups.applyGroup_number _ _ _ SgAttribute.noConfusion]
          · rfl
      dsimp only
      rw [if_pos hvalue]
      refine ⟨⟨hafter.block, hafter.held, ?_, justified_concat.mpr ⟨h.applied, ?_⟩⟩, ?_⟩
      · intro hne' r hr other hother
        rcases enteredBy_concat.mp hother with hnew | ⟨hold, -⟩
        · cases hnew
        · exact hafter.own hne' r hr other hold
      · intro confirming applied heq r hr other hother
        cases heq
        have hholds := h.own hne r hr other hother
        rw [heditor] at hholds
        exact (Option.some.inj hholds).symm
      · intro _ _
        rw [expire_of_not_lapsed hnot]
        exact heditor
    | rearmed hvalue =>
      rw [List.append_nil]
      exact ⟨h.of_unselected (hlapsed SgAttribute.noConfusion rfl) rfl hsettings rfl rfl
        SgAttribute.noConfusion, trivial⟩

/-! ### Runs -/

theorem Kept.next (h : Kept log d) (hkeeps : d.KeepsEditor x) :
    Kept (log ++ d.events x) (d.next x) ∧ d.Guarded x := by
  cases x with
  | write assoc key value now =>
    cases key with
    | sg r =>
      rw [events_of_refused (d.next_sg assoc r value now).2, List.append_nil,
        (d.next_sg assoc r value now).1]
      exact ⟨h, trivial⟩
    | se r => exact h.writeEdit assoc r value now
    | block a => exact h.writeBlock hkeeps
  | writeWhole assoc value =>
    have hevents : d.events (.writeWhole assoc value) = [] := ite_self _
    rw [hevents, List.append_nil]
    exact ⟨h.writeWhole hkeeps, trivial⟩
  | elsewhere now =>
    rw [events_of_refused rfl, List.append_nil]
    exact ⟨h.elsewhere hkeeps, trivial⟩
  | closed assoc =>
    rw [events_of_refused rfl, List.append_nil]
    exact ⟨h.closed hkeeps, trivial⟩
  | timeout now =>
    rw [events_of_refused rfl, List.append_nil]
    exact ⟨h.timeout now, trivial⟩

theorem kept_start (t : TextForms) {ld : LogicalDevice} {sc : SettingControl} (s : Seeded ld sc) :
    Kept [] (start t s) where
  block := start_hasBlock t s
  held hne := absurd (start_editGroup t s) hne
  own hne := absurd (start_editGroup t s) hne
  applied := justified_nil _

/-- Along every run in which no reservation ends with its group still selected, a selected group has
exactly one holder, setting writes and confirmations are accepted from that holder only, and no
value that one association entered is confirmed by another. -/
theorem run_reserved (t : TextForms) {ld : LogicalDevice} {sc : SettingControl} (s : Seeded ld sc)
    {xs : List Action} (hxs : Meets step KeepsEditor (start t s) xs) :
    (∀ d ∈ states step (start t s) xs, d.Reserved) ∧ Meets step Guarded (start t s) xs ∧
      Justified AppliesOwn (journal step events (start t s) xs) := by
  have hmark : ∀ log (d : Device) x d', Kept log d → d.KeepsEditor x → d.step x = some d' →
      Kept (log ++ d.events x) d' := by
    intro log d x d' hkept hkeeps hstep
    cases hstep
    exact (hkept.next hkeeps).1
  refine ⟨?_, ?_, ?_⟩
  · intro d hd
    obtain ⟨log, hkept⟩ := journal_states hmark (kept_start t s) hxs d hd
    exact hkept.reserved
  · apply journal_meets hmark ?_ (kept_start t s) hxs
    intro log d x hkept hkeeps
    exact (hkept.next hkeeps).2
  · obtain ⟨d, hrun⟩ := @exists_run_of_total _ _ step (fun d x => ⟨d.next x, rfl⟩) (start t s) xs
    exact (journal_run hmark (kept_start t s) hxs hrun).applied

/-- An association selects a group, enters a threshold, confirms it, and selects no group before it
ends. -/
def editedAndReleased : List Action :=
  [.write 1 (.block .editSG) (.unsigned 1) early, .write 1 (.se threshold) (.integer 7) early,
    .write 1 (.block .cnfEdit) (.boolean true) early,
    .write 1 (.block .editSG) (.unsigned 0) early, .closed 1]

theorem run_reserved_released : Meets step Guarded protectionDevice editedAndReleased ∧
      Justified AppliesOwn (journal step events protectionDevice editedAndReleased) :=
  (run_reserved plainTexts (Seeded.plain protection ⟨2, 1, none⟩) (by decide +kernel)).2

/-- An association selects a group, enters a threshold and ends; another confirms what it entered. -/
theorem closed_leaves_edit :
    ¬ ∀ (t : TextForms) (ld : LogicalDevice) (sc : SettingControl) (s : Seeded ld sc)
      (xs : List Action), (∀ d ∈ states step (start t s) xs, d.Reserved) ∧
        Meets step Guarded (start t s) xs ∧
        Justified AppliesOwn (journal step events (start t s) xs) := by
  intro hall
  have hjournal := (hall plainTexts protection ⟨2, 1, none⟩ (Seeded.plain _ _)
    [.write 1 (.block .editSG) (.unsigned 1) early, .write 1 (.se threshold) (.integer 7) early,
      .closed 1, .write 2 (.block .cnfEdit) (.boolean true) early]).2.2
  have hlog : journal step events protectionDevice
      [.write 1 (.block .editSG) (.unsigned 1) early, .write 1 (.se threshold) (.integer 7) early,
        .closed 1, .write 2 (.block .cnfEdit) (.boolean true) early] =
      [.selected 1 [threshold], .entered 1 threshold, .confirmed 2 [threshold]] := by
    decide +kernel
  rw [protectionDevice] at hlog
  rw [hlog] at hjournal
  have happlied := hjournal [.selected 1 [threshold], .entered 1 threshold] _
    (List.prefix_refl _) 2 [threshold] rfl threshold List.mem_cons_self 1
    ⟨[.selected 1 [threshold]], _, [], rfl, rfl, fun _ hx => absurd hx List.not_mem_nil⟩
  exact absurd happlied (by decide)

end Device

end Iec61850.Server
