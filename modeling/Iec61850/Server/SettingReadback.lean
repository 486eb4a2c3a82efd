import Iec61850.Server.SettingValues

/-!
# What a setting reads as after it has been edited

The whole of an edit: a group is selected, settings are written under `SE`, the edit is confirmed,
and the group is put into force. Which settings then read, under `SG`, as what was written.
-/

namespace Iec61850.Server

open Theory

namespace Device

/-! ### An edit -/

/-- A write to an attribute of the block, but for which. -/
structure Request where
  assoc : AssocId
  value : Value
  now : Now
  deriving Repr

def Request.action (q : Request) (a : SgAttribute) : Action :=
  .write q.assoc (.block a) q.value q.now

/-- A write to a setting under `SE`. -/
structure Entry extends Request where
  setting : SettingRef
  deriving Repr

def Entry.action (e : Entry) : Action := .write e.assoc (.se e.setting) e.value e.now

/-- `EditSG := g`, writes to settings, `CnfEdit`, `ActSG := g`. -/
structure Edit where
  select : Request
  entries : List Entry
  confirm : Request
  activate : Request
  deriving Repr

/-- The device after some setting writes. -/
def enter : Device → List Entry → Device
  | d, [] => d
  | d, e :: es => (d.next e.action).enter es

/-- The last value that is written to a setting, of the writes that are accepted. -/
def lastEntered : Device → List Entry → SettingRef → Option Value
  | _, [], _ => none
  | d, e :: es, r =>
    ((d.next e.action).lastEntered es r).or
      (if e.setting = r ∧ d.accepted e.action = true then some e.value else none)

/-- The value of a setting in a group. One that the engine keeps no group values of has its one value
in all of them. -/
def groupValue (d : Device) (group : Nat) (r : SettingRef) : Option Value :=
  (d.groups.stored group r).or (d.ied.values (.sg r))

namespace Edit

variable (e : Edit) (d : Device)

def selected : Device := d.next (e.select.action .editSG)

def entered : Device := (e.selected d).enter e.entries

def confirmed : Device := (e.entered d).next (e.confirm.action .cnfEdit)

def activated : Device := (e.confirmed d).next (e.activate.action .actSG)

/-- The edit is of the group, and the writes to the block are accepted. -/
structure Accepted (group : Nat) : Prop where
  selects : unsignedOf e.select.value = some group
  selected : d.accepted (e.select.action .editSG) = true
  confirms : boolOf e.confirm.value = some true
  confirmed : (e.entered d).accepted (e.confirm.action .cnfEdit) = true
  activates : unsignedOf e.activate.value = some group
  activated : (e.confirmed d).accepted (e.activate.action .actSG) = true

/-- The last value written to a setting in the course of the edit. -/
def lastWritten (r : SettingRef) : Option Value := (e.selected d).lastEntered e.entries r

/-- The setting reads as the last value written to it, or as its value in the group before. -/
def ReadsBack (group : Nat) (r : SettingRef) : Prop :=
  (e.activated d).ied.values (.sg r) = (e.lastWritten d r).or (d.groupValue group r)

end Edit

/-! ### A selection -/

variable {ld : LogicalDevice} {d : Device}

theorem lookup_getD_empty (g : Groups) (group : Nat) (r : SettingRef) :
    ((g.values group).getD ∅).lookup r = g.stored group r := by
  unfold Groups.stored
  cases g.values group with
  | none => rfl
  | some values => rfl

/-- A selection fills the editing copy in with the values of the group. -/
theorem selected_next (hblock : HasBlock d.ied) {q : Request} {group : Nat}
    (haccepted : d.accepted (q.action .editSG) = true) (hvalue : unsignedOf q.value = some group)
    (hgroup : group ≠ 0) : (d.next (q.action .editSG)).editGroup = group ∧
      ∀ r, (d.next (q.action .editSG)).ied.values (.se r) =
        ((d.groups.stored group r).filter (d.ied.takes (.se r))).or (d.ied.values (.se r)) := by
  rw [Request.action, accepted_block] at haccepted
  rw [Request.action, next_block]
  rcases d.writeBlock_cases q.assoc .editSG q.value q.now hblock with
    ⟨e, g, heq, -⟩ | ⟨g', ied', heq, hserves⟩
  · rw [heq] at haccepted
    cases haccepted
  · rw [heq]
    cases hserves with
    | released hvalue' =>
      rw [hvalue] at hvalue'
      cases hvalue'
      exact absurd rfl hgroup
    | selected hvalue' =>
      rw [hvalue] at hvalue'
      cases hvalue'
      constructor
      · have htakes : (fill (((d.groups.expire q.now.mono).values group).getD ∅) d.ied).takes
            (.block .editSG) q.value = true := by
          rw [fill_takes, hblock.takes]
          exact isNumber_of_unsignedOf (by rw [hvalue, Option.isSome_some])
        rw [editGroup, settle_number_self SgAttribute.noConfusion htakes, hvalue,
          Option.getD_some]
      · intro r
        dsimp only
        rw [(sameSettings_settle _ _ _).se, fill_se, lookup_getD_empty, expire_stored]

/-! ### Setting writes -/

/-- A setting write changes the setting under `SE`, when it is accepted, and nothing else. -/
theorem entered_next (d : Device) (e : Entry) :
    (d.next e.action).groups = d.groups ∧ (d.next e.action).editGroup = d.editGroup ∧
      (∀ r, (d.next e.action).ied.values (.sg r) = d.ied.values (.sg r)) ∧
      ∀ r, (d.next e.action).ied.values (.se r) =
        (if e.setting = r ∧ d.accepted e.action = true then some e.value else none).or
          (d.ied.values (.se r)) := by
  rw [Entry.action, next_se, accepted_se]
  rcases d.writeEdit_cases e.assoc e.value e.setting with
    ⟨hsame, hrefused⟩ | ⟨heq, -, -, htakes⟩
  · rw [hsame]
    refine ⟨rfl, rfl, fun _ => rfl, ?_⟩
    intro r
    rw [if_neg (fun h => by rw [hrefused] at h; cases h.2), Option.none_or]
  · rw [heq]
    refine ⟨rfl, ?_, fun _ => LeafStore.writeLeaf_values_ne _ _ _ Key.noConfusion, ?_⟩
    · rw [editGroup, editGroup, LeafStore.number, LeafStore.number,
        LeafStore.writeLeaf_values_ne _ _ _ Key.noConfusion]
    · intro r
      dsimp only
      by_cases hr : e.setting = r
      · subst hr
        rw [LeafStore.writeLeaf_values_self, if_pos htakes, if_pos ⟨rfl, rfl⟩, Option.some_or]
      · rw [LeafStore.writeLeaf_values_ne _ _ _ (fun h => hr (Key.se.inj h).symm),
          if_neg (fun h => hr h.1), Option.none_or]

/-- Setting writes change the settings under `SE` only, each to what is entered last. -/
theorem enter_values (d : Device) (es : List Entry) :
    (d.enter es).groups = d.groups ∧ (d.enter es).editGroup = d.editGroup ∧
      (∀ r, (d.enter es).ied.values (.sg r) = d.ied.values (.sg r)) ∧
      ∀ r, (d.enter es).ied.values (.se r) = (d.lastEntered es r).or (d.ied.values (.se r)) := by
  induction es generalizing d with
  | nil => exact ⟨rfl, rfl, fun _ => rfl, fun _ => rfl⟩
  | cons e es ih =>
    obtain ⟨hgroups, hedit, hsg, hse⟩ := ih (d.next e.action)
    obtain ⟨hgroups', hedit', hsg', hse'⟩ := entered_next d e
    refine ⟨hgroups.trans hgroups', hedit.trans hedit', fun r => (hsg r).trans (hsg' r), ?_⟩
    intro r
    rw [enter, hse r, hse' r, lastEntered, Option.or_assoc]

theorem sound_enter (h : Sound ld d) (es : List Entry) : Sound ld (d.enter es) := by
  induction es generalizing d with
  | nil => exact h
  | cons e es ih => exact ih (h.next e.action)

/-! ### A confirmation -/

/-- A confirmation stores the editing copy in the selected group. A setting the group has no value of
stays as it is in force. -/
theorem confirmed_next (hblock : HasBlock d.ied) {q : Request}
    (haccepted : d.accepted (q.action .cnfEdit) = true) (hvalue : boolOf q.value = some true)
    (r : SettingRef) : (d.next (q.action .cnfEdit)).groups.stored d.editGroup r =
        (if (d.groups.stored d.editGroup r).isSome then
          (d.ied.values (.se r)).or (d.groups.stored d.editGroup r) else none) ∧
      (d.groups.stored d.editGroup r = none →
        (d.next (q.action .cnfEdit)).ied.values (.sg r) = d.ied.values (.sg r)) := by
  rw [Request.action, accepted_block] at haccepted
  rw [Request.action, next_block]
  rcases d.writeBlock_cases q.assoc .cnfEdit q.value q.now hblock with
    ⟨e, g, heq, -⟩ | ⟨g', ied', heq, hserves⟩
  · rw [heq] at haccepted
    cases haccepted
  · rw [heq]
    cases hserves with
    | idle hidle =>
      rw [hvalue] at hidle
      cases hidle
    | confirmed _ _ hnumber =>
      have hedit : d.editGroup = _ := hnumber
      rw [hedit]
      constructor
      · dsimp only
        rw [stored_confirm, expire_stored]
        cases d.groups.stored _ r with
        | none => rw [if_neg (fun h => by cases h.2), if_neg (fun h => by cases h)]
        | some v => rw [if_pos ⟨rfl, rfl⟩, if_pos Option.isSome_some]
      · intro hnone
        dsimp only
        rw [(sameSettings_settle _ _ _).sg]
        split
        · rw [Groups.applyGroup_sg, stored_confirm, expire_stored,
            if_neg (fun h => by rw [hnone] at h; cases h.2), hnone]
          rfl
        · rfl

/-! ### The whole edit -/

namespace Edit

variable {e : Edit} {group : Nat}

theorem sound_selected (h : Sound ld d) (e : Edit) : Sound ld (e.selected d) := h.next _

theorem sound_entered (h : Sound ld d) (e : Edit) : Sound ld (e.entered d) :=
  sound_enter (sound_selected h e) e.entries

theorem sound_confirmed (h : Sound ld d) (e : Edit) : Sound ld (e.confirmed d) :=
  (sound_entered h e).next _

theorem entered_keeps (h : Sound ld d) (e : Edit) : (e.entered d).groups.stored = d.groups.stored ∧
      ∀ r, (e.entered d).ied.values (.sg r) = d.ied.values (.sg r) := by
  obtain ⟨hgroups, -, hsg, -⟩ := enter_values (e.selected d) e.entries
  constructor
  · rw [entered, hgroups]
    funext group
    exact stored_writeBlock h.hasBlock _ _ _ SgAttribute.noConfusion
  · intro r
    rw [entered, hsg r]
    exact keepsInForce_writeBlock h.hasBlock _ _ _ SgAttribute.noConfusion
      SgAttribute.noConfusion r

variable {r : SettingRef} {btype : BType}

/-- What the confirmation finds: a setting is under edit with what was written to it, or else with
what the group had of it. -/
theorem entered_edit (h : Sound ld d) (he : e.Accepted d group) (hgroup : group ≠ 0)
    (hleaf : treeOf ld (.sg r) = some (.leaf btype)) {v : Value}
    (hstored : d.groups.stored group r = some v) :
    (e.entered d).ied.values (.se r) = (e.lastWritten d r).or (some v) := by
  obtain ⟨-, hse⟩ := selected_next h.hasBlock he.selected he.selects hgroup
  obtain ⟨-, -, -, hse'⟩ := enter_values (e.selected d) e.entries
  have htakes : d.ied.takes (.se r) v = true := by
    rw [LeafStore.takes, h.tree, treeOf_se, hleaf]
    exact h.accepted group r btype v hleaf hstored
  have hfilled : (e.selected d).ied.values (.se r) = some v := by
    rw [selected, hse r, hstored, Option.filter_some, if_pos htakes, Option.some_or]
  rw [entered, hse' r, hfilled]
  rfl

theorem entered_editGroup (h : Sound ld d) (he : e.Accepted d group) (hgroup : group ≠ 0) :
    (e.entered d).editGroup = group := by
  obtain ⟨hedit, -⟩ := selected_next h.hasBlock he.selected he.selects hgroup
  obtain ⟨-, hedit', -, -⟩ := enter_values (e.selected d) e.entries
  exact hedit'.trans hedit

theorem activated_values (h : Sound ld d) (he : e.Accepted d group)
    (hleaf : treeOf ld (.sg r) = some (.leaf btype)) :
    (1 ≤ group ∧ group ≤ (e.confirmed d).groups.count) ∧ (e.activated d).ied.values (.sg r) =
        ((e.confirmed d).groups.stored group r).or ((e.confirmed d).ied.values (.sg r)) :=
  activated_sg (sound_confirmed h e) he.activated he.activates hleaf

theorem confirmed_values (h : Sound ld d) (he : e.Accepted d group) (hgroup : group ≠ 0)
    (r : SettingRef) : (e.confirmed d).groups.stored group r =
        (if (d.groups.stored group r).isSome then
          ((e.entered d).ied.values (.se r)).or (d.groups.stored group r) else none) ∧
      (d.groups.stored group r = none →
        (e.confirmed d).ied.values (.sg r) = d.ied.values (.sg r)) := by
  have hconfirmed := confirmed_next (sound_entered h e).hasBlock he.confirmed he.confirms r
  rw [entered_editGroup h he hgroup, (entered_keeps h e).1, (entered_keeps h e).2 r] at hconfirmed
  exact hconfirmed

theorem readsBack_of_declared (h : Sound ld d) (he : e.Accepted d group)
    (hleaf : treeOf ld (.sg r) = some (.leaf btype)) (hr : DeclaredSg ld r) :
    e.ReadsBack d group r := by
  obtain ⟨hgroup, hsg⟩ := activated_values h he hleaf
  have hne : group ≠ 0 := by omega
  obtain ⟨hconfirmed, -⟩ := confirmed_values h he hne r
  have hsome := ((sound_confirmed h e).stored group r btype hleaf).mpr ⟨hgroup, hr⟩
  unfold ReadsBack groupValue
  cases hstored : d.groups.stored group r with
  | none =>
    rw [hconfirmed, hstored, if_neg (fun h => by cases h)] at hsome
    cases hsome
  | some v =>
    rw [hstored, if_pos Option.isSome_some, entered_edit h he hne hleaf hstored] at hconfirmed
    rw [hsg, hconfirmed]
    cases e.lastWritten d r with
    | none => rfl
    | some w => rfl

/-- A setting that is not keeps the value it has in force. -/
theorem activated_of_undeclared (h : Sound ld d) (he : e.Accepted d group)
    (hleaf : treeOf ld (.sg r) = some (.leaf btype)) (hr : ¬ DeclaredSg ld r) :
    (e.activated d).ied.values (.sg r) = d.ied.values (.sg r) ∧ d.groups.stored group r = none := by
  have hnone : ∀ {d' : Device}, Sound ld d' → d'.groups.stored group r = none := by
    intro d' hsound
    rw [← Option.isNone_iff_eq_none, ← Option.isSome_eq_false_iff, ← Bool.not_eq_true,
      hsound.stored group r btype hleaf]
    exact fun hin => hr hin.2
  obtain ⟨hgroup, hsg⟩ := activated_values h he hleaf
  obtain ⟨-, hkeeps⟩ := confirmed_values h he (by omega) r
  rw [hnone (sound_confirmed h e), Option.none_or] at hsg
  exact ⟨hsg.trans (hkeeps (hnone h)), hnone h⟩

theorem readsBack_iff_of_sound (h : Sound ld d) (he : e.Accepted d group)
    (hleaf : treeOf ld (.sg r) = some (.leaf btype)) :
    e.ReadsBack d group r ↔ DeclaredSg ld r ∨ e.lastWritten d r = none ∨
      e.lastWritten d r = d.ied.values (.sg r) := by
  by_cases hr : DeclaredSg ld r
  · exact iff_of_true (readsBack_of_declared h he hleaf hr) (Or.inl hr)
  · obtain ⟨hkeeps, hstored⟩ := activated_of_undeclared h he hleaf hr
    unfold ReadsBack groupValue
    rw [hkeeps, hstored, Option.none_or, or_iff_right hr]
    cases e.lastWritten d r with
    | none => exact iff_of_true rfl (Or.inl rfl)
    | some w =>
      rw [Option.some_or]
      constructor
      · exact fun heq => Or.inr heq.symm
      · rintro (hnone | heq)
        · cases hnone
        · exact heq.symm

/-- From any state a device gets into, after an edit of a group that is accepted and put into force,
a published setting reads as the last value written to it, or as its value in the group before, if
and only if it is declared under `SG`, or nothing was written to it but what is in force already. -/
theorem readsBack_iff (t : TextForms) {ld : LogicalDevice} {sc : SettingControl}
    (s : Seeded ld sc) {xs : List Action} {d : Device} (hd : d ∈ states step (start t s) xs)
    {e : Edit} {group : Nat} (he : e.Accepted d group) {r : SettingRef} {btype : BType}
    (hleaf : treeOf ld (.sg r) = some (.leaf btype)) :
    e.ReadsBack d group r ↔ DeclaredSg ld r ∨ e.lastWritten d r = none ∨
      e.lastWritten d r = d.ied.values (.sg r) := by
  have hsound : Sound ld d := by
    refine invariant_states (I := Sound ld) (C := fun _ _ => True) ?_ (sound_start t s)
      (meets_of_forall (fun _ _ => trivial) _ _) d hd
    intro d x d' hsound _ hstep
    cases hstep
    exact hsound.next x
  exact readsBack_iff_of_sound hsound he hleaf

/-- An edit of the threshold and of the delay, in the second group. -/
def bothSettings : Edit where
  select := ⟨1, .unsigned 2, early⟩
  entries := [⟨⟨1, .integer 7, early⟩, threshold⟩, ⟨⟨1, .integer 9, early⟩, delay⟩]
  confirm := ⟨1, .boolean true, early⟩
  activate := ⟨1, .unsigned 2, early⟩

theorem bothSettings_accepted : bothSettings.Accepted protectionDevice 2 where
  selects := rfl
  selected := by decide +kernel
  confirms := rfl
  confirmed := by decide +kernel
  activates := rfl
  activated := by decide +kernel

theorem readsBack_iff_threshold :
    bothSettings.ReadsBack protectionDevice 2 threshold ↔ DeclaredSg protection threshold ∨
      bothSettings.lastWritten protectionDevice threshold = none ∨
      bothSettings.lastWritten protectionDevice threshold =
        protectionDevice.ied.values (.sg threshold) :=
  @readsBack_iff plainTexts _ _ (Seeded.plain protection ⟨2, 1, none⟩) [] _
    (List.mem_singleton_self _) _ _ bothSettings_accepted _ .int32 (by decide +kernel)

/-- The delay, which is declared under `SE`, is written, confirmed and activated, and reads as
before. -/
theorem delay_lost :
    ¬ ∀ (t : TextForms) (ld : LogicalDevice) (sc : SettingControl) (s : Seeded ld sc)
      (xs : List Action) (d : Device), d ∈ states step (start t s) xs → ∀ (e : Edit) (group : Nat),
      e.Accepted d group → ∀ (r : SettingRef) (btype : BType),
      treeOf ld (.sg r) = some (.leaf btype) → e.ReadsBack d group r := by
  intro hall
  have hreads := hall plainTexts protection ⟨2, 1, none⟩ (Seeded.plain _ _) [] protectionDevice
    (List.mem_singleton_self _) bothSettings 2 bothSettings_accepted delay .int32
    (by decide +kernel)
  have hvalue := congrArg (fun v => v.bind integerOf) hreads
  revert hvalue
  decide +kernel

end Edit

end Device

end Iec61850.Server
