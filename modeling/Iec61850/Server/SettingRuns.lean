import Iec61850.Server.SettingGroups
import Iec61850.Theory.Runs

/-!
# Runs of the setting groups

A logical device with its engine: what the server does with the writes that reach its settings and
its control block, with the end of an association and with the passing of time, and what each of
these leaves of the reservation and of the values.
-/

namespace Iec61850.Server

open Theory

/-! ### Values at load -/

def defaultValue : BType → Value
  | .boolean => .boolean false
  | .int8 | .int16 | .int24 | .int32 | .int64 | .enum => .integer 0
  | .int8U | .int16U | .int24U | .int32U => .unsigned 0
  | .float32 => .float32 0
  | .float64 => .float64 0
  | .quality => .bitString 3 [0, 0]
  | .dbpos | .tcmd | .check => .bitString 6 [0]
  | .trgOps => packedToValue (0 : TrgOps)
  | .optFlds => packedToValue (0 : OptFlds)
  | .svOptFlds | .logOptFlds => .bitString 0 [0]
  | .timestamp => .utcTime ⟨0, 0, .unsynchronized⟩
  | .entryTime => .binaryTime (EntryTime.toOctets ⟨0, 0⟩)
  | .octet64 | .entryID | .phyComAddr => .octetString []
  | .octet6 => .octetString (List.replicate 6 0)
  | .octet16 => .octetString (List.replicate 16 0)
  | .unicode255 => .mmsString []
  | .struct | .other _ => .structure []
  | .visString32 | .visString64 | .visString65 | .visString129 | .visString255 | .objRef
  | .currency => .visibleString []

theorem accepts_defaultValue (btype : BType) : accepts btype (defaultValue btype) = true := by
  cases btype <;> rfl

structure SettingControl where
  numOfSGs : Nat
  actSG : Nat
  resvTms : Option Nat
  deriving DecidableEq, Repr

def sgcbDefaults (sc : SettingControl) : SgAttribute → Value
  | .numOfSG => .unsigned sc.numOfSGs
  | .actSG => .unsigned sc.actSG
  | .editSG => .unsigned 0
  | .cnfEdit => .boolean false
  | .lActTm => .binaryTime (EntryTime.toOctets ⟨0, 0⟩)
  | .resvTms => .unsigned (sc.resvTms.getD 0)

theorem accepts_sgcbDefaults (sc : SettingControl) (a : SgAttribute) :
    accepts a.btype (sgcbDefaults sc a) = true := by
  cases a <;> rfl

/-- The values of a logical device as `seed_values` and `seed_blocks` leave them: what the file
engineers, and every leaf has a value of its type. -/
structure Seeded (ld : LogicalDevice) (sc : SettingControl) where
  values : Key → Option Value
  typed : ∀ k btype, treeOf ld k = some (.leaf btype) →
    ∃ v, values k = some v ∧ accepts btype v = true
  block : ∀ a, values (.block a) = some (sgcbDefaults sc a)

namespace Seeded

variable {ld : LogicalDevice} {sc : SettingControl}

/-- A device whose file engineers no values. -/
def plain (ld : LogicalDevice) (sc : SettingControl) : Seeded ld sc where
  values k :=
    match k with
    | .block a => some (sgcbDefaults sc a)
    | k =>
      match treeOf ld k with
      | some (.leaf btype) => some (defaultValue btype)
      | _ => none
  typed := by
    intro k btype hk
    cases k with
    | block a =>
      cases hk
      exact ⟨_, rfl, accepts_sgcbDefaults sc a⟩
    | sg r => exact ⟨_, by simp only [hk], accepts_defaultValue btype⟩
    | se r => exact ⟨_, by simp only [hk], accepts_defaultValue btype⟩
  block _ := rfl

/-- The IED at load. -/
def ied (s : Seeded ld sc) : LeafStore Key where
  node := treeOf ld
  values := s.values
  dirty _ := none

theorem ied_typed (s : Seeded ld sc) : s.ied.Typed := s.typed

end Seeded

/-- The stored value of a setting in a group. -/
def Groups.stored (g : Groups) (group : Nat) (r : SettingRef) : Option Value :=
  (g.values group).bind fun values => values.lookup r

/-! ### A device -/

/-- A logical device and its part of the engine. -/
structure Device where
  groups : Groups
  ied : LeafStore Key

namespace Device

/-- `Acsi::new`: the engineered active group is in force from the start. -/
def start (t : TextForms) {ld : LogicalDevice} {sc : SettingControl} (s : Seeded ld sc) : Device :=
  let g := Groups.new t ld s.ied
  ⟨g, { g.activateInitial s.ied with dirty := fun _ => none }⟩

variable (d : Device)

/-- The group a client reads to be selected for editing; 0 is none. -/
def editGroup : Nat := (d.ied.number .editSG).getD 0

/-- The group that the engine takes to be in force. -/
def activeGroup : Nat := (d.ied.number .actSG).getD 1

/-- `write_reference`, of an attribute of the block. -/
def writeBlock (assoc : AssocId) (a : SgAttribute) (value : Value) (now : Now) :
    Device × Except Int Unit :=
  if a.writable then
    match d.groups.onBlockWrite assoc d.ied a value now with
    | (g, ied, .error e) => (⟨g, ied⟩, .error e)
    | (g, ied, .ok ()) =>
      match ied.writeLeaf (.block a) value with
      | (ied, .ok ()) => (⟨g, Groups.afterBlockWrite ied a⟩, .ok ())
      | (ied, .error e) => (⟨g, ied⟩, .error e)
  else (d, .error dataAccessDenied)

/-- `write_reference`, of a setting under `SE`. -/
def writeEdit (assoc : AssocId) (r : SettingRef) (value : Value) : Device × Except Int Unit :=
  match d.ied.node (.se r) with
  | none => (d, .error dataAccessNonExistent)
  | some _ =>
    match d.groups.onEditWrite assoc d.ied with
    | .error e => (d, .error e)
    | .ok () => (⟨d.groups, (d.ied.writeLeaf (.se r) value).1⟩, (d.ied.writeLeaf (.se r) value).2)

/-- `write_reference`; `on_active_write` refuses every setting under `SG`. -/
def writeReference (assoc : AssocId) (key : Key) (value : Value) (now : Now) :
    Device × Except Int Unit :=
  match key with
  | .block a => d.writeBlock assoc a value now
  | .se r => d.writeEdit assoc r value
  | .sg r =>
    match d.ied.node (.sg r) with
    | none => (d, .error dataAccessNonExistent)
    | some _ => (d, .error dataAccessDenied)

end Device

/-- The loop of `write_value` over the components of the block. -/
def writeComponents : LeafStore Key → List (SgAttribute × Value) →
    LeafStore Key × Except Int Unit
  | ied, [] => (ied, .ok ())
  | ied, (a, v) :: rest =>
    match ied.writeLeaf (.block a) v with
    | (ied, .ok ()) => writeComponents ied rest
    | (ied, .error e) => (ied, .error e)

namespace Device

variable (d : Device)

/-- `write_value`, of the control block as a whole: the engine does not see it. -/
def writeWhole (value : Value) : Device × Except Int Unit :=
  match value with
  | .structure members =>
    if members.length = SgAttribute.components.length then
      let (ied, answer) := writeComponents d.ied (SgAttribute.components.zip members)
      (⟨d.groups, ied⟩, answer)
    else (d, .error dataAccessTypeInconsistent)
  | _ => (d, .error dataAccessTypeInconsistent)

/-! ### Actions -/

/-- What reaches the settings of a logical device. `elsewhere` is a write to the control block of
another logical device, at which the engine looks at the reservations of them all. -/
inductive Action where
  | write (assoc : AssocId) (key : Key) (value : Value) (now : Now)
  | writeWhole (assoc : AssocId) (value : Value)
  | elsewhere (now : Instant)
  | closed (assoc : AssocId)
  | timeout (now : Instant)
  deriving Repr

def next : Action → Device
  | .write assoc key value now => (d.writeReference assoc key value now).1
  | .writeWhole _ value => (d.writeWhole value).1
  | .elsewhere now => ⟨d.groups.expire now, d.ied⟩
  | .closed assoc => ⟨d.groups.onAssociationClosed assoc, d.ied⟩
  | .timeout now => ⟨(d.groups.onTimeout d.ied now).1, (d.groups.onTimeout d.ied now).2⟩

def step (x : Action) : Option Device := some (d.next x)

/-- The action is a write, and it is answered positively. -/
def accepted : Action → Bool
  | .write assoc key value now => (d.writeReference assoc key value now).2.isOk
  | .writeWhole _ value => (d.writeWhole value).2.isOk
  | .elsewhere _ | .closed _ | .timeout _ => false

end Device

/-! ### Reading an action back -/

namespace Device

variable (d : Device)

variable (assoc : AssocId)

theorem next_block (a : SgAttribute) (value : Value) (now : Now) :
    d.next (.write assoc (.block a) value now) = (d.writeBlock assoc a value now).1 := rfl

theorem accepted_block (a : SgAttribute) (value : Value) (now : Now) :
    d.accepted (.write assoc (.block a) value now) = (d.writeBlock assoc a value now).2.isOk := rfl

theorem next_se (r : SettingRef) (value : Value) (now : Now) :
    d.next (.write assoc (.se r) value now) = (d.writeEdit assoc r value).1 := rfl

theorem accepted_se (r : SettingRef) (value : Value) (now : Now) :
    d.accepted (.write assoc (.se r) value now) = (d.writeEdit assoc r value).2.isOk := rfl

theorem next_sg (r : SettingRef) (value : Value) (now : Now) :
    d.next (.write assoc (.sg r) value now) = d ∧
      d.accepted (.write assoc (.sg r) value now) = false := by
  unfold next accepted writeReference
  dsimp only
  split
  · exact ⟨rfl, rfl⟩
  · exact ⟨rfl, rfl⟩

end Device

/-! ### Writes and what they leave alone -/

theorem pointwise_writeLeaf : Pointwise
    (fun (s : LeafStore Key) p v => (s.writeLeaf p v).1) (fun s p => s.values p)
    (fun s p v => s.takes p v) where
  keeps s p v := by
    funext p' v'
    exact s.writeLeaf_takes p v p' v'
  self s p v := s.writeLeaf_values_self p v
  other s p v _ hq := s.writeLeaf_values_ne p v hq

theorem pointwise_setInternal : Pointwise
    (fun (s : LeafStore Key) p v => (s.setInternal p v).1) (fun s p => s.values p)
    (fun s p v => s.takes p v) where
  keeps s p v := by
    funext p' v'
    exact s.setInternal_takes p v p' v'
  self s p v := s.setInternal_values_self p v
  other s p v _ hq := s.setInternal_values_ne p v hq

/-- The settings are what they were, under both constraints. -/
structure SameSettings (ied ied' : LeafStore Key) : Prop where
  sg : ∀ r, ied'.values (.sg r) = ied.values (.sg r)
  se : ∀ r, ied'.values (.se r) = ied.values (.se r)

variable (ied : LeafStore Key)

theorem SameSettings.refl : SameSettings ied ied :=
  ⟨fun _ => rfl, fun _ => rfl⟩

theorem SameSettings.trans {a b c : LeafStore Key} (h : SameSettings a b) (h' : SameSettings b c) :
    SameSettings a c :=
  ⟨fun r => (h'.sg r).trans (h.sg r), fun r => (h'.se r).trans (h.se r)⟩

theorem sameSettings_writeLeaf (a : SgAttribute) (v : Value) :
    SameSettings ied (ied.writeLeaf (.block a) v).1 where
  sg _ := ied.writeLeaf_values_ne _ v Key.noConfusion
  se _ := ied.writeLeaf_values_ne _ v Key.noConfusion

theorem sameSettings_setInternal (a : SgAttribute) (v : Value) :
    SameSettings ied (ied.setInternal (.block a) v).1 where
  sg _ := ied.setInternal_values_ne _ v Key.noConfusion
  se _ := ied.setInternal_values_ne _ v Key.noConfusion

theorem sameSettings_writeComponents (ms : List (SgAttribute × Value)) :
    SameSettings ied (writeComponents ied ms).1 := by
  induction ms generalizing ied with
  | nil => exact .refl ied
  | cons m ms ih =>
    obtain ⟨a, v⟩ := m
    have hfirst := sameSettings_writeLeaf ied a v
    rw [writeComponents]
    split
    · rename_i ied' hwrite
      rw [hwrite] at hfirst
      exact hfirst.trans (ih ied')
    · rename_i ied' e hwrite
      rw [hwrite] at hfirst
      exact hfirst

theorem writeComponents_node (ms : List (SgAttribute × Value)) :
    (writeComponents ied ms).1.node = ied.node := by
  induction ms generalizing ied with
  | nil => rfl
  | cons m ms ih =>
    obtain ⟨a, v⟩ := m
    have hfirst := ied.writeLeaf_node (.block a) v
    rw [writeComponents]
    split
    · rename_i ied' hwrite
      rw [hwrite] at hfirst
      rw [ih ied', hfirst]
    · rename_i ied' e hwrite
      rw [hwrite] at hfirst
      exact hfirst

variable {ied : LeafStore Key} {a b : SgAttribute} {v : Value}

theorem number_writeLeaf_ne (h : a ≠ b) :
    (ied.writeLeaf (.block b) v).1.number a = ied.number a := by
  rw [LeafStore.number, LeafStore.number, ied.writeLeaf_values_ne _ v (fun heq => h (Key.block.inj heq))]

theorem number_setInternal_ne (h : a ≠ b) :
    (ied.setInternal (.block b) v).1.number a = ied.number a := by
  rw [LeafStore.number, LeafStore.number,
    ied.setInternal_values_ne _ v (fun heq => h (Key.block.inj heq))]

/-- A structured write leaves an attribute as it is, or with the value it has for it. -/
theorem writeComponents_number (ied : LeafStore Key) (ms : List (SgAttribute × Value))
    (a : SgAttribute) : (writeComponents ied ms).1.number a = ied.number a ∨
      ∃ v, (a, v) ∈ ms ∧ (writeComponents ied ms).1.number a = unsignedOf v := by
  induction ms generalizing ied with
  | nil => exact Or.inl rfl
  | cons m ms ih =>
    obtain ⟨b, v⟩ := m
    have hfirst : (ied.writeLeaf (.block b) v).1.number a = ied.number a ∨
        b = a ∧ (ied.writeLeaf (.block b) v).1.number a = unsignedOf v := by
      by_cases hab : a = b
      · subst hab
        rw [LeafStore.number, LeafStore.writeLeaf_values_self]
        split
        · exact Or.inr ⟨rfl, rfl⟩
        · exact Or.inl rfl
      · exact Or.inl (number_writeLeaf_ne hab)
    rw [writeComponents]
    have hlast : (ied.writeLeaf (.block b) v).1.number a = ied.number a ∨
        ∃ w, (a, w) ∈ (b, v) :: ms ∧ (ied.writeLeaf (.block b) v).1.number a = unsignedOf w := by
      rcases hfirst with hsame | ⟨rfl, hnew⟩
      · exact Or.inl hsame
      · exact Or.inr ⟨v, List.mem_cons_self, hnew⟩
    split
    · rename_i ied' hwrite
      rw [hwrite] at hlast
      rcases ih ied' with hrest | ⟨w, hw, hrest⟩
      · rw [hrest]
        exact hlast
      · exact Or.inr ⟨w, List.mem_cons_of_mem _ hw, hrest⟩
    · rename_i ied' e hwrite
      rw [hwrite] at hlast
      exact hlast

/-! ### A group put into force, and a group filled in for editing -/

namespace Groups

variable (g : Groups) (ied : LeafStore Key) (group : Nat)

theorem applyGroup_node : (g.applyGroup ied group).node = ied.node := by
  unfold applyGroup
  split
  · rfl
  · dsimp only
    rw [LeafStore.writeLeaf_node]
    exact writeOut_keeps (fun s p v => s.writeLeaf_node p v) ied

theorem applyGroup_sg (r : SettingRef) : (g.applyGroup ied group).values (.sg r) =
    ((g.stored group r).filter (ied.takes (.sg r))).or (ied.values (.sg r)) := by
  unfold applyGroup stored
  split
  · rename_i hnone
    rw [hnone]
    rfl
  · rename_i values hvalues
    dsimp only
    rw [LeafStore.writeLeaf_values_ne _ _ _ Key.noConfusion, hvalues,
      read_writeOut pointwise_writeLeaf sg_injective values r ied]
    rfl

theorem applyGroup_other {k : Key} (hsg : ∀ r, k ≠ .sg r) (hact : k ≠ .block .actSG) :
    (g.applyGroup ied group).values k = ied.values k := by
  unfold applyGroup
  split
  · rfl
  · dsimp only
    rw [LeafStore.writeLeaf_values_ne _ _ _ hact,
      read_writeOut_other pointwise_writeLeaf (fun r _ => hsg r)]

theorem applyGroup_number {a : SgAttribute} (ha : a ≠ .actSG) :
    (g.applyGroup ied group).number a = ied.number a := by
  rw [LeafStore.number, LeafStore.number, g.applyGroup_other ied group (fun _ => Key.noConfusion)
    (fun heq => ha (Key.block.inj heq))]

end Groups

/-- The editing copy, filled in with the values of a group. -/
def fill (values : Settings) (ied : LeafStore Key) : LeafStore Key :=
  writeOut (fun s p v => (s.setInternal p v).1) Key.se values ied

variable (values : Settings)

theorem fill_takes (ied : LeafStore Key) :
    (fill values ied).takes = ied.takes :=
  takes_writeOut pointwise_setInternal ied

theorem fill_node (ied : LeafStore Key) : (fill values ied).node = ied.node :=
  writeOut_keeps (fun s p v => s.setInternal_node p v) ied

theorem fill_se (ied : LeafStore Key) (r : SettingRef) :
    (fill values ied).values (.se r) =
      ((values.lookup r).filter (ied.takes (.se r))).or (ied.values (.se r)) :=
  read_writeOut pointwise_setInternal se_injective values r ied

theorem fill_other {values : Settings} {ied : LeafStore Key} {k : Key} (hk : ∀ r, k ≠ .se r) :
    (fill values ied).values k = ied.values k :=
  read_writeOut_other pointwise_setInternal (fun r _ => hk r) ied

/-! ### What the engine does with a write it agrees to -/

/-- A group after a confirmation. -/
def Groups.confirm (g : Groups) (ied : LeafStore Key) (group : Nat) : Groups :=
  { g with values := Function.update g.values group ((g.values group).map (Groups.confirmed ied)) }

/-- A confirmation stores what the editing copy holds of the settings the group has values of, and
touches no other group. -/
theorem stored_confirm (g : Groups) (ied : LeafStore Key) (group group' : Nat) (r : SettingRef) :
    (g.confirm ied group).stored group' r = if group' = group ∧ (g.stored group r).isSome then
        (ied.values (.se r)).or (g.stored group r) else g.stored group' r := by
  unfold Groups.stored Groups.confirm
  dsimp only
  by_cases hgroup : group' = group
  · subst hgroup
    rw [Function.update_self]
    cases g.values group' with
    | none => simp
    | some values =>
      rw [Option.map_some, Option.bind_some, Option.bind_some, Groups.confirmed,
        lookup_overlay_mapOf]
      by_cases hr : r ∈ values
      · rw [if_pos hr, if_pos ⟨rfl, AList.lookup_isSome.mpr hr⟩]
      · rw [if_neg hr, if_neg (fun h => hr (AList.lookup_isSome.mp h.2)),
          AList.lookup_eq_none.mpr hr]
  · rw [Function.update_of_ne hgroup, if_neg (fun h => hgroup h.1)]

/-- The positive answers of `on_block_write`, once the reservation has been looked at. -/
inductive Serves (g : Groups) (assoc : AssocId) (ied : LeafStore Key) (now : Now) :
    SgAttribute → Value → Groups → LeafStore Key → Prop where
  | activated {value : Value} {group : Nat} (hvalue : unsignedOf value = some group)
      (hgroup : 1 ≤ group ∧ group ≤ g.count) :
      Serves g assoc ied now .actSG value g
        ((g.applyGroup ied group).setInternal (.block .lActTm) (.binaryTime now.wall.toOctets)).1
  | released {value : Value} (hvalue : unsignedOf value = some 0)
      (hheld : g.heldByOther assoc = false) :
      Serves g assoc ied now .editSG value { g with editor := none, editorUntil := none } ied
  | selected {value : Value} {group : Nat} (hvalue : unsignedOf value = some group)
      (hgroup : 1 ≤ group ∧ group ≤ g.count) (hheld : g.heldByOther assoc = false) :
      Serves g assoc ied now .editSG value
        { g with editor := some assoc, editorUntil := reservationDeadline ied now.mono }
        (fill ((g.values group).getD ∅) ied)
  | idle {value : Value} (hvalue : (boolOf value).getD false = false) :
      Serves g assoc ied now .cnfEdit value g ied
  | confirmed {value : Value} {group : Nat} (hvalue : boolOf value = some true)
      (hheld : g.heldByOther assoc = false) (hnumber : (ied.number .editSG).getD 0 = group)
      (hgroup : 1 ≤ group ∧ group ≤ g.count) :
      Serves g assoc ied now .cnfEdit value (g.confirm ied group)
        (if (ied.number .actSG).getD 1 = group then (g.confirm ied group).applyGroup ied group
          else ied)
  | rearmed {value : Value} {editorUntil : Option Instant} (hvalue : (unsignedOf value).isSome) :
      Serves g assoc ied now .resvTms value { g with editorUntil := editorUntil } ied

namespace Groups

variable (g : Groups) (assoc : AssocId) (ied : LeafStore Key) (value : Value) (now : Now)

/-- Nothing but the reservation of another keeps a client from selecting a group, or none. -/
def MayRefuse (a : SgAttribute) : Prop :=
  a = .editSG → (unsignedOf value).any (· ≤ g.count) = true → g.heldByOther assoc = true

/-- A write that is refused changes nothing, the reservations that have run out apart; one that is
not is one of those above. -/
theorem onBlockWrite_cases (a : SgAttribute) :
    (∃ e, g.onBlockWrite assoc ied a value now = (g.expire now.mono, ied, .error e) ∧
      (g.expire now.mono).MayRefuse assoc value a) ∨
      ∃ g' ied', g.onBlockWrite assoc ied a value now = (g', ied', .ok ()) ∧
        Serves (g.expire now.mono) assoc ied now a value g' ied' := by
  unfold onBlockWrite
  dsimp only
  generalize g.expire now.mono = g
  cases a with
  | numOfSG => exact Or.inl ⟨_, rfl, SgAttribute.noConfusion⟩
  | lActTm => exact Or.inl ⟨_, rfl, SgAttribute.noConfusion⟩
  | actSG =>
    dsimp only
    unfold writeActSG
    split
    · exact Or.inl ⟨_, rfl, SgAttribute.noConfusion⟩
    · rename_i group hvalue
      split
      · rename_i hgroup
        exact Or.inr ⟨_, _, rfl, .activated hvalue hgroup⟩
      · exact Or.inl ⟨_, rfl, SgAttribute.noConfusion⟩
  | editSG =>
    dsimp only
    unfold writeEditSG MayRefuse
    split
    · rename_i hvalue
      refine Or.inl ⟨_, rfl, ?_⟩
      rw [hvalue]
      intro _ hany
      cases hany
    · rename_i group hvalue
      by_cases hzero : group = 0
      · rw [if_pos hzero]
        subst hzero
        split
        · rename_i hheld
          exact Or.inl ⟨_, rfl, fun _ _ => hheld⟩
        · rename_i hheld
          rw [Bool.not_eq_true] at hheld
          exact Or.inr ⟨_, _, rfl, .released hvalue hheld⟩
      · rw [if_neg hzero]
        split
        · rename_i hcount
          refine Or.inl ⟨_, rfl, ?_⟩
          rw [hvalue, Option.any_some, decide_eq_true_eq]
          intro _ hle
          exact absurd hle (Nat.not_le.mpr hcount)
        · rename_i hcount
          split
          · rename_i hheld
            exact Or.inl ⟨_, rfl, fun _ _ => hheld⟩
          · rename_i hheld
            rw [Bool.not_eq_true] at hheld
            exact Or.inr ⟨_, _, rfl, .selected hvalue ⟨by omega, by omega⟩ hheld⟩
  | cnfEdit =>
    dsimp only
    unfold writeCnfEdit
    split
    · rename_i hvalue
      exact Or.inr ⟨_, _, rfl, .idle hvalue⟩
    · rename_i hvalue
      have htrue : boolOf value = some true := by
        cases hv : boolOf value with
        | none => simp [hv] at hvalue
        | some b => simpa [hv] using hvalue
      split
      · exact Or.inl ⟨_, rfl, SgAttribute.noConfusion⟩
      · rename_i hheld
        rw [Bool.not_eq_true] at hheld
        dsimp only
        split
        · exact Or.inl ⟨_, rfl, SgAttribute.noConfusion⟩
        · rename_i hgroup
          have hserves : Serves g assoc ied now .cnfEdit value _ _ :=
            .confirmed htrue hheld rfl ⟨by omega, by omega⟩
          refine Or.inr ⟨_, _, ?_, hserves⟩
          unfold confirm
          split
          · rfl
          · rfl
  | resvTms =>
    dsimp only
    unfold writeResvTms
    split
    · exact Or.inl ⟨_, rfl, SgAttribute.noConfusion⟩
    · rename_i seconds hvalue
      split
      · exact Or.inl ⟨_, rfl, SgAttribute.noConfusion⟩
      · have hsome : (unsignedOf value).isSome := by rw [hvalue, Option.isSome_some]
        split
        · exact Or.inr ⟨_, _, rfl, .rearmed hsome⟩
        · exact Or.inr ⟨g, ied, rfl, .rearmed hsome⟩

end Groups

/-! ### A write to the block, all of it -/

/-- The value reaches its attribute, and a command is put back. -/
def settle (ied : LeafStore Key) (a : SgAttribute) (value : Value) : LeafStore Key :=
  Groups.afterBlockWrite (ied.writeLeaf (.block a) value).1 a

theorem sameSettings_settle (ied : LeafStore Key) (a : SgAttribute) (value : Value) :
    SameSettings ied (settle ied a value) := by
  have hwrite := sameSettings_writeLeaf ied a value
  unfold settle Groups.afterBlockWrite
  split
  · exact hwrite.trans (sameSettings_setInternal _ _ _)
  · exact hwrite

theorem settle_node (ied : LeafStore Key) (a : SgAttribute) (value : Value) :
    (settle ied a value).node = ied.node := by
  unfold settle Groups.afterBlockWrite
  split
  · rw [LeafStore.setInternal_node, LeafStore.writeLeaf_node]
  · rw [LeafStore.writeLeaf_node]

variable {ied : LeafStore Key} {a : SgAttribute} {value v : Value}

theorem settle_number_ne {b : SgAttribute} (h : a ≠ b) (ha : a ≠ .cnfEdit) :
    (settle ied b value).number a = ied.number a := by
  unfold settle Groups.afterBlockWrite
  split
  · rw [number_setInternal_ne ha, number_writeLeaf_ne h]
  · rw [number_writeLeaf_ne h]

theorem settle_number_self (ha : a ≠ .cnfEdit) (htakes : ied.takes (.block a) value = true) :
    (settle ied a value).number a = unsignedOf value := by
  unfold settle Groups.afterBlockWrite
  rw [if_neg ha, LeafStore.number, LeafStore.writeLeaf_values_self, if_pos htakes,
    Option.bind_some]

/-- The nodes of the block are what the server makes them. -/
def HasBlock (ied : LeafStore Key) : Prop :=
  ∀ a, ied.node (.block a) = some (.leaf a.btype)

theorem HasBlock.takes (h : HasBlock ied) (a : SgAttribute) (v : Value) :
    ied.takes (.block a) v = accepts a.btype v := by
  rw [LeafStore.takes, h a]

theorem isNumber_of_unsignedOf (h : (unsignedOf v).isSome) : isNumber v = true := by
  cases v <;> first | rfl | cases h

theorem isBoolean_of_boolOf (h : (boolOf v).isSome) : isBoolean v = true := by
  cases v <;> first | rfl | cases h

namespace Serves

variable {g g' : Groups} {assoc : AssocId} {ied ied' : LeafStore Key} {now : Now}
  {a : SgAttribute} {value : Value}

theorem node (h : Serves g assoc ied now a value g' ied') : ied'.node = ied.node := by
  cases h with
  | activated => rw [LeafStore.setInternal_node, Groups.applyGroup_node]
  | released => rfl
  | selected => exact fill_node _ _
  | idle => rfl
  | confirmed =>
    split
    · rw [Groups.applyGroup_node]
    · rfl
  | rearmed => rfl

/-- What the engine agrees to has the type of its attribute, but for a `CnfEdit` that is no
boolean. -/
theorem accepts (h : Serves g assoc ied now a value g' ied') :
    Server.accepts a.btype value = true ∨ a = .cnfEdit ∧ g' = g ∧ ied' = ied := by
  cases h with
  | activated hvalue => exact Or.inl (isNumber_of_unsignedOf (by rw [hvalue, Option.isSome_some]))
  | released hvalue => exact Or.inl (isNumber_of_unsignedOf (by rw [hvalue, Option.isSome_some]))
  | selected hvalue => exact Or.inl (isNumber_of_unsignedOf (by rw [hvalue, Option.isSome_some]))
  | idle => exact Or.inr ⟨rfl, rfl, rfl⟩
  | confirmed hvalue => exact Or.inl (isBoolean_of_boolOf (by rw [hvalue, Option.isSome_some]))
  | rearmed hvalue => exact Or.inl (isNumber_of_unsignedOf hvalue)

end Serves

namespace Device

variable (d : Device) (assoc : AssocId) (a : SgAttribute) (value : Value) (now : Now)

/-- A write to the block is refused and leaves the values alone, or the engine agrees to it and its
value reaches the attribute. -/
theorem writeBlock_cases (hblock : HasBlock d.ied) :
    (∃ e g, d.writeBlock assoc a value now = (⟨g, d.ied⟩, .error e) ∧
      (g = d.groups ∨ g = d.groups.expire now.mono ∧ g.MayRefuse assoc value a)) ∨
      ∃ g' ied', d.writeBlock assoc a value now = (⟨g', settle ied' a value⟩, .ok ()) ∧
        Serves (d.groups.expire now.mono) assoc d.ied now a value g' ied' := by
  unfold writeBlock
  by_cases hwritable : a.writable = true
  · rw [if_pos hwritable]
    rcases d.groups.onBlockWrite_cases assoc d.ied value now a with
      ⟨e, he, hmay⟩ | ⟨g', ied', he, hs⟩
    · rw [he]
      exact Or.inl ⟨e, _, rfl, Or.inr ⟨rfl, hmay⟩⟩
    · rw [he]
      dsimp only
      have htakes : ied'.takes (.block a) value = accepts a.btype value := by
        apply HasBlock.takes
        intro a'
        rw [hs.node, hblock a']
      by_cases haccepts : accepts a.btype value = true
      · have hok := (ied'.writeLeaf_ok (.block a) value).mpr (by rw [htakes, haccepts])
        rw [show ied'.writeLeaf (.block a) value = ((ied'.writeLeaf (.block a) value).1, .ok ()) by
          rw [← hok]]
        exact Or.inr ⟨g', ied', rfl, hs⟩
      · rcases hs.accepts with hacc | ⟨rfl, rfl, rfl⟩
        · exact absurd hacc haccepts
        · have herror : d.ied.writeLeaf (.block .cnfEdit) value =
              (d.ied, .error dataAccessTypeInconsistent) := by
            rw [LeafStore.writeLeaf, hblock .cnfEdit]
            dsimp only
            rw [if_neg haccepts]
          rw [herror]
          exact Or.inl ⟨_, _, rfl, Or.inr ⟨rfl, SgAttribute.noConfusion⟩⟩
  · rw [if_neg hwritable]
    exact Or.inl ⟨_, d.groups, rfl, Or.inl rfl⟩

/-- A setting is written under `SE` while a group is selected, and by nobody else than the holder of
a reservation; or it is not written. -/
theorem writeEdit_cases (r : SettingRef) :
    (d.writeEdit assoc r value).1 = d ∧ (d.writeEdit assoc r value).2.isOk = false ∨
      d.writeEdit assoc r value = (⟨d.groups, (d.ied.writeLeaf (.se r) value).1⟩, .ok ()) ∧
        d.editGroup ≠ 0 ∧ d.groups.heldByOther assoc = false ∧
        d.ied.takes (.se r) value = true := by
  unfold writeEdit
  split
  · exact Or.inl ⟨rfl, rfl⟩
  · unfold Groups.onEditWrite
    by_cases hgroup : (d.ied.number .editSG).getD 0 = 0
    · rw [if_pos hgroup]
      exact Or.inl ⟨rfl, rfl⟩
    · rw [if_neg hgroup]
      by_cases hheld : d.groups.heldByOther assoc = true
      · rw [if_pos hheld]
        exact Or.inl ⟨rfl, rfl⟩
      · rw [if_neg hheld]
        rw [Bool.not_eq_true] at hheld
        by_cases htakes : d.ied.takes (.se r) value = true
        · have hok := (d.ied.writeLeaf_ok (.se r) value).mpr htakes
          rw [hok]
          exact Or.inr ⟨rfl, hgroup, hheld, htakes⟩
        · obtain ⟨e, he⟩ := d.ied.writeLeaf_refused (.se r) value htakes
          rw [he]
          exact Or.inl ⟨rfl, rfl⟩

end Device

/-! ### The start -/

namespace Device

variable {ld : LogicalDevice} {sc : SettingControl} (t : TextForms) (s : Seeded ld sc)

theorem start_node : (start t s).ied.node = treeOf ld :=
  Groups.applyGroup_node _ _ _

theorem start_hasBlock : HasBlock (start t s).ied := by
  intro a
  rw [start_node]
  rfl

theorem start_editGroup : (start t s).editGroup = 0 := by
  have hnumber : (start t s).ied.number .editSG = s.ied.number .editSG :=
    Groups.applyGroup_number _ _ _ SgAttribute.noConfusion
  have hvalue : s.ied.values (.block .editSG) = some (.unsigned 0) := s.block .editSG
  rw [editGroup, hnumber, LeafStore.number, hvalue]
  rfl

end Device

/-! ### A protection device -/

/-- An overcurrent function with a threshold, declared under `SG`, and a delay, declared under
`SE`. -/
def protection : LogicalDevice where
  logicalNodes := [⟨ascii "PTOC1",
    [⟨ascii "StrVal", [⟨ascii "setMag", .sg, .struct,
        [⟨ascii "f", .sg, .int32, [], [], none⟩], [], none⟩], [], none⟩,
      ⟨ascii "OpDlTmms", [⟨ascii "setVal", .se, .int32, [], [], none⟩], [], none⟩]⟩]

def threshold : SettingRef :=
  ⟨ascii "PTOC1", [⟨ascii "StrVal", none⟩, ⟨ascii "setMag", none⟩, ⟨ascii "f", none⟩]⟩

def delay : SettingRef := ⟨ascii "PTOC1", [⟨ascii "OpDlTmms", none⟩, ⟨ascii "setVal", none⟩]⟩

/-- Texts of a file without enumerations. -/
def plainTexts : TextForms := ⟨fun _ _ => none, fun _ => none, fun _ => none⟩

/-- The device at load, with two groups. -/
def protectionDevice : Device :=
  Device.start plainTexts (Seeded.plain protection ⟨2, 1, none⟩)

/-- A moment of the first second. -/
def early : Now := ⟨0, ⟨0, 0, .unsynchronized⟩⟩

end Iec61850.Server
