import Iec61850.Server.SettingRuns

/-!
# The values of the groups, the editing copy and what is in force

What each operation on the setting groups does to the values in force, to those under edit and to
those stored in the groups, and what it keeps to itself, over whole runs.
-/

namespace Iec61850.Server

open Theory

/-! ### Types -/

theorem typed_applyGroup {ied : LeafStore Key} (h : ied.Typed) (g : Groups) (group : Nat) :
    (g.applyGroup ied group).Typed := by
  unfold Groups.applyGroup
  split
  · exact h
  · apply LeafStore.Typed.writeLeaf
    exact writeOut_preserves (fun _ p v hs => hs.writeLeaf p v) h

theorem typed_fill {ied : LeafStore Key} (h : ied.Typed) (values : Settings) :
    (fill values ied).Typed :=
  writeOut_preserves (fun _ p v hs => hs.setInternal p v) h

theorem typed_settle {ied : LeafStore Key} (h : ied.Typed) (a : SgAttribute) (value : Value) :
    (settle ied a value).Typed := by
  unfold settle Groups.afterBlockWrite
  split
  · exact (h.writeLeaf _ _).setInternal _ _
  · exact h.writeLeaf _ _

theorem typed_writeComponents {ied : LeafStore Key} (h : ied.Typed)
    (ms : List (SgAttribute × Value)) : (writeComponents ied ms).1.Typed := by
  induction ms generalizing ied with
  | nil => exact h
  | cons m ms ih =>
    obtain ⟨a, v⟩ := m
    have hfirst := h.writeLeaf (.block a) v
    rw [writeComponents]
    split
    · rename_i ied' hwrite
      rw [hwrite] at hfirst
      exact ih hfirst
    · rename_i ied' e hwrite
      rw [hwrite] at hfirst
      exact hfirst

namespace Serves

variable {g g' : Groups} {assoc : AssocId} {ied ied' : LeafStore Key} {now : Now}
  {a : SgAttribute} {value : Value}

theorem typed (h : Serves g assoc ied now a value g' ied') (htyped : ied.Typed) : ied'.Typed := by
  cases h with
  | activated => exact (typed_applyGroup htyped _ _).setInternal _ _
  | released => exact htyped
  | selected => exact typed_fill htyped _
  | idle => exact htyped
  | confirmed =>
    split
    · exact typed_applyGroup htyped _ _
    · exact htyped
  | rearmed => exact htyped

theorem count (h : Serves g assoc ied now a value g' ied') : g'.count = g.count := by
  cases h <;> rfl

end Serves

/-! ### Stored values -/

theorem expire_stored (g : Groups) (now : Instant) : (g.expire now).stored = g.stored := by
  unfold Groups.expire
  split
  · rfl
  · rfl

theorem expire_count (g : Groups) (now : Instant) : (g.expire now).count = g.count := by
  unfold Groups.expire
  split
  · rfl
  · rfl

/-- Only a confirmation changes a stored value. -/
theorem Serves.stored {g g' : Groups} {assoc : AssocId} {ied ied' : LeafStore Key} {now : Now}
    {a : SgAttribute} {value : Value} (h : Serves g assoc ied now a value g' ied') :
    g'.stored = g.stored ∨ a = .cnfEdit ∧ g' = g.confirm ied ((ied.number .editSG).getD 0) := by
  cases h with
  | activated => exact Or.inl rfl
  | released => exact Or.inl rfl
  | selected => exact Or.inl rfl
  | idle => exact Or.inl rfl
  | confirmed _ _ hnumber => exact Or.inr ⟨rfl, by rw [hnumber]⟩
  | rearmed => exact Or.inl rfl

/-! ### What the engine keeps -/

/-- The values of a device: every leaf has one of its type, the groups are those up to their number,
each has a value of its type of every setting declared under `SG`, and of no other published one. -/
structure Sound (ld : LogicalDevice) (d : Device) : Prop where
  tree : d.ied.node = treeOf ld
  typed : d.ied.Typed
  accepted : ∀ group r btype v, treeOf ld (.sg r) = some (.leaf btype) →
    d.groups.stored group r = some v → accepts btype v = true
  stored : ∀ group r btype, treeOf ld (.sg r) = some (.leaf btype) →
    ((d.groups.stored group r).isSome ↔ (1 ≤ group ∧ group ≤ d.groups.count) ∧ DeclaredSg ld r)

namespace Sound

variable {ld : LogicalDevice} {d : Device}

theorem hasBlock (h : Sound ld d) : HasBlock d.ied := by
  intro a
  rw [h.tree]
  rfl

/-- The stored values are what they were. -/
theorem of_stored (h : Sound ld d) {d' : Device} (hnode : d'.ied.node = d.ied.node)
    (htyped : d'.ied.Typed) (hcount : d'.groups.count = d.groups.count)
    (hstored : d'.groups.stored = d.groups.stored) : Sound ld d' where
  tree := hnode.trans h.tree
  typed := htyped
  accepted := by
    rw [hstored]
    exact h.accepted
  stored := by
    rw [hstored, hcount]
    exact h.stored

theorem confirm (h : Sound ld d) {d' : Device} (hnode : d'.ied.node = d.ied.node)
    (htyped : d'.ied.Typed) {group : Nat} (hgroups : d'.groups = d.groups.confirm d.ied group) :
    Sound ld d' where
  tree := hnode.trans h.tree
  typed := htyped
  accepted := by
    intro group' r btype v hr hv
    rw [hgroups, stored_confirm] at hv
    split at hv
    · have hse : d.ied.node (.se r) = some (.leaf btype) := by rw [h.tree, treeOf_se, hr]
      obtain ⟨w, hw, haccepts⟩ := h.typed _ _ hse
      rw [hw, Option.some_or, Option.some.injEq] at hv
      rw [← hv]
      exact haccepts
    · exact h.accepted group' r btype v hr hv
  stored := by
    intro group' r btype hr
    have hcount : d'.groups.count = d.groups.count := by
      rw [hgroups]
      rfl
    rw [hcount, ← h.stored group' r btype hr, hgroups, stored_confirm]
    split
    · rename_i hin
      rw [hin.1, Option.isSome_or, hin.2, Bool.or_true]
    · rfl

theorem next (h : Sound ld d) (x : Device.Action) : Sound ld (d.next x) := by
  cases x with
  | write assoc key value now =>
    cases key with
    | sg r =>
      rw [(d.next_sg assoc r value now).1]
      exact h
    | se r =>
      rw [Device.next_se]
      rcases d.writeEdit_cases assoc value r with ⟨hsame, -⟩ | ⟨heq, -⟩
      · rw [hsame]
        exact h
      · rw [heq]
        exact h.of_stored (LeafStore.writeLeaf_node _ _ _) (h.typed.writeLeaf _ _) rfl rfl
    | block a =>
      rw [Device.next_block]
      rcases d.writeBlock_cases assoc a value now h.hasBlock with
        ⟨e, g, heq, hg⟩ | ⟨g', ied', heq, hserves⟩
      · rw [heq]
        rcases hg with rfl | ⟨rfl, -⟩
        · exact h
        · exact h.of_stored rfl h.typed (expire_count _ _) (expire_stored _ _)
      · rw [heq]
        have hexpired : Sound ld ⟨d.groups.expire now.mono, d.ied⟩ :=
          h.of_stored rfl h.typed (expire_count _ _) (expire_stored _ _)
        have hnode : (settle ied' a value).node = d.ied.node := by
          rw [settle_node, hserves.node]
        have htyped := typed_settle (hserves.typed h.typed) a value
        rcases hserves.stored with hstored | ⟨-, hconfirm⟩
        · exact hexpired.of_stored hnode htyped hserves.count hstored
        · exact hexpired.confirm hnode htyped hconfirm
  | writeWhole assoc value =>
    unfold Device.next Device.writeWhole
    dsimp only
    split
    · split
      · exact h.of_stored (writeComponents_node _ _) (typed_writeComponents h.typed _) rfl rfl
      · exact h
    · exact h
  | elsewhere now => exact h.of_stored rfl h.typed (expire_count _ _) (expire_stored _ _)
  | closed assoc =>
    rw [Device.next, Groups.onAssociationClosed]
    split
    · exact h.of_stored rfl h.typed rfl rfl
    · exact h
  | timeout now =>
    rw [Device.next, Groups.onTimeout]
    split
    · exact h.of_stored (LeafStore.setInternal_node _ _ _) (h.typed.setInternal _ _)
        (expire_count _ _) (expire_stored _ _)
    · exact h.of_stored rfl h.typed (expire_count _ _) (expire_stored _ _)

end Sound

/-! ### At load -/

/-- What the engine takes of a setting at load is of the type of its leaf. -/
theorem accepts_engineeredValue {ied : LeafStore Key} (htyped : ied.Typed) {t : TextForms}
    {group : Nat} {s : Setting} {btype : BType} {v : Value}
    (hleaf : ied.node (.sg s.1) = some (.leaf btype))
    (h : engineeredValue t ied group s = some v) : accepts btype v = true := by
  unfold engineeredValue at h
  rw [Option.or_eq_some_iff] at h
  rcases h with htext | ⟨-, hvalue⟩
  · rw [Option.bind_eq_some_iff] at htext
    obtain ⟨e, -, hparse⟩ := htext
    rw [parseText, hleaf] at hparse
    exact accepts_of_parseEngineeredTyped hparse
  · obtain ⟨w, hw, haccepts⟩ := htyped _ _ hleaf
    rw [hvalue] at hw
    cases hw
    exact haccepts

theorem sound_start (t : TextForms) {ld : LogicalDevice} {sc : SettingControl} (s : Seeded ld sc) :
    Sound ld (Device.start t s) where
  tree := Device.start_node t s
  typed := typed_applyGroup s.ied_typed _ _
  accepted := by
    intro group r btype v hleaf hv
    have hgroup : Groups.stored (Groups.new t ld s.ied) group r = some v := hv
    unfold Groups.stored Groups.new at hgroup
    dsimp only at hgroup
    split at hgroup
    · have hmem := mem_of_lookup_mapOf hgroup
      rw [List.mem_map] at hmem
      obtain ⟨setting, -, heq⟩ := hmem
      rw [Prod.mk.injEq] at heq
      obtain ⟨rfl, hvalue⟩ := heq
      exact accepts_engineeredValue s.ied_typed hleaf hvalue
    · cases hgroup
  stored := by
    intro group r btype hleaf
    have hstored : (Device.start t s).groups.stored group r =
        Groups.stored (Groups.new t ld s.ied) group r := rfl
    have hcount : (Device.start t s).groups.count = (Groups.new t ld s.ied).count := rfl
    rw [hstored, hcount, ← mem_settingsOf]
    unfold Groups.stored Groups.new
    dsimp only
    split
    · rename_i hgroup
      rw [and_iff_right hgroup, Option.bind_some]
      constructor
      · intro hsome
        obtain ⟨v, hv⟩ := Option.isSome_iff_exists.mp hsome
        have hmem := mem_of_lookup_mapOf hv
        rw [List.mem_map] at hmem
        obtain ⟨setting, hsetting, heq⟩ := hmem
        rw [Prod.mk.injEq] at heq
        exact ⟨setting.2, heq.1 ▸ hsetting⟩
      · rintro ⟨texts, htexts⟩
        obtain ⟨w, hw, -⟩ := s.typed _ _ hleaf
        have hw : s.ied.values (.sg r) = some w := hw
        have hsome : (engineeredValue t s.ied group (r, texts)).isSome := by
          unfold engineeredValue
          rw [Option.isSome_or, hw, Option.isSome_some, Bool.or_true]
        obtain ⟨v, hv⟩ := Option.isSome_iff_exists.mp hsome
        apply isSome_lookup_mapOf
        rw [List.mem_map]
        exact ⟨(r, texts), htexts, by rw [hv]⟩
    · rename_i hgroup
      constructor
      · intro hsome
        cases hsome
      · intro hin
        exact absurd hin.1 hgroup

namespace Device

/-! ### What is promised -/

/-- The values in force are what they were. -/
def KeepsInForce (d d' : Device) : Prop := ∀ r, d'.ied.values (.sg r) = d.ied.values (.sg r)

/-- What an action keeps: a value in force changes only with `ActSG`, or when the group in force is
confirmed, and a stored value only in the group that is confirmed. -/
def Isolated (d : Device) (x : Action) : Prop :=
  match x with
  | .write _ (.block .actSG) _ _ => (d.next x).groups.stored = d.groups.stored
  | .write _ (.block .cnfEdit) _ _ =>
    (∀ group, group ≠ d.editGroup →
      (d.next x).groups.stored group = d.groups.stored group) ∧
    (d.activeGroup ≠ d.editGroup → d.KeepsInForce (d.next x))
  | _ => d.KeepsInForce (d.next x) ∧ (d.next x).groups.stored = d.groups.stored

/-- Every value in force is the group's stored one. -/
def PutsInForce (ld : LogicalDevice) (d : Device) (group : Nat) : Prop :=
  ∀ r btype, treeOf ld (.sg r) = some (.leaf btype) →
    d.ied.values (.sg r) = d.groups.stored group r

/-- The number a structured write of the block puts into `ActSG`. -/
def wholeActive : Value → Option Nat
  | .structure members => (members[1]?).bind unsignedOf
  | _ => none

/-- Where `ActSG` is written and the write is answered positively, the group is in force. -/
def Activates (ld : LogicalDevice) (d : Device) (x : Action) : Prop :=
  match x with
  | .write _ (.block .actSG) value _ => d.accepted x = true →
      ∀ group, unsignedOf value = some group → PutsInForce ld (d.next x) group
  | .writeWhole _ value => d.accepted x = true →
      ∀ group, wholeActive value = some group → PutsInForce ld (d.next x) group
  | _ => True

/-- Every setting that is published under `SG` is declared there. -/
def AllDeclared (ld : LogicalDevice) : Prop :=
  ∀ r btype, treeOf ld (.sg r) = some (.leaf btype) → DeclaredSg ld r

/-- `ActSG` is written where the engine knows every setting, and not with the whole block. -/
def Covered (ld : LogicalDevice) (d : Device) (x : Action) : Prop :=
  match x with
  | .write _ (.block .actSG) _ _ => AllDeclared ld
  | .writeWhole _ _ => d.accepted x = false
  | _ => True

/-! ### One step -/

variable {ld : LogicalDevice} {d : Device}

variable {assoc : AssocId} {now : Now} {a : SgAttribute} {value : Value} {group : Nat}

/-- What a write to the block that the engine agrees to leaves in force. -/
theorem serves_sg {g g' : Groups} {ied ied' : LeafStore Key}
    (h : Serves g assoc ied now a value g' ied') (ha : a = .actSG → False)
    (hcnf : a = .cnfEdit → (ied.number .actSG).getD 1 ≠ (ied.number .editSG).getD 0)
    (r : SettingRef) : ied'.values (.sg r) = ied.values (.sg r) := by
  cases h with
  | activated => exact absurd rfl ha
  | released => rfl
  | selected => exact fill_other (fun _ => Key.noConfusion)
  | idle => rfl
  | confirmed _ _ hnumber =>
    have hne := hcnf rfl
    rw [hnumber] at hne
    rw [if_neg hne]
  | rearmed => rfl

theorem keepsInForce_writeBlock (hblock : HasBlock d.ied) (assoc : AssocId) (value : Value)
    (now : Now) (ha : a = .actSG → False) (hcnf : a = .cnfEdit → d.activeGroup ≠ d.editGroup) :
    d.KeepsInForce (d.next (.write assoc (.block a) value now)) := by
  intro r
  rw [next_block]
  rcases d.writeBlock_cases assoc a value now hblock with ⟨e, g, heq, -⟩ | ⟨g', ied', heq, hserves⟩
  · rw [heq]
  · rw [heq]
    exact ((sameSettings_settle ied' a value).sg r).trans (serves_sg hserves ha hcnf r)

theorem stored_writeBlock (hblock : HasBlock d.ied) (assoc : AssocId) (value : Value) (now : Now)
    (hcnf : a = .cnfEdit → group ≠ d.editGroup) :
    (d.next (.write assoc (.block a) value now)).groups.stored group = d.groups.stored group := by
  rw [next_block]
  rcases d.writeBlock_cases assoc a value now hblock with
    ⟨e, g, heq, hg⟩ | ⟨g', ied', heq, hserves⟩
  · rw [heq]
    rcases hg with rfl | ⟨rfl, -⟩
    · rfl
    · exact congrFun (expire_stored _ _) group
  · rw [heq]
    rcases hserves.stored with hsame | ⟨rfl, hconfirm⟩
    · exact congrFun (hsame.trans (expire_stored _ _)) group
    · funext r
      have hne : group ≠ (d.ied.number .editSG).getD 0 := hcnf rfl
      rw [hconfirm, stored_confirm, if_neg (fun h => hne h.1), expire_stored]

theorem isolated (hblock : HasBlock d.ied) (x : Action) : d.Isolated x := by
  cases x with
  | write assoc key value now =>
    cases key with
    | sg r =>
      unfold Isolated KeepsInForce
      rw [(d.next_sg assoc r value now).1]
      exact ⟨fun _ => rfl, rfl⟩
    | se r =>
      unfold Isolated KeepsInForce
      rw [next_se]
      rcases d.writeEdit_cases assoc value r with ⟨hsame, -⟩ | ⟨heq, -⟩
      · rw [hsame]
        exact ⟨fun _ => rfl, rfl⟩
      · rw [heq]
        exact ⟨fun _ => LeafStore.writeLeaf_values_ne _ _ _ Key.noConfusion, rfl⟩
    | block a =>
      have hstored : a ≠ .cnfEdit →
          (d.next (.write assoc (.block a) value now)).groups.stored = d.groups.stored := by
        intro ha
        funext group
        exact stored_writeBlock hblock assoc value now (fun h => absurd h ha)
      have hsg := keepsInForce_writeBlock hblock assoc (a := a) value now
      cases a with
      | actSG => exact hstored SgAttribute.noConfusion
      | cnfEdit =>
        refine ⟨?_, fun hne => hsg SgAttribute.noConfusion (fun _ => hne)⟩
        intro group hgroup
        exact stored_writeBlock hblock assoc value now (fun _ => hgroup)
      | numOfSG =>
        exact ⟨hsg SgAttribute.noConfusion SgAttribute.noConfusion,
          hstored SgAttribute.noConfusion⟩
      | editSG =>
        exact ⟨hsg SgAttribute.noConfusion SgAttribute.noConfusion,
          hstored SgAttribute.noConfusion⟩
      | lActTm =>
        exact ⟨hsg SgAttribute.noConfusion SgAttribute.noConfusion,
          hstored SgAttribute.noConfusion⟩
      | resvTms =>
        exact ⟨hsg SgAttribute.noConfusion SgAttribute.noConfusion,
          hstored SgAttribute.noConfusion⟩
  | writeWhole assoc value =>
    unfold Isolated KeepsInForce next writeWhole
    dsimp only
    split
    · split
      · exact ⟨fun r => (sameSettings_writeComponents _ _).sg r, rfl⟩
      · exact ⟨fun _ => rfl, rfl⟩
    · exact ⟨fun _ => rfl, rfl⟩
  | elsewhere now => exact ⟨fun _ => rfl, expire_stored _ _⟩
  | closed assoc =>
    unfold Isolated KeepsInForce next Groups.onAssociationClosed
    dsimp only
    split
    · exact ⟨fun _ => rfl, rfl⟩
    · exact ⟨fun _ => rfl, rfl⟩
  | timeout now =>
    unfold Isolated KeepsInForce next Groups.onTimeout
    dsimp only
    split
    · exact ⟨(sameSettings_setInternal _ _ _).sg, expire_stored _ _⟩
    · exact ⟨fun _ => rfl, expire_stored _ _⟩

/-- An activation that is accepted puts a setting of the group in force, when the engine has a value
of it, and leaves it alone otherwise. -/
theorem activated_sg (h : Sound ld d)
    (haccepted : d.accepted (.write assoc (.block .actSG) value now) = true)
    (hvalue : unsignedOf value = some group) {r : SettingRef} {btype : BType}
    (hleaf : treeOf ld (.sg r) = some (.leaf btype)) : (1 ≤ group ∧ group ≤ d.groups.count) ∧
      (d.next (.write assoc (.block .actSG) value now)).ied.values (.sg r) =
        (d.groups.stored group r).or (d.ied.values (.sg r)) := by
  rw [next_block]
  rw [accepted_block] at haccepted
  rcases d.writeBlock_cases assoc .actSG value now h.hasBlock with
    ⟨e, g, heq, -⟩ | ⟨g', ied', heq, hserves⟩
  · rw [heq] at haccepted
    cases haccepted
  · rw [heq]
    cases hserves with
    | activated hvalue' hgroup =>
      rw [hvalue] at hvalue'
      cases hvalue'
      rw [expire_count] at hgroup
      refine ⟨hgroup, ?_⟩
      dsimp only
      rw [(sameSettings_settle _ _ _).sg, (sameSettings_setInternal _ _ _).sg,
        Groups.applyGroup_sg, expire_stored]
      cases hstored : d.groups.stored group r with
      | none => rfl
      | some v =>
        have htakes : d.ied.takes (.sg r) v = true := by
          rw [LeafStore.takes, h.tree, hleaf]
          exact h.accepted group r btype v hleaf hstored
        rw [Option.filter_some, if_pos htakes]

/-- An activation puts a published setting in force exactly when it is declared under `SG`. -/
theorem activated_iff (h : Sound ld d)
    (haccepted : d.accepted (.write assoc (.block .actSG) value now) = true)
    (hvalue : unsignedOf value = some group) {r : SettingRef} {btype : BType}
    (hleaf : treeOf ld (.sg r) = some (.leaf btype)) :
    ((d.next (.write assoc (.block .actSG) value now)).ied.values (.sg r) =
      (d.next (.write assoc (.block .actSG) value now)).groups.stored group r) ↔
      DeclaredSg ld r := by
  obtain ⟨hgroup, hsg⟩ := activated_sg h haccepted hvalue hleaf
  rw [hsg, stored_writeBlock h.hasBlock assoc value now SgAttribute.noConfusion,
    ← and_iff_right (b := DeclaredSg ld r) hgroup, ← h.stored group r btype hleaf]
  cases hstored : d.groups.stored group r with
  | none =>
    obtain ⟨w, hw, -⟩ := h.typed (.sg r) btype (by rw [h.tree, hleaf])
    rw [hw]
    exact iff_of_false (fun heq => by cases heq) (fun hsome => by cases hsome)
  | some v => exact iff_of_true rfl rfl

theorem activates (h : Sound ld d) {x : Action} (hcovered : Covered ld d x) : Activates ld d x := by
  unfold Activates
  split
  · intro haccepted group hvalue r btype hleaf
    exact (activated_iff h haccepted hvalue hleaf).mpr (hcovered r btype hleaf)
  · intro haccepted
    have hrefused : d.accepted (.writeWhole _ _) = false := hcovered
    rw [haccepted] at hrefused
    cases hrefused
  · trivial

/-! ### Runs -/

/-- Along every run selections and setting writes leave the values in force and those stored alone,
and a confirmation the stored values of the other groups; where the engine knows every setting that
is published under `SG`, an activation puts the stored value of each into force. -/
theorem run_isolated (t : TextForms) {ld : LogicalDevice} {sc : SettingControl} (s : Seeded ld sc)
    {xs : List Action} (hxs : Meets step (Covered ld) (start t s) xs) :
    Meets step Isolated (start t s) xs ∧ Meets step (Activates ld) (start t s) xs := by
  have hstep : ∀ (d : Device) x d', Sound ld d → Covered ld d x → d.step x = some d' →
      Sound ld d' := by
    intro d x d' hsound _ hstep
    cases hstep
    exact hsound.next x
  constructor
  · apply invariant_meets hstep ?_ (sound_start t s) hxs
    intro d x hsound _
    exact isolated hsound.hasBlock x
  · apply invariant_meets hstep ?_ (sound_start t s) hxs
    intro d x hsound hcovered
    exact activates hsound hcovered

/-- The threshold of the overcurrent function alone. -/
def thresholdOnly : LogicalDevice where
  logicalNodes := [⟨ascii "PTOC1",
    [⟨ascii "StrVal", [⟨ascii "setMag", .sg, .struct,
        [⟨ascii "f", .sg, .int32, [], [], none⟩], [], none⟩], [], none⟩]⟩]

theorem allDeclared_of_plain {ld : LogicalDevice}
    (hplain : ∀ ln ∈ ld.logicalNodes, plainObjects ln.dataObjects = true) : AllDeclared ld := by
  intro r btype hleaf
  rw [treeOf, Option.map_eq_some_iff] at hleaf
  obtain ⟨w, hw, hnode⟩ := hleaf
  have hkind : w.kind = .leaf btype := by
    unfold Variable.node at hnode
    split at hnode
    · cases hnode
      assumption
    · cases hnode
    · cases hnode
  exact declaredSg_of_plain hplain hw hkind

theorem allDeclared_thresholdOnly : AllDeclared thresholdOnly :=
  allDeclared_of_plain (by decide +kernel)

theorem run_isolated_threshold :
    Meets step Isolated (start plainTexts (Seeded.plain thresholdOnly ⟨2, 1, none⟩))
      [.write 1 (.block .editSG) (.unsigned 2) early, .write 1 (.se threshold) (.integer 7) early,
        .write 1 (.block .cnfEdit) (.boolean true) early,
        .write 2 (.block .actSG) (.unsigned 2) early] ∧ Meets step (Activates thresholdOnly)
      (start plainTexts (Seeded.plain thresholdOnly ⟨2, 1, none⟩))
      [.write 1 (.block .editSG) (.unsigned 2) early, .write 1 (.se threshold) (.integer 7) early,
        .write 1 (.block .cnfEdit) (.boolean true) early,
        .write 2 (.block .actSG) (.unsigned 2) early] := by
  apply run_isolated
  refine ⟨trivial, fun _ _ => ⟨trivial, fun _ _ => ⟨trivial, fun _ _ => ⟨?_, fun _ _ => trivial⟩⟩⟩⟩
  exact allDeclared_thresholdOnly

/-- A setting declared under `SE` has a value in force and no stored one. -/
theorem activation_leaves_setting :
    ¬ ∀ (t : TextForms) (ld : LogicalDevice) (sc : SettingControl) (s : Seeded ld sc)
      (xs : List Action),
      Meets step Isolated (start t s) xs ∧ Meets step (Activates ld) (start t s) xs := by
  intro hall
  have hactivates := (hall plainTexts protection ⟨2, 1, none⟩ (Seeded.plain _ _)
    [.write 1 (.block .actSG) (.unsigned 2) early]).2.1
  have haccepted : protectionDevice.accepted (.write 1 (.block .actSG) (.unsigned 2) early) =
      true := by
    decide +kernel
  have hleaf : treeOf protection (.sg delay) = some (.leaf .int32) := by decide +kernel
  have hequal := hactivates haccepted 2 rfl delay .int32 hleaf
  have hsome := congrArg Option.isSome hequal
  revert hsome
  decide +kernel

end Device

end Iec61850.Server
