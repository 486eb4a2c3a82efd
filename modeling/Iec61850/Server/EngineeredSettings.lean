import Iec61850.Server.Engineered

/-!
# Engineered values of settings

A setting is published twice, under `SG` as it is in force and under `SE` as it is edited. When the
server starts, the active group is put into force (`SettingGroups::activate_initial`), and when a
group is selected for editing its values are copied under `SE` (`on_block_write`).
-/

namespace Iec61850.Server

open Theory Mms

/-! ### The settings of a device -/

/-- The reference of a setting under a constraint. -/
def SettingRef.text (r : SettingRef) (domain : Bytes) (fc : Fc) : Bytes :=
  declaredText domain r.ln fc (r.path.map Step.name)

/-- `settings_of`: the references of the settings under `SG`, with their values in the groups. -/
def IedModel.settingsOf (m : IedModel) (domain : Bytes) : List (Bytes × List (Nat × Bytes)) :=
  match m.logicalDevice domain with
  | none => []
  | some ld => (Server.settingsOf ⟨ld.nodes.map fun ln => ln.toLogicalNode⟩).map fun s =>
    (s.1.text domain .sg, s.2)

/-- `edit_reference`: the first `$SG$` becomes `$SE$`. -/
def editReference : Bytes → Bytes
  | [] => []
  | c :: cs =>
    if (ascii "$SG$").isPrefixOf (c :: cs) then ascii "$SE$" ++ cs.drop 3
    else c :: editReference cs

namespace ValueStore

/-- A number that an attribute of a block shows. -/
def number (s : ValueStore) (reference : Bytes) : Option Nat :=
  (s.values.lookup reference).bind unsignedOf

/-- `Ied::parse_text`. -/
def parseText (m : IedModel) (t : Decimals) (s : ValueStore) (reference text : Bytes) :
    Option Value :=
  match s.nodeAt reference with
  | some ⟨_, .leaf btype, _⟩ => parseEngineered m t reference btype text
  | _ => none

end ValueStore

/-! ### The groups -/

/-- `Groups`. -/
structure DeviceGroups where
  block : Bytes
  domain : Bytes
  count : Nat
  values : Nat → Option LeafValues
  editor : Option AssocId
  editorUntil : Option Instant

/-- The value of a setting in a group when the server starts: its own in the group, or else what the
model holds. -/
def startValue (m : IedModel) (t : Decimals) (s : ValueStore) (group : Nat)
    (setting : Bytes × List (Nat × Bytes)) : Option Value :=
  ((setting.2.find? fun e => e.1 = group).bind fun e => s.parseText m t setting.1 e.2).or
    (s.values.lookup setting.1)

namespace DeviceGroups

/-- The groups of a device, of `SettingGroups::new`. -/
def start (m : IedModel) (t : Decimals) (s : ValueStore) (block domain : Bytes) : DeviceGroups :=
  let count := max 1 ((s.number (attributeOf block (ascii "NumOfSG"))).getD 1)
  { block := block
    domain := domain
    count := count
    values := fun group =>
      if 1 ≤ group ∧ group ≤ count then
        some (mapOf ((m.settingsOf domain).map fun r => (r.1, startValue m t s group r)))
      else none
    editor := none
    editorUntil := none }

/-- Another association holds the edit reservation. -/
def heldByOther (g : DeviceGroups) (assoc : AssocId) : Bool := g.editor.any (· ≠ assoc)

/-- `expire`, of one device. -/
def expire (g : DeviceGroups) (now : Instant) : DeviceGroups :=
  if g.editorUntil.any (· ≤ now) then { g with editor := none, editorUntil := none } else g

end DeviceGroups

/-- `SettingGroups::new`. -/
def settingDevices (m : IedModel) (t : Decimals) (s : ValueStore) : List DeviceGroups :=
  m.logicalDevices.flatMap fun ld => ld.nodes.flatMap fun ln =>
    ln.settingControl.toList.map fun _ =>
      DeviceGroups.start m t s (blockRef ld.name ln.name .sp (ascii "SGCB")) ld.name

/-- The entries of a map in the order of their keys. -/
def inOrder (values : LeafValues) : List (Bytes × Value) :=
  (values.entries.map fun e => (e.1, e.2)).mergeSort fun a b => decide (a.1 ≤ b.1)

/-- `device`. -/
def deviceOf (devices : List DeviceGroups) (domain : Bytes) : Option DeviceGroups :=
  devices.find? fun g => g.domain = domain

/-- `device_mut`, and what is made of it. -/
def modifyDevice (domain : Bytes) (f : DeviceGroups → DeviceGroups) :
    List DeviceGroups → List DeviceGroups
  | [] => []
  | g :: devices =>
    if g.domain = domain then f g :: devices else g :: modifyDevice domain f devices

def applyGroup (devices : List DeviceGroups) (s : ValueStore) (domain : Bytes) (group : Nat) :
    ValueStore :=
  match deviceOf devices domain with
  | none => s
  | some g =>
    match g.values group with
    | none => s
    | some values =>
      (s.after (inOrder values)).next (attributeOf g.block (ascii "ActSG"), .unsigned group)

def activateInitial (devices : List DeviceGroups) (s : ValueStore) : ValueStore :=
  let plan := devices.map fun g =>
    (g.domain, (s.number (attributeOf g.block (ascii "ActSG"))).getD 1)
  plan.foldl (fun s e => applyGroup devices s e.1 e.2) s

/-- The variables of a server and its setting groups. -/
structure SettingServer where
  store : ValueStore
  devices : List DeviceGroups

namespace SettingServer

/-- `Acsi::with_config`, as far as the variables and the setting groups go. -/
def start (reservation : Bool) (m : IedModel) (t : Decimals) : SettingServer :=
  let store := ValueStore.build reservation m t
  let devices := settingDevices m t store
  ⟨activateInitial devices store, devices⟩

/-- `EditSG` of `on_block_write`. -/
def selectGroup (s : SettingServer) (assoc : AssocId) (block : Bytes) (value : Value)
    (now : Instant) : SettingServer × Except Int Unit :=
  match s.devices.find? fun g => g.block = block with
  | none => (s, .ok ())
  | some own =>
    let s : SettingServer := ⟨s.store, s.devices.map fun g => g.expire now⟩
    match unsignedOf value with
    | none => (s, .error dataAccessValueInvalid)
    | some group =>
      match deviceOf s.devices own.domain with
      | none => (s, .ok ())
      | some g =>
        if group = 0 then
          if g.heldByOther assoc then (s, .error dataAccessDenied)
          else (⟨s.store, modifyDevice own.domain
            (fun g => { g with editor := none, editorUntil := none }) s.devices⟩, .ok ())
        else if g.count < group then (s, .error dataAccessValueInvalid)
        else if g.heldByOther assoc then (s, .error dataAccessDenied)
        else
          let seconds := (s.store.number (attributeOf block (ascii "ResvTms"))).getD 0
          let deadline :=
            if 0 < seconds then some (Instant.plusMillis now (seconds * 1000)) else none
          let fill := (inOrder ((g.values group).getD ∅)).map fun e =>
            (editReference e.1, e.2)
          (⟨s.store.after fill, modifyDevice own.domain
            (fun g => { g with editor := some assoc, editorUntil := deadline }) s.devices⟩,
            .ok ())

/-- A write of `EditSG` (`Acsi::write_reference`, of a block of the engine). -/
def writeEditSG (s : SettingServer) (assoc : AssocId) (block : Bytes) (value : Value)
    (now : Instant) : SettingServer × Except Int Unit :=
  match s.selectGroup assoc block value now with
  | (s, .error code) => (s, .error code)
  | (s, .ok ()) =>
    match s.store.writeLeaf (attributeOf block (ascii "EditSG")) value with
    | .error code => (s, .error code)
    | .ok store => (⟨store, s.devices⟩, .ok ())

def onEditRead (s : SettingServer) (domain : Bytes) : Except Int Unit :=
  match deviceOf s.devices domain with
  | none => .error dataAccessDenied
  | some g =>
    if (s.store.number (attributeOf g.block (ascii "EditSG"))).getD 0 = 0 then
      .error dataAccessDenied
    else .ok ()

/-- What a reference resolves to is under `SE`. -/
def underEdit (s : SettingServer) (reference : Bytes) : Bool :=
  (s.store.nodeAt reference).isSome &&
    (locusOf reference).any fun p => p.selectors.head? = some (.component Fc.se.asStr)

/-- `Acsi::read_reference`. -/
def readReference (s : SettingServer) (reference : Bytes) : Except Int Value :=
  match splitOnce slash reference with
  | none => .error dataAccessNonExistent
  | some (domain, item) => do
      if s.underEdit reference then s.onEditRead domain
      match s.store.read domain item with
      | none => .error dataAccessNonExistent
      | some value => .ok value

end SettingServer

/-! ### The settings that are declared -/

/-- A name as a step. -/
def Step.named (name : Bytes) : Step := ⟨name, none⟩

mutual

theorem mem_walkAttribute_iff {before : List Step} {e : List Step × List (Nat × Bytes)} :
    ∀ {a : DataAttribute}, e ∈ walkAttribute a before ↔
      ∃ names b, a.Declares names b ∧ (b.fc = .sg ∨ b.fc = .se) ∧
        e = (before ++ names.map Step.named, b.groupValues)
  | ⟨name, fc, btype, children, groupValues, count⟩ => by
      rw [walkAttribute, List.mem_append, mem_walkAttributes_iff]
      constructor
      · rintro (he | ⟨c, hc, names, b, h, hfc, rfl⟩)
        · split at he
          · rename_i hfc
            rw [List.mem_singleton.mp he]
            exact ⟨_, _, .self _, hfc, rfl⟩
          · cases he
        · exact ⟨_, b, .component hc h, hfc, by simp [Step.named]⟩
      · rintro ⟨names, b, h, hfc, rfl⟩
        cases h with
        | self =>
          left
          rw [if_pos hfc]
          exact List.mem_singleton_self _
        | @component _ c _ names hc h =>
          exact Or.inr ⟨c, hc, names, b, h, hfc, by simp [Step.named]⟩

theorem mem_walkAttributes_iff {before : List Step} {e : List Step × List (Nat × Bytes)} :
    ∀ {as : List DataAttribute}, e ∈ walkAttributes as before ↔
      ∃ a ∈ as, ∃ names b, a.Declares names b ∧ (b.fc = .sg ∨ b.fc = .se) ∧
        e = (before ++ names.map Step.named, b.groupValues)
  | [] => by simp [walkAttributes]
  | a :: as => by
      rw [walkAttributes, List.mem_append, mem_walkAttribute_iff, mem_walkAttributes_iff,
        List.exists_mem_cons_iff]

end

mutual

theorem mem_walk_iff {doPath : List Step} {e : List Step × List (Nat × Bytes)} :
    ∀ {o : DataObject}, e ∈ walk o doPath ↔
      ∃ rest b, o.Declares (o.name :: rest) .sg b ∧ (b.fc = .sg ∨ b.fc = .se) ∧
        e = (doPath ++ rest.map Step.named, b.groupValues)
  | ⟨name, attributes, subObjects, count⟩ => by
      rw [walk, List.mem_append, mem_walkAttributes_iff, mem_walkAll_iff]
      constructor
      · rintro (⟨a, ha, names, b, h, hfc, rfl⟩ | ⟨s, hs, names, b, h, hfc, rfl⟩)
        · obtain ⟨ha, hsg⟩ := List.mem_filter.mp ha
          refine ⟨names, b, ?_, hfc, rfl⟩
          rw [← of_decide_eq_true hsg]
          exact .own ha h
        · exact ⟨names, b, .sub hs h, hfc, rfl⟩
      · rintro ⟨rest, b, h, hfc, rfl⟩
        obtain ⟨fc, hsg⟩ : ∃ fc, fc = Fc.sg := ⟨_, rfl⟩
        rw [← hsg] at h
        cases h with
        | @own _ a _ names ha h =>
          refine Or.inl ⟨a, List.mem_filter.mpr ⟨ha, ?_⟩, rest, b, h, hfc, rfl⟩
          exact decide_eq_true hsg
        | @sub _ s names _ _ hs h =>
          rw [hsg] at h
          exact Or.inr ⟨s, hs, rest, b, h, hfc, rfl⟩

theorem mem_walkAll_iff {before : List Step} {e : List Step × List (Nat × Bytes)} :
    ∀ {os : List DataObject}, e ∈ walkAll os before ↔
      ∃ o ∈ os, ∃ names b, o.Declares names .sg b ∧ (b.fc = .sg ∨ b.fc = .se) ∧
        e = (before ++ names.map Step.named, b.groupValues)
  | [] => by simp [walkAll]
  | o :: os => by
      rw [walkAll, List.mem_append, mem_walk_iff, mem_walkAll_iff, List.exists_mem_cons_iff]
      refine or_congr_left ?_
      constructor
      · rintro ⟨rest, b, h, hfc, rfl⟩
        exact ⟨o.name :: rest, b, h, hfc, by simp [Step.named]⟩
      · rintro ⟨names, b, h, hfc, rfl⟩
        obtain ⟨next, rest, rfl⟩ := h.head
        exact ⟨next :: rest, b, h, hfc, by simp [Step.named]⟩

end

namespace IedModel

variable {m : IedModel} {domain : Bytes} {e : Bytes × List (Nat × Bytes)}

/-- A setting is declared under `SG`, and keeps its values in the groups. -/
theorem exists_declares_of_mem_settingsOf (h : e ∈ m.settingsOf domain) :
    ∃ ln names b, m.Declares domain ln names .sg b ∧ (b.fc = .sg ∨ b.fc = .se) ∧
      e = (declaredText domain ln .sg names, b.groupValues) := by
  unfold settingsOf at h
  split at h
  case h_1 => cases h
  case h_2 ld hld =>
    obtain ⟨hmem, rfl⟩ : ld ∈ m.logicalDevices ∧ ld.name = domain :=
      ⟨List.mem_of_find?_eq_some hld, by simpa using List.find?_some hld⟩
    obtain ⟨s, hs, rfl⟩ := List.mem_map.mp h
    obtain ⟨ln, hln, hs⟩ := List.mem_flatMap.mp hs
    obtain ⟨node, hnode, rfl⟩ := List.mem_map.mp hln
    obtain ⟨path, hpath, rfl⟩ := List.mem_map.mp hs
    obtain ⟨o, ho, names, b, hdeclares, hfc, rfl⟩ := mem_walkAll_iff.mp hpath
    refine ⟨node.name, names, b, .intro hmem hnode ho hdeclares, hfc, ?_⟩
    simp [SettingRef.text, Function.comp_def, Step.named]

/-- What is declared so is a setting. -/
theorem mem_settingsOf_of_declares {reservation : Bool} (hm : m.NamesApart reservation)
    {ln : Bytes} {names : List Bytes} {b : DataAttribute}
    (h : m.Declares domain ln names .sg b) (hfc : b.fc = .sg ∨ b.fc = .se) :
    (declaredText domain ln .sg names, b.groupValues) ∈ m.settingsOf domain := by
  obtain ⟨fc, hsg⟩ : ∃ fc, fc = Fc.sg := ⟨_, rfl⟩
  rw [← hsg] at h
  obtain ⟨hld, hln, ho, h⟩ := h
  rename_i ld node o
  rw [hsg] at h
  have hfound : m.logicalDevice ld.name = some ld := findKey_of_mem hm.once hld rfl
  unfold settingsOf
  rw [hfound]
  dsimp only
  refine List.mem_map.mpr ⟨(⟨node.name, names.map Step.named⟩, b.groupValues), ?_, ?_⟩
  · refine List.mem_flatMap.mpr ⟨node.toLogicalNode, List.mem_map_of_mem hln, ?_⟩
    refine List.mem_map.mpr ⟨(names.map Step.named, b.groupValues), ?_, rfl⟩
    exact mem_walkAll_iff.mpr ⟨o, ho, names, b, h, hfc, rfl⟩
  · simp [SettingRef.text, Function.comp_def, Step.named]

end IedModel

/-! ### Writes that leave a value as it is -/

namespace ValueStore

variable {s : ValueStore} {k : Bytes} {x : Value}

theorem lookup_next {w : Bytes × Value} (hs : s.values.lookup k = some x)
    (h : w.1 = k → w.2 = x) : (s.next w).values.lookup k = some x := by
  rw [next]
  split
  · rename_i s' hwrite
    obtain ⟨v, btype, -, -, -, rfl⟩ := writeLeaf_ok hwrite
    by_cases hk : w.1 = k
    · rw [← hk, AList.lookup_insert, h hk]
    · rw [AList.lookup_insert_ne (Ne.symm hk), hs]
  · exact hs

theorem lookup_after {ws : List (Bytes × Value)} (hs : s.values.lookup k = some x)
    (h : ∀ w ∈ ws, w.1 = k → w.2 = x) : (s.after ws).values.lookup k = some x := by
  induction ws generalizing s with
  | nil => exact hs
  | cons w ws ih =>
    rw [List.forall_mem_cons] at h
    exact ih (lookup_next hs h.1) h.2

theorem after_domains (s : ValueStore) (ws : List (Bytes × Value)) :
    (s.after ws).domains = s.domains := by
  induction ws generalizing s with
  | nil => rfl
  | cons w ws ih => exact (ih (s.next w)).trans (next_domains s w)

/-- What is written to a leaf that takes it is there after the writes, when all of those to the leaf
write it. -/
theorem lookup_after_of_mem {v : Variable} {btype : BType} (hv : s.nodeAt k = some v)
    (hkind : v.kind = .leaf btype) (haccepts : accepts btype x = true)
    {ws : List (Bytes × Value)} (hmem : (k, x) ∈ ws) (h : ∀ w ∈ ws, w.1 = k → w.2 = x) :
    (s.after ws).values.lookup k = some x := by
  induction ws generalizing s with
  | nil => cases hmem
  | cons w ws ih =>
    rw [List.forall_mem_cons] at h
    rcases List.mem_cons.mp hmem with rfl | hmem
    · change ((s.next (k, x)).after ws).values.lookup k = some x
      refine lookup_after ?_ h.2
      obtain ⟨name, kind, children⟩ := v
      cases hkind
      rw [next, writeLeaf, hv]
      dsimp only
      rw [if_pos haccepts]
      exact AList.lookup_insert _
    · refine ih ?_ hmem h.2
      rw [nodeAt_congr (next_domains s w), hv]

end ValueStore

/-! ### The start -/

section Start

variable {m : IedModel} {t : Decimals} {s : ValueStore} {g : DeviceGroups}

theorem mem_inOrder {values : LeafValues} {e : Bytes × Value} :
    e ∈ inOrder values ↔ values.lookup e.1 = some e.2 := by
  obtain ⟨k, x⟩ := e
  rw [inOrder, List.mem_mergeSort, List.mem_map, AList.lookup, ← Option.mem_def,
    List.mem_dlookup_iff values.nodupKeys]
  constructor
  · rintro ⟨⟨k', x'⟩, hmem, heq⟩
    cases heq
    exact hmem
  · intro hmem
    exact ⟨⟨k, x⟩, hmem, rfl⟩

/-- The block of a device is a control block of one of its logical nodes. -/
theorem exists_block_of_mem_settingDevices (reservation : Bool) (hg : g ∈ settingDevices m t s) :
    ∃ ld ∈ m.logicalDevices, ∃ ln ∈ ld.nodes, ∃ v, (Fc.sp, v) ∈ controlBlocks reservation ln ∧
      g = DeviceGroups.start m t s (blockRef ld.name ln.name .sp v.name) ld.name := by
  obtain ⟨ld, hld, hg⟩ := List.mem_flatMap.mp hg
  obtain ⟨ln, hln, hg⟩ := List.mem_flatMap.mp hg
  obtain ⟨sg, hsg, rfl⟩ := List.mem_map.mp hg
  refine ⟨ld, hld, ln, hln, ⟨ascii "SGCB", .struct, sgcbComponents⟩, ?_, rfl⟩
  simp only [controlBlocks, List.mem_append]
  exact Or.inr (List.mem_map.mpr ⟨sg, hsg, rfl⟩)

/-- Two devices with one block are of one domain. -/
theorem domain_eq_of_block_eq {reservation : Bool} (hm : m.NamesApart reservation)
    {g' : DeviceGroups} (hg : g ∈ settingDevices m t s) (hg' : g' ∈ settingDevices m t s)
    (h : g.block = g'.block) : g.domain = g'.domain := by
  obtain ⟨ld, hld, ln, -, b, -, rfl⟩ := exists_block_of_mem_settingDevices reservation hg
  obtain ⟨ld', hld', ln', -, b', -, rfl⟩ := exists_block_of_mem_settingDevices reservation hg'
  exact (cut_at (hm.domains ld hld).1 (hm.domains ld' hld').1 h).1

/-- What a group has of a setting is a value that the file gives the setting in a group, or the one
that the model holds. -/
theorem exists_of_lookup_start {block domain : Bytes} {group : Nat} {values : LeafValues}
    (hvalues : (DeviceGroups.start m t s block domain).values group = some values) {k : Bytes}
    {x : Value} (hx : values.lookup k = some x) :
    ∃ ln names b, m.Declares domain ln names .sg b ∧ (b.fc = .sg ∨ b.fc = .se) ∧
      k = declaredText domain ln .sg names ∧
      startValue m t s group (k, b.groupValues) = some x := by
  rw [DeviceGroups.start] at hvalues
  dsimp only at hvalues
  split at hvalues
  · cases hvalues
    obtain ⟨e, he, heq⟩ := List.mem_map.mp (mem_of_lookup_mapOf hx)
    obtain ⟨ln, names, b, hdeclares, hfc, rfl⟩ := IedModel.exists_declares_of_mem_settingsOf he
    rw [Prod.mk.injEq] at heq
    obtain ⟨rfl, hstart⟩ := heq
    exact ⟨ln, names, b, hdeclares, hfc, rfl, hstart⟩
  · cases hvalues

end Start

variable {devices : List DeviceGroups} {s : ValueStore} {k domain ln : Bytes} {x : Value}
  {names : List Bytes}

/-- Putting a group into force leaves a value as it is, when the groups have the same value of it
and the block is elsewhere. -/
theorem lookup_applyGroup (hs : s.values.lookup k = some x)
    (hvalues : ∀ g ∈ devices, ∀ group values, g.values group = some values →
      values.lookup k = none ∨ values.lookup k = some x)
    (hblocks : ∀ g ∈ devices, attributeOf g.block (ascii "ActSG") ≠ k) (domain : Bytes)
    (group : Nat) : (applyGroup devices s domain group).values.lookup k = some x := by
  unfold applyGroup
  split
  · exact hs
  · rename_i g hg
    have hmem : g ∈ devices := List.mem_of_find?_eq_some hg
    split
    · exact hs
    · rename_i values hgroup
      refine ValueStore.lookup_next (ValueStore.lookup_after hs ?_) ?_
      · rintro ⟨k', y⟩ hw rfl
        rw [mem_inOrder] at hw
        rcases hvalues g hmem group values hgroup with hnone | hsome
        · rw [hnone] at hw
          cases hw
        · rw [hsome] at hw
          exact (Option.some.inj hw).symm
      · exact fun heq => absurd heq (hblocks g hmem)

theorem lookup_activateInitial (hs : s.values.lookup k = some x)
    (hvalues : ∀ g ∈ devices, ∀ group values, g.values group = some values →
      values.lookup k = none ∨ values.lookup k = some x)
    (hblocks : ∀ g ∈ devices, attributeOf g.block (ascii "ActSG") ≠ k) :
    (activateInitial devices s).values.lookup k = some x := by
  unfold activateInitial
  dsimp only
  generalize devices.map (fun g => (g.domain,
    (s.number (attributeOf g.block (ascii "ActSG"))).getD 1)) = plan
  induction plan generalizing s with
  | nil => exact hs
  | cons e plan ih => exact ih (lookup_applyGroup hs hvalues hblocks e.1 e.2)

theorem applyGroup_after (devices : List DeviceGroups) (s : ValueStore) (domain : Bytes)
    (group : Nat) : ∃ ws, applyGroup devices s domain group = s.after ws := by
  unfold applyGroup
  split
  · exact ⟨[], rfl⟩
  · split
    · exact ⟨[], rfl⟩
    · rename_i g hg _ values hgroup
      refine ⟨inOrder values ++ [(attributeOf g.block (ascii "ActSG"), .unsigned group)], ?_⟩
      rw [ValueStore.after, ValueStore.after, List.foldl_append]
      rfl

theorem activateInitial_after (devices : List DeviceGroups) (s : ValueStore) :
    ∃ ws, activateInitial devices s = s.after ws := by
  unfold activateInitial
  dsimp only
  generalize devices.map (fun g => (g.domain,
    (s.number (attributeOf g.block (ascii "ActSG"))).getD 1)) = plan
  induction plan generalizing s with
  | nil => exact ⟨[], rfl⟩
  | cons e plan ih =>
    obtain ⟨ws, hws⟩ := applyGroup_after devices s e.1 e.2
    obtain ⟨ws', hws'⟩ := ih (applyGroup devices s e.1 e.2)
    refine ⟨ws ++ ws', ?_⟩
    rw [List.foldl_cons, hws', hws, ValueStore.after, ValueStore.after, ValueStore.after,
      List.foldl_append]

/-! ### The copy under `SE` -/

/-- The edit copy of a setting that is in no array. -/
def AttributePlace.Copied (pl : AttributePlace) : Prop :=
  pl.Single ∧ pl.declared = .sg ∧ pl.view = .se ∧ (pl.target.fc = .sg ∨ pl.target.fc = .se)

instance (pl : AttributePlace) : Decidable pl.Copied :=
  inferInstanceAs (Decidable (_ ∧ _ ∧ _ ∧ (_ ∨ _)))

theorem editReference_append {a : Bytes} (h : sep ∉ a) (b : Bytes) :
    editReference (a ++ b) = a ++ editReference b := by
  induction a with
  | nil => rfl
  | cons c a ih =>
    rw [List.mem_cons, not_or] at h
    have hfirst : (ascii "$SG$").isPrefixOf (c :: (a ++ b)) = false := by
      change (sep == c && _) = false
      rw [beq_false_of_ne h.1, Bool.false_and]
    rw [List.cons_append, editReference, hfirst, ih h.2]
    rfl

theorem editReference_declared (hdomain : sep ∉ domain) (hln : sep ∉ ln) (hnames : names ≠ []) :
    editReference (declaredText domain ln .sg names) = declaredText domain ln .se names := by
  obtain ⟨name, names, rfl⟩ := List.exists_cons_of_ne_nil hnames
  have htext : ∀ fc, declaredText domain ln fc (name :: names) =
      (domain ++ slash :: ln) ++ (sep :: fc.asStr ++ sep :: (name ++
        names.flatMap fun name => sep :: name)) := by
    intro fc
    simp [declaredText, referenceOf]
  have hbefore : sep ∉ domain ++ slash :: ln := by
    rw [List.mem_append, List.mem_cons, not_or, not_or]
    exact ⟨hdomain, by decide, hln⟩
  rw [htext, htext, editReference_append hbefore]
  rfl

/-- A declaration is found under its text. -/
theorem locusOf_declaredText (hdomain : slash ∉ domain) (hln : sep ∉ ln)
    (hnames : ∀ name ∈ names, PlainName name) (fc : Fc) :
    locusOf (declaredText domain ln fc names) = some (declaredLocus domain ln fc names) := by
  have hplain : ∀ name ∈ fc.asStr :: names, PlainName name :=
    List.forall_mem_cons.mpr ⟨plainName_asStr fc, hnames⟩
  have hitem : (ln ++ sep :: fc.asStr ++ names.flatMap fun name => sep :: name).splitOn sep =
      ln :: fc.asStr :: names := by
    have hjoined : ln ++ sep :: fc.asStr ++ (names.flatMap fun name => sep :: name) =
        ln ++ (fc.asStr :: names).flatMap fun name => sep :: name := by
      rw [List.flatMap_cons, List.append_assoc]
    rw [hjoined]
    exact ObjectReference.splitOn_joined hln fun name hname => (hplain name hname).1
  have hsteps : ((fc.asStr :: names).map stepOf).flatMap Step.selectors =
      (fc.asStr :: names).map Selector.component := by
    rw [List.flatMap_map, List.map_eq_flatMap]
    apply List.flatMap_congr
    intro name hname
    rw [stepOf_of_not_mem (hplain name hname).2]
    rfl
  rw [locusOf, declaredText, referenceOf, ObjectReference.splitOnce_append hdomain]
  dsimp only
  rw [hitem]
  dsimp only
  rw [hsteps]
  rfl

/-! ### A group is selected -/

theorem deviceOf_modifyDevice {f : DeviceGroups → DeviceGroups} (hf : ∀ g, (f g).domain = g.domain)
    (devices : List DeviceGroups) :
    deviceOf (modifyDevice domain f devices) domain = (deviceOf devices domain).map f := by
  induction devices with
  | nil => rfl
  | cons g devices ih =>
    rw [modifyDevice]
    split
    · rename_i hg
      rw [deviceOf, deviceOf, List.find?_cons_of_pos (by simp [hf, hg]),
        List.find?_cons_of_pos (by simp [hg])]
      rfl
    · rename_i hg
      rw [deviceOf, deviceOf, List.find?_cons_of_neg (by simp [hg]),
        List.find?_cons_of_neg (by simp [hg])]
      exact ih

theorem expire_fixed (g : DeviceGroups) (now : Instant) :
    (g.expire now).domain = g.domain ∧ (g.expire now).block = g.block ∧
      (g.expire now).count = g.count ∧ (g.expire now).values = g.values := by
  unfold DeviceGroups.expire
  split <;> exact ⟨rfl, rfl, rfl, rfl⟩

theorem deviceOf_expire (devices : List DeviceGroups) (now : Instant) (domain : Bytes) :
    deviceOf (devices.map fun g => g.expire now) domain =
      (deviceOf devices domain).map fun g => g.expire now := by
  change findKey DeviceGroups.domain domain _ = (findKey DeviceGroups.domain domain _).map _
  rw [findKey_map]
  congr 2
  funext g
  exact (expire_fixed g now).1

namespace SettingServer

variable {s s' : SettingServer} {assoc : AssocId} {block : Bytes} {value : Value} {now : Instant}

/-- What the selection of a group does: the values of the group are copied, and the block of the
device stays what it is. -/
theorem selectGroup_ok (h : s.selectGroup assoc block value now = (s', .ok ()))
    {own g : DeviceGroups} (hown : s.devices.find? (fun g => g.block = block) = some own)
    (hg : deviceOf s.devices own.domain = some g) {group : Nat}
    (hgroup : unsignedOf value = some group) (hpos : group ≠ 0) : group ≤ g.count ∧
      s'.store = s.store.after ((inOrder ((g.values group).getD ∅)).map fun e =>
        (editReference e.1, e.2)) ∧
      ∃ g', deviceOf s'.devices own.domain = some g' ∧ g'.block = g.block := by
  obtain ⟨hdomain, hblock, hcount, hvalues⟩ := expire_fixed g now
  unfold selectGroup at h
  rw [hown] at h
  dsimp only at h
  rw [hgroup, deviceOf_expire, hg] at h
  simp only [Option.map_some] at h
  rw [if_neg hpos, hcount] at h
  split at h
  · cases (Prod.mk.inj h).2
  · rename_i hle
    split at h
    · cases (Prod.mk.inj h).2
    · rw [hvalues] at h
      cases (Prod.mk.inj h).1
      refine ⟨Nat.le_of_not_lt hle, rfl, ?_⟩
      have hdevice : (deviceOf (s.devices.map fun g => g.expire now) own.domain) =
          some (g.expire now) := by
        rw [deviceOf_expire, hg]
        rfl
      exact ⟨_, (deviceOf_modifyDevice (by exact fun _ => rfl) _).trans
        (congrArg (Option.map _) hdevice), hblock⟩

/-- And what the write of `EditSG` does around it. -/
theorem writeEditSG_ok (h : s.writeEditSG assoc block value now = (s', .ok ())) :
    ∃ s'', s.selectGroup assoc block value now = (s'', .ok ()) ∧ s'.devices = s''.devices ∧
      s''.store.writeLeaf (attributeOf block (ascii "EditSG")) value = .ok s'.store := by
  unfold writeEditSG at h
  split at h
  · cases (Prod.mk.inj h).2
  · rename_i s'' hselect
    split at h
    · cases (Prod.mk.inj h).2
    · rename_i store hwrite
      cases (Prod.mk.inj h).1
      exact ⟨s'', hselect, rfl, hwrite⟩

end SettingServer

namespace AttributePlace.Published

variable {reservation : Bool} {m : IedModel} {pl : AttributePlace} (hpl : pl.Published m)
  (hm : m.NamesApart reservation) {t : Decimals} {text : Bytes} {v : Value}
  (hvalue : m.value pl.declaration = some text)
  (hparse : parseEngineered m t pl.declaration pl.target.btype text = some v)
  (hleaf : pl.target.children = [])
include hpl hm hvalue hparse hleaf

/-- When the server starts, the value under the text of a place is what it is when the variables are
built. -/
theorem lookup_start (hgroups : pl.view = .sg → pl.target.groupValues = []) :
    (SettingServer.start reservation m t).store.values.lookup pl.locus.text =
      some (if pl.Single ∧ pl.view = pl.declared then v else defaultValue pl.target.btype) := by
  have hbuilt := hpl.lookup_build hm t hvalue hparse hleaf
  apply lookup_activateInitial hbuilt
  · intro g hg group values hvalues
    cases hfound : values.lookup pl.locus.text with
    | none => exact Or.inl rfl
    | some x =>
      right
      obtain ⟨ld, -, ln, -, b, -, rfl⟩ := exists_block_of_mem_settingDevices reservation hg
      obtain ⟨node, names, b, h, -, htext, hx⟩ := exists_of_lookup_start hvalues hfound
      obtain ⟨-, hview, -, rfl, -⟩ := eq_of_declaredText hm h hpl htext.symm
      rw [hgroups hview.symm] at hx
      rw [← hbuilt]
      exact hx.symm
  · intro g hg
    obtain ⟨ld, hld, ln, hln, b, hb, rfl⟩ := exists_block_of_mem_settingDevices reservation hg
    exact hpl.text_ne_block hm hld hln hb _

theorem lookup_declaration (hsingle : pl.Single) (hdeclared : pl.declared = .sg) :
    (ValueStore.build reservation m t).values.lookup pl.declaration = some v := by
  have hunder : (pl.under .sg).Published m := by
    apply hpl.under
    rw [hdeclared]
    rfl
  have htext : (pl.under .sg).locus.text = pl.declaration := by
    rw [@text_of_single (pl.under .sg) hsingle, declaration, hdeclared]
    rfl
  have hlookup := hunder.lookup_build hm t hvalue hparse hleaf
  rw [if_pos ⟨hsingle, hdeclared.symm⟩, htext] at hlookup
  exact hlookup

variable (hgroups : pl.target.groupValues = []) {group : Nat} {values : LeafValues}
  {block : Bytes} (hvalues : (DeviceGroups.start m t (ValueStore.build reservation m t) block
    pl.domain).values group = some values)
include hgroups hvalues

/-- What is copied to the text of a place is the engineered value of a setting that is in no
array. -/
theorem eq_of_copied {e : Bytes × Value} (he : e ∈ inOrder values)
    (hedit : editReference e.1 = pl.locus.text) : pl.Copied ∧ e.2 = v := by
  obtain ⟨k, x⟩ := e
  rw [mem_inOrder] at he
  obtain ⟨node, names, b, h, hfc, rfl, hx⟩ := exists_of_lookup_start hvalues he
  obtain ⟨-, hsep, hnode, -⟩ := h.plain hm
  rw [editReference_declared hsep hnode.1 h.ne_nil] at hedit
  obtain ⟨hsingle, hview, hdeclared, rfl, hdeclaration⟩ := eq_of_declaredText hm h hpl hedit
  refine ⟨⟨hsingle, hdeclared.symm, hview.symm, hfc⟩, ?_⟩
  have hheld := hpl.lookup_declaration hm hvalue hparse hleaf hsingle hdeclared.symm
  rw [hgroups, hdeclaration] at hx
  exact Option.some.inj (hx.symm.trans hheld)

theorem exists_copied (h : pl.Copied) :
    ∃ e ∈ inOrder values, editReference e.1 = pl.locus.text := by
  obtain ⟨hsingle, hdeclared, hview, hfc⟩ := h
  have hdeclares := hpl.declared
  have hheld := hpl.lookup_declaration hm hvalue hparse hleaf hsingle hdeclared
  rw [declaration] at hheld
  rw [hdeclared] at hdeclares hheld
  obtain ⟨-, hsep, hnode, -⟩ := hdeclares.plain hm
  have hentry : (declaredText pl.domain pl.ln .sg (pl.path.map Step.name), some v) ∈
      (m.settingsOf pl.domain).map fun r =>
        (r.1, startValue m t (ValueStore.build reservation m t) group r) := by
    refine List.mem_map.mpr ⟨_, IedModel.mem_settingsOf_of_declares hm hdeclares hfc, ?_⟩
    rw [hgroups]
    exact Prod.ext rfl hheld
  rw [DeviceGroups.start] at hvalues
  dsimp only at hvalues
  split at hvalues
  case isFalse => cases hvalues
  case isTrue =>
    cases hvalues
    obtain ⟨x, hx⟩ := Option.isSome_iff_exists.mp (isSome_lookup_mapOf hentry)
    refine ⟨(declaredText pl.domain pl.ln .sg (pl.path.map Step.name), x), mem_inOrder.mpr hx, ?_⟩
    dsimp only
    rw [editReference_declared hsep hnode.1 hdeclares.ne_nil, text_of_single hsingle, hview]

end AttributePlace.Published

/-! ### What is read of an engineered value -/

/-- The states in which what is under a constraint of a domain is read: when the server has started,
and, under `SE`, when a group of the device has been selected in addition. -/
inductive Readable (reservation : Bool) (m : IedModel) (t : Decimals) :
    Fc → Bytes → SettingServer → Prop where
  | started {view : Fc} {domain : Bytes} (hview : view ≠ .se) :
      Readable reservation m t view domain (.start reservation m t)
  | selected {domain : Bytes} {g : DeviceGroups} {assoc : AssocId} {value : Value} {now : Instant}
      {group : Nat} {s' : SettingServer}
      (hg : deviceOf (SettingServer.start reservation m t).devices domain = some g)
      (hwrite : (SettingServer.start reservation m t).writeEditSG assoc g.block value now =
        (s', .ok ()))
      (hgroup : unsignedOf value = some group) (hpos : group ≠ 0) :
      Readable reservation m t .se domain s'

/-- After a group has been selected, its values have been copied and the edit copy is read. -/
theorem selected_ok {reservation : Bool} {m : IedModel} (hm : m.NamesApart reservation)
    {t : Decimals} {domain : Bytes} {g : DeviceGroups} {assoc : AssocId} {value : Value}
    {now : Instant} {group : Nat} {s' : SettingServer}
    (hg : deviceOf (SettingServer.start reservation m t).devices domain = some g)
    (hwrite : (SettingServer.start reservation m t).writeEditSG assoc g.block value now =
      (s', .ok ())) (hgroup : unsignedOf value = some group) (hpos : group ≠ 0) :
    (∃ values, (DeviceGroups.start m t (ValueStore.build reservation m t) g.block domain).values
        group = some values ∧
      ((SettingServer.start reservation m t).store.after ((inOrder values).map fun e =>
        (editReference e.1, e.2))).writeLeaf (attributeOf g.block (ascii "EditSG")) value =
          .ok s'.store) ∧ s'.onEditRead domain = .ok () := by
  have hmem : g ∈ settingDevices m t (ValueStore.build reservation m t) :=
    List.mem_of_find?_eq_some hg
  have hdomain : g.domain = domain := by simpa using List.find?_some hg
  obtain ⟨own, hown⟩ : ∃ own, (SettingServer.start reservation m t).devices.find?
      (fun own => own.block = g.block) = some own := by
    apply Option.isSome_iff_exists.mp
    rw [List.find?_isSome]
    exact ⟨g, hmem, by simp⟩
  have howndomain : own.domain = domain := by
    rw [← hdomain]
    exact domain_eq_of_block_eq hm (List.mem_of_find?_eq_some hown) hmem
      (by simpa using List.find?_some hown)
  obtain ⟨s'', hselect, hdevices, hstore⟩ := SettingServer.writeEditSG_ok hwrite
  obtain ⟨hle, hfill, g', hg', hblock⟩ := SettingServer.selectGroup_ok hselect hown
    (howndomain.symm ▸ hg) hgroup hpos
  constructor
  · obtain ⟨ld, -, ln, -, b, -, hstart⟩ := exists_block_of_mem_settingDevices reservation hmem
    have hvalues : (DeviceGroups.start m t (ValueStore.build reservation m t) g.block domain).values
        group = g.values group ∧ g.values group = some
          (mapOf ((m.settingsOf domain).map fun r =>
            (r.1, startValue m t (ValueStore.build reservation m t) group r))) := by
      rw [hstart] at hle hdomain ⊢
      have hdomain : ld.name = domain := hdomain
      subst hdomain
      exact ⟨rfl, if_pos ⟨Nat.one_le_iff_ne_zero.mpr hpos, hle⟩⟩
    refine ⟨_, hvalues.1.trans hvalues.2, ?_⟩
    rw [hvalues.2, Option.getD_some] at hfill
    rw [← hfill]
    exact hstore
  · obtain ⟨v, btype, -, -, -, hvalues⟩ := ValueStore.writeLeaf_ok hstore
    have hnumber : s'.store.number (attributeOf g'.block (ascii "EditSG")) = some group := by
      rw [hblock, hvalues, ValueStore.number]
      dsimp only
      rw [AList.lookup_insert, Option.bind_some, hgroup]
    rw [SettingServer.onEditRead, hdevices, ← howndomain, hg']
    dsimp only
    rw [hnumber, Option.getD_some, if_neg hpos]

/-- Where an engineered value arrives: under the constraint of its declaration, and in the edit copy
of a setting, when no array is on the way. -/
def AttributePlace.Filled (pl : AttributePlace) : Prop :=
  (pl.Single ∧ pl.view = pl.declared) ∨ pl.Copied

instance (pl : AttributePlace) : Decidable pl.Filled := inferInstanceAs (Decidable (_ ∨ _))

namespace AttributePlace.Published

variable {reservation : Bool} {m : IedModel} {pl : AttributePlace} (hpl : pl.Published m)
  (hm : m.NamesApart reservation) {t : Decimals}
include hpl hm

/-- A place without an array on the way is found under its text. -/
theorem nodeAt_start {text : Bytes} {v : Value}
    (hparse : parseEngineered m t pl.declaration pl.target.btype text = some v)
    (hleaf : pl.target.children = []) (hsingle : pl.Single) :
    (SettingServer.start reservation m t).store.nodeAt pl.locus.text =
      some ⟨pl.target.name, .leaf pl.target.btype, []⟩ := by
  obtain ⟨ws, hws⟩ := activateInitial_after (settingDevices m t (ValueStore.build reservation m t))
    (ValueStore.build reservation m t)
  have hdomains : (SettingServer.start reservation m t).store.domains =
      (ValueStore.build reservation m t).domains := by
    change (activateInitial _ _).domains = _
    rw [hws, ValueStore.after_domains]
  obtain ⟨hslash, -, hln, hnames⟩ := hpl.declared.plain hm
  have hlocus : locusOf pl.locus.text = some pl.locus := by
    have hdeclared : pl.locus = declaredLocus pl.domain pl.ln pl.view (pl.path.map Step.name) :=
      locus_of_single hsingle
    rw [text_of_single hsingle, locusOf_declaredText hslash hln.1 hnames, hdeclared]
  obtain ⟨item, -, -, hat⟩ := exists_item_of_locusOf hlocus
  rw [ValueStore.nodeAt_congr hdomains, (hat _).1, hpl.nodeIn hm t, body_of_leaf hparse hleaf]

section Leaf

variable {text : Bytes} {v : Value} (hvalue : m.value pl.declaration = some text)
  (hparse : parseEngineered m t pl.declaration pl.target.btype text = some v)
  (hleaf : pl.target.children = [])
  (hgroups : pl.view = .sg ∨ pl.view = .se → pl.target.groupValues = [])
include hvalue hparse hleaf hgroups

theorem lookup_readable {s : SettingServer} (hs : Readable reservation m t pl.view pl.domain s) :
    s.store.values.lookup pl.locus.text =
      some (if pl.Filled then v else defaultValue pl.target.btype) := by
  have hstart := hpl.lookup_start hm hvalue hparse hleaf fun hview => hgroups (Or.inl hview)
  generalize hview : pl.view = view at hs
  generalize hdomain : pl.domain = domain at hs
  cases hs with
  | started hne =>
    have hcopied : ¬ pl.Copied := fun h => hne (hview.symm.trans h.2.2.1)
    rw [hstart]
    simp only [Filled, hcopied, or_false]
  | @selected _ g assoc value now group s' hg hwrite hgroup hpos =>
    subst hdomain
    have hgroups := hgroups (Or.inr hview)
    obtain ⟨⟨values, hvalues, hstore⟩, -⟩ := selected_ok hm hg hwrite hgroup hpos
    have hother : attributeOf g.block (ascii "EditSG") ≠ pl.locus.text := by
      have hmem : g ∈ settingDevices m t (ValueStore.build reservation m t) :=
        List.mem_of_find?_eq_some hg
      obtain ⟨ld, hld, ln, hln, b, hb, hstart⟩ :=
        exists_block_of_mem_settingDevices reservation hmem
      rw [hstart]
      exact hpl.text_ne_block hm hld hln hb _
    obtain ⟨-, -, -, -, -, hstore⟩ := ValueStore.writeLeaf_ok hstore
    rw [hstore]
    dsimp only
    rw [AList.lookup_insert_ne (Ne.symm hother)]
    by_cases hcopied : pl.Copied
    · have hfilled : pl.Filled := Or.inr hcopied
      rw [if_pos hfilled]
      apply ValueStore.lookup_after_of_mem (hpl.nodeAt_start hm hparse hleaf hcopied.1) rfl
      · exact accepts_of_parseEngineeredTyped hparse
      · obtain ⟨e, he, hedit⟩ :=
          hpl.exists_copied hm hvalue hparse hleaf hgroups hvalues hcopied
        obtain ⟨-, hx⟩ := hpl.eq_of_copied hm hvalue hparse hleaf hgroups hvalues he hedit
        exact List.mem_map.mpr ⟨e, he, Prod.ext hedit hx⟩
      · rw [List.forall_mem_map]
        intro e he hedit
        exact (hpl.eq_of_copied hm hvalue hparse hleaf hgroups hvalues he hedit).2
    · apply ValueStore.lookup_after
      · rw [hstart]
        simp only [Filled, hcopied, or_false]
      · rw [List.forall_mem_map]
        intro e he hedit
        exact absurd (hpl.eq_of_copied hm hvalue hparse hleaf hgroups hvalues he hedit).1 hcopied

end Leaf

end AttributePlace.Published

/-- No text engineers a structure. -/
theorem parseEngineered_ne_structure {m : IedModel} {t : Decimals} {reference text : Bytes}
    {btype : BType} {xs : List Value}
    (h : parseEngineered m t reference btype text = some (.structure xs)) : False := by
  rw [parseEngineered] at h
  cases btype
  all_goals
    simp only [parseEngineeredTyped, Option.map_eq_some_iff, Option.some.injEq, reduceCtorEq,
      and_false, exists_false] at h

/-- A read of the reference shows the value where the path selects it (`ValueStore.Shows`, of a
server). -/
def SettingServer.Shows (s : SettingServer) (reader : Bytes) (path : List Selector)
    (value : Value) : Prop :=
  ∃ v x, s.store.nodeAt reader = some v ∧ s.readReference reader = .ok x ∧
    partAt v x path = some value

/-- Where no group need be selected or one is, a server shows what its variables show. -/
theorem SettingServer.shows_iff {s : SettingServer} {reader : Bytes} {c : Locus}
    (hreader : locusOf reader = some c)
    (hopen : s.underEdit reader = true → s.onEditRead c.domain = .ok ()) (path : List Selector)
    (value : Value) : s.Shows reader path value ↔ s.store.Shows reader path value := by
  have hread : ∀ x, s.readReference reader = .ok x ↔ s.store.readReference reader = some x := by
    intro x
    unfold locusOf at hreader
    split at hreader
    case h_1 => cases hreader
    case h_2 domain item hsplit =>
      have hdomain : domain = c.domain := by
        split at hreader
        · cases hreader
        · cases hreader
          rfl
      have hungated : s.readReference reader =
          (s.store.read domain item).elim (.error dataAccessNonExistent) .ok := by
        rw [readReference, hsplit]
        dsimp only
        split
        · rename_i hunder
          rw [hdomain, hopen hunder]
          cases s.store.read c.domain item <;> rfl
        · cases s.store.read domain item <;> rfl
      rw [hungated, ValueStore.readReference, hsplit]
      dsimp only
      cases hvalue : s.store.read domain item with
      | none => exact iff_of_false (fun h => by cases h) (fun h => by cases h)
      | some y =>
        change Except.ok y = Except.ok x ↔ some y = some x
        rw [Except.ok.injEq, Option.some.injEq]
  constructor
  · rintro ⟨v, x, hv, hx, hpart⟩
    exact ⟨v, x, hv, (hread x).mp hx, hpart⟩
  · rintro ⟨v, x, hv, hx, hpart⟩
    exact ⟨v, x, hv, (hread x).mpr hx, hpart⟩

/-- The trees stay what they are built to be, and every leaf keeps a value. -/
theorem Readable.store {reservation : Bool} {m : IedModel} (hm : m.NamesApart reservation)
    {t : Decimals} {view : Fc} {domain : Bytes} {s : SettingServer}
    (hs : Readable reservation m t view domain s) :
    s.store.Seeded ∧ s.store.domains = (ValueStore.build reservation m t).domains := by
  have hstart : (SettingServer.start reservation m t).store.Seeded ∧
      (SettingServer.start reservation m t).store.domains =
        (ValueStore.build reservation m t).domains := by
    obtain ⟨ws, hws⟩ := activateInitial_after
      (settingDevices m t (ValueStore.build reservation m t)) (ValueStore.build reservation m t)
    change (activateInitial _ _).Seeded ∧ (activateInitial _ _).domains = _
    rw [hws, ValueStore.after_domains]
    exact ⟨(ValueStore.build_seeded reservation m t).after ws, rfl⟩
  cases hs with
  | started hview => exact hstart
  | selected hg hwrite hgroup hpos =>
    obtain ⟨⟨values, -, hstore⟩, -⟩ := selected_ok hm hg hwrite hgroup hpos
    refine ⟨(hstart.1.after _).writeLeaf hstore, ?_⟩
    obtain ⟨v, btype, -, -, -, hstore⟩ := ValueStore.writeLeaf_ok hstore
    rw [hstore]
    dsimp only
    rw [ValueStore.after_domains, hstart.2]

/-- Of an attribute that the file engineers a value for, without groups when it is read as a
setting: at a place of it, in its own reference or inside of what is around it, the value is read
when the attribute has no components and the value arrives there, or is the default of the type, and
in no other case. -/
theorem engineered_readBack_iff {reservation : Bool} {m : IedModel} (hm : m.NamesApart reservation)
    {pl : AttributePlace} (hpl : pl.Published m) {t : Decimals} {text : Bytes} {v : Value}
    (hvalue : m.value pl.declaration = some text)
    (hparse : parseEngineered m t pl.declaration pl.target.btype text = some v)
    (hgroups : pl.view = .sg ∨ pl.view = .se → pl.target.groupValues = []) {s : SettingServer}
    (hs : Readable reservation m t pl.view pl.domain s) {reader : Bytes} {c : Locus}
    {path : List Selector} (hreader : locusOf reader = some c) (hplain : c.text = reader)
    (hwithin : pl.locus.Within c path) : s.Shows reader path v ↔
      pl.target.children = [] ∧ (pl.Filled ∨ defaultValue pl.target.btype = v) := by
  obtain ⟨hseeded, hdomains⟩ := hs.store hm
  have hnode : s.store.nodeIn pl.locus =
      some ((FcdaNode.attribute pl.target).body pl.view) := by
    rw [← hpl.nodeIn hm t, ValueStore.nodeIn, ValueStore.nodeIn, ValueStore.domain,
      ValueStore.domain, hdomains]
  have hopen : s.underEdit reader = true → s.onEditRead c.domain = .ok () := by
    have hdomain : c.domain = pl.domain := hwithin.domain
    intro hunder
    rw [hdomain]
    generalize hview : pl.view = view at hs
    cases hs with
    | started hne =>
      refine absurd ?_ hne
      rw [SettingServer.underEdit, hreader, Bool.and_eq_true] at hunder
      have hhead : c.selectors.head? = some (.component Fc.se.asStr) :=
        of_decide_eq_true hunder.2
      have hselectors := hwithin.selectors
      obtain ⟨rest, hrest⟩ : ∃ rest, c.selectors = .component Fc.se.asStr :: rest := by
        cases hc : c.selectors with
        | nil =>
          rw [hc] at hhead
          cases hhead
        | cons first rest =>
          rw [hc] at hhead
          cases hhead
          exact ⟨rest, rfl⟩
      rw [hrest, AttributePlace.locus, List.cons_append, List.cons.injEq,
        Selector.component.injEq, Fc.asStr_inj, hview] at hselectors
      exact hselectors.1.symm
    | selected hg hwrite hgroup hpos => exact (selected_ok hm hg hwrite hgroup hpos).2
  rw [SettingServer.shows_iff hreader hopen, hseeded.shows_part hnode hwithin hreader hplain]
  by_cases hleaf : pl.target.children = []
  · have hlookup := hpl.lookup_readable hm hvalue hparse hleaf hgroups hs
    rw [AttributePlace.Published.body_of_leaf hparse hleaf, readNode]
    change s.store.values.lookup pl.locus.text = some v ↔ _
    rw [hlookup, Option.some.injEq]
    by_cases hfilled : pl.Filled
    · rw [if_pos hfilled]
      exact iff_of_true rfl ⟨hleaf, Or.inl hfilled⟩
    · rw [if_neg hfilled]
      simp only [hleaf, hfilled, true_and, false_or]
  · refine iff_of_false ?_ fun h => hleaf h.1
    -- a structure is read as a structure, and no text engineers one
    rw [FcdaNode.body, if_neg (by simpa using hleaf), readNode, Option.map_eq_some_iff]
    rintro ⟨xs, -, rfl⟩
    exact parseEngineered_ne_structure hparse

/-- An array of three numbers, engineered as 7. -/
def sevens : DataAttribute := ⟨ascii "a", .sp, .int8, [], [], some 3⟩

def sevensObject : DataObject := ⟨ascii "HA", [sevens], [], none⟩

def sevensNode : NodeModel := .plain ⟨ascii "M", [sevensObject]⟩

def sevensDevice : DeviceModel := ⟨ascii "0", ascii "D", [sevensNode]⟩

def sevensModel : IedModel := ⟨[sevensDevice], [], fun _ => some (ascii "7"), fun _ => none⟩

theorem sevensModel_namesApart : sevensModel.NamesApart true where
  once := by decide
  domains := by decide
  devices := by
    intro ld hld
    obtain rfl := List.mem_singleton.mp hld
    refine ⟨by decide, by decide, ?_⟩
    intro ln hln
    obtain rfl := List.mem_singleton.mp hln
    refine ⟨by decide, fun fc => List.nodup_nil, fun fc v _ => nofun, by decide, nofun, ?_⟩
    intro o ho
    obtain rfl := List.mem_singleton.mp ho
    refine .intro _ (by decide) (by decide) (by decide) ?_ nofun
    exact List.forall_mem_singleton.mpr (.intro _ List.nodup_nil nofun nofun)

/-- The second of the numbers. -/
def secondSeven : AttributePlace :=
  ⟨ascii "D", ascii "M", .sp, .sp, [⟨ascii "HA", none⟩, ⟨ascii "a", some 1⟩], sevens⟩

theorem secondSeven_published : secondSeven.Published sevensModel := by
  have hreaches : sevensObject.Reaches secondSeven.path .sp sevens :=
    .own (a := sevens) .whole (List.mem_singleton_self _) (.self (.element (by decide)))
  exact @AttributePlace.Published.intro sevensModel sevensDevice sevensNode sevensObject .sp .sp _
    sevens (List.mem_singleton_self _) (List.mem_singleton_self _) (List.mem_singleton_self _)
    hreaches rfl

theorem secondSeven_parses : parseEngineered sevensModel ⟨fun _ => none, fun _ => none⟩
    secondSeven.declaration secondSeven.target.btype (ascii "7") = some (.integer 7) := rfl

theorem engineered_readBack_iff_second :
    (SettingServer.start true sevensModel ⟨fun _ => none, fun _ => none⟩).Shows
        (ascii "D/M$SP$HA$a(1)") [] (.integer 7) ↔ secondSeven.target.children = [] ∧
        (secondSeven.Filled ∨ defaultValue secondSeven.target.btype = .integer 7) := by
  have hvalue : sevensModel.value secondSeven.declaration = some (ascii "7") := rfl
  apply engineered_readBack_iff sevensModel_namesApart secondSeven_published hvalue
    secondSeven_parses
  · exact fun h => absurd h (by decide)
  · exact .started (by decide)
  · exact show locusOf (ascii "D/M$SP$HA$a(1)") = some secondSeven.locus by decide +kernel
  · decide +kernel
  · exact ⟨rfl, rfl, rfl⟩

/-- The number has a value in the file, which parses, and is read as the default of its type. -/
theorem second_not_engineered : secondSeven.Published sevensModel ∧
      sevensModel.value secondSeven.declaration = some (ascii "7") ∧
      parseEngineered sevensModel ⟨fun _ => none, fun _ => none⟩ secondSeven.declaration
        secondSeven.target.btype (ascii "7") = some (.integer 7) ∧
      ¬ (SettingServer.start true sevensModel ⟨fun _ => none, fun _ => none⟩).Shows
        (ascii "D/M$SP$HA$a(1)") [] (.integer 7) := by
  refine ⟨secondSeven_published, rfl, secondSeven_parses, ?_⟩
  rintro ⟨v, x, -, hx, hpart⟩
  cases hpart
  have hread : ((SettingServer.start true sevensModel
      ⟨fun _ => none, fun _ => none⟩).readReference (ascii "D/M$SP$HA$a(1)")).toOption.bind
        integerOf = some 0 := by
    decide +kernel
  rw [hx] at hread
  cases hread

end Iec61850.Server
