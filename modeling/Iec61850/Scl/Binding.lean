import Iec61850.Scl.Subscriptions

/-!
# What inputs are bound to

Every input that names an IED comes to one place of what `resolve` gives, and no block to two
subscriptions. That a subscription is of the kind the input names, and that an input completed with
the block that was found for its signal finds that block again, depends on the models, and it is
said exactly how.
-/

namespace Iec61850.Scl

open Theory Server

/-- An input, with the logical node and the device it is in. -/
abbrev Entry := InputDevice × InputNode × ExtRef

/-! ### What is asked -/

/-- The inputs that name an IED. -/
def NamedModel.bound (m : NamedModel) : List Entry :=
  m.extRefs.filter fun e => e.2.2.iedName.isSome

/-- An input that names an IED either feeds one subscription, to that IED, or there is one finding
of where it is. -/
structure OncePlaced (subscriber : NamedModel) (out : Subscriptions) : Prop where
  parted : ∃ feeds : Entry → Bool,
    ((out.goose ++ out.sv).flatMap (·.extRefs)).Perm
        ((subscriber.bound.filter feeds).map (·.2.2)) ∧
      out.unresolved.map (·.place) =
        (subscriber.bound.filter fun e => ! feeds e).map (placeOf subscriber)
  publisher : ∀ s ∈ out.goose ++ out.sv, ∀ x ∈ s.extRefs, x.iedName = some s.publisher

/-- A subscription is of the kind that the service of an input names. -/
structure OfKind (out : Subscriptions) : Prop where
  goose : ∀ s ∈ out.goose, ∀ x ∈ s.extRefs, x.serviceType ≠ some .smv
  sv : ∀ s ∈ out.sv, ∀ x ∈ s.extRefs, x.serviceType ≠ some .goose

/-- The same control block, at the same address. -/
structure Located.Same (f g : Located) : Prop where
  ld : f.ld.name = g.ld.name
  lnName : f.lnName = g.lnName
  cb : f.cb = g.cb
  smv : f.smv = g.smv
  dst : f.dst = g.dst
  appid : f.appid = g.appid

/-- The input, completed with a control block. -/
def ExtRef.completed (x : ExtRef) (found : Located) (lnPrefix : Bytes) (lnClass : Option Bytes)
    (lnInst : Bytes) : ExtRef :=
  { x with
    srcLdInst := some found.ld.inst
    srcPrefix := lnPrefix
    srcLnClass := lnClass
    srcLnInst := lnInst
    srcCbName := some found.cb }

/-- An input that finds a block by its signal finds the same when it is completed with the block,
however the logical node of the block is divided into prefix, class and instance. -/
def Agree (subscriber : NamedModel) (lookup : Bytes → Option NamedModel) (nominalHz : Nat) : Prop :=
  ∀ e ∈ subscriber.extRefs, ∀ publisher found, e.2.2.iedName = some publisher →
    e.2.2.srcCbName = none → locate lookup nominalHz publisher e.2.2 = .ok found →
      ∀ lnPrefix lnClass lnInst,
        (e.2.2.completed found lnPrefix lnClass lnInst).sourceLnName = found.lnName →
          ∃ again, locate lookup nominalHz publisher
            (e.2.2.completed found lnPrefix lnClass lnInst) = .ok again ∧ again.Same found

/-- What is asked of the subscriptions of an IED. -/
structure Resolved (subscriber : NamedModel) (lookup : Bytes → Option NamedModel)
    (nominalHz : Nat) (out : Subscriptions) : Prop where
  once : OncePlaced subscriber out
  distinct : (out.goose.map Subscription.key).Nodup ∧ (out.sv.map Subscription.key).Nodup
  kind : OfKind out
  agree : Agree subscriber lookup nominalHz

/-! ### Under which condition -/

/-- The address of the first block of a name and a kind in a logical node. -/
def InputNode.address (ln : InputNode) (cb : Bytes) (smv : Bool) : Option (Bytes × Nat) :=
  if smv then (ln.smvControl cb).bind fun c => c.address.map fun a => (a.mac, a.appid)
  else (ln.gseControl cb).bind fun c => c.address.map fun a => (a.mac, a.appid)

/-- The logical node of a device, both by their names in an input. -/
def NamedModel.sourceNode (m : NamedModel) (inst lnName : Bytes) :
    Option (InputDevice × InputNode) :=
  (m.logicalDeviceByInst inst).bind fun ld => (ld.node lnName).map fun ln => (ld, ln)

/-- An input for sampled values does not name a block that is there for GOOSE only. -/
def NamesKind (m : NamedModel) (x : ExtRef) : Prop :=
  ∀ cb inst ld ln, x.srcCbName = some cb → x.serviceType = some .smv →
    x.sourceLdInst = some inst → m.sourceNode inst x.sourceLnName = some (ld, ln) →
      (ln.smvControl cb).isSome = true ∨ ln.address cb false = none

/-- The blocks with an address among those that carry a signal. -/
def addressed (m : NamedModel) (x : ExtRef) : List (InputDevice × InputNode × Bytes × Bool) :=
  (carriers m x).filter fun c => (c.2.1.address c.2.2.1 c.2.2.2).isSome

/-- The only block that carries the signal is where its names lead to, and when it is for GOOSE, no
block for sampled values hides it. -/
def Reached (m : NamedModel) (x : ExtRef) : Prop :=
  ∀ ld ln cb smv, x.srcCbName = none → addressed m x = [(ld, ln, cb, smv)] →
    ∃ ld' ln', m.sourceNode ld.inst ln.name = some (ld', ln') ∧ ld'.name = ld.name ∧
      ln'.address cb smv = ln.address cb smv ∧
      (smv = false → x.serviceType = some .goose ∨ ln'.smvControl cb = none)

/-- The condition, over all inputs. -/
def WellBound (subscriber : NamedModel) (lookup : Bytes → Option NamedModel) : Prop :=
  ∀ e ∈ subscriber.extRefs, ∀ publisher m, e.2.2.iedName = some publisher →
    lookup publisher = some m → NamesKind m e.2.2 ∧ Reached m e.2.2

/-! ### What a block is described as -/

variable {m : NamedModel} {ld : InputDevice} {ln : InputNode} {cb : Bytes} {smv : Bool}
  {nominalHz : Nat}

/-- A description is of the block that was asked for. -/
structure Located.Describes (found : Located) (ld : InputDevice) (ln : InputNode) (cb : Bytes)
    (smv : Bool) : Prop where
  address : ln.address cb smv = some (found.dst, found.appid)
  ld : found.ld = ld
  lnName : found.lnName = ln.name
  name : found.cb = cb
  kind : found.smv = smv

variable {found : Located} {x : ExtRef}

theorem describe_some (h : describe m ld ln cb smv nominalHz = some found) :
    found.Describes ld ln cb smv := by
  cases smv with
  | false =>
    simp only [describe, Bool.false_eq_true, if_false, bind, Option.bind_eq_some_iff] at h
    obtain ⟨c, hc, a, ha, hfound⟩ := h
    cases hfound
    have hname : c.name = cb := by simpa using List.find?_some hc
    exact ⟨by simp [InputNode.address, hc, ha], rfl, rfl, hname, rfl⟩
  | true =>
    simp only [describe, if_true, bind, Option.bind_eq_some_iff] at h
    obtain ⟨c, hc, a, ha, hfound⟩ := h
    cases hfound
    have hname : c.name = cb := by simpa using List.find?_some hc
    exact ⟨by simp [InputNode.address, hc, ha], rfl, rfl, hname, rfl⟩

theorem describe_isSome :
    (describe m ld ln cb smv nominalHz).isSome = (ln.address cb smv).isSome := by
  cases smv with
  | false =>
    simp only [describe, InputNode.address, Bool.false_eq_true, if_false, bind]
    cases ln.gseControl cb with
    | none => rfl
    | some c => cases hc : c.address <;> simp [hc]
  | true =>
    simp only [describe, InputNode.address, if_true, bind]
    cases ln.smvControl cb with
    | none => rfl
    | some c => cases hc : c.address <;> simp [hc]

/-! ### What is located -/

/-- Whether `by_control_block` takes a block of the name for one of sampled values. -/
def takesSmv (x : ExtRef) (ln : InputNode) (cb : Bytes) : Bool :=
  x.serviceType ≠ some .goose && (ln.smvControl cb).isSome

theorem any_smvControls (ln : InputNode) (cb : Bytes) :
    (ln.smvControls.any fun c => c.name = cb) = (ln.smvControl cb).isSome := by
  rw [Bool.eq_iff_iff, InputNode.smvControl, List.find?_isSome, List.any_eq_true]

theorem byControlBlock_ok :
    byControlBlock m x cb nominalHz = .ok found ↔ ∃ inst ld ln, x.sourceLdInst = some inst ∧
        m.sourceNode inst x.sourceLnName = some (ld, ln) ∧
        describe m ld ln cb (takesSmv x ln cb) nominalHz = some found := by
  unfold byControlBlock NamedModel.sourceNode
  cases hinst : x.sourceLdInst with
  | none => simp
  | some inst =>
    cases hld : m.logicalDeviceByInst inst with
    | none => simp [hld]
    | some ld =>
      cases hln : ld.node x.sourceLnName with
      | none => simp [hld, hln]
      | some ln =>
        have hsmv : (decide (x.serviceType ≠ some .goose) && (ln.smvControl cb).isSome) =
            takesSmv x ln cb := rfl
        simp only [hld, hln, any_smvControls, hsmv]
        cases hdescribe : describe m ld ln cb (takesSmv x ln cb) nominalHz with
        | none => simp [hld, hln, hdescribe]
        | some found' => simp [hld, hln, hdescribe]

theorem filterMap_eq_singleton {α β : Type*} {f : α → Option β} {l : List α} {b : β} :
    l.filterMap f = [b] ↔ ∃ a, (l.filter fun a => (f a).isSome) = [a] ∧ f a = some b := by
  induction l with
  | nil => simp
  | cons a l ih =>
    cases ha : f a with
    | none => simp [ha, ih]
    | some c =>
      have hnil : l.filterMap f = [] ↔ (l.filter fun a => (f a).isSome) = [] := by
        simp [List.filterMap_eq_nil_iff, List.filter_eq_nil_iff]
      have hkeep : ((a :: l).filter fun a => (f a).isSome) =
          a :: l.filter fun a => (f a).isSome := List.filter_cons_of_pos (by simp [ha])
      rw [List.filterMap_cons_some ha, hkeep, List.cons.injEq, hnil]
      simp only [List.cons.injEq]
      constructor
      · rintro ⟨rfl, h⟩
        exact ⟨a, ⟨rfl, h⟩, ha⟩
      · rintro ⟨_, ⟨rfl, h⟩, hb⟩
        exact ⟨Option.some.inj (ha.symm.trans hb), h⟩

theorem bySignal_ok : bySignal m x nominalHz = .ok found ↔
      ∃ ld ln cb smv, addressed m x = [(ld, ln, cb, smv)] ∧
        describe m ld ln cb smv nominalHz = some found := by
  have hsame : bySignal m x nominalHz = .ok found ↔
      ((carriers m x).filterMap fun c => describe m c.1 c.2.1 c.2.2.1 c.2.2.2 nominalHz) =
        [found] := by
    unfold bySignal
    dsimp only
    split
    case h_1 one hone => simp [hone]
    case h_2 hnil => simp [hnil]
    case h_3 hone hnil =>
      constructor
      · intro h
        cases h
      · intro h
        exact absurd h (hone found)
  have haddressed : ((carriers m x).filter fun c =>
      (describe m c.1 c.2.1 c.2.2.1 c.2.2.2 nominalHz).isSome) = addressed m x := by
    apply List.filter_congr
    intro c _
    exact describe_isSome
  rw [hsame, filterMap_eq_singleton, haddressed]
  constructor
  · rintro ⟨⟨ld, ln, cb, smv⟩, hone, hfound⟩
    exact ⟨ld, ln, cb, smv, hone, hfound⟩
  · rintro ⟨ld, ln, cb, smv, hone, hfound⟩
    exact ⟨(ld, ln, cb, smv), hone, hfound⟩

theorem kind_of_mem_carriers {c : InputDevice × InputNode × Bytes × Bool} (h : c ∈ carriers m x) :
    x.serviceType ≠ some (if c.2.2.2 then .goose else .smv) := by
  unfold carriers at h
  obtain ⟨ld, -, h⟩ := List.mem_flatMap.mp h
  obtain ⟨ln, -, h⟩ := List.mem_flatMap.mp h
  obtain ⟨ds, -, h⟩ := List.mem_flatMap.mp h
  split at h
  case isFalse => cases h
  case isTrue =>
    rcases List.mem_append.mp h with h | h
    · obtain ⟨b, hb, rfl⟩ := List.mem_map.mp h
      have hkept := (List.mem_filter.mp hb).2
      simp only [Bool.and_eq_true, decide_eq_true_eq] at hkept
      exact hkept.2
    · obtain ⟨b, hb, rfl⟩ := List.mem_map.mp h
      have hkept := (List.mem_filter.mp hb).2
      simp only [Bool.and_eq_true, decide_eq_true_eq] at hkept
      exact hkept.2

/-! ### What the loop comes to -/

variable {lookup : Bytes → Option NamedModel}

/-- What the loop makes of an input, when it names an IED. -/
def outcome (lookup : Bytes → Option NamedModel) (nominalHz : Nat) (e : Entry) :
    Option (Except Bytes Located) :=
  e.2.2.iedName.map fun publisher => locate lookup nominalHz publisher e.2.2

/-- An input is resolved to a block of a kind. -/
def feedsKind (lookup : Bytes → Option NamedModel) (nominalHz : Nat) (smv : Bool) (e : Entry) :
    Bool :=
  match outcome lookup nominalHz e with
  | some (.ok found) => found.smv = smv
  | _ => false

/-- An input is not resolved. -/
def refused (lookup : Bytes → Option NamedModel) (nominalHz : Nat) (e : Entry) : Bool :=
  match outcome lookup nominalHz e with
  | some (.error _) => true
  | _ => false

/-- The subscriptions of a kind, and the inputs that they are made for. -/
structure Fed (xs : List ExtRef) (subs : List Subscription) : Prop where
  perm : (subs.flatMap (·.extRefs)).Perm xs
  once : (subs.map Subscription.key).Nodup
  publisher : ∀ s ∈ subs, ∀ x ∈ s.extRefs, x.iedName = some s.publisher

theorem Fed.merge {xs : List ExtRef} {subs : List Subscription} (h : Fed xs subs) {x : ExtRef}
    {publisher : Bytes} (hx : x.iedName = some publisher) (found : Located) :
    Fed (xs ++ [x])
      (addTo Subscription.key (·.push x) (found.subscription publisher x) subs) where
  perm := by
    refine List.Perm.trans ?_ (h.perm.append_right [x])
    apply members_addTo
    · rfl
    · intro s
      rfl
  once := by
    apply nodup_addTo
    · intro s
      rfl
    · exact h.once
  publisher := by
    intro s hs y hy
    rcases mem_addTo hs with hs | rfl | ⟨s', hs', hkey, rfl⟩
    · exact h.publisher s hs y hy
    · rw [List.mem_singleton.mp hy]
      exact hx
    · rcases List.mem_append.mp hy with hy | hy
      · exact h.publisher s' hs' y hy
      · rw [List.mem_singleton.mp hy, hx]
        exact congrArg some (congrArg Prod.snd hkey).symm

/-- What there is after the loop has gone over some inputs. -/
structure Done (subscriber : NamedModel) (lookup : Bytes → Option NamedModel) (nominalHz : Nat)
    (es : List Entry) (out : Subscriptions) : Prop where
  goose : Fed ((es.filter (feedsKind lookup nominalHz false)).map (·.2.2)) out.goose
  sv : Fed ((es.filter (feedsKind lookup nominalHz true)).map (·.2.2)) out.sv
  unresolved : out.unresolved.map (·.place) =
    (es.filter (refused lookup nominalHz)).map (placeOf subscriber)

variable {subscriber : NamedModel} {es : List Entry} {out : Subscriptions} {e : Entry}

theorem Done.resolveOne (h : Done subscriber lookup nominalHz es out) (e : Entry) :
    Done subscriber lookup nominalHz (es ++ [e])
      (resolveOne subscriber lookup nominalHz out e) := by
  unfold Scl.resolveOne
  cases hname : e.2.2.iedName with
  | none =>
    have hout : outcome lookup nominalHz e = none := by rw [outcome, hname]; rfl
    refine ⟨?_, ?_, ?_⟩
    · simpa [feedsKind, hout] using h.goose
    · simpa [feedsKind, hout] using h.sv
    · simpa [refused, hout] using h.unresolved
  | some publisher =>
    have hout : outcome lookup nominalHz e = some (locate lookup nominalHz publisher e.2.2) := by
      rw [outcome, hname]
      rfl
    dsimp only
    cases hlocate : locate lookup nominalHz publisher e.2.2 with
    | error why =>
      rw [hlocate] at hout
      refine ⟨?_, ?_, ?_⟩
      · simpa [feedsKind, hout] using h.goose
      · simpa [feedsKind, hout] using h.sv
      · simp [refused, hout, h.unresolved]
    | ok found =>
      rw [hlocate] at hout
      have hmerged := fun {xs subs} (hfed : Fed xs subs) => hfed.merge hname found
      dsimp only [merge]
      cases hsmv : found.smv with
      | false =>
        refine ⟨?_, ?_, ?_⟩
        · simpa [feedsKind, hout, hsmv] using hmerged h.goose
        · simpa [feedsKind, hout, hsmv] using h.sv
        · simpa [refused, hout] using h.unresolved
      | true =>
        refine ⟨?_, ?_, ?_⟩
        · simpa [feedsKind, hout, hsmv] using h.goose
        · simpa [feedsKind, hout, hsmv] using hmerged h.sv
        · simpa [refused, hout] using h.unresolved

theorem Done.foldl (h : Done subscriber lookup nominalHz es out) (es' : List Entry) :
    Done subscriber lookup nominalHz (es ++ es')
      (es'.foldl (Scl.resolveOne subscriber lookup nominalHz) out) := by
  induction es' generalizing es out with
  | nil =>
    rw [List.append_nil]
    exact h
  | cons e es' ih =>
    have hnext := ih (h.resolveOne e)
    rw [List.append_assoc] at hnext
    exact hnext

theorem resolve_done (subscriber : NamedModel) (lookup : Bytes → Option NamedModel)
    (nominalHz : Nat) :
    Done subscriber lookup nominalHz subscriber.extRefs (resolve subscriber lookup nominalHz) :=
  have hnone : Fed [] [] := ⟨List.Perm.nil, List.nodup_nil, nofun⟩
  have hstart : Done subscriber lookup nominalHz [] ⟨[], [], []⟩ := ⟨hnone, hnone, rfl⟩
  hstart.foldl subscriber.extRefs

/-! ### One place each -/

theorem feedsKind_iff {smv : Bool} : feedsKind lookup nominalHz smv e = true ↔
      ∃ publisher found, e.2.2.iedName = some publisher ∧
        locate lookup nominalHz publisher e.2.2 = .ok found ∧ found.smv = smv := by
  unfold feedsKind outcome
  cases hname : e.2.2.iedName with
  | none => simp
  | some publisher =>
    cases hlocate : locate lookup nominalHz publisher e.2.2 with
    | error why => simp [hlocate]
    | ok found => simp [hlocate]

theorem refused_eq (e : Entry) : refused lookup nominalHz e = (e.2.2.iedName.isSome &&
      ! (feedsKind lookup nominalHz false e || feedsKind lookup nominalHz true e)) := by
  unfold refused feedsKind outcome
  cases hname : e.2.2.iedName with
  | none => rfl
  | some publisher =>
    cases hlocate : locate lookup nominalHz publisher e.2.2 with
    | error why => simp [hlocate]
    | ok found =>
      cases hsmv : found.smv with
      | false => simp [hlocate, hsmv]
      | true => simp [hlocate, hsmv]

theorem not_feeds_both (h : feedsKind lookup nominalHz false e = true) :
    feedsKind lookup nominalHz true e = false := by
  rw [← Bool.not_eq_true, feedsKind_iff]
  rintro ⟨publisher, found, hname, hlocate, hsmv⟩
  obtain ⟨publisher', found', hname', hlocate', hsmv'⟩ := feedsKind_iff.mp h
  cases hname.symm.trans hname'
  cases hlocate.symm.trans hlocate'
  cases hsmv.symm.trans hsmv'

theorem filter_append_perm_or {α : Type*} {p q : α → Bool} (h : ∀ a, p a = true → q a = false)
    (l : List α) : (l.filter p ++ l.filter q).Perm (l.filter fun a => p a || q a) := by
  induction l with
  | nil => exact List.Perm.nil
  | cons a l ih =>
    cases hp : p a with
    | true =>
      have hq := h a hp
      simp only [List.filter_cons, hp, hq, if_true, Bool.false_eq_true, if_false,
        Bool.true_or, List.cons_append]
      exact ih.cons a
    | false =>
      cases hq : q a with
      | false => simpa [hp, hq] using ih
      | true =>
        simp only [List.filter_cons, hp, hq, if_true, Bool.false_eq_true, if_false,
          Bool.false_or]
        exact List.perm_middle.trans (ih.cons a)

variable (subscriber : NamedModel) (lookup : Bytes → Option NamedModel) (nominalHz : Nat)

theorem resolve_once : OncePlaced subscriber (resolve subscriber lookup nominalHz) := by
  have hdone := resolve_done subscriber lookup nominalHz
  refine ⟨⟨fun e => feedsKind lookup nominalHz false e || feedsKind lookup nominalHz true e,
    ?_, ?_⟩, ?_⟩
  · have hapart : ∀ e, feedsKind lookup nominalHz false e = true →
        feedsKind lookup nominalHz true e = false := fun _ => not_feeds_both
    have hboth := filter_append_perm_or hapart subscriber.extRefs
    have hbound : (subscriber.bound.filter fun e =>
        feedsKind lookup nominalHz false e || feedsKind lookup nominalHz true e) =
        subscriber.extRefs.filter fun e =>
          feedsKind lookup nominalHz false e || feedsKind lookup nominalHz true e := by
      rw [NamedModel.bound, List.filter_filter]
      apply List.filter_congr
      intro e _
      rw [Bool.and_eq_left_iff_imp, Bool.or_eq_true, feedsKind_iff, feedsKind_iff]
      rintro (⟨publisher, found, hname, -⟩ | ⟨publisher, found, hname, -⟩)
      · rw [hname]
        rfl
      · rw [hname]
        rfl
    rw [hbound, List.flatMap_append]
    refine (hdone.goose.perm.append hdone.sv.perm).trans ?_
    rw [← List.map_append]
    exact hboth.map _
  · rw [hdone.unresolved, NamedModel.bound, List.filter_filter]
    congr 1
    apply List.filter_congr
    intro e _
    rw [refused_eq, Bool.and_comm]
  · intro s hs
    rcases List.mem_append.mp hs with hs | hs
    · exact hdone.goose.publisher s hs
    · exact hdone.sv.publisher s hs

theorem resolve_distinct :
    ((resolve subscriber lookup nominalHz).goose.map Subscription.key).Nodup ∧
      ((resolve subscriber lookup nominalHz).sv.map Subscription.key).Nodup :=
  ⟨(resolve_done subscriber lookup nominalHz).goose.once,
    (resolve_done subscriber lookup nominalHz).sv.once⟩

/-! ### The kind -/

/-- What feeds the subscriptions of a list are the inputs it is made for. -/
theorem Fed.forall_iff {subs : List Subscription} {es : List Entry} {smv : Bool}
    (h : Fed ((es.filter (feedsKind lookup nominalHz smv)).map (·.2.2)) subs) (p : ExtRef → Prop) :
    (∀ s ∈ subs, ∀ x ∈ s.extRefs, p x) ↔
      ∀ e ∈ es, feedsKind lookup nominalHz smv e = true → p e.2.2 := by
  have hmem (x : ExtRef) : (∃ s ∈ subs, x ∈ s.extRefs) ↔
      ∃ e ∈ es, feedsKind lookup nominalHz smv e = true ∧ e.2.2 = x := by
    rw [← List.mem_flatMap, h.perm.mem_iff, List.mem_map]
    simp only [List.mem_filter, and_assoc]
  constructor
  · intro hall e he hfeeds
    obtain ⟨s, hs, hx⟩ := (hmem e.2.2).mpr ⟨e, he, hfeeds, rfl⟩
    exact hall s hs _ hx
  · intro hall s hs x hx
    obtain ⟨e, he, hfeeds, rfl⟩ := (hmem x).mp ⟨s, hs, hx⟩
    exact hall e he hfeeds

/-- The block an input is resolved to is of the kind it names. -/
def KindKept (publisher : Bytes) (x : ExtRef) : Prop :=
  ∀ found, locate lookup nominalHz publisher x = .ok found →
    x.serviceType ≠ some (if found.smv then .goose else .smv)

theorem resolve_kind_iff : OfKind (resolve subscriber lookup nominalHz) ↔
      ∀ e ∈ subscriber.extRefs, ∀ publisher, e.2.2.iedName = some publisher →
        KindKept lookup nominalHz publisher e.2.2 := by
  have hdone := resolve_done subscriber lookup nominalHz
  have hgoose := hdone.goose.forall_iff lookup nominalHz fun x => x.serviceType ≠ some .smv
  have hsv := hdone.sv.forall_iff lookup nominalHz fun x => x.serviceType ≠ some .goose
  constructor
  · rintro ⟨hg, hs⟩ e he publisher hname found hlocate
    cases hsmv : found.smv with
    | false =>
      exact hgoose.mp hg e he (feedsKind_iff.mpr ⟨publisher, found, hname, hlocate, hsmv⟩)
    | true =>
      exact hsv.mp hs e he (feedsKind_iff.mpr ⟨publisher, found, hname, hlocate, hsmv⟩)
  · intro h
    refine ⟨hgoose.mpr ?_, hsv.mpr ?_⟩
    · intro e he hfeeds
      obtain ⟨publisher, found, hname, hlocate, hsmv⟩ := feedsKind_iff.mp hfeeds
      have hkept := h e he publisher hname found hlocate
      rwa [hsmv] at hkept
    · intro e he hfeeds
      obtain ⟨publisher, found, hname, hlocate, hsmv⟩ := feedsKind_iff.mp hfeeds
      have hkept := h e he publisher hname found hlocate
      rwa [hsmv] at hkept

variable {lookup : Bytes → Option NamedModel} {nominalHz : Nat} {publisher : Bytes} {x : ExtRef}

theorem locate_byControlBlock (hm : lookup publisher = some m) (hcb : x.srcCbName = some cb) :
    locate lookup nominalHz publisher x = byControlBlock m x cb nominalHz := by
  rw [locate, hm, hcb]

theorem locate_bySignal (hm : lookup publisher = some m) (hcb : x.srcCbName = none) :
    locate lookup nominalHz publisher x = bySignal m x nominalHz := by
  rw [locate, hm, hcb]

theorem kindKept_iff (hm : lookup publisher = some m) :
    KindKept lookup nominalHz publisher x ↔ NamesKind m x := by
  cases hcb : x.srcCbName with
  | none =>
    refine iff_of_true ?_ ?_
    · intro found hfound
      rw [locate_bySignal hm hcb, bySignal_ok] at hfound
      obtain ⟨ld, ln, cb, smv, hone, hdescribe⟩ := hfound
      have hmem : (ld, ln, cb, smv) ∈ addressed m x := by
        rw [hone]
        exact List.mem_singleton.mpr rfl
      have hkind := kind_of_mem_carriers (List.mem_filter.mp hmem).1
      rw [(describe_some hdescribe).kind]
      exact hkind
    · intro cb inst ld ln hsome
      rw [hcb] at hsome
      cases hsome
  | some cb =>
    constructor
    · intro hkept cb' inst ld ln hsome htype hinst hnode
      cases hcb.symm.trans hsome
      by_contra hnot
      rw [not_or] at hnot
      have htakes : takesSmv x ln cb = false := by
        rw [takesSmv, Bool.and_eq_false_iff]
        exact Or.inr (Bool.not_eq_true _ ▸ hnot.1)
      have hdescribed : (describe m ld ln cb false nominalHz).isSome = true := by
        rw [describe_isSome, Option.isSome_iff_ne_none]
        exact hnot.2
      obtain ⟨found, hfound⟩ := Option.isSome_iff_exists.mp hdescribed
      have hlocate : locate lookup nominalHz publisher x = .ok found := by
        rw [locate_byControlBlock hm hcb, byControlBlock_ok]
        exact ⟨inst, ld, ln, hinst, hnode, by rw [htakes]; exact hfound⟩
      have hkind := hkept found hlocate
      rw [(describe_some hfound).kind] at hkind
      exact hkind htype
    · intro hnames found hfound
      rw [locate_byControlBlock hm hcb, byControlBlock_ok] at hfound
      obtain ⟨inst, ld, ln, hinst, hnode, hdescribe⟩ := hfound
      have hdescribes := describe_some hdescribe
      rw [hdescribes.kind]
      cases htakes : takesSmv x ln cb with
      | true =>
        rw [takesSmv, Bool.and_eq_true, decide_eq_true_eq] at htakes
        exact htakes.1
      | false =>
        intro htype
        rw [htakes] at hdescribes
        rcases hnames cb inst ld ln hcb htype hinst hnode with hsmv | hnone
        · rw [takesSmv, hsmv, htype] at htakes
          cases htakes
        · have haddress := hdescribes.address
          rw [hnone] at haddress
          cases haddress

/-! ### Both ways of naming a block -/

theorem takesSmv_eq_true (h : (ln.smvControl cb).isSome = true)
    (htype : x.serviceType ≠ some .goose) : takesSmv x ln cb = true := by
  rw [takesSmv, h, Bool.and_true]
  exact decide_eq_true htype

theorem takesSmv_eq_false :
    takesSmv x ln cb = false ↔ x.serviceType = some .goose ∨ ln.smvControl cb = none := by
  rw [takesSmv, Bool.and_eq_false_iff, decide_eq_false_iff_not, not_not]
  cases ln.smvControl cb <;> simp

theorem exists_completed (x : ExtRef) (found : Located) : ∃ lnPrefix lnClass lnInst,
      (x.completed found lnPrefix lnClass lnInst).sourceLnName = found.lnName := by
  by_cases hname : found.lnName = ascii "LLN0"
  · exact ⟨[], none, [], hname.symm⟩
  · refine ⟨[], some found.lnName, [], ?_⟩
    simp [ExtRef.completed, ExtRef.sourceLnName, hname]

/-- The input that names the block as the signal finds it. -/
def SameAgain (lookup : Bytes → Option NamedModel) (nominalHz : Nat) (publisher : Bytes)
    (x : ExtRef) : Prop :=
  ∀ found, x.srcCbName = none → locate lookup nominalHz publisher x = .ok found →
    ∀ lnPrefix lnClass lnInst,
      (x.completed found lnPrefix lnClass lnInst).sourceLnName = found.lnName →
        ∃ again, locate lookup nominalHz publisher
          (x.completed found lnPrefix lnClass lnInst) = .ok again ∧ again.Same found

/-- What a completed input is resolved to. -/
theorem locate_completed (hm : lookup publisher = some m) {found again : Located}
    {lnPrefix lnInst : Bytes} {lnClass : Option Bytes}
    (hnamed : (x.completed found lnPrefix lnClass lnInst).sourceLnName = found.lnName) :
    locate lookup nominalHz publisher (x.completed found lnPrefix lnClass lnInst) = .ok again ↔
      ∃ ld' ln', m.sourceNode found.ld.inst found.lnName = some (ld', ln') ∧
        describe m ld' ln' found.cb (takesSmv x ln' found.cb) nominalHz = some again := by
  rw [locate_byControlBlock hm rfl, byControlBlock_ok, hnamed]
  constructor
  · rintro ⟨inst, ld', ln', hinst, hnode, hdescribe⟩
    cases hinst
    exact ⟨ld', ln', hnode, hdescribe⟩
  · rintro ⟨ld', ln', hnode, hdescribe⟩
    exact ⟨_, ld', ln', rfl, hnode, hdescribe⟩

theorem sameAgain_iff (hm : lookup publisher = some m) :
    SameAgain lookup nominalHz publisher x ↔ Reached m x := by
  constructor
  · intro hagain ld ln cb smv hcb hone
    have hmem : (ld, ln, cb, smv) ∈ addressed m x := by
      rw [hone]
      exact List.mem_singleton.mpr rfl
    have hdescribed : (describe m ld ln cb smv nominalHz).isSome = true := by
      rw [describe_isSome]
      exact (List.mem_filter.mp hmem).2
    obtain ⟨found, hfound⟩ := Option.isSome_iff_exists.mp hdescribed
    have hdescribes := describe_some hfound
    have hlocate : locate lookup nominalHz publisher x = .ok found := by
      rw [locate_bySignal hm hcb, bySignal_ok]
      exact ⟨ld, ln, cb, smv, hone, hfound⟩
    obtain ⟨lnPrefix, lnClass, lnInst, hnamed⟩ := exists_completed x found
    obtain ⟨again, hlocated, hsame⟩ := hagain found hcb hlocate lnPrefix lnClass lnInst hnamed
    obtain ⟨ld', ln', hnode, hdescribe⟩ := (locate_completed hm hnamed).mp hlocated
    have hagains := describe_some hdescribe
    have htakes : takesSmv x ln' found.cb = smv := by
      rw [← hagains.kind, hsame.smv, hdescribes.kind]
    rw [hdescribes.ld, hdescribes.lnName] at hnode
    refine ⟨ld', ln', hnode, ?_, ?_, ?_⟩
    · rw [← hagains.ld, hsame.ld, hdescribes.ld]
    · have haddress := hagains.address
      rw [htakes, hdescribes.name, hsame.dst, hsame.appid] at haddress
      rw [haddress, hdescribes.address]
    · intro hsmv
      rw [hsmv, takesSmv_eq_false, hdescribes.name] at htakes
      exact htakes
  · intro hreached found hcb hlocate lnPrefix lnClass lnInst hnamed
    rw [locate_bySignal hm hcb, bySignal_ok] at hlocate
    obtain ⟨ld, ln, cb, smv, hone, hfound⟩ := hlocate
    have hdescribes := describe_some hfound
    have hmem : (ld, ln, cb, smv) ∈ addressed m x := by
      rw [hone]
      exact List.mem_singleton.mpr rfl
    have hkind := kind_of_mem_carriers (List.mem_filter.mp hmem).1
    obtain ⟨ld', ln', hnode, hname, haddress, hhidden⟩ := hreached ld ln cb smv hcb hone
    have htakes : takesSmv x ln' cb = smv := by
      cases smv with
      | false => exact takesSmv_eq_false.mpr (hhidden rfl)
      | true =>
        refine takesSmv_eq_true ?_ hkind
        have hsome := hdescribes.address
        rw [← haddress, InputNode.address, if_pos rfl, Option.bind_eq_some_iff] at hsome
        obtain ⟨c, hc, -⟩ := hsome
        rw [hc]
        rfl
    have hdescribed : (describe m ld' ln' cb smv nominalHz).isSome = true := by
      rw [describe_isSome, haddress, hdescribes.address]
      rfl
    obtain ⟨again, hagain⟩ := Option.isSome_iff_exists.mp hdescribed
    have hagains := describe_some hagain
    have hlnName : ln'.name = ln.name := by
      obtain ⟨d, -, hd⟩ := Option.bind_eq_some_iff.mp hnode
      obtain ⟨n, hn, hpair⟩ := Option.map_eq_some_iff.mp hd
      cases hpair
      simpa using List.find?_some hn
    have hat : some (again.dst, again.appid) = some (found.dst, found.appid) := by
      rw [← hagains.address, haddress, hdescribes.address]
    refine ⟨again, ?_, ?_⟩
    · rw [locate_completed hm hnamed, hdescribes.ld, hdescribes.lnName, hdescribes.name]
      exact ⟨ld', ln', hnode, by rw [htakes]; exact hagain⟩
    · exact {
        ld := by rw [hagains.ld, hname, hdescribes.ld]
        lnName := by rw [hagains.lnName, hlnName, hdescribes.lnName]
        cb := by rw [hagains.name, hdescribes.name]
        smv := by rw [hagains.kind, hdescribes.kind]
        dst := congrArg Prod.fst (Option.some.inj hat)
        appid := congrArg Prod.snd (Option.some.inj hat) }

/-! ### All of it -/

/-- Every input has its one place and every block its one subscription. The rest holds for exactly
the models in which no input for sampled values names a block for GOOSE, and in which the only
block that carries a signal is found again under its names. -/
theorem resolve_iff (subscriber : NamedModel) (lookup : Bytes → Option NamedModel)
    (nominalHz : Nat) : Resolved subscriber lookup nominalHz (resolve subscriber lookup nominalHz) ↔
      WellBound subscriber lookup := by
  constructor
  · rintro ⟨-, -, hkind, hagree⟩ e he publisher m hname hm
    constructor
    · exact (kindKept_iff hm).mp
        ((resolve_kind_iff subscriber lookup nominalHz).mp hkind e he publisher hname)
    · have hsame : SameAgain lookup nominalHz publisher e.2.2 := by
        intro found hcb hlocate
        exact hagree e he publisher found hname hcb hlocate
      exact (sameAgain_iff hm).mp hsame
  · intro h
    refine ⟨resolve_once subscriber lookup nominalHz, resolve_distinct subscriber lookup nominalHz,
      ?_, ?_⟩
    · refine (resolve_kind_iff subscriber lookup nominalHz).mpr ?_
      intro e he publisher hname found hlocate
      cases hm : lookup publisher with
      | none =>
        rw [locate, hm] at hlocate
        cases hlocate
      | some m => exact (kindKept_iff hm).mpr (h e he publisher m hname hm).1 found hlocate
    · intro e he publisher found hname hcb hlocate
      cases hm : lookup publisher with
      | none =>
        rw [locate, hm] at hlocate
        cases hlocate
      | some m =>
        exact (sameAgain_iff hm).mpr (h e he publisher m hname hm).2 found hcb hlocate

/-! ### An input for sampled values -/

/-- A publisher that has one block, for GOOSE. -/
def tripPublisher : NamedModel :=
  ⟨ascii "P", [⟨ascii "LD0", ascii "PLD0",
    [{ NodeModel.plain ⟨ascii "LLN0", []⟩ with
        gseControls :=
          [⟨ascii "gcbTrip", none, 1, none, false,
            some ⟨[1, 12, 205, 1, 0, 1], 1, 0, 4, none, none⟩⟩]
        inputs := [] }]⟩]⟩

/-- The input that names the block, for sampled values. -/
def smvInput : ExtRef :=
  ⟨some (ascii "P"), some (ascii "LD0"), [], none, [], none, none, some .smv, none, [], none, [],
    some (ascii "gcbTrip"), none⟩

def smvSubscriber : NamedModel :=
  ⟨ascii "S", [⟨ascii "LD0", ascii "SLD0",
    [{ NodeModel.plain ⟨ascii "LLN0", []⟩ with inputs := [smvInput] }]⟩]⟩

/-- The input feeds a subscription to the block for GOOSE. -/
theorem goose_for_sampled_values :
    ¬ ∀ (subscriber : NamedModel) (lookup : Bytes → Option NamedModel) (nominalHz : Nat),
      Resolved subscriber lookup nominalHz (resolve subscriber lookup nominalHz) := by
  intro h
  have hkind := (h smvSubscriber (fun _ => some tripPublisher) 50).kind.goose
  have hgoose : (resolve smvSubscriber (fun _ => some tripPublisher) 50).goose =
      [⟨ascii "P", ascii "PLD0/LLN0.gcbTrip", ascii "PLD0/LLN0$GO$gcbTrip",
        [1, 12, 205, 1, 0, 1], 1, 1, none, none, [smvInput]⟩] := rfl
  rw [hgoose] at hkind
  exact hkind _ (List.mem_singleton.mpr rfl) smvInput (List.mem_singleton.mpr rfl) rfl

end Iec61850.Scl
