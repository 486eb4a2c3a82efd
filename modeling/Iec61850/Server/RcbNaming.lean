import Iec61850.Server.RcbSequence

/-!
# Which data set a block reports, under which revision

`DatSet` and `ConfRev` of a report control block: what can change them, and which members and
which revision the reports that an action sends carry.
-/

namespace Iec61850.Server.ControlBlock

open Theory Mms

/-- The name in `DatSet`; an empty one is none. -/
def dataSetName (b : ControlBlock) : Option Bytes := (b.values .datSet).bind stringOf

/-- `ConfRev`, as the engine reads it. -/
def revision (b : ControlBlock) : Nat := ((b.values .confRev).bind unsignedOf).getD 0

variable {v : Value} {b c : ControlBlock} {a : Attribute}

theorem unsignedOf_lt {n : Nat} (h : unsignedOf v = some n) : n < 2 ^ 32 := by
  unfold unsignedOf at h
  split at h
  · split at h
    · cases h
      simp only [u32Max] at *
      omega
    · cases h
  · split at h
    · rename_i hi
      cases h
      simp only [u32Max] at hi
      omega
    · cases h
  · cases h

theorem revision_lt (b : ControlBlock) : b.revision < 2 ^ 32 := by
  unfold revision
  cases hv : (b.values .confRev).bind unsignedOf with
  | none => decide
  | some n =>
    obtain ⟨v, -, hn⟩ := Option.bind_eq_some_iff.mp hv
    exact unsignedOf_lt hn

/-- The block reports the same data set under the same revision. -/
structure SameNaming (b b' : ControlBlock) : Prop where
  datSet : b'.values .datSet = b.values .datSet
  confRev : b'.values .confRev = b.values .confRev

theorem SameNaming.refl (b : ControlBlock) : SameNaming b b := ⟨rfl, rfl⟩

theorem SameNaming.trans {d : ControlBlock} (h : SameNaming b c) (h' : SameNaming c d) :
    SameNaming b d :=
  ⟨h'.datSet.trans h.datSet, h'.confRev.trans h.confRev⟩

theorem SameNaming.dataSetName {b' : ControlBlock} (h : SameNaming b b') :
    b'.dataSetName = b.dataSetName := by
  rw [ControlBlock.dataSetName, ControlBlock.dataSetName, h.datSet]

theorem SameNaming.revision {b' : ControlBlock} (h : SameNaming b b') :
    b'.revision = b.revision := by
  rw [ControlBlock.revision, ControlBlock.revision, h.confRev]

/-! ### A write of `DatSet` -/

theorem typeOf_datSet (b : ControlBlock) : b.typeOf .datSet = some .visString129 := by
  unfold typeOf
  cases b.rcb.buffered <;> cases b.reservation <;> rfl

theorem typeOf_confRev (b : ControlBlock) : b.typeOf .confRev = some .int32U := by
  unfold typeOf
  cases b.rcb.buffered <;> cases b.reservation <;> rfl

theorem isString_of_stringOf {s : Bytes} (h : stringOf v = some s) : isString v = true := by
  unfold stringOf at h
  split at h
  · rfl
  · rfl
  · cases h

/-- The engine's part of a write of `DatSet`: the server has the data set, and another name raises
`ConfRev`. -/
theorem changeDataSet_revision {ied : Ied} {value : Value} (h : b.changeDataSet ied value = .ok c) :
    ∃ name, stringOf value = some name ∧ (ied.dataSet name).isSome ∧
      c.revision = if b.dataSetName = some name then b.revision else (b.revision + 1) % 2 ^ 32 := by
  unfold changeDataSet at h
  split at h
  · cases h
  · rename_i name hname
    refine ⟨name, hname, ?_⟩
    split at h
    · cases h
    · rename_i hpresent
      have hsome : (ied.dataSet name).isSome := by
        cases hds : ied.dataSet name with
        | none => simp [hds] at hpresent
        | some ds => rfl
      refine ⟨hsome, ?_⟩
      split at h
      · rename_i hother
        cases h
        have hother' : b.dataSetName ≠ some name := hother
        rw [if_neg hother']
        have hlt : (b.revision + 1) % 2 ^ 32 ≤ u32Max := by
          simp only [u32Max]
          omega
        have hvalue : ∀ n, (b.setInternal .confRev (.unsigned n)).values .confRev =
            some (.unsigned n) := by
          intro n
          simp [setInternal, writeLeaf, typeOf_confRev, accepts, isNumber]
        have hbefore : ((b.values .confRev).bind unsignedOf).getD 0 = b.revision := rfl
        rw [revision, hvalue, hbefore, Option.bind_some, unsignedOf, if_pos hlt, Option.getD_some]
      · rename_i hsame
        cases h
        have hsame' : b.dataSetName = some name := not_not.mp hsame
        rw [if_pos hsame']

theorem writeAttribute_datSet (b : ControlBlock) (ied : Ied) (peers : Peers) (assoc : AssocId)
    (value : Value) (now : Instant) :
    SameNaming b (b.writeAttribute ied peers assoc .datSet value now).1 ∨
      ∃ name, stringOf value = some name ∧ (ied.dataSet name).isSome ∧
        (b.writeAttribute ied peers assoc .datSet value now).1.dataSetName = some name ∧
        (b.writeAttribute ied peers assoc .datSet value now).1.revision =
          if b.dataSetName = some name then b.revision else (b.revision + 1) % 2 ^ 32 := by
  rw [writeAttribute, if_neg (by decide)]
  cases hon : b.onWrite ied assoc .datSet value now with
  | error code => exact Or.inl (SameNaming.refl b)
  | ok c =>
    right
    have hchange : b.changeDataSet ied value = .ok c := by
      rw [onWrite] at hon
      split at hon
      · cases hon
      · exact hon
    obtain ⟨name, hname, hpresent, hrevision⟩ := changeDataSet_revision hchange
    have haccepts : accepts .visString129 value = true := isString_of_stringOf hname
    have hleaf : c.writeLeaf .datSet value =
        ({ c with values := Function.update c.values .datSet (some value) }, .ok ()) := by
      rw [writeLeaf, typeOf_datSet]
      exact if_pos haccepts
    have hquiet : movesOwner .datSet = false ∧ decide (Attribute.datSet = .rptEna) = false := by
      decide
    simp only [hleaf, hquiet.1, hquiet.2, Bool.false_and, Bool.false_eq_true, if_false]
    refine ⟨name, hname, hpresent, ?_, ?_⟩
    · rw [dataSetName]
      dsimp only
      rw [Function.update_self, Option.bind_some, hname]
    · rw [← hrevision, revision, revision]
      dsimp only
      rw [Function.update_of_ne (by decide)]

/-! ### The other actions -/

theorem onWrite_confRev {ied : Ied} {assoc : AssocId} {value : Value} {now : Instant}
    (ha : a ≠ .datSet) (h : b.onWrite ied assoc a value now = .ok c) :
    c.values .confRev = b.values .confRev := by
  have hreserve : ∀ linger, b.reserve assoc linger = .ok c →
      c.values .confRev = b.values .confRev := by
    intro linger hok
    unfold reserve at hok
    split at hok
    · split at hok
      · cases hok
      · cases hok
        rfl
    · split at hok
      · cases hok
        rfl
      · cases hok
        rfl
  have hguard : ∀ (p : Prop) [Decidable p],
      (if p then Except.error dataAccessDenied else Except.ok b) = Except.ok c →
      c.values .confRev = b.values .confRev := by
    intro p _ hok
    split at hok
    · cases hok
    · cases hok
      rfl
  cases a with
  | datSet => exact absurd rfl ha
  | rptEna =>
    rw [onWrite] at h
    split at h
    · obtain ⟨-, -, -, hvalues, -⟩ := enable_ok h
      exact hvalues .confRev (by decide)
    · obtain ⟨-, rfl⟩ := disable_ok h
      rfl
  | gi => exact hguard _ h
  | purgeBuf => exact hguard _ h
  | resv => exact hreserve _ h
  | resvTms => exact hreserve _ h
  | rptID | confRev | optFlds | bufTm | sqNum | trgOps | intgPd | entryID | timeOfEntry | owner
  | other _ => exact hguard _ h

theorem writeAttribute_sameNaming (b : ControlBlock) (ied : Ied) (peers : Peers) (assoc : AssocId)
    (value : Value) (now : Instant) (ha : a ≠ .datSet) :
    SameNaming b (b.writeAttribute ied peers assoc a value now).1 := by
  by_cases hconf : a = .confRev
  · subst hconf
    rw [writeAttribute, if_pos (by decide)]
    exact SameNaming.refl b
  · rcases writeAttribute_cases (Prod.eta (b.writeAttribute ied peers assoc a value now)).symm with
      ⟨hb', -⟩ | ⟨c, hc, ⟨hb', -⟩ | ⟨-, d, -, -, hvalues, -, hb'⟩⟩
    · rw [hb']
      exact SameNaming.refl b
    · rw [hb']
      exact ⟨(onWrite_ok hc).2.2 .datSet (by decide) (by decide), onWrite_confRev ha hc⟩
    · have hc' : SameNaming b c :=
        ⟨(onWrite_ok hc).2.2 .datSet (by decide) (by decide), onWrite_confRev ha hc⟩
      have hd : SameNaming c d :=
        ⟨hvalues .datSet (Ne.symm ha) (by decide), hvalues .confRev (Ne.symm hconf) (by decide)⟩
      rw [hb']
      refine (hc'.trans hd).trans ?_
      split
      · obtain ⟨-, -, hresume⟩ := resume_frame d ied peers
        exact ⟨hresume .datSet rfl, hresume .confRev rfl⟩
      · exact SameNaming.refl d

theorem resetAll_sameNaming (b : ControlBlock) {resets : List (Attribute × Value)}
    (h : ∀ r ∈ resets, r.1 ≠ .datSet ∧ r.1 ≠ .confRev) : SameNaming b (b.resetAll resets) := by
  constructor
  · rcases resetAll_values b resets .datSet with hsame | ⟨r, hr, ha, -⟩
    · exact hsame
    · exact absurd ha (h r hr).1
  · rcases resetAll_values b resets .confRev with hsame | ⟨r, hr, ha, -⟩
    · exact hsame
    · exact absurd ha (h r hr).2

theorem unreserved_sameNaming (b : ControlBlock) : SameNaming b
    ({ b with rcb := { b.rcb with reserved := none } } : ControlBlock).releaseReservation := by
  have hrcb : SameNaming b ({ b with rcb := { b.rcb with reserved := none } } : ControlBlock) :=
    ⟨rfl, rfl⟩
  apply hrcb.trans
  apply resetAll_sameNaming
  decide

theorem build_sameNaming (b : ControlBlock) (ied : Ied) (peers : Peers) (trigger : Trigger)
    (wall : EntryTime) : SameNaming b (b.build ied peers trigger wall).1 :=
  ⟨build_values b ied peers trigger wall rfl, build_values b ied peers trigger wall rfl⟩

theorem closed_sameNaming (b : ControlBlock) (peers : Peers) (assoc : AssocId) (now : Instant) :
    SameNaming b (b.closed peers assoc now) := by
  have howner : SameNaming b (b.releaseOwner assoc) := by
    unfold releaseOwner
    split
    · have hrcb : SameNaming b ({ b with rcb := released b.rcb } : ControlBlock) := ⟨rfl, rfl⟩
      apply hrcb.trans
      apply resetAll_sameNaming
      decide
    · exact SameNaming.refl b
  have hlinger : ∀ c : ControlBlock, SameNaming c (c.lingerReservation assoc now) := by
    intro c
    unfold lingerReservation
    split
    · split
      · exact ⟨rfl, rfl⟩
      · exact SameNaming.refl c
    · split
      · exact unreserved_sameNaming c
      · exact SameNaming.refl c
    · exact SameNaming.refl c
  unfold closed
  dsimp only
  refine (howner.trans (hlinger _)).trans ?_
  split
  · exact ⟨publishOwner_values _ _ (by decide), publishOwner_values _ _ (by decide)⟩
  · exact SameNaming.refl _

/-- The action writes `DatSet`, or the block as a whole. -/
def Renames : Action → Prop
  | .write _ _ _ a _ _ => a = .datSet
  | .writeWhole _ _ => True
  | _ => False

theorem next_sameNaming {x : Action} (h : ¬ Renames x) : SameNaming b (b.next x) := by
  cases x with
  | write ied peers assoc a value now =>
    exact writeAttribute_sameNaming b ied peers assoc value now h
  | writeWhole assoc value => exact absurd trivial h
  | gather ied dirty now =>
    obtain ⟨-, hvalues, -⟩ := gather_rcb b ied dirty now
    rw [next]
    exact ⟨by rw [hvalues], by rw [hvalues]⟩
  | interrogate ied peers wall =>
    rw [next, emitInterrogation]
    split
    · have hgi : SameNaming b (b.setInternal .gi (.boolean false)) :=
        ⟨setInternal_values b _ _ (by decide), setInternal_values b _ _ (by decide)⟩
      exact hgi.trans (build_sameNaming _ _ _ _ _)
    · exact SameNaming.refl b
  | purge =>
    rw [next, purge]
    split
    · exact ⟨setInternal_values b _ _ (by decide), setInternal_values b _ _ (by decide)⟩
    · exact SameNaming.refl b
  | integrity ied peers wall now =>
    rw [next, emitIntegrity]
    split
    · have harm : SameNaming b (b.rearm now) := ⟨rfl, rfl⟩
      exact harm.trans (build_sameNaming _ _ _ _ _)
    · exact SameNaming.refl b
  | change ied peers wall now =>
    rw [next, emitChange]
    split
    · exact build_sameNaming _ _ _ _ _
    · exact SameNaming.refl b
  | flush => exact ⟨rfl, rfl⟩
  | closed peers assoc now => exact closed_sameNaming b peers assoc now
  | expire now =>
    rw [next, expire]
    split
    · exact unreserved_sameNaming b
    · exact SameNaming.refl b

/-! ### A write of the whole block -/

/-- The block has the attribute, and its type accepts the value. -/
def takes (b : ControlBlock) (leaf : Attribute × Value) : Bool :=
  (b.typeOf leaf.1).any fun t => accepts t leaf.2

theorem writeLeaf_of_takes (h : b.takes (a, v) = true) :
    b.writeLeaf a v = ({ b with values := Function.update b.values a (some v) }, .ok ()) := by
  obtain ⟨t, ht, haccepts⟩ := (Option.any_eq_true _ _).mp h
  rw [writeLeaf, ht]
  exact if_pos haccepts

theorem writeLeaf_of_not_takes (h : ¬ b.takes (a, v) = true) :
    ∃ code, b.writeLeaf a v = (b, .error code) := by
  unfold writeLeaf
  split
  · exact ⟨_, rfl⟩
  · rename_i t ht
    have haccepts : ¬ accepts t v = true := by
      intro haccepts
      exact h ((Option.any_eq_true _ _).mpr ⟨t, ht, haccepts⟩)
    rw [if_neg haccepts]
    exact ⟨_, rfl⟩

/-- The components are stored up to the first that is refused. -/
theorem writeLeaves_value (b : ControlBlock) (leaves : List (Attribute × Value)) (a : Attribute) :
    (writeLeaves b leaves).1.values a = b.values a ∨
      ∃ v, (a, v) ∈ leaves.takeWhile b.takes ∧ (writeLeaves b leaves).1.values a = some v := by
  induction leaves generalizing b with
  | nil => exact Or.inl rfl
  | cons leaf rest ih =>
    obtain ⟨a', v⟩ := leaf
    rw [writeLeaves]
    by_cases htakes : b.takes (a', v) = true
    · rw [writeLeaf_of_takes htakes, List.takeWhile_cons_of_pos htakes]
      dsimp only
      have hsame : ({ b with values := Function.update b.values a' (some v) } :
          ControlBlock).takes = b.takes := rfl
      rcases ih { b with values := Function.update b.values a' (some v) } with
        hkept | ⟨w, hmem, hset⟩
      · rw [hkept]
        by_cases ha : a = a'
        · subst ha
          exact Or.inr ⟨v, List.mem_cons_self, Function.update_self a (some v) b.values⟩
        · exact Or.inl (Function.update_of_ne ha (some v) b.values)
      · rw [hsame] at hmem
        exact Or.inr ⟨w, List.mem_cons_of_mem _ hmem, hset⟩
    · obtain ⟨code, hcode⟩ := writeLeaf_of_not_takes htakes
      rw [hcode]
      exact Or.inl rfl

/-- The components that a write of the whole block stores. -/
def wholeComponents (b : ControlBlock) (value : Value) : List (Attribute × Value) :=
  match value with
  | .structure members =>
    let components := (rcbComponents b.rcb.buffered b.reservation).map (·.1)
    if members.length ≠ components.length then []
    else (components.zip members).takeWhile b.takes
  | _ => []

theorem writeWhole_value (b : ControlBlock) (value : Value) (a : Attribute) :
    (b.writeWhole value).1.values a = b.values a ∨
      ∃ v, (a, v) ∈ b.wholeComponents value ∧ (b.writeWhole value).1.values a = some v := by
  unfold writeWhole wholeComponents
  split
  · dsimp only
    split
    · exact Or.inl rfl
    · exact writeLeaves_value b _ a
  · exact Or.inl rfl

/-- The three ways an action can leave `DatSet`: as it was, with the name of a data set the server has,
or with what a write of the whole block brings. -/
theorem dataSetName_next (b : ControlBlock) (x : Action) : (b.next x).dataSetName = b.dataSetName ∨
      (∃ ied peers assoc value now name, x = .write ied peers assoc .datSet value now ∧
        (ied.dataSet name).isSome ∧ (b.next x).dataSetName = some name) ∨
      ∃ assoc value v, x = .writeWhole assoc value ∧ (.datSet, v) ∈ b.wholeComponents value ∧
        (b.next x).dataSetName = stringOf v := by
  by_cases hrenames : Renames x
  · cases x with
    | write ied peers assoc a value now =>
      cases hrenames
      rcases writeAttribute_datSet b ied peers assoc value now with
        hsame | ⟨name, -, hpresent, hname, -⟩
      · exact Or.inl hsame.dataSetName
      · exact Or.inr (Or.inl ⟨ied, peers, assoc, value, now, name, rfl, hpresent, hname⟩)
    | writeWhole assoc value =>
      rcases writeWhole_value b value .datSet with hkept | ⟨v, hmem, hset⟩
      · left
        rw [dataSetName, dataSetName]
        exact congrArg (Option.bind · stringOf) hkept
      · right
        right
        refine ⟨assoc, value, v, rfl, hmem, ?_⟩
        rw [dataSetName]
        exact congrArg (Option.bind · stringOf) hset
    | _ => cases hrenames
  · exact Or.inl (next_sameNaming hrenames).dataSetName

end Iec61850.Server.ControlBlock
