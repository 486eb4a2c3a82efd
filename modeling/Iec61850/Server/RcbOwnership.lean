import Iec61850.Server.RcbRuns

/-!
# Who a report control block belongs to

Enabling and reserving are two claims on a block. Along every run they agree on the association
that makes them, and as long as every write of a setting goes through the engine, only that
association can enable, configure, interrogate or purge the block, and no setting changes while
the block is enabled.
-/

namespace Iec61850.Server.ControlBlock

open Theory Mms

/-- Both claims on the block, where there are both, are of the same association. -/
def Coupled (b : ControlBlock) : Prop :=
  ∀ assoc r, b.rcb.owner = some assoc → b.rcb.reserved = some r → r.assoc = assoc

/-- No other association has enabled or reserved the block. -/
def FreeFor (b : ControlBlock) (assoc : AssocId) : Prop :=
  b.ownedByOther assoc = false ∧ b.reservedByOther assoc = false

/-- The attributes that are settings: all but those that enable, reserve and command the block. -/
def isSetting : Attribute → Bool
  | .rptEna | .gi | .purgeBuf | .resv | .resvTms => false
  | _ => true

/-- The writes only the client of a block may make: they enable it, change a setting, ask for a
general interrogation or purge the buffer. -/
def isPrivileged (a : Attribute) (value : Value) : Bool :=
  isSetting a || a = .gi || a = .purgeBuf || a = .rptEna && boolOf value == some true

/-- What is asked of a write: if it is accepted, or changes a setting, it comes from an association
that no other one excludes, and a setting is not accepted while the block is enabled. -/
def Lawful (b : ControlBlock) : Action → Prop
  | .write ied peers assoc a value now =>
    (b.writeAttribute ied peers assoc a value now).2 = .ok () →
      (isPrivileged a value = true → b.FreeFor assoc) ∧ (isSetting a = true → b.enabled = false)
  | .writeWhole assoc value =>
    ((b.writeWhole value).2 = .ok () ∨
      ∃ a, isSetting a = true ∧ (b.writeWhole value).1.values a ≠ b.values a) →
    b.FreeFor assoc ∧ b.enabled = false
  | _ => True

/-- The engine has its say: a write of the block as a whole, as a structure with the right number
of components, is made only when the block is not enabled and no other association excludes it. -/
def Consulted (b : ControlBlock) : Action → Prop
  | .writeWhole assoc (.structure members) =>
    members.length = (rcbComponents b.rcb.buffered b.reservation).length →
      b.FreeFor assoc ∧ b.enabled = false
  | _ => True

/-! ### The two claims agree -/

theorem coupled_new (reference : Bytes) (buffered reservation : Bool)
    (values : Attribute → Option Value) : (new reference buffered reservation values).Coupled := by
  intro assoc r howner
  cases howner

theorem ownedByOther_eq_false {b : ControlBlock} {assoc : AssocId} :
    b.ownedByOther assoc = false ↔ ∀ o, b.rcb.owner = some o → o = assoc := by
  rw [ownedByOther, Option.any_eq_false]
  simp

theorem reservedByOther_eq_false {b : ControlBlock} {assoc : AssocId} :
    b.reservedByOther assoc = false ↔ ∀ r, b.rcb.reserved = some r → r.assoc = assoc := by
  rw [reservedByOther, Option.any_eq_false]
  simp

theorem Coupled.sameHolder {b b' : ControlBlock} (h : b.Coupled) (hsame : SameHolder b.rcb b'.rcb) :
    b'.Coupled := by
  intro assoc r howner hreserved
  rw [hsame.1] at howner
  rw [hsame.2] at hreserved
  exact h assoc r howner hreserved

theorem Coupled.writeEffect {b b' : ControlBlock} {assoc : AssocId} {a : Attribute} {value : Value}
    (h : b.Coupled) (heffect : WriteEffect b assoc a value b'.rcb) : b'.Coupled := by
  generalize hrcb : b'.rcb = rcb at heffect
  intro o r howner hreserved
  rw [hrcb] at howner hreserved
  cases heffect with
  | enabled integrityDue ha hv howned hfree =>
    cases howner
    exact reservedByOther_eq_false.mp hfree r hreserved
  | disabled ha hv howned => cases howner
  | reserved lingerSecs ha howned hfree =>
    cases hreserved
    exact (ownedByOther_eq_false.mp howned o howner).symm
  | unreserved ha => cases hreserved
  | none ha => exact h o r howner hreserved

theorem Coupled.write {b : ControlBlock} (h : b.Coupled) (ied : Ied) (peers : Peers)
    (assoc : AssocId) (a : Attribute) (value : Value) (now : Instant) :
    (b.writeAttribute ied peers assoc a value now).1.Coupled := by
  obtain ⟨rcb, heffect, seq, overflowed, hrcb⟩ :=
    writeAttribute_rcb b ied peers assoc a value now
  refine Coupled.sameHolder (b := { b with rcb }) ?_ (by rw [hrcb]; exact ⟨rfl, rfl⟩)
  rcases heffect with rfl | heffect
  · exact h
  · exact h.writeEffect heffect

theorem Coupled.closed {b : ControlBlock} (h : b.Coupled) (peers : Peers) (assoc : AssocId)
    (now : Instant) : (b.closed peers assoc now).Coupled := by
  obtain ⟨-, reserved, hrcb, hfrom⟩ := closed_rcb b peers assoc now
  intro o r howner hreserved
  rw [hrcb] at howner hreserved
  obtain ⟨r', hr', hassoc⟩ := hfrom r hreserved
  rw [hassoc]
  refine h o r' ?_ hr'
  dsimp only at howner
  split at howner
  · cases howner
  · exact howner

theorem Coupled.expire {b : ControlBlock} (h : b.Coupled) (now : Instant) :
    (b.expire now).Coupled := by
  obtain ⟨-, reserved, hrcb, hfrom⟩ := expire_rcb b now
  intro o r howner hreserved
  rw [hrcb] at howner hreserved
  rcases hfrom with hsame | hnone
  · exact h o r howner (hsame ▸ hreserved)
  · rw [hnone] at hreserved
    cases hreserved

theorem Coupled.emits {b : ControlBlock} (h : b.Coupled) {x : Action} (hx : b.Emits x) :
    (b.next x).Coupled := by
  rcases hx with ⟨hnext, -⟩ | ⟨c, ied, peers, trigger, wall, hprepared, hnext, -⟩
  · rw [hnext]
    exact h
  · obtain ⟨integrityDue, hrcb⟩ := hprepared.rcb
    refine h.sameHolder ?_
    have hsame := build_sameHolder c ied peers trigger wall
    rwa [hrcb, ← hnext] at hsame

theorem Coupled.next {b : ControlBlock} (h : b.Coupled) (x : Action) : (b.next x).Coupled := by
  cases x with
  | write ied peers assoc a value now => exact h.write ied peers assoc a value now
  | writeWhole assoc value =>
    refine h.sameHolder ?_
    rw [ControlBlock.next, (writeWhole_rcb b value).1]
    exact ⟨rfl, rfl⟩
  | gather ied dirty now =>
    obtain ⟨-, -, pending, due, hrcb⟩ := gather_rcb b ied dirty now
    refine h.sameHolder ?_
    rw [ControlBlock.next, hrcb]
    exact ⟨rfl, rfl⟩
  | interrogate ied peers wall => exact h.emits (emits_interrogate b ied peers wall)
  | purge =>
    obtain ⟨-, buffer, overflowed, hrcb⟩ := purge_rcb b
    refine h.sameHolder ?_
    rw [ControlBlock.next, hrcb]
    exact ⟨rfl, rfl⟩
  | integrity ied peers wall now => exact h.emits (emits_integrity b ied peers wall now)
  | change ied peers wall now => exact h.emits (emits_change b ied peers wall now)
  | flush => exact h.sameHolder ⟨rfl, rfl⟩
  | closed peers assoc now => exact h.closed peers assoc now
  | expire now => exact h.expire now

/-! ### What is accepted -/

/-- A setting is accepted only while the block is not enabled, and from an association that no
other one excludes. -/
theorem onWrite_setting {b b' : ControlBlock} {ied : Ied} {assoc : AssocId} {a : Attribute}
    {value : Value} {now : Instant} (hsetting : isSetting a = true)
    (h : b.onWrite ied assoc a value now = .ok b') : b.FreeFor assoc ∧ b.enabled = false := by
  have hguard : ∀ {x : Except Int ControlBlock},
      (if b.enabled || b.ownedByOther assoc || b.reservedByOther assoc then
        Except.error dataAccessDenied else x) = .ok b' → b.FreeFor assoc ∧ b.enabled = false := by
    intro x hok
    split at hok
    · cases hok
    · rename_i hfree
      rw [Bool.or_eq_true, Bool.or_eq_true, not_or, not_or, Bool.not_eq_true, Bool.not_eq_true,
        Bool.not_eq_true] at hfree
      exact ⟨⟨hfree.1.2, hfree.2⟩, hfree.1.1⟩
  cases a with
  | rptEna | gi | purgeBuf | resv | resvTms => cases hsetting
  | datSet => exact hguard h
  | rptID | confRev | optFlds | bufTm | sqNum | trgOps | intgPd | entryID | timeOfEntry | owner
  | other _ => exact hguard h

/-- A command is accepted from the owner only. -/
theorem onWrite_command {b b' : ControlBlock} {ied : Ied} {assoc : AssocId} {a : Attribute}
    {value : Value} {now : Instant} (hcommand : a = .gi ∨ a = .purgeBuf)
    (h : b.onWrite ied assoc a value now = .ok b') : b.rcb.owner = some assoc := by
  rcases hcommand with rfl | rfl
  all_goals
    rw [onWrite] at h
    split at h
    · cases h
    · rename_i howner
      exact not_not.mp howner

theorem Coupled.freeFor_owner {b : ControlBlock} (h : b.Coupled) {assoc : AssocId}
    (howner : b.rcb.owner = some assoc) : b.FreeFor assoc := by
  constructor
  · rw [ownedByOther_eq_false]
    intro o ho
    rw [howner] at ho
    exact (Option.some.inj ho).symm
  · rw [reservedByOther_eq_false]
    intro r hr
    exact h assoc r howner hr

theorem Coupled.lawful_write {b : ControlBlock} (h : b.Coupled) (ied : Ied) (peers : Peers)
    (assoc : AssocId) (a : Attribute) (value : Value) (now : Instant) :
    b.Lawful (.write ied peers assoc a value now) := by
  intro hok
  rcases writeAttribute_cases (Prod.eta (b.writeAttribute ied peers assoc a value now)).symm with
    ⟨-, code, hcode⟩ | ⟨c, hc, ⟨-, code, hcode⟩ | -⟩
  · rw [hok] at hcode
    cases hcode
  · rw [hok] at hcode
    cases hcode
  · refine ⟨?_, fun hsetting => (onWrite_setting hsetting hc).2⟩
    intro hprivileged
    rw [isPrivileged, Bool.or_eq_true, Bool.or_eq_true, Bool.or_eq_true, Bool.and_eq_true,
      decide_eq_true_eq, decide_eq_true_eq, decide_eq_true_eq] at hprivileged
    rcases hprivileged with ((hsetting | hgi) | hpurge) | ⟨hena, htrue⟩
    · exact (onWrite_setting hsetting hc).1
    · exact h.freeFor_owner (onWrite_command (Or.inl hgi) hc)
    · exact h.freeFor_owner (onWrite_command (Or.inr hpurge) hc)
    · have heffect := (onWrite_ok hc).1
      have hv : boolOf value = some true := by simpa using htrue
      generalize c.rcb = rcb at heffect
      cases heffect with
      | enabled integrityDue ha hv' howned hreserved => exact ⟨howned, hreserved⟩
      | disabled ha hv' howned => exact absurd hv hv'
      | reserved lingerSecs ha howned hreserved => exact ⟨howned, hreserved⟩
      | unreserved ha =>
        rw [hena] at ha
        rcases ha with ha | ha <;> cases ha
      | none ha => exact absurd hena ha

/-- A structured write that does not have the block's shape is refused and changes nothing. -/
theorem writeWhole_shape {b : ControlBlock} {value : Value} :
    (∃ members, value = .structure members ∧
      members.length = (rcbComponents b.rcb.buffered b.reservation).length) ∨
    b.writeWhole value = (b, .error dataAccessTypeInconsistent) := by
  unfold writeWhole
  split
  · rename_i members
    dsimp only
    rw [List.length_map]
    split
    · exact Or.inr rfl
    · rename_i hlen
      exact Or.inl ⟨members, rfl, not_not.mp hlen⟩
  · exact Or.inr rfl

theorem lawful_writeWhole {b : ControlBlock} {assoc : AssocId} {value : Value}
    (h : b.Consulted (.writeWhole assoc value)) : b.Lawful (.writeWhole assoc value) := by
  intro hdone
  rcases @writeWhole_shape b value with ⟨members, rfl, hlen⟩ | hrefused
  · exact h hlen
  · rw [hrefused] at hdone
    rcases hdone with hok | ⟨a, -, hne⟩
    · cases hok
    · exact absurd rfl hne

/-- Along every run in which the engine has its say, both claims on the block are always of the
same association, and every write that is accepted is one its rules allow. -/
theorem run_lawful (reference : Bytes) (buffered reservation : Bool)
    (values : Attribute → Option Value) {xs : List Action} {x : Action} {b : ControlBlock}
    (hxs : Meets step Consulted (new reference buffered reservation values) (xs ++ [x]))
    (hrun : run step (new reference buffered reservation values) xs = some b) :
    b.Coupled ∧ (b.next x).Coupled ∧ b.Lawful x := by
  have hcoupled : b.Coupled :=
    invariant_run (I := Coupled) (C := fun _ _ => True)
      (fun s y s' hs _ hstep => by
        cases hstep
        exact hs.next y)
      (coupled_new reference buffered reservation values)
      (meets_of_forall (fun _ _ => trivial) _ _) hrun
  refine ⟨hcoupled, hcoupled.next x, ?_⟩
  have hx : b.Consulted x := meets_last hxs hrun
  cases x with
  | write ied peers assoc a value now =>
    exact hcoupled.lawful_write ied peers assoc a value now
  | writeWhole assoc value => exact lawful_writeWhole hx
  | _ => trivial

/-- A buffered block of the second edition, with nothing behind it. -/
def idle : ReportControl where
  rptId := none
  buffered := true
  confRev := 1
  optFlds := 0
  bufTimeMs := 0
  trgOps := 0
  intgPdMs := 0

def noData : Ied := ⟨fun _ => none, fun _ => none⟩

/-- An association reserves the block and enables it. -/
theorem run_lawful_reserved :
    let b := (engineered idle [] none true).next
      (.write noData anonymous 1 .resvTms (.integer 60) 0)
    let x := Action.write noData anonymous 1 .rptEna (.boolean true) 0
    b.Coupled ∧ (b.next x).Coupled ∧ b.Lawful x := by
  refine @run_lawful [] true true (fun a => (rcbDefaults idle [] none true).lookup a)
    [.write noData anonymous 1 .resvTms (.integer 60) 0] _ _ ?_ rfl
  refine ⟨trivial, ?_⟩
  intro b _
  exact ⟨trivial, fun _ _ => trivial⟩

/-- The components of the block, with another name for its reports. -/
def renamed : List Value :=
  [.visibleString [98], .boolean true, .visibleString [], .unsigned 1, .bitString 6 [0, 0],
    .unsigned 0, .unsigned 0, .bitString 2 [0], .unsigned 0, .boolean false, .boolean false,
    .octetString [], .binaryTime [], .integer 0, .octetString []]

/-- While one association has the block enabled, another one renames it by writing it whole. -/
theorem writeWhole_unlawful :
    ¬ ∀ (reference : Bytes) (buffered reservation : Bool) (values : Attribute → Option Value)
      (xs : List Action) (x : Action) (b : ControlBlock),
      run step (new reference buffered reservation values) xs = some b →
      b.Coupled ∧ (b.next x).Coupled ∧ b.Lawful x := by
  intro hall
  obtain ⟨-, -, hlawful⟩ := hall [] true true
    (fun a => (rcbDefaults idle [] none true).lookup a)
    [.write noData anonymous 1 .rptEna (.boolean true) 0] (.writeWhole 2 (.structure renamed)) _ rfl
  obtain ⟨⟨howned, -⟩, -⟩ := hlawful (Or.inl rfl)
  exact absurd howned (by decide)

end Iec61850.Server.ControlBlock
