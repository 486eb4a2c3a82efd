import Iec61850.Server.RcbOwnership

/-!
# A reservation that outlives its association

The associations of a server by their numbers and the identities of their peers, with one report
control block. A `ResvTms` keeps the block for the number of an association that is gone, and no
number is given twice.
-/

namespace Iec61850.Server.ControlBlock

open Theory Mms

/-! ### Associations -/

/-- The block, the number of the next association, and what the peers of the open ones are called. -/
structure Site where
  block : ControlBlock
  nextAssoc : AssocId
  peers : AssocId → Option Bytes

/-- What happens at the server: an association is accepted or lost, or the block is acted upon. -/
inductive SiteAction where
  | accept (identity : Bytes)
  | lost (assoc : AssocId) (now : Instant)
  | act (x : Action)

/-- The association an action on the block comes from. -/
def Action.requester : Action → Option AssocId
  | .write _ _ assoc _ _ _ => some assoc
  | .writeWhole assoc _ => some assoc
  | _ => none

namespace Site

/-- A server that starts. -/
def new (block : ControlBlock) : Site := ⟨block, 1, fun _ => none⟩

variable (s : Site)

def isOpen (assoc : AssocId) : Bool := (s.peers assoc).isSome

/-- What the block is told of the peers. -/
def known : Peers := ⟨fun assoc => (s.peers assoc).getD [], fun _ => none, 0⟩

/-- `Server::accept_one`: the next number is given, and the identity entered. -/
def accept (identity : Bytes) : Site :=
  { s with
    nextAssoc := s.nextAssoc + 1
    peers := Function.update s.peers s.nextAssoc (some identity) }

/-- `Acsi::on_association_closed`: the identity is taken out of the table last. -/
def lose (assoc : AssocId) (now : Instant) : Site :=
  { s with
    block := s.block.closed s.known assoc now
    peers := Function.update s.peers assoc none }

/-- Only an open association is lost, and requests come from open associations. -/
def step (s : Site) : SiteAction → Option Site
  | .accept identity => some (s.accept identity)
  | .lost assoc now => if s.isOpen assoc then some (s.lose assoc now) else none
  | .act (.closed _ _ _) => none
  | .act x =>
    if x.requester.all s.isOpen then some { s with block := s.block.next x } else none

end Site

/-! ### Whom the block is kept for -/

/-- A write that claims the block or changes it: it enables or reserves it, or writes a setting. -/
def claims (a : Attribute) (value : Value) : Bool :=
  match a with
  | .rptEna => (boolOf value).getD false
  | .resv => (boolOf value).getD false
  | .resvTms => (lingerOf value).isSome
  | .gi | .purgeBuf => false
  | _ => true

variable {b : ControlBlock} {assoc : AssocId} {a : Attribute} {value : Value} {r : Reservation}
  {ied : Ied} {now : Instant} {x : Action} {s s' : Site}

theorem onWrite_claims (h : b.reservedByOther assoc = true) (hclaims : claims a value = true)
    (ied : Ied) (now : Instant) : b.onWrite ied assoc a value now = .error dataAccessDenied := by
  have hsetting : ∀ {x : Except Int ControlBlock},
      (if b.enabled || b.ownedByOther assoc || b.reservedByOther assoc then
        Except.error dataAccessDenied else x) = .error dataAccessDenied := by
    intro x
    rw [h, Bool.or_true, if_pos rfl]
  cases a with
  | rptEna =>
    have hwant : (boolOf value).getD false = true := hclaims
    rw [onWrite, if_pos hwant, enable, h, Bool.or_true, if_pos rfl]
  | resv =>
    have hwant : (boolOf value).getD false = true := hclaims
    rw [onWrite, if_pos hwant, reserve, h, Bool.true_or, if_pos rfl]
  | resvTms =>
    rw [onWrite]
    obtain ⟨secs, hsecs⟩ := Option.isSome_iff_exists.mp hclaims
    rw [hsecs, reserve, h, Bool.true_or, if_pos rfl]
  | gi | purgeBuf => cases hclaims
  | datSet => exact hsetting
  | rptID | confRev | optFlds | bufTm | sqNum | trgOps | intgPd | entryID | timeOfEntry | owner
  | other _ => exact hsetting

theorem writeAttribute_claims (h : b.reservedByOther assoc = true) (hclaims : claims a value = true)
    (ied : Ied) (peers : Peers) (now : Instant) :
    (b.writeAttribute ied peers assoc a value now).2 = .error dataAccessDenied := by
  unfold writeAttribute
  split
  · rfl
  · rw [onWrite_claims h hclaims]

theorem reservedByOther_of_ne (hr : b.rcb.reserved = some r) (hne : r.assoc ≠ assoc) :
    b.reservedByOther assoc = true := by
  rw [reservedByOther, hr, Option.any_some]
  exact decide_eq_true hne

theorem onWrite_reserved {c : ControlBlock} (hr : b.rcb.reserved = some r) (hne : r.assoc ≠ assoc)
    (hok : b.onWrite ied assoc a value now = .ok c) : c.rcb.reserved = some r := by
  have hother := reservedByOther_of_ne hr hne
  by_cases hclaims : claims a value = true
  · rw [onWrite_claims hother hclaims] at hok
    cases hok
  · have heffect := (onWrite_ok hok).1
    generalize hrcb : c.rcb = rcb at heffect
    cases heffect with
    | enabled integrityDue ha hv howned hfree =>
      rw [hother] at hfree
      cases hfree
    | disabled ha hv howned => exact hr
    | reserved lingerSecs ha howned hfree =>
      rw [hother] at hfree
      cases hfree
    | unreserved ha =>
      -- a release of a reservation that is another's leaves it alone
      have hsame : ∀ linger, linger = none → b.reserve assoc linger = .ok c → c = b := by
        intro linger hnone hreserve
        subst hnone
        rw [reserve, hr, Option.any_some, if_neg (by simpa using hne)] at hreserve
        cases hreserve
        rfl
      have hunmoved : c = b := by
        rcases ha with rfl | rfl
        · refine hsame _ ?_ hok
          exact if_neg hclaims
        · refine hsame _ ?_ hok
          exact Option.not_isSome_iff_eq_none.mp hclaims
      rw [← hrcb, hunmoved]
      exact hr
    | none ha => exact hr

/-- An association that writes neither `Resv` nor `ResvTms` moves no reservation, its own included. -/
theorem WriteEffect.reserved_eq {rcb : Rcb} (h : WriteEffect b assoc a value rcb)
    (ha : a ≠ .resv ∧ a ≠ .resvTms) : rcb.reserved = b.rcb.reserved := by
  cases h with
  | enabled integrityDue _ hv howned hfree => rfl
  | disabled _ hv howned => rfl
  | reserved lingerSecs hattr howned hfree => exact absurd hattr (not_or.mpr ha)
  | unreserved hattr => exact absurd hattr (not_or.mpr ha)
  | none _ => rfl

/-- What the engine leaves of a reservation, a write leaves of it. -/
theorem writeAttribute_reserved {peers : Peers} (hr : b.rcb.reserved = some r)
    (hkept : ∀ c, b.onWrite ied assoc a value now = .ok c → c.rcb.reserved = some r) :
    (b.writeAttribute ied peers assoc a value now).1.rcb.reserved = some r := by
  rcases writeAttribute_cases (Prod.eta (b.writeAttribute ied peers assoc a value now)).symm with
    ⟨hb', -⟩ | ⟨c, hc, ⟨hb', -⟩ | ⟨-, d, hrcb, -, -, -, hb'⟩⟩
  · rw [hb']
    exact hr
  · rw [hb']
    exact hkept c hc
  · rw [hb']
    split
    · obtain ⟨seq, overflowed, hresumed⟩ := (resume_frame d ied peers).1
      rw [hresumed, hrcb]
      exact hkept c hc
    · rw [hrcb]
      exact hkept c hc

/-! ### Every action -/

/-- The action leaves the reservation to its holder: another association may write what it likes, the
holder anything but `Resv` and `ResvTms`, and the clock has not reached the time it lapses at. -/
def Action.Leaves (r : Reservation) : Action → Prop
  | .write _ _ assoc a _ _ => r.assoc ≠ assoc ∨ a ≠ .resv ∧ a ≠ .resvTms
  | .closed _ _ _ => False
  | .expire now => ∀ lapses, r.lapsesAt = some lapses → now < lapses
  | _ => True

theorem reserved_emits (h : b.Emits x) : (b.next x).rcb.reserved = b.rcb.reserved := by
  rcases h with ⟨hnext, -⟩ | ⟨c, ied, peers, trigger, wall, hprepared, hnext, -⟩
  · rw [hnext]
  · obtain ⟨integrityDue, hrcb⟩ := hprepared.rcb
    rw [hnext, (build_sameHolder c ied peers trigger wall).2, hrcb]

theorem reserved_next (hr : b.rcb.reserved = some r) (hx : x.Leaves r) :
    (b.next x).rcb.reserved = some r := by
  cases x with
  | write ied peers assoc a value now =>
    apply writeAttribute_reserved hr
    intro c hc
    rcases hx with hne | ha
    · exact onWrite_reserved hr hne hc
    · rw [(onWrite_ok hc).1.reserved_eq ha]
      exact hr
  | writeWhole assoc value =>
    rw [next, (writeWhole_rcb b value).1]
    exact hr
  | gather ied dirty now =>
    obtain ⟨-, -, pending, due, hrcb⟩ := gather_rcb b ied dirty now
    rw [next, hrcb]
    exact hr
  | interrogate ied peers wall =>
    rw [reserved_emits (emits_interrogate b ied peers wall)]
    exact hr
  | purge =>
    obtain ⟨-, buffer, overflowed, hrcb⟩ := purge_rcb b
    rw [next, hrcb]
    exact hr
  | integrity ied peers wall now =>
    rw [reserved_emits (emits_integrity b ied peers wall now)]
    exact hr
  | change ied peers wall now =>
    rw [reserved_emits (emits_change b ied peers wall now)]
    exact hr
  | flush => exact hr
  | closed peers assoc now => exact hx.elim
  | expire now =>
    rw [next, expire, if_neg]
    · exact hr
    · rw [hr, Option.any_some, Option.any_eq_true]
      rintro ⟨lapses, hlapses, hle⟩
      exact absurd (hx lapses hlapses) (not_lt.mpr (of_decide_eq_true hle))

theorem closed_reserved_other (hr : b.rcb.reserved = some r) (hne : r.assoc ≠ assoc) (peers : Peers)
    (now : Instant) : (b.closed peers assoc now).rcb.reserved = some r := by
  have howner : (b.releaseOwner assoc).rcb.reserved = some r := by
    rw [(releaseOwner_rcb b assoc).2]
    split
    · exact hr
    · exact hr
  have hlinger : ((b.releaseOwner assoc).lingerReservation assoc now).rcb.reserved = some r := by
    obtain ⟨held, secs, lapses⟩ := r
    unfold lingerReservation
    rw [howner]
    cases secs with
    | some secs =>
      dsimp only
      rw [if_neg hne]
      exact howner
    | none =>
      dsimp only
      rw [if_neg hne]
      exact howner
  unfold closed
  dsimp only
  split
  · rw [publishOwner_rcb]
    exact hlinger
  · exact hlinger

/-- At the end of its association a reservation by `ResvTms` is given the time it lapses at. -/
theorem closed_reserved_self {secs : Nat} {lapses : Option Instant}
    (hr : b.rcb.reserved = some ⟨assoc, some secs, lapses⟩) (peers : Peers) (now : Instant) :
    (b.closed peers assoc now).rcb.reserved =
      some ⟨assoc, some secs, some (Instant.plusMillis now (secs * 1000))⟩ := by
  have howner : (b.releaseOwner assoc).rcb.reserved = some ⟨assoc, some secs, lapses⟩ := by
    rw [(releaseOwner_rcb b assoc).2]
    split
    · exact hr
    · exact hr
  have hlinger : ((b.releaseOwner assoc).lingerReservation assoc now).rcb.reserved =
      some ⟨assoc, some secs, some (Instant.plusMillis now (secs * 1000))⟩ := by
    unfold lingerReservation
    rw [howner]
    dsimp only
    rw [if_pos rfl]
  unfold closed
  dsimp only
  split
  · rw [publishOwner_rcb]
    exact hlinger
  · exact hlinger

/-- What an accepted `ResvTms` leaves. -/
theorem writeAttribute_resvTms {peers : Peers} {secs : Nat}
    (hsecs : lingerOf value = some (some secs))
    (hok : (b.writeAttribute ied peers assoc .resvTms value now).2 = .ok ()) :
    (b.writeAttribute ied peers assoc .resvTms value now).1.rcb.reserved =
      some ⟨assoc, some secs, none⟩ := by
  rcases writeAttribute_cases
    (Prod.eta (b.writeAttribute ied peers assoc .resvTms value now)).symm with
    ⟨-, code, hcode⟩ | ⟨c, hc, ⟨-, code, hcode⟩ | ⟨-, d, hrcb, -, -, -, hb'⟩⟩
  · rw [hok] at hcode
    cases hcode
  · rw [hok] at hcode
    cases hcode
  · rw [if_neg (by simp)] at hb'
    rw [hb', hrcb]
    rw [onWrite, hsecs, reserve] at hc
    dsimp only at hc
    split at hc
    · cases hc
    · cases hc
      rfl

/-! ### Numbers are given once -/

/-- The open associations have numbers that were given. -/
def Site.Numbered (s : Site) : Prop := ∀ assoc, s.isOpen assoc = true → assoc < s.nextAssoc

theorem Site.numbered_new (block : ControlBlock) : (Site.new block).Numbered := by
  intro assoc h
  cases h

theorem Site.step_act (h : s.step (.act x) = some s') :
    (∀ assoc, x.requester = some assoc → s.isOpen assoc = true) ∧ (∀ peers assoc now,
      x ≠ .closed peers assoc now) ∧ s' = { s with block := s.block.next x } := by
  unfold Site.step at h
  split at h
  · rename_i heq
    cases heq
  · rename_i heq
    cases heq
  · cases h
  · rename_i y hclosed heq
    cases heq
    split at h
    · rename_i hopen
      cases h
      refine ⟨?_, ?_, rfl⟩
      · intro assoc hassoc
        rw [hassoc, Option.all_some] at hopen
        exact hopen
      · rintro peers assoc now rfl
        exact hclosed peers assoc now rfl
    · cases h

theorem Site.step_lost (h : s.step (.lost assoc now) = some s') :
    s.isOpen assoc = true ∧ s' = s.lose assoc now := by
  unfold Site.step at h
  dsimp only at h
  split at h
  · rename_i hopen
    cases h
    exact ⟨hopen, rfl⟩
  · cases h

theorem isOpen_accept {identity : Bytes} (h : (s.accept identity).isOpen assoc = true) :
    assoc = s.nextAssoc ∨ s.isOpen assoc = true := by
  by_cases heq : assoc = s.nextAssoc
  · exact Or.inl heq
  · right
    unfold Site.isOpen Site.accept at h
    dsimp only at h
    rw [Function.update_of_ne heq] at h
    exact h

theorem isOpen_lose {other : AssocId} (h : (s.lose assoc now).isOpen other = true) :
    other ≠ assoc ∧ s.isOpen other = true := by
  unfold Site.isOpen Site.lose at h
  dsimp only at h
  by_cases heq : other = assoc
  · subst heq
    rw [Function.update_self] at h
    cases h
  · rw [Function.update_of_ne heq] at h
    exact ⟨heq, h⟩

theorem Site.Numbered.step (h : s.Numbered) {x : SiteAction} (hstep : s.step x = some s') :
    s'.Numbered ∧ s.nextAssoc ≤ s'.nextAssoc := by
  cases x with
  | accept identity =>
    cases hstep
    refine ⟨?_, Nat.le_succ _⟩
    intro assoc hopen
    rcases isOpen_accept hopen with heq | hopen
    · rw [heq]
      exact Nat.lt_succ_self _
    · exact Nat.lt_succ_of_lt (h assoc hopen)
  | lost assoc now =>
    obtain ⟨-, rfl⟩ := Site.step_lost hstep
    refine ⟨?_, Nat.le_refl _⟩
    intro other hopen
    exact h other (isOpen_lose hopen).2
  | act x =>
    obtain ⟨-, -, rfl⟩ := Site.step_act hstep
    exact ⟨h, Nat.le_refl _⟩

/-! ### A reservation while its association is open, and after -/

/-- The holder stays, and writes neither `Resv` nor `ResvTms` again. -/
def Holds (assoc : AssocId) (_ : Site) : SiteAction → Prop
  | .lost other _ => other ≠ assoc
  | .act (.write _ _ other a _ _) => other = assoc → a ≠ .resv ∧ a ≠ .resvTms
  | _ => True

/-- The clock has not reached the time. -/
def Before (time : Instant) (_ : Site) : SiteAction → Prop
  | .act (.expire now) => now < time
  | _ => True

/-- The block is kept for a number that was given. -/
structure KeptFor (r : Reservation) (s : Site) : Prop where
  reserved : s.block.rcb.reserved = some r
  numbered : s.Numbered
  given : r.assoc < s.nextAssoc

theorem KeptFor.act (h : KeptFor r s) (hstep : s.step (.act x) = some s') (hx : x.Leaves r) :
    KeptFor r s' := by
  obtain ⟨-, -, rfl⟩ := Site.step_act hstep
  exact ⟨reserved_next h.reserved hx, h.numbered, h.given⟩

theorem KeptFor.lost (h : KeptFor r s) (hstep : s.step (.lost assoc now) = some s')
    (hne : r.assoc ≠ assoc) : KeptFor r s' := by
  have hnumbered := h.numbered.step hstep
  obtain ⟨-, rfl⟩ := Site.step_lost hstep
  exact ⟨closed_reserved_other h.reserved hne s.known now, hnumbered.1, h.given⟩

theorem KeptFor.accept (h : KeptFor r s) {identity : Bytes}
    (hstep : s.step (.accept identity) = some s') : KeptFor r s' := by
  obtain ⟨hnumbered, hle⟩ := h.numbered.step hstep
  cases hstep
  exact ⟨h.reserved, hnumbered, Nat.lt_of_lt_of_le h.given hle⟩

theorem keptFor_holds {secs : Option Nat} {x : SiteAction} (h : KeptFor ⟨assoc, secs, none⟩ s)
    (hx : Holds assoc s x) (hstep : s.step x = some s') : KeptFor ⟨assoc, secs, none⟩ s' := by
  cases x with
  | accept identity => exact h.accept hstep
  | lost other now => exact h.lost hstep (Ne.symm hx)
  | act x =>
    refine h.act hstep ?_
    obtain ⟨-, hclosed, -⟩ := Site.step_act hstep
    cases x with
    | write ied peers other a value now =>
      by_cases heq : other = assoc
      · exact Or.inr (hx heq)
      · exact Or.inl (Ne.symm heq)
    | closed peers other now => exact absurd rfl (hclosed peers other now)
    | expire now =>
      intro lapses hlapses
      cases hlapses
    | _ => trivial

/-- After it has gone, and before the reservation lapses, the block is kept for its number, which no
association has. -/
theorem keptFor_gone {secs : Option Nat} {time : Instant} {x : SiteAction}
    (h : KeptFor ⟨assoc, secs, some time⟩ s ∧ s.isOpen assoc = false) (hx : Before time s x)
    (hstep : s.step x = some s') :
    KeptFor ⟨assoc, secs, some time⟩ s' ∧ s'.isOpen assoc = false := by
  obtain ⟨hkept, hgone⟩ := h
  cases x with
  | accept identity =>
    refine ⟨hkept.accept hstep, ?_⟩
    cases hstep
    rw [← Bool.not_eq_true]
    intro hopen
    rcases isOpen_accept hopen with heq | hopen
    · exact Nat.lt_irrefl _ (heq ▸ hkept.given)
    · rw [hgone] at hopen
      cases hopen
  | lost other now =>
    have hother := (Site.step_lost hstep).1
    refine ⟨hkept.lost hstep ?_, ?_⟩
    · rintro rfl
      rw [hgone] at hother
      cases hother
    · obtain ⟨-, rfl⟩ := Site.step_lost hstep
      rw [← Bool.not_eq_true]
      intro hopen
      have hbefore := (isOpen_lose hopen).2
      rw [hgone] at hbefore
      cases hbefore
  | act x =>
    obtain ⟨hopen, hclosed, heq⟩ := Site.step_act hstep
    refine ⟨hkept.act hstep ?_, by rw [heq]; exact hgone⟩
    cases x with
    | write ied peers other a value now =>
      left
      rintro rfl
      have hother := hopen assoc rfl
      rw [hgone] at hother
      cases hother
    | closed peers other now => exact absurd rfl (hclosed peers other now)
    | expire now =>
      intro lapses hlapses
      cases hlapses
      exact hx
    | _ => trivial

/-! ### Coming back -/

/-- A run in which a client reserves the block for some seconds, loses its association while it holds
the block, and has another one under the same identity before the seconds have passed. -/
structure Comeback (block : ControlBlock) where
  identity : Bytes
  -- the client is there
  arriving : List SiteAction
  start : Site
  arrived : run Site.step (Site.new block) arriving = some start
  assoc : AssocId
  opened : start.peers assoc = some identity
  -- it writes `ResvTms`
  ied : Ied
  peers : Peers
  value : Value
  seconds : Int
  asked : integerOf value = some seconds
  positive : 0 < seconds
  askedAt : Instant
  granted : (start.block.writeAttribute ied peers assoc .resvTms value askedAt).2 = .ok ()
  -- it holds the block until its association ends
  holding : List SiteAction
  last : Site
  held : Meets Site.step (Holds assoc)
    { start with block := (start.block.writeAttribute ied peers assoc .resvTms value askedAt).1 }
    holding
  stayed : run Site.step
    { start with block := (start.block.writeAttribute ied peers assoc .resvTms value askedAt).1 }
    holding = some last
  lostAt : Instant
  gone : Site
  lost : last.step (.lost assoc lostAt) = some gone
  -- it comes back
  returning : List SiteAction
  back : Site
  early : Meets Site.step (Before (Instant.plusMillis lostAt (min seconds.toNat u32Max * 1000)))
    gone returning
  returned : run Site.step gone returning = some back
  again : AssocId
  reopened : back.peers again = some identity

namespace Comeback

variable {block : ControlBlock} (c : Comeback block)

/-- When the reservation lapses. -/
def lapsesAt : Instant := Instant.plusMillis c.lostAt (min c.seconds.toNat u32Max * 1000)

theorem numbered_start : c.start.Numbered :=
  invariant_run (I := Site.Numbered) (C := fun _ _ => True)
    (fun _ _ _ hs _ hstep => (hs.step hstep).1) (Site.numbered_new block)
    (meets_of_forall (fun _ _ => trivial) _ _) c.arrived

theorem isOpen_start : c.start.isOpen c.assoc = true := by
  rw [Site.isOpen, c.opened]
  rfl

theorem keptFor_back :
    KeptFor ⟨c.assoc, some (min c.seconds.toNat u32Max), some c.lapsesAt⟩ c.back ∧
      c.back.isOpen c.assoc = false := by
  have hlinger : lingerOf c.value = some (some (min c.seconds.toNat u32Max)) := by
    unfold lingerOf
    rw [c.asked]
    exact if_pos c.positive
  have hreserved : KeptFor ⟨c.assoc, some (min c.seconds.toNat u32Max), none⟩
      { c.start with block :=
        (c.start.block.writeAttribute c.ied c.peers c.assoc .resvTms c.value c.askedAt).1 } :=
    ⟨writeAttribute_resvTms hlinger c.granted, c.numbered_start,
      c.numbered_start c.assoc c.isOpen_start⟩
  have hlast : KeptFor ⟨c.assoc, some (min c.seconds.toNat u32Max), none⟩ c.last :=
    invariant_run (fun _ _ _ hs hx hstep => keptFor_holds hs hx hstep) hreserved c.held c.stayed
  obtain ⟨-, hgone⟩ := Site.step_lost c.lost
  have hbegin : KeptFor ⟨c.assoc, some (min c.seconds.toNat u32Max), some c.lapsesAt⟩ c.gone ∧
      c.gone.isOpen c.assoc = false := by
    have hnumbered := (hlast.numbered.step c.lost).1
    rw [hgone] at hnumbered ⊢
    refine ⟨⟨closed_reserved_self hlast.reserved _ _, hnumbered, hlast.given⟩, ?_⟩
    unfold Site.isOpen Site.lose
    dsimp only
    rw [Function.update_self]
    rfl
  exact invariant_run (fun _ _ _ hs hx hstep => keptFor_gone hs hx hstep) hbegin c.early c.returned

theorem again_ne : c.again ≠ c.assoc := by
  intro heq
  have hopen : c.back.isOpen c.again = true := by
    rw [Site.isOpen, c.reopened]
    rfl
  rw [heq, c.keptFor_back.2] at hopen
  cases hopen

/-- However a client comes back in time, its enabling of the block is denied, as is every write by which
any client, whatever its identity, would enable, reserve or set the block; once the time is up and
the server has looked at the clock, the reservation excludes nobody. -/
theorem shut_out :
    (∀ ied peers now, (c.back.block.writeAttribute ied peers c.again .rptEna (.boolean true) now).2 =
      .error dataAccessDenied) ∧
    (∀ assoc, c.back.isOpen assoc = true → ∀ ied peers a value now, claims a value = true →
      (c.back.block.writeAttribute ied peers assoc a value now).2 = .error dataAccessDenied) ∧
    ∀ now, c.lapsesAt ≤ now → (c.back.block.expire now).rcb.reserved = none := by
  obtain ⟨hkept, hgone⟩ := c.keptFor_back
  refine ⟨?_, ?_, ?_⟩
  · intro ied peers now
    have hother := reservedByOther_of_ne hkept.reserved (Ne.symm c.again_ne)
    exact writeAttribute_claims hother rfl ied peers now
  · intro assoc hopen ied peers a value now hclaims
    have hne : c.assoc ≠ assoc := by
      rintro rfl
      rw [hgone] at hopen
      cases hopen
    exact writeAttribute_claims (reservedByOther_of_ne hkept.reserved hne) hclaims ied peers now
  · intro now hle
    rw [expire, if_pos]
    · unfold releaseReservation
      rw [resetAll_rcb]
    · rw [hkept.reserved, Option.any_some, Option.any_some]
      exact decide_eq_true hle

end Comeback

/-- A client reserves a block for a minute, loses its association after a second, and comes back a
second later. -/
def roundTrip : Comeback (engineered idle [] none true) where
  identity := [10]
  arriving := [.accept [10]]
  start := (Site.new (engineered idle [] none true)).accept [10]
  arrived := rfl
  assoc := 1
  opened := rfl
  ied := noData
  peers := anonymous
  value := .integer 60
  seconds := 60
  asked := rfl
  positive := by decide
  askedAt := 0
  granted := rfl
  holding := []
  last := _
  held := trivial
  stayed := rfl
  lostAt := 1000000000
  gone := _
  lost := rfl
  returning := [.accept [10], .act (.expire 2000000000)]
  back := _
  early := by
    have hlt : (2000000000 : Nat) <
        Instant.plusMillis 1000000000 (min (Int.toNat 60) u32Max * 1000) := by decide +kernel
    exact ⟨trivial, fun _ _ => ⟨hlt, fun _ _ => trivial⟩⟩
  returned := rfl
  again := 2
  reopened := rfl

/-- It does not get the block again. -/
theorem not_readmitted :
    ¬ ∀ (block : ControlBlock) (c : Comeback block) (ied : Ied) (peers : Peers) (now : Instant),
      now < c.lapsesAt →
      (c.back.block.writeAttribute ied peers c.again .rptEna (.boolean true) now).2 = .ok () := by
  intro hclaim
  have hok := hclaim _ roundTrip noData anonymous 2000000000 (by decide)
  have hdenied : (roundTrip.back.block.writeAttribute noData anonymous roundTrip.again .rptEna
      (.boolean true) 2000000000).2 = .error dataAccessDenied := rfl
  rw [hdenied] at hok
  cases hok

end Iec61850.Server.ControlBlock
