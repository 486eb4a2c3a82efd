import Iec61850.Ber.Consumed
import Mathlib.Logic.Relation

/-!
# A cursor over a slice

`Cursor` of `ber/reader.rs` as it stands there: a slice, a position in it, and the place of the slice
in the outermost buffer, with every sum checked against what its type holds. The cursor the codecs
are modelled over keeps the unread octets only; it is what this one shows (`SliceCursor.view`), and
on no octets does a sum overflow. Iterating therefore ends, and the elements it yields lie one behind
the other in the slice.
-/

namespace Iec61850.Ber

open Theory

/-! ### Checked arithmetic -/

/-- What a `usize` holds: 32 bits at least on every target that has the standard library. -/
structure Target where
  usizeMax : Nat
  wide : u32Max ≤ usizeMax

/-- The outcome of a computation whose sums are checked. -/
inductive Outcome (α : Type) where
  | ok (a : α)
  | error (e : Error)
  | overflow

namespace Outcome

def andThen {α β : Type} (x : Outcome α) (f : α → Outcome β) : Outcome β :=
  match x with
  | .ok a => f a
  | .error e => .error e
  | .overflow => .overflow

instance : Monad Outcome where
  pure := .ok
  bind := andThen

variable {α β : Type}

@[simp] theorem ok_bind (a : α) (f : α → Outcome β) : (Outcome.ok a >>= f) = f a := rfl

@[simp] theorem error_bind (e : Error) (f : α → Outcome β) :
    (Outcome.error e >>= f) = .error e := rfl

/-- A number of a type that holds numbers up to `max`. -/
def fits (max n : Nat) : Outcome Nat := if n ≤ max then .ok n else .overflow

theorem fits_ok {max n : Nat} (h : n ≤ max) : fits max n = .ok n := if_pos h

end Outcome

/-! ### The cursor of the source -/

/-- `Cursor`: the slice, the position in it, and the offset of the slice. -/
structure SliceCursor where
  buf : Bytes
  pos : Nat
  base : Nat

/-- `<[u8]>::get` with a range. -/
def getRange (buf : Bytes) (i j : Nat) : Option Bytes :=
  if i ≤ j ∧ j ≤ buf.length then some ((buf.drop i).take (j - i)) else none

theorem getRange_some {buf : Bytes} {i j : Nat} (hij : i ≤ j) (hj : j ≤ buf.length) :
    getRange buf i j = some ((buf.drop i).take (j - i)) := if_pos ⟨hij, hj⟩

theorem getRange_none {buf : Bytes} {i j : Nat} (h : buf.length < j) : getRange buf i j = none :=
  if_neg fun hin => absurd hin.2 (Nat.not_le.mpr h)

namespace SliceCursor

/-- `Cursor::new`. -/
def new (buf : Bytes) : SliceCursor := ⟨buf, 0, 0⟩

/-- `Tlv::children`. -/
def children (t : Tlv) : SliceCursor := ⟨t.value, 0, t.valueOffset⟩

/-- The offset of a position in the outermost buffer; the sum saturates. -/
def abs (m : Target) (c : SliceCursor) (p : Nat) : Nat := min (c.base + p) m.usizeMax

/-- The loop over the groups of a high tag number, which ends at the fifth at the latest. -/
def highTag (m : Target) (c : SliceCursor) (start : Nat) :
    Nat → Bool → Nat → Nat → Outcome (Nat × Nat)
  | 0, _, _, _ => .error (.decode .badValue (c.abs m start))
  | left + 1, isFirst, number, pos =>
    match c.buf[pos]? with
    | none => .error (.decode .truncated (c.abs m pos))
    | some b => do
        let pos ← Outcome.fits m.usizeMax (pos + 1)
        if isFirst = true ∧ b.toNat = 128 then .error (.decode .badValue (c.abs m start))
        else if number > u32Max / 128 then .error (.decode .badValue (c.abs m start))
        else do
          let number ← Outcome.fits u32Max (number * 128 + b.toNat % 128)
          if b.toNat / 128 = 0 then .ok (number, pos)
          else highTag m c start left false number pos

/-- The identifier octets of `next_inner`. -/
def readTag (m : Target) (c : SliceCursor) : Outcome (Tag × Nat) :=
  match c.buf[c.pos]? with
  | none => .error (.decode .truncated (c.abs m c.pos))
  | some first => do
      let pos ← Outcome.fits m.usizeMax (c.pos + 1)
      let cls := Cursor.classOf first
      let constructed := decide (first.toNat / 32 % 2 = 1)
      if first.toNat % 32 = 31 then do
        let (number, pos) ← highTag m c c.pos 5 true 0 pos
        if number < 31 then .error (.decode .badValue (c.abs m c.pos))
        else .ok (⟨cls, constructed, number⟩, pos)
      else .ok (⟨cls, constructed, first.toNat % 32⟩, pos)

/-- The length octets of `next_inner`. -/
def readLength (m : Target) (c : SliceCursor) (pos : Nat) : Outcome (Nat × Nat) :=
  match c.buf[pos]? with
  | none => .error (.decode .truncated (c.abs m pos))
  | some first => do
      let pos ← Outcome.fits m.usizeMax (pos + 1)
      if first.toNat < 128 then .ok (first.toNat, pos)
      else
        let n := first.toNat % 128
        if n = 0 then .error (.decode .indefiniteLength (c.abs m (pos - 1)))
        else if n > 4 then .error (.decode .badLength (c.abs m (pos - 1)))
        else do
          let stop ← Outcome.fits m.usizeMax (pos + n)
          match getRange c.buf pos stop with
          | none => .error (.decode .truncated (c.abs m pos))
          | some bytes => do
              let len ← bytes.foldlM
                (fun len b => Outcome.fits m.usizeMax (len * 256 + b.toNat)) 0
              .ok (len, stop)

/-- `Cursor::next_inner`: the element and the position behind it. -/
def nextInner (m : Target) (c : SliceCursor) : Outcome (Tlv × Nat) := do
  let (tag, pos) ← readTag m c
  let (len, pos) ← readLength m c pos
  match getRange c.buf pos (min (pos + len) m.usizeMax) with
  | none => .error (.decode .truncated (c.abs m pos))
  | some value => do
      let stop ← Outcome.fits m.usizeMax (pos + len)
      .ok (⟨tag, value, c.abs m c.pos, c.abs m pos⟩, stop)

/-- `Iterator::next`: what it returns and the cursor after it, unless a sum overflows. -/
def next (m : Target) (c : SliceCursor) : Option (Option (Except Error Tlv) × SliceCursor) :=
  if c.pos ≥ c.buf.length then some (none, c)
  else
    match nextInner m c with
    | .ok (t, p) => some (some (.ok t), { c with pos := p })
    | .error e => some (some (.error e), { c with pos := c.buf.length })
    | .overflow => none

/-- Calling `next` until it returns nothing yields `items` and leaves `c'`. -/
inductive Yields (m : Target) : SliceCursor → List (Except Error Tlv) → SliceCursor → Prop where
  | ends {c c' : SliceCursor} (h : c.next m = some (none, c')) : Yields m c [] c'
  | item {c c' c'' : SliceCursor} {item : Except Error Tlv} {items : List (Except Error Tlv)}
      (h : c.next m = some (some item, c')) (rest : Yields m c' items c'') :
      Yields m c (item :: items) c''

/-! ### Cursors that can occur -/

/-- The position lies in the slice, which lies in a buffer of at most `isize::MAX` octets. -/
structure Placed (m : Target) (c : SliceCursor) : Prop where
  within : c.pos ≤ c.buf.length
  placed : c.base + c.buf.length ≤ m.usizeMax / 2

/-- What the cursor shows: the unread octets and where they start. -/
def view (c : SliceCursor) : Cursor := ⟨c.buf.drop c.pos, c.base + c.pos⟩

variable {m : Target} {c : SliceCursor}

variable {buf : Bytes} {p pos start stop : Nat} {α : Type} {d : SliceCursor}

theorem placed_new (h : buf.length ≤ m.usizeMax / 2) : Placed m (new buf) :=
  ⟨Nat.zero_le _, by simpa [new] using h⟩

theorem Placed.room (h : Placed m c) : c.base + c.buf.length + 4 ≤ m.usizeMax := by
  have hplaced := h.placed
  have hwide := m.wide
  have hmax : u32Max = 4294967295 := rfl
  omega

theorem Placed.abs_eq (h : Placed m c) (hp : p ≤ c.buf.length) : c.abs m p = c.base + p := by
  have hroom := h.room
  exact Nat.min_eq_left (by omega)

/-- `x` is `y` with a position in the slice for the octets left: neither overflows. -/
def Follows {α : Type} (c : SliceCursor) (pos : Nat) (x : Outcome (α × Nat))
    (y : Except Error (α × Nat × Bytes)) : Prop :=
  (∃ e, x = .error e ∧ y = .error e) ∨
    ∃ a p, x = .ok (a, p) ∧ y = .ok (a, c.base + p, c.buf.drop p) ∧ pos ≤ p ∧ p ≤ c.buf.length

theorem follows_error (e : Error) :
    Follows (α := α) c pos (.error e) (.error e) := Or.inl ⟨e, rfl, rfl⟩

theorem follows_ok (a : α) (hpos : pos ≤ p) (hp : p ≤ c.buf.length) :
    Follows c pos (.ok (a, p)) (.ok (a, c.base + p, c.buf.drop p)) :=
  Or.inr ⟨a, p, rfl, rfl, hpos, hp⟩

theorem Follows.mono {pos' : Nat} {x : Outcome (α × Nat)} {y : Except Error (α × Nat × Bytes)}
    (h : Follows c pos x y) (hle : pos' ≤ pos) : Follows c pos' x y := by
  rcases h with h | ⟨a, p, hx, hy, hpos, hp⟩
  · exact Or.inl h
  · exact Or.inr ⟨a, p, hx, hy, Nat.le_trans hle hpos, hp⟩

theorem drop_of_getElem? {b : UInt8} (h : buf[pos]? = some b) :
    pos < buf.length ∧ buf.drop pos = b :: buf.drop (pos + 1) := by
  obtain ⟨hlt, rfl⟩ := List.getElem?_eq_some_iff.mp h
  exact ⟨hlt, List.drop_eq_getElem_cons hlt⟩

theorem drop_of_getElem?_none (h : buf[pos]? = none) : buf.length ≤ pos ∧ buf.drop pos = [] := by
  have hle := List.getElem?_eq_none_iff.mp h
  exact ⟨hle, List.drop_eq_nil_iff.mpr hle⟩

/-! ### The parts of an element -/

theorem highTag_follows (hc : Placed m c) {start pos : Nat} (hstart : start ≤ c.buf.length)
    (hpos : pos ≤ c.buf.length) (left : Nat) (isFirst : Bool) (number : Nat) :
    Follows c pos (highTag m c start left isFirst number pos)
      (Cursor.highTag (c.base + start) left isFirst number (c.base + pos) (c.buf.drop pos)) := by
  have hroom := hc.room
  induction left generalizing isFirst number pos with
  | zero =>
    rw [highTag, Cursor.highTag, hc.abs_eq hstart]
    exact follows_error _
  | succ left ih =>
    rw [highTag]
    split
    · rename_i hend
      rw [(drop_of_getElem?_none hend).2, Cursor.highTag, hc.abs_eq hpos]
      exact follows_error _
    · rename_i b hb
      obtain ⟨hlt, hdrop⟩ := drop_of_getElem? hb
      rw [hdrop, Cursor.highTag, Outcome.fits_ok (by omega), Outcome.ok_bind, hc.abs_eq hstart]
      split
      · exact follows_error _
      · split
        · exact follows_error _
        · rename_i hsmall
          -- the guard leaves room for seven more bits
          have hnumber : number * 128 + b.toNat % 128 ≤ u32Max := by
            have hmax : u32Max = 4294967295 := rfl
            omega
          rw [Outcome.fits_ok hnumber, Outcome.ok_bind]
          dsimp only
          split
          · exact follows_ok _ (Nat.le_succ _) hlt
          · exact (ih hlt _ _).mono (Nat.le_succ _)

theorem readTag_follows (hc : Placed m c) :
    Follows c (c.pos + 1) (readTag m c) (Cursor.readTag (c.base + c.pos) (c.buf.drop c.pos)) := by
  have hroom := hc.room
  rw [readTag]
  split
  · rename_i hend
    rw [(drop_of_getElem?_none hend).2, Cursor.readTag, hc.abs_eq hc.within]
    exact follows_error _
  · rename_i first hfirst
    obtain ⟨hlt, hdrop⟩ := drop_of_getElem? hfirst
    rw [hdrop, Cursor.readTag, Outcome.fits_ok (by omega), Outcome.ok_bind, hc.abs_eq hc.within]
    dsimp only
    split
    · rcases @highTag_follows m c hc c.pos (c.pos + 1) hc.within hlt 5 true 0 with
        ⟨e, hx, hy⟩ | ⟨number, p, hx, hy, hle, hp⟩
      · rw [hx, Nat.add_assoc, hy]
        exact follows_error e
      · rw [hx, Nat.add_assoc, hy, Outcome.ok_bind]
        dsimp only [bind, Except.bind]
        split
        · exact follows_error _
        · exact follows_ok _ hle hp
    · exact follows_ok _ (Nat.le_refl _) hlt

theorem length_fits (m : Target) {bytes : Bytes} (h : bytes.length ≤ 4) :
    bytes.foldlM (fun len b => Outcome.fits m.usizeMax (len * 256 + b.toNat)) 0 =
      .ok (beNat bytes) := by
  have hwide := m.wide
  have hmax : u32Max + 1 = 256 ^ 4 := rfl
  have hrun : ∀ (bs : Bytes) (len : Nat), len * 256 ^ bs.length + beNat bs ≤ m.usizeMax →
      bs.foldlM (fun len b => Outcome.fits m.usizeMax (len * 256 + b.toNat)) len =
        .ok (len * 256 ^ bs.length + beNat bs) := by
    intro bs
    induction bs with
    | nil =>
      intro len _
      simp [beNat, pure]
    | cons b bs ih =>
      intro len hlen
      have hpow : 1 ≤ 256 ^ bs.length := Nat.pow_pos (by decide)
      have hsplit : len * 256 ^ (b :: bs).length + beNat (b :: bs) =
          (len * 256 + b.toNat) * 256 ^ bs.length + beNat bs := by
        rw [List.length_cons, beNat_cons, Nat.pow_succ, Nat.add_mul, Nat.mul_assoc,
          Nat.mul_comm 256]
        omega
      rw [hsplit] at hlen ⊢
      have hle : len * 256 + b.toNat ≤ (len * 256 + b.toNat) * 256 ^ bs.length :=
        Nat.le_mul_of_pos_right _ hpow
      rw [List.foldlM_cons, Outcome.fits_ok (by omega), Outcome.ok_bind]
      exact ih _ hlen
  have hlt := beNat_lt_of_length h
  rw [hrun bytes 0 (by omega)]
  simp

theorem readLength_follows (hc : Placed m c) (hpos : pos ≤ c.buf.length) :
    Follows c (pos + 1) (readLength m c pos)
      (Cursor.readLength (c.base + pos) (c.buf.drop pos)) := by
  have hroom := hc.room
  rw [readLength]
  split
  · rename_i hend
    rw [(drop_of_getElem?_none hend).2, Cursor.readLength, hc.abs_eq hpos]
    exact follows_error _
  · rename_i first hfirst
    obtain ⟨hlt, hdrop⟩ := drop_of_getElem? hfirst
    rw [hdrop, Cursor.readLength, Outcome.fits_ok (by omega), Outcome.ok_bind,
      Nat.add_sub_cancel, hc.abs_eq hpos, hc.abs_eq hlt]
    dsimp only
    split
    · exact follows_ok _ (Nat.le_refl _) hlt
    · split
      · exact follows_error _
      · split
        · exact follows_error _
        · rename_i hzero hfew
          rw [Outcome.fits_ok (by omega), Outcome.ok_bind, List.length_drop]
          by_cases hshort : c.buf.length - (pos + 1) < first.toNat % 128
          · rw [if_pos hshort, getRange_none (by omega)]
            exact follows_error _
          · rw [if_neg hshort,
              @getRange_some c.buf (pos + 1) (pos + 1 + first.toNat % 128) (by omega) (by omega),
              Nat.add_sub_cancel_left]
            dsimp only
            have hfour : ((c.buf.drop (pos + 1)).take (first.toNat % 128)).length ≤ 4 := by
              rw [List.length_take]
              omega
            have hplace : c.base + pos + 1 + first.toNat % 128 =
                c.base + (pos + 1 + first.toNat % 128) := by omega
            rw [length_fits m hfour, Outcome.ok_bind, List.drop_drop, hplace]
            exact follows_ok _ (Nat.le_add_right _ _) (by omega)

/-! ### Elements in the slice -/

/-- An element of the slice from `start` to `stop`, with contents that end it. -/
structure SitsAt (c : SliceCursor) (t : Tlv) (start stop : Nat) : Prop where
  starts : t.offset = c.base + start
  header : t.offset + 2 ≤ t.valueOffset
  ends : t.valueOffset + t.value.length = c.base + stop
  within : stop ≤ c.buf.length
  contents : (c.buf.drop (t.valueOffset - c.base)).take t.value.length = t.value

theorem SitsAt.lt {t : Tlv} (h : SitsAt c t start stop) : start < stop := by
  have hstarts := h.starts
  have hheader := h.header
  have hends := h.ends
  omega

/-- `next_inner` fails as the other cursor does, or yields the element that cursor yields, which sits
at the position. -/
theorem nextInner_follows (hc : Placed m c) :
    (∃ e, nextInner m c = .error e ∧ c.view.nextInner = .error e) ∨
      ∃ t p, nextInner m c = .ok (t, p) ∧
        c.view.nextInner = .ok (t, ({ c with pos := p } : SliceCursor).view) ∧
        SitsAt c t c.pos p := by
  have hroom := hc.room
  unfold nextInner view Cursor.nextInner
  rcases readTag_follows hc with ⟨e, hx, hy⟩ | ⟨tag, pos, hx, hy, hle, hpos⟩
  · left
    rw [hx, hy]
    exact ⟨e, rfl, rfl⟩
  · rw [hx, hy, Outcome.ok_bind]
    dsimp only [bind, Except.bind]
    rcases readLength_follows hc hpos with ⟨e, hx, hy⟩ | ⟨len, stop, hx, hy, hafter, hstop⟩
    · left
      rw [hx, hy]
      exact ⟨e, rfl, rfl⟩
    · rw [hx, hy]
      dsimp only [Outcome.andThen]
      rw [hc.abs_eq hc.within, hc.abs_eq hstop, List.length_drop]
      by_cases hmany : c.buf.length - stop < len
      · left
        rw [if_pos hmany, getRange_none (by omega)]
        exact ⟨_, rfl, rfl⟩
      · right
        rw [if_neg hmany, Nat.min_eq_left (by omega), getRange_some (by omega) (by omega),
          Nat.add_sub_cancel_left, Outcome.fits_ok (by omega)]
        refine ⟨_, _, rfl, ?_, ?_⟩
        · rw [List.drop_drop, Nat.add_assoc]
        · refine ⟨rfl, ?_, ?_, by omega, ?_⟩
          · dsimp only
            omega
          · dsimp only
            rw [List.length_take, List.length_drop]
            omega
          · rw [List.length_take, List.length_drop, Nat.add_sub_cancel_left, Nat.min_eq_left (by omega)]

/-- `next`: the end, an error that leaves nothing, or an element and the cursor behind it. -/
theorem next_cases (hc : Placed m c) :
    (c.pos = c.buf.length ∧ c.next m = some (none, c) ∧ c.view.next = none) ∨
      (∃ e, c.pos < c.buf.length ∧
        c.next m = some (some (.error e), { c with pos := c.buf.length }) ∧
        c.view.next = some (.error e, ({ c with pos := c.buf.length } : SliceCursor).view)) ∨
      ∃ t p, c.next m = some (some (.ok t), { c with pos := p }) ∧
        c.view.next = some (.ok t, ({ c with pos := p } : SliceCursor).view) ∧
        SitsAt c t c.pos p := by
  have hwithin := hc.within
  by_cases hend : c.pos ≥ c.buf.length
  · left
    refine ⟨Nat.le_antisymm hwithin hend, by rw [next, if_pos hend], ?_⟩
    rw [Cursor.next, if_pos]
    simpa [view, Cursor.isEmpty] using hend
  · have hmore : c.view.isEmpty = false := by
      simpa [view, Cursor.isEmpty] using hend
    right
    rcases nextInner_follows hc with ⟨e, hx, hy⟩ | ⟨t, p, hx, hy, hsits⟩
    · left
      refine ⟨e, by omega, by rw [next, if_neg hend, hx], ?_⟩
      rw [Cursor.next, hmore, hy]
      simp [Cursor.stop, view]
      omega
    · right
      refine ⟨t, p, by rw [next, if_neg hend, hx], ?_, hsits⟩
      rw [Cursor.next, hmore, hy]
      rfl

theorem placed_pos (hc : Placed m c) (hp : p ≤ c.buf.length) :
    Placed m { c with pos := p } := ⟨hp, hc.placed⟩

theorem placed_children (hc : Placed m c) {t : Tlv} (h : SitsAt c t start stop) :
    Placed m (children t) := by
  refine ⟨Nat.zero_le _, ?_⟩
  have hplaced := hc.placed
  have hwithin := h.within
  have hends := h.ends
  dsimp only [children]
  omega

/-! ### Iterating -/

/-- The elements lie one behind the other, the first at `start` and the last up to `stop`. -/
def Covers (c : SliceCursor) : Nat → List Tlv → Nat → Prop
  | start, [], stop => start = stop
  | start, t :: ts, stop => ∃ p, SitsAt c t start p ∧ Covers c p ts stop

/-- What iterating yields: elements that cover the octets up to `stop`, and after them an error if
octets are left there. -/
structure Scanned (c : SliceCursor) (ts : List Tlv) (err : Option Error) (stop : Nat) : Prop where
  covers : Covers c c.pos ts stop
  within : stop ≤ c.buf.length
  all : err = none ↔ stop = c.buf.length

/-- The items of an iteration: elements, and an error at most after all of them. -/
def itemsOf (ts : List Tlv) (err : Option Error) : List (Except Error Tlv) :=
  ts.map .ok ++ (err.map .error).toList

theorem Covers.repos {ts : List Tlv} :
    Covers { c with pos := p } start ts stop ↔ Covers c start ts stop := by
  induction ts generalizing start with
  | nil => exact Iff.rfl
  | cons t ts ih =>
    constructor
    · rintro ⟨q, hsits, hrest⟩
      exact ⟨q, ⟨hsits.starts, hsits.header, hsits.ends, hsits.within, hsits.contents⟩,
        ih.mp hrest⟩
    · rintro ⟨q, hsits, hrest⟩
      exact ⟨q, ⟨hsits.starts, hsits.header, hsits.ends, hsits.within, hsits.contents⟩,
        ih.mpr hrest⟩

theorem yields_unique {items items' : List (Except Error Tlv)} {d' : SliceCursor}
    (h : Yields m c items d) (h' : Yields m c items' d') : items = items' ∧ d = d' := by
  induction h generalizing items' d' with
  | ends h =>
    cases h' with
    | ends h₂ =>
      rw [h] at h₂
      simpa using h₂
    | item h₂ _ =>
      rw [h] at h₂
      simp at h₂
  | item h _ ih =>
    cases h' with
    | ends h₂ =>
      rw [h] at h₂
      simp at h₂
    | item h₂ rest =>
      rw [h] at h₂
      obtain ⟨rfl, rfl⟩ : _ = _ ∧ _ = _ := by simpa using h₂
      obtain ⟨rfl, rfl⟩ := ih rest
      exact ⟨rfl, rfl⟩

theorem itemsFuel_nothing {v : Cursor} (h : v.next = none) (fuel : Nat) :
    Cursor.itemsFuel fuel v = [] := by
  cases fuel with
  | zero => rfl
  | succ fuel => rw [Cursor.itemsFuel, h]

theorem yields_fuel (fuel : Nat) (hc : Placed m c) (hfuel : c.buf.length - c.pos ≤ fuel) :
    ∃ ts err stop, Yields m c (itemsOf ts err) { c with pos := c.buf.length } ∧
      Scanned c ts err stop ∧ Cursor.itemsFuel fuel c.view = itemsOf ts err := by
  induction fuel generalizing c with
  | zero =>
    rcases next_cases hc with ⟨hend, hnext, -⟩ | ⟨-, hlt, -, -⟩ | ⟨t, p, -, -, hsits⟩
    · refine ⟨[], none, c.pos, ?_, ⟨rfl, hc.within, iff_of_true rfl hend⟩, rfl⟩
      rw [← hend]
      exact Yields.ends hnext
    · omega
    · have hlt := hsits.lt
      have hwithin := hsits.within
      omega
  | succ fuel ih =>
    rcases next_cases hc with ⟨hend, hnext, hview⟩ | ⟨e, hlt, hnext, hview⟩ |
      ⟨t, p, hnext, hview, hsits⟩
    · refine ⟨[], none, c.pos, ?_, ⟨rfl, hc.within, iff_of_true rfl hend⟩,
        itemsFuel_nothing hview _⟩
      rw [← hend]
      exact Yields.ends hnext
    · -- after an error nothing is left, so the next call returns nothing
      have hstop : (⟨c.buf, c.buf.length, c.base⟩ : SliceCursor).next m =
          some (none, ⟨c.buf, c.buf.length, c.base⟩) := if_pos (Nat.le_refl _)
      refine ⟨[], some e, c.pos, Yields.item hnext (Yields.ends hstop),
        ⟨rfl, hc.within, ?_⟩, by rw [Cursor.itemsFuel, hview]; rfl⟩
      constructor
      · intro h
        cases h
      · intro h
        omega
    · have hlt := hsits.lt
      obtain ⟨ts, err, stop, hrun, hscan, hitems⟩ := ih (placed_pos hc hsits.within) (by
        dsimp only
        omega)
      refine ⟨t :: ts, err, stop, Yields.item hnext hrun,
        ⟨⟨p, hsits, Covers.repos.mp hscan.covers⟩, hscan.within, hscan.all⟩, ?_⟩
      rw [Cursor.itemsFuel, hview]
      dsimp only
      rw [hitems]
      rfl

theorem placed_yields (hc : Placed m c) :
    ∃ ts err stop, Yields m c (itemsOf ts err) { c with pos := c.buf.length } ∧
      Scanned c ts err stop ∧ c.view.items = itemsOf ts err :=
  yields_fuel _ hc (by rw [view, List.length_drop])

/-- A cursor that can occur: its slice lies in a buffer that a target can hold. -/
def PlacedCursor (m : Target) : Type := { c : SliceCursor // Placed m c }

/-- `Cursor::new` over octets of which there are at most `isize::MAX`. -/
def PlacedCursor.new (m : Target) (buf : Bytes) (h : buf.length ≤ m.usizeMax / 2) :
    PlacedCursor m := ⟨SliceCursor.new buf, placed_new h⟩

/-- One call of `next`. -/
def Calls (m : Target) (c c' : SliceCursor) : Prop := ∃ r, c.next m = some (r, c')

theorem placed_calls (hc : Placed m c) (h : Calls m c d) : Placed m d := by
  obtain ⟨r, hr⟩ := h
  rcases next_cases hc with ⟨-, hnext, -⟩ | ⟨e, -, hnext, -⟩ | ⟨t, p, hnext, -, hsits⟩
  · rw [hnext] at hr
    cases hr
    exact hc
  · rw [hnext] at hr
    cases hr
    exact placed_pos hc (Nat.le_refl _)
  · rw [hnext] at hr
    cases hr
    exact placed_pos hc hsits.within

theorem placed_reached (hc : Placed m c) (h : Relation.ReflTransGen (Calls m) c d) :
    Placed m d := by
  induction h with
  | refl => exact hc
  | tail _ hcall ih => exact placed_calls ih hcall

theorem next_ne_none (hc : Placed m c) : c.next m ≠ none := by
  rcases next_cases hc with ⟨-, hnext, -⟩ | ⟨e, -, hnext, -⟩ | ⟨t, p, hnext, -, -⟩
  · simp [hnext]
  · simp [hnext]
  · simp [hnext]

theorem Covers.children (hc : Placed m c) {ts : List Tlv} (h : Covers c start ts stop) :
    ∀ t ∈ ts, Placed m (children t) := by
  induction ts generalizing start with
  | nil => simp
  | cons t ts ih =>
    obtain ⟨p, hsits, hrest⟩ := h
    intro u hu
    rcases List.mem_cons.mp hu with rfl | hu
    · exact placed_children hc hsits
    · exact ih hrest u hu

/-- Iterating any cursor ends, and in one way only: with elements that lie one behind the other from
its position and cover what was consumed, then an error if octets are left that are not an element,
then nothing. No call of `next` overflows, and the contents of each element are octets of such a
cursor again. -/
theorem iterating_ends (m : Target) (c : PlacedCursor m) :
    ∃ ts err stop, Scanned c.1 ts err stop ∧
      (∀ items d, Yields m c.1 items d ↔
        items = itemsOf ts err ∧ d = { c.1 with pos := c.1.buf.length }) ∧
      c.1.view.items = itemsOf ts err ∧
      (∀ d, Relation.ReflTransGen (Calls m) c.1 d → d.next m ≠ none) ∧
      ∀ t ∈ ts, Placed m (children t) := by
  obtain ⟨c, hc⟩ := c
  obtain ⟨ts, err, stop, hyields, hscan, hitems⟩ := placed_yields hc
  refine ⟨ts, err, stop, hscan, ?_, hitems, ?_, hscan.covers.children hc⟩
  · intro items d
    constructor
    · intro h
      exact yields_unique h hyields
    · rintro ⟨rfl, rfl⟩
      exact hyields
  · intro d hd
    exact next_ne_none (placed_reached hc hd)

end SliceCursor

end Iec61850.Ber
