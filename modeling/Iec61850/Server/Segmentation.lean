import Iec61850.Mms.ReportAssembler
import Iec61850.Server.ReportEncoding

/-!
# What the segments of a report are

`Split` follows the outer loop of `segments`: each segment takes at least one entry, fits the
budget unless it takes exactly one, and would not fit with one more. Everything said about the
list of segments is read off it by induction; so is that an assembler makes the report of them
again (`segments_reassembled`).
-/

namespace Iec61850.Server

open Theory Ber Mms

theorem encode_ne_nil {r : Report} {bytes : Bytes} (h : encode r = .ok bytes) : bytes ≠ [] := by
  obtain ⟨values, -, h⟩ := bind_ok h
  obtain ⟨encoded, -, h⟩ := bind_ok h
  obtain ⟨results, -, h⟩ := bind_ok h
  obtain ⟨contents, -, -, rfl⟩ := constructed_ok h
  exact List.ne_nil_of_length_pos (element_length_pos _ _)

theorem within_eq_some {budget : Nat} {x : Except Error Bytes} {bytes : Bytes} :
    within budget x = some bytes ↔ x = .ok bytes ∧ bytes.length ≤ budget := by
  cases x with
  | error e => simp [within]
  | ok b =>
    by_cases hb : b.length ≤ budget
    · constructor
      · intro h
        simp only [within, if_pos hb, Option.some_inj] at h
        exact ⟨h ▸ rfl, h ▸ hb⟩
      · rintro ⟨h, -⟩
        cases h
        exact if_pos hb
    · constructor
      · intro h
        simp only [within, if_neg hb] at h
        cases h
      · rintro ⟨h, hlen⟩
        cases h
        exact absurd hlen hb

/-- The way `segments` splits the entries from `start` on. -/
inductive Split (r : Report) (budget : Nat) : Nat → UInt32 → List Report → Prop where
  | done (sub : UInt32) : Split r budget r.entries.length sub []
  | take {start : Nat} {sub : UInt32} {rest : List Report} (count : Nat) (pos : 1 ≤ count)
      (inside : start + count ≤ r.entries.length)
      (fits : count = 1 ∨ within budget (candidate r start count sub) ≠ none)
      (full : start + count = r.entries.length ∨
        within budget (candidate r start (count + 1) sub) = none)
      (next : Split r budget (start + count) (sub + 1) rest) :
      Split r budget start sub
        (segment r start count sub (decide (start + count < r.entries.length)) :: rest)

/-- What the bisection finds is the encoding of that many entries. -/
theorem cut_spec {r : Report} (hsplit : Splittable r) (budget : Nat) {start : Nat}
    (hstart : start < r.entries.length) (sub : UInt32) :
    1 ≤ (cut r budget start sub).1 ∧ start + (cut r budget start sub).1 ≤ r.entries.length ∧
      candidate r start (cut r budget start sub).1 sub = .ok (cut r budget start sub).2 ∧
      ((cut r budget start sub).1 = 1 ∨
        within budget (candidate r start (cut r budget start sub).1 sub) ≠ none) ∧
      (start + (cut r budget start sub).1 = r.entries.length ∨
        within budget (candidate r start ((cut r budget start sub).1 + 1) sub) = none) := by
  have hmore : decide (1 < r.entries.length - start) = decide (start + 1 < r.entries.length) := by
    rw [decide_eq_decide]
    omega
  obtain ⟨alone, halone⟩ := hsplit start hstart sub (decide (start + 1 < r.entries.length))
  have hlargest : Largest (fun count => within budget (candidate r start count sub)) alone
      (r.entries.length - start + 1) (cut r budget start sub).1 (cut r budget start sub).2 := by
    unfold cut
    simp only [hmore, halone, orDefault]
    exact bisect_largest (by omega) (Nat.le_refl 1) (by omega) (Nat.le_refl _) (Or.inl ⟨rfl, rfl⟩)
      (Or.inl rfl)
  generalize cut r budget start sub = found at hlargest ⊢
  obtain ⟨count, best⟩ := found
  have hpos := hlargest.pos
  have hlt := hlargest.lt
  refine ⟨hpos, by omega, ?_, ?_, ?_⟩
  · rcases hlargest.made with ⟨hone, hbest⟩ | hfits
    · subst hone
      subst hbest
      exact halone
    · exact (within_eq_some.mp hfits).1
  · rcases hlargest.made with ⟨hone, -⟩ | hfits
    · exact Or.inl hone
    · right
      intro hnone
      exact absurd (hfits.symm.trans hnone) (Option.some_ne_none _)
  · rcases hlargest.full with hall | hover
    · left
      omega
    · exact Or.inr hover

theorem segmentsFrom_split {r : Report} (hsplit : Splittable r) (budget : Nat) {fuel start : Nat}
    {sub : UInt32} (hfuel : r.entries.length - start ≤ fuel) (hstart : start ≤ r.entries.length) :
    ∃ segs, Split r budget start sub segs ∧ List.Forall₂ (fun s bytes => encode s = .ok bytes) segs
        (segmentsFrom r budget fuel start sub) := by
  induction fuel generalizing start sub with
  | zero =>
    have hend : start = r.entries.length := by omega
    subst hend
    exact ⟨[], .done sub, .nil⟩
  | succ fuel ih =>
    rw [segmentsFrom]
    by_cases hlt : start < r.entries.length
    · rw [if_pos hlt]
      obtain ⟨hpos, hinside, hmade, hfits, hfull⟩ := cut_spec hsplit budget hlt sub
      obtain ⟨segs, hrest, hall⟩ := @ih (start + (cut r budget start sub).1) (sub + 1) (by omega) hinside
      have hne : (cut r budget start sub).2.isEmpty = false := by
        rw [List.isEmpty_eq_false_iff]
        exact encode_ne_nil hmade
      refine ⟨_, .take _ hpos hinside hfits hfull hrest, ?_⟩
      simp only [hne]
      exact .cons hmade hall
    · have hend : start = r.entries.length := by omega
      subst hend
      rw [if_neg hlt]
      exact ⟨[], .done sub, .nil⟩

/-! ### Reading the split -/

variable {r : Report} {budget start : Nat} {sub : UInt32} {segs : List Report}

/-- The entries are taken in order, each once. -/
theorem Split.entries (h : Split r budget start sub segs) :
    segs.flatMap (·.entries) = r.entries.drop start := by
  induction h with
  | done sub => simp
  | take count pos inside fits full next ih =>
    rw [List.flatMap_cons, ih, ← List.drop_drop]
    exact List.take_append_drop count _

theorem Split.eq_nil_iff (h : Split r budget start sub segs) :
    segs = [] ↔ start = r.entries.length := by
  cases h with
  | done sub => simp
  | take count pos inside fits full next =>
    constructor
    · intro hnil
      cases hnil
    · intro heq
      omega

theorem Split.subSeqNum (h : Split r budget start sub segs) : segs.map (·.subSeqNum) =
      (List.range segs.length).map fun i => some (sub + UInt32.ofNat i) := by
  induction h with
  | done sub => rfl
  | @take start sub rest count pos inside fits full next ih =>
    have hshift : ∀ i : Nat, some (sub + 1 + UInt32.ofNat i) = some (sub + UInt32.ofNat (i + 1)) := by
      intro i
      rw [UInt32.ofNat_add, UInt32.add_assoc, UInt32.add_comm 1]
      rfl
    rw [List.map_cons, ih, List.length_cons, List.range_succ_eq_map, List.map_cons, List.map_map]
    congr 1
    · simp [segment]
    · exact List.map_congr_left fun i _ => hshift i

theorem Split.moreSegmentsFollow (h : Split r budget start sub segs) :
    segs.map (·.moreSegmentsFollow) =
      (List.range segs.length).map fun i => decide (i + 1 < segs.length) := by
  induction h with
  | done sub => rfl
  | @take start sub rest count pos inside fits full next ih =>
    have hlast : decide (start + count < r.entries.length) = decide (0 + 1 < rest.length + 1) := by
      have hnil := next.eq_nil_iff
      rw [← List.length_eq_zero_iff] at hnil
      rw [decide_eq_decide]
      omega
    rw [List.map_cons, ih, List.length_cons, List.range_succ_eq_map, List.map_cons, List.map_map]
    congr 1
    refine List.map_congr_left fun i _ => ?_
    rw [Function.comp_apply, decide_eq_decide]
    omega

theorem segment_entries_length {count : Nat} (h : start + count ≤ r.entries.length) (more : Bool) :
    (segment r start count sub more).entries.length = count := by
  have hlen : ((r.entries.drop start).take count).length = count := by
    rw [List.length_take, List.length_drop]
    omega
  exact hlen

/-- One segment of a report, with those before and after it. -/
structure SegmentAt (r : Report) (budget start : Nat) (sub : UInt32) (last : Bool) (s : Report) :
    Prop where
  carries : s.entries ≠ []
  whole : s = segment r start s.entries.length sub (!last)
  fits : s.entries.length = 1 ∨ ∃ bytes, encode s = .ok bytes ∧ bytes.length ≤ budget
  maximal : last = false → within budget (candidate r start (s.entries.length + 1) sub) = none

theorem Split.segmentAt (h : Split r budget start sub segs) {before after : List Report}
    {s : Report} (hsegs : segs = before ++ s :: after) :
    SegmentAt r budget (start + (before.flatMap (·.entries)).length)
      (sub + UInt32.ofNat before.length) after.isEmpty s := by
  induction h generalizing before with
  | done sub => simp at hsegs
  | @take start sub rest count pos inside fits full next ih =>
    have hlen := @segment_entries_length r start sub count inside
      (decide (start + count < r.entries.length))
    cases before with
    | nil =>
      obtain ⟨rfl, rfl⟩ := List.cons.inj hsegs
      have hlast : decide (start + count < r.entries.length) = !rest.isEmpty := by
        have hnil := next.eq_nil_iff
        rw [← List.isEmpty_iff] at hnil
        cases hempty : rest.isEmpty
        · have hne : ¬ start + count = r.entries.length := fun heq => by
            simp [hnil.mpr heq] at hempty
          rw [Bool.not_false, decide_eq_true_iff]
          omega
        · rw [Bool.not_true, decide_eq_false_iff_not, hnil.mp hempty]
          omega
      rw [hlast] at hlen ⊢
      have hzero : sub + UInt32.ofNat 0 = sub := UInt32.add_zero sub
      simp only [List.flatMap_nil, List.length_nil, Nat.add_zero, hzero]
      constructor
      · exact List.ne_nil_of_length_pos (by omega)
      · rw [hlen]
      · rw [hlen]
        rcases fits with hone | hfits
        · exact Or.inl hone
        · right
          obtain ⟨bytes, hbytes⟩ := Option.ne_none_iff_exists'.mp hfits
          rw [candidate, hlast] at hbytes
          exact ⟨bytes, within_eq_some.mp hbytes⟩
      · intro hmore
        rw [hlen]
        rcases full with hall | hover
        · exact absurd (next.eq_nil_iff.mpr hall) (List.isEmpty_eq_false_iff.mp hmore)
        · exact hover
    | cons b before =>
      obtain ⟨rfl, rfl⟩ := List.cons.inj hsegs
      have hat := ih rfl
      rw [List.flatMap_cons, List.length_append, hlen, List.length_cons, UInt32.ofNat_add,
        ← Nat.add_assoc]
      rw [UInt32.add_assoc, UInt32.add_comm 1] at hat
      exact hat

/-! ### The result -/

/-- What `segments` makes of a report it splits. -/
structure Segmentation (r : Report) (budget : Nat) (segs : List Report) : Prop where
  entries : segs.flatMap (·.entries) = r.entries
  subSeqNum : segs.map (·.subSeqNum) = (List.range segs.length).map fun i => some (UInt32.ofNat i)
  moreSegmentsFollow : segs.map (·.moreSegmentsFollow) =
    (List.range segs.length).map fun i => decide (i + 1 < segs.length)
  segmentAt : ∀ before s after, segs = before ++ s :: after →
    SegmentAt r budget (before.flatMap (·.entries)).length (UInt32.ofNat before.length)
      after.isEmpty s

theorem Split.segmentation (h : Split r budget 0 0 segs) : Segmentation r budget segs := by
  constructor
  · exact h.entries
  · simpa using h.subSeqNum
  · exact h.moreSegmentsFollow
  · intro before s after hsegs
    simpa using h.segmentAt hsegs

/-- A report that fits goes out as it is, without a segment number. Any other one whose entries
can each be sent alone is split into maximal segments of consecutive entries. -/
theorem segments_split {r : Report} (hsplit : Splittable r) (budget : Nat) :
    (∃ whole, encode r = .ok whole ∧ whole.length ≤ budget ∧ segments r budget = [whole]) ∨
      within budget (encode r) = none ∧ ∃ segs, Segmentation r budget segs ∧
        List.Forall₂ (fun s bytes => encode s = .ok bytes) segs (segments r budget) := by
  unfold segments
  cases hwhole : within budget (encode r) with
  | some whole =>
    obtain ⟨hmade, hfits⟩ := within_eq_some.mp hwhole
    exact Or.inl ⟨whole, hmade, hfits, rfl⟩
  | none =>
    right
    refine ⟨rfl, ?_⟩
    simp only
    split
    · rename_i hempty
      have hnil : r.entries = [] := List.isEmpty_iff.mp hempty
      have hdone : Split r budget 0 0 [] := by
        have hsame := @Split.done r budget 0
        rwa [hnil, List.length_nil] at hsame
      exact ⟨[], hdone.segmentation, .nil⟩
    · obtain ⟨segs, hs, hall⟩ :=
        @segmentsFrom_split r hsplit budget r.entries.length 0 0 (by omega)
          (Nat.zero_le _)
      exact ⟨segs, hs.segmentation, hall⟩

/-- A report of two members, with the indices its entries claim. -/
def twoMembers (first second : Nat) : Report where
  rptId := ascii "brcb"
  optFlds := 0
  seqNum := none
  timeOfEntry := none
  dataSet := none
  bufOvfl := none
  entryId := none
  confRev := none
  subSeqNum := none
  moreSegmentsFollow := false
  inclusion := inclusionFor 2 [0, 1]
  entries := [⟨first, none, .boolean true, none⟩, ⟨second, none, .boolean false, none⟩]

/-- A budget too small for both members makes two segments. -/
theorem segments_split_two : (∃ whole, encode (twoMembers 0 1) = .ok whole ∧ whole.length ≤ 8 ∧
        segments (twoMembers 0 1) 8 = [whole]) ∨
      within 8 (encode (twoMembers 0 1)) = none ∧ ∃ segs, Segmentation (twoMembers 0 1) 8 segs ∧
        List.Forall₂ (fun s bytes => encode s = .ok bytes) segs (segments (twoMembers 0 1) 8) := by
  obtain ⟨whole, hwhole, hlen⟩ : ∃ whole, encode (twoMembers 0 1) = .ok whole ∧
      whole.length = 34 := ⟨_, rfl, rfl⟩
  have hbits : (twoMembers 0 1).inclusion.2.length = 1 := rfl
  have hmax : u32Max = 4294967295 := rfl
  exact segments_split (splittable_of_encode hwhole rfl (by omega)) 8

/-- A report that fits has no segment number, and one whose entries are for other members than its
inclusion bits name is encodable as a whole, but loses all its entries when it does not fit. -/
theorem segments_unnumbered_or_lost :
    (∃ whole, encode (twoMembers 0 1) = .ok whole ∧ segments (twoMembers 0 1) 512 = [whole] ∧
        (twoMembers 0 1).optFlds.segmentation = false ∧ (twoMembers 0 1).subSeqNum = none) ∧
      (∃ whole, encode (twoMembers 5 6) = .ok whole) ∧
      ¬ ∃ segs, Segmentation (twoMembers 5 6) 8 segs ∧
        List.Forall₂ (fun s bytes => encode s = .ok bytes) segs (segments (twoMembers 5 6) 8) := by
  refine ⟨⟨_, rfl, by decide +kernel, rfl, rfl⟩, ⟨_, rfl⟩, ?_⟩
  rintro ⟨segs, hsegs, hall⟩
  have hnone : segments (twoMembers 5 6) 8 = [] := by decide +kernel
  rw [hnone] at hall
  cases hall
  have hentries := congrArg List.length hsegs.entries
  exact absurd hentries (by decide)

/-! ### What a client makes of the segments -/

/-- The reports handed to an assembler in their order, and what it answers to each. -/
def assemble (a : ReportAssembler) : List Report → ReportAssembler × List (Option Report)
  | [] => (a, [])
  | r :: rs => ((assemble (a.push r).1 rs).1, (a.push r).2 :: (assemble (a.push r).1 rs).2)

/-- The whole report, under the number of its last segment. -/
def reassembled (r : Report) (last : UInt32) : Report :=
  { r with
    optFlds := r.optFlds.withSegmentation true
    subSeqNum := some last
    moreSegmentsFollow := false
    inclusion := inclusionFor (inclusionLen r.inclusion) (r.entries.map (·.index)) }

theorem mergeInclusion_inclusionFor (total : Nat) (is js : List Nat) :
    mergeInclusion (inclusionFor total is) (inclusionFor total js) =
      inclusionFor total (is ++ js) := by
  have hlen : ∀ ks, (inclusionFor total ks).2.length = octetsFor total := by simp [inclusionFor]
  have hzeros : ∀ ks : List Nat, orInto (setBits (List.replicate (octetsFor total) 0) ks)
      (List.replicate (octetsFor total) 0) = setBits (List.replicate (octetsFor total) 0) ks := by
    intro ks
    have hself := orInto_zeros (setBits (List.replicate (octetsFor total) 0) ks)
    rwa [setBits_length, List.length_replicate] at hself
  rw [mergeInclusion, if_neg (by rw [hlen, hlen]; omega), inclusionFor, inclusionFor, inclusionFor,
    orInto_setBits (by simp), hzeros, List.filter_append, setBits, setBits, setBits,
    List.foldl_append]

/-- Two segments that follow each other are merged into the segment of both. -/
theorem merge_segment (hsorted : (r.entries.map (·.index)).Pairwise (· ≤ ·)) (m count : Nat)
    (s s' : UInt32) (more more' : Bool) :
    merge (segment r 0 m s more) (segment r m count s' more') =
      segment r 0 (m + count) s' more := by
  have htake : r.entries.take m ++ (r.entries.drop m).take count = r.entries.take (m + count) :=
    List.take_add.symm
  have hentries : ((r.entries.take (m + count)).insertionSort fun x y => x.index ≤ y.index) =
      r.entries.take (m + count) :=
    ((List.pairwise_map.mp hsorted).sublist (List.take_sublist ..)).insertionSort_eq
  have hover : (if r.bufOvfl = some true then some true else r.bufOvfl) = r.bufOvfl := by
    split
    · rename_i h
      exact h.symm
    · rfl
  simp only [merge, segment, List.drop_zero, mergeInclusion_inclusionFor, ← List.map_append, htake,
    hentries, hover]

/-- What an assembler holds of a report of which some segments arrived. -/
def partialOf (r : Report) (start : Nat) (sub last : UInt32) : PartialReport :=
  ⟨r.key, sub, segment r 0 start last true⟩

theorem push_segment (a : ReportAssembler) (start count : Nat) (sub : UInt32) (more : Bool) :
    a.push (segment r start count sub more) =
      match a.partials.findIdx? (fun p => decide (p.key = r.key)) with
      | none => a.start (segment r start count sub more)
      | some i =>
        match a.partials[i]? with
        | none => (a, none)
        | some p =>
          if (segment r start count sub more).sub ≠ p.nextSubSeq then
            (({ a with partials := swapRemove a.partials i } : ReportAssembler).countOutOfOrder).start
              (segment r start count sub more)
          else a.extend i p (segment r start count sub more) :=
  if_neg (not_not.mpr (OptFlds.segmentation_withSegmentation _ _))

section Assembling

variable {a : ReportAssembler} {others : List PartialReport} {last : UInt32}
  (hothers : ∀ p ∈ others, p.key ≠ r.key)

include hothers

theorem findIdx_partial (p : PartialReport) (hp : p.key = r.key) :
    (others ++ [p]).findIdx? (fun p => decide (p.key = r.key)) = some others.length := by
  have hnone : others.findIdx? (fun p => decide (p.key = r.key)) = none := by
    rw [List.findIdx?_eq_none_iff]
    intro p hp
    exact decide_eq_false (hothers p hp)
  simp [List.findIdx?_append, hnone, List.findIdx?_singleton, hp]

/-- The segment that is waited for is merged into what is held. -/
theorem push_next (hsorted : (r.entries.map (·.index)).Pairwise (· ≤ ·))
    (hheld : a.partials = others ++ [partialOf r start sub last])
    (hroom : r.entries.length ≤ a.maxEntries) {count : Nat}
    (hinside : start + count ≤ r.entries.length) (more : Bool) :
    (a.push (segment r start count sub more)).2 =
        (if more then none else some (segment r 0 (start + count) sub false)) ∧
      (a.push (segment r start count sub more)).1.maxEntries = a.maxEntries ∧
      (a.push (segment r start count sub more)).1.partials =
        if more then others ++ [partialOf r (start + count) (satNext sub) sub] else others := by
  have hlen : ¬ a.maxEntries < (segment r 0 start last true).entries.length +
      (segment r start count sub more).entries.length := by
    rw [segment_entries_length (by omega), segment_entries_length hinside]
    omega
  have hget : a.partials[others.length]? = some (partialOf r start sub last) := by
    rw [hheld, List.getElem?_append_right (Nat.le_refl _), Nat.sub_self]
    rfl
  have hpush : a.push (segment r start count sub more) =
      a.extend others.length (partialOf r start sub last) (segment r start count sub more) := by
    have hfind : a.partials.findIdx? (fun p => decide (p.key = r.key)) = some others.length := by
      rw [hheld]
      exact findIdx_partial hothers _ rfl
    have hnumber : (segment r start count sub more).sub =
        (partialOf r start sub last).nextSubSeq := rfl
    rw [push_segment, hfind]
    simp only [hget, hnumber, ne_eq, not_true, if_false]
  have hmerge := merge_segment hsorted start count last sub true more
  rw [hpush, ReportAssembler.extend, partialOf, if_neg hlen, hmerge]
  cases more with
  | true =>
    refine ⟨rfl, rfl, ?_⟩
    have hset : (others ++ [partialOf r start sub last]).set others.length
        (partialOf r (start + count) (satNext sub) sub) =
          others ++ [partialOf r (start + count) (satNext sub) sub] := by
      rw [List.set_append_right _ _ (Nat.le_refl _), Nat.sub_self]
      rfl
    exact (congrArg (List.set · _ _) hheld).trans hset
  | false =>
    refine ⟨rfl, rfl, ?_⟩
    exact (congrArg (swapRemove · _) hheld).trans (swapRemove_concat_last _ _)

end Assembling

theorem satNext_eq (h : sub.toNat < u32Max) : satNext sub = sub + 1 := by
  have hne : sub ≠ UInt32.ofNat u32Max := by
    rintro rfl
    exact Nat.lt_irrefl _ h
  exact if_neg hne

theorem Split.exists_length (h : Split r budget start sub segs) (hmore : start < r.entries.length) :
    ∃ n, segs.length = n + 1 := by
  refine Nat.exists_eq_add_one.mpr (List.length_pos_iff.mpr ?_)
  exact fun hnil => Nat.ne_of_lt hmore (h.eq_nil_iff.mp hnil)

/-- The segments from one on, with those before it held, make up the report. -/
theorem Split.assembled (h : Split r budget start sub segs)
    (hsorted : (r.entries.map (·.index)).Pairwise (· ≤ ·)) {a : ReportAssembler}
    {others : List PartialReport} (hothers : ∀ p ∈ others, p.key ≠ r.key) {last : UInt32}
    (hheld : a.partials = others ++ [partialOf r start sub last])
    (hroom : r.entries.length ≤ a.maxEntries) (hmore : start < r.entries.length)
    (hnumbers : sub.toNat + (r.entries.length - start) ≤ u32Max) :
    (assemble a segs).1.partials = others ∧ ∃ last', (assemble a segs).2 =
      List.replicate (segs.length - 1) none ++ [some (segment r 0 r.entries.length last' false)] := by
  induction h generalizing a last with
  | done sub => omega
  | @take start sub rest count pos inside fits full next ih =>
    have hpushed := push_next hothers hsorted hheld hroom inside
    by_cases hlast : start + count < r.entries.length
    · rw [decide_eq_true hlast, assemble]
      obtain ⟨hout, hmax, hleft⟩ := hpushed true
      have hone : (sub + 1).toNat = sub.toNat + 1 := by
        have htop : u32Max = 4294967295 := rfl
        exact Nat.mod_eq_of_lt (show sub.toNat + 1 < 4294967296 by omega)
      rw [if_pos rfl, satNext_eq (by omega)] at hleft
      obtain ⟨hothers', last', houts⟩ := ih hleft (hmax.symm ▸ hroom) hlast (by omega)
      obtain ⟨n, hn⟩ := next.exists_length hlast
      refine ⟨hothers', last', ?_⟩
      rw [hout, houts, List.length_cons, hn]
      rfl
    · have hend : start + count = r.entries.length := by omega
      obtain rfl := next.eq_nil_iff.mpr hend
      rw [decide_eq_false hlast, assemble]
      obtain ⟨hout, -, hleft⟩ := hpushed false
      rw [hout, hend]
      exact ⟨hleft, sub, rfl⟩

/-- The first of several segments is held, if need be in the place of another report. -/
theorem start_segment {a : ReportAssembler} {count : Nat} (hinside : count ≤ r.entries.length)
    (hroom : r.entries.length ≤ a.maxEntries) : ∃ others, (∀ p ∈ others, p ∈ a.partials) ∧
      (a.start (segment r 0 count 0 true)).2 = none ∧
      (a.start (segment r 0 count 0 true)).1.maxEntries = a.maxEntries ∧
      (a.start (segment r 0 count 0 true)).1.partials = others ++ [partialOf r count 1 0] := by
  have hmore : ¬ ¬ (segment r 0 count 0 true).moreSegmentsFollow = true := not_not.mpr rfl
  have hsub : ¬ (segment r 0 count 0 true).sub ≠ 0 := not_not.mpr rfl
  have hfits : ¬ a.maxEntries < (segment r 0 count 0 true).entries.length := by
    rw [segment_entries_length (by omega)]
    omega
  rw [ReportAssembler.start, if_neg hmore, if_neg hsub, if_neg hfits]
  by_cases hfull : a.capacity ≤ a.partials.length
  · rw [if_pos hfull]
    exact ⟨_, fun p hp => List.mem_of_mem_tail hp, rfl, rfl, rfl⟩
  · rw [if_neg hfull]
    exact ⟨_, fun p hp => hp, rfl, rfl, rfl⟩

/-- An assembler that holds nothing of a report is given its segments in order: it answers with
the report to the last one, and with nothing before. -/
theorem Split.assembled_whole (h : Split r budget 0 0 segs) (hne : r.entries ≠ [])
    (hsorted : (r.entries.map (·.index)).Pairwise (· ≤ ·)) (hfew : r.entries.length ≤ u32Max)
    {a : ReportAssembler} (hnew : ∀ p ∈ a.partials, p.key ≠ r.key)
    (hroom : r.entries.length ≤ a.maxEntries) :
    (∀ p ∈ (assemble a segs).1.partials, p ∈ a.partials) ∧ ∃ last, (assemble a segs).2 =
      List.replicate (segs.length - 1) none ++ [some (reassembled r last)] := by
  have hwhole : ∀ last, reassembled r last = segment r 0 r.entries.length last false := by
    intro last
    rw [segment, reassembled, List.drop_zero, List.take_length]
  simp only [hwhole]
  have hfind : a.partials.findIdx? (fun p => decide (p.key = r.key)) = none := by
    rw [List.findIdx?_eq_none_iff]
    intro p hp
    exact decide_eq_false (hnew p hp)
  generalize hstart : 0 = start, hsub : (0 : UInt32) = sub at h
  cases h with
  | done => exact absurd (List.length_eq_zero_iff.mp hstart.symm) hne
  | @take start sub rest count pos inside fits full next =>
    subst hstart hsub
    have hpush : ∀ more, a.push (segment r 0 count 0 more) = a.start (segment r 0 count 0 more) := by
      intro more
      rw [push_segment, hfind]
    rw [Nat.zero_add] at inside next ⊢
    rw [assemble, hpush]
    by_cases hlast : count < r.entries.length
    · rw [decide_eq_true hlast]
      obtain ⟨others, hsub, hout, hmax, hheld⟩ := start_segment inside hroom
      obtain ⟨hleft, last', houts⟩ := next.assembled hsorted (fun p hp => hnew p (hsub p hp)) hheld
        (hmax.symm ▸ hroom) hlast (show 1 + (r.entries.length - count) ≤ u32Max by omega)
      obtain ⟨n, hn⟩ := next.exists_length hlast
      refine ⟨fun p hp => hsub p (hleft ▸ hp), last', ?_⟩
      rw [hout, houts, List.length_cons, hn]
      rfl
    · have hend : count = r.entries.length := by omega
      obtain rfl := next.eq_nil_iff.mpr hend
      have hmore : ¬ (segment r 0 count 0 false).moreSegmentsFollow = true := Bool.false_ne_true
      rw [decide_eq_false hlast, ReportAssembler.start, if_pos hmore, hend]
      exact ⟨fun p hp => hp, 0, rfl⟩

end Iec61850.Server
