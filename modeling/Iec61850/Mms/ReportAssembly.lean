import Iec61850.Mms.ReportAssembler

/-!
# What an assembled report is made of

The reports fed to a `ReportAssembler` since it was last cleared are kept beside it. What it
holds of a report is, as long as no final segment comes out of turn, the latest segments of that
report, numbered from zero without a gap; so what it hands back is the join of a complete run.
-/

namespace Iec61850.Mms

open Theory

/-- An assembler and the reports fed to it since it was last cleared. -/
structure AssemblerSession where
  fed : List Report
  assembler : ReportAssembler

namespace AssemblerSession

/-- What a client does with its assembler. -/
inductive Call where
  | push (r : Report)
  | clear

def step (s : AssemblerSession) : Call → Option AssemblerSession
  | .push r => some ⟨s.fed ++ [r], (s.assembler.push r).1⟩
  | .clear => some ⟨[], s.assembler.clear⟩

/-- A client that has not fed anything yet. -/
def start (capacity maxEntries : Nat) : AssemblerSession :=
  ⟨[], ReportAssembler.withMaxEntries capacity maxEntries⟩

/-! ### Complete runs of segments -/

/-- The segments of one report, in the order they were fed. -/
def segmentsOf (key : Bytes × Option UInt32) (fed : List Report) : List Report :=
  fed.filter fun r => r.optFlds.segmentation && decide (r.key = key)

/-- The segments are the latest ones fed of the report, numbered from zero without a gap. -/
structure FedInOrder (key : Bytes × Option UInt32) (fed segs : List Report) : Prop where
  latest : segs <:+ segmentsOf key fed
  numbered : segs.map (fun s => s.sub.toNat) = List.range segs.length

/-- More segments follow each of them but the last. -/
structure Complete (key : Bytes × Option UInt32) (fed segs : List Report) : Prop
    extends FedInOrder key fed segs where
  closed : ∃ front last, segs = front ++ [last] ∧
    (∀ s ∈ front, s.moreSegmentsFollow = true) ∧ last.moreSegmentsFollow = false

/-- The report a run of segments makes up. -/
def joined (first : Report) (rest : List Report) : Report :=
  { rest.foldl merge first with moreSegmentsFollow := false }

/-- A final segment other than the first is one that a report held waits for, and no segment
repeats the number of the last one merged. The number that follows the largest is the largest
again, so that only there a repetition is taken for a successor. -/
def InTurn (s : AssemblerSession) : Call → Prop
  | .push r => r.optFlds.segmentation = true →
      (r.moreSegmentsFollow = false → r.sub ≠ 0 →
        ∃ p ∈ s.assembler.partials, p.key = r.key ∧ p.nextSubSeq = r.sub) ∧
      ∀ p ∈ s.assembler.partials, p.key = r.key → p.nextSubSeq = r.sub →
        p.report.entries.length + r.entries.length ≤ s.assembler.maxEntries →
        p.report.sub ≠ r.sub
  | .clear => True

variable {r first : Report} {fed rest : List Report} {p : PartialReport} {a : ReportAssembler}

theorem segmentsOf_push_same (hr : r.optFlds.segmentation = true) (fed : List Report) :
    segmentsOf r.key (fed ++ [r]) = segmentsOf r.key fed ++ [r] := by
  simp [segmentsOf, List.filter_append, hr]

theorem segmentsOf_push_other {key : Bytes × Option UInt32}
    (hr : r.optFlds.segmentation = true → key ≠ r.key) (fed : List Report) :
    segmentsOf key (fed ++ [r]) = segmentsOf key fed := by
  have hskip : (r.optFlds.segmentation && decide (r.key = key)) = false := by
    rw [Bool.and_eq_false_imp]
    intro hseg
    exact decide_eq_false fun h => hr hseg h.symm
  simp [segmentsOf, List.filter_append, hskip]

theorem FedInOrder.concat {segs : List Report} (h : FedInOrder r.key fed segs)
    (hr : r.optFlds.segmentation = true) (hsub : r.sub.toNat = segs.length) :
    FedInOrder r.key (fed ++ [r]) (segs ++ [r]) := by
  constructor
  · obtain ⟨before, hbefore⟩ := h.latest
    rw [segmentsOf_push_same hr, ← hbefore, List.append_assoc]
    exact List.suffix_append before (segs ++ [r])
  · rw [List.map_append, h.numbered, List.length_append, List.length_singleton, List.range_succ]
    simp [hsub]

theorem fedInOrder_first (hr : r.optFlds.segmentation = true) (hsub : r.sub = 0)
    (fed : List Report) : FedInOrder r.key (fed ++ [r]) [r] := by
  have hnil : FedInOrder r.key fed [] := ⟨List.nil_suffix, rfl⟩
  have hzero : r.sub.toNat = 0 := by rw [hsub]; rfl
  exact hnil.concat hr hzero

/-! ### What is held -/

/-- A report under way is the merge of the latest segments fed of it. -/
structure HeldAs (fed : List Report) (p : PartialReport) (first : Report) (rest : List Report) :
    Prop where
  inOrder : FedInOrder p.key fed (first :: rest)
  follow : ∀ s ∈ first :: rest, s.moreSegmentsFollow = true
  merged : p.report = rest.foldl merge first
  last : p.report.sub.toNat = rest.length
  next : p.nextSubSeq.toNat = min u32Max (rest.length + 1)

/-- Every report held is justified by what was fed, and no report is held twice. -/
structure Justified (fed : List Report) (a : ReportAssembler) : Prop where
  held : ∀ p ∈ a.partials, ∃ first rest, HeldAs fed p first rest
  distinct : (a.partials.map (·.key)).Nodup

theorem HeldAs.push_other (h : HeldAs fed p first rest)
    (hr : r.optFlds.segmentation = true → p.key ≠ r.key) : HeldAs (fed ++ [r]) p first rest := by
  constructor
  · exact ⟨segmentsOf_push_other hr fed ▸ h.inOrder.latest, h.inOrder.numbered⟩
  · exact h.follow
  · exact h.merged
  · exact h.last
  · exact h.next

theorem heldAs_first (hr : r.optFlds.segmentation = true) (hmore : r.moreSegmentsFollow = true)
    (hsub : r.sub = 0) (fed : List Report) :
    HeldAs (fed ++ [r]) ⟨r.key, satNext r.sub, r⟩ r [] := by
  have hzero : r.sub.toNat = 0 := by rw [hsub]; rfl
  constructor
  · exact fedInOrder_first hr hsub fed
  · intro s hs
    rw [List.mem_singleton] at hs
    rw [hs, hmore]
  · rfl
  · exact hzero
  · rw [satNext_toNat, hzero]
    rfl

theorem HeldAs.sub_eq (h : HeldAs fed p first rest) (hnext : p.nextSubSeq = r.sub)
    (hnew : p.report.sub ≠ r.sub) : r.sub.toNat = (first :: rest).length := by
  have hlast := h.last
  have hwait := h.next
  have hbound := p.report.sub.toNat_lt
  have hne : p.report.sub.toNat ≠ r.sub.toNat := fun heq => hnew (UInt32.toNat_inj.mp heq)
  have hmax : u32Max = 4294967295 := rfl
  rw [hnext] at hwait
  rw [List.length_cons]
  omega

theorem HeldAs.joins (h : HeldAs fed p first rest) (hr : r.optFlds.segmentation = true)
    (hkey : p.key = r.key) (hnext : p.nextSubSeq = r.sub) (hnew : p.report.sub ≠ r.sub) :
    FedInOrder r.key (fed ++ [r]) (first :: (rest ++ [r])) ∧
      merge p.report r = (rest ++ [r]).foldl merge first := by
  have hin : FedInOrder r.key fed (first :: rest) := hkey ▸ h.inOrder
  constructor
  · exact hin.concat hr (h.sub_eq hnext hnew)
  · rw [List.foldl_concat, ← h.merged]

theorem HeldAs.extend (h : HeldAs fed p first rest) (hr : r.optFlds.segmentation = true)
    (hmore : r.moreSegmentsFollow = true) (hkey : p.key = r.key) (hnext : p.nextSubSeq = r.sub)
    (hnew : p.report.sub ≠ r.sub) :
    HeldAs (fed ++ [r]) ⟨p.key, satNext r.sub, merge p.report r⟩ first (rest ++ [r]) := by
  obtain ⟨hin, hmerge⟩ := h.joins hr hkey hnext hnew
  have hsub := h.sub_eq hnext hnew
  rw [List.length_cons] at hsub
  constructor
  · exact hkey ▸ hin
  · intro s hs
    rw [← List.cons_append, List.mem_append, List.mem_singleton] at hs
    rcases hs with hs | rfl
    · exact h.follow s hs
    · exact hmore
  · exact hmerge
  · rw [List.length_append, List.length_singleton, ← hsub]
    rfl
  · rw [satNext_toNat, hsub, List.length_append, List.length_singleton]

/-! ### One report fed -/

/-- What feeding one report leaves behind, and what is handed back if anything is. -/
structure PushOk (fed : List Report) (r : Report) (out : ReportAssembler × Option Report) :
    Prop where
  justified : Justified (fed ++ [r]) out.1
  complete : ∀ whole, out.2 = some whole → r.optFlds.segmentation = true →
    ∃ first rest, Complete r.key (fed ++ [r]) (first :: rest) ∧ whole = joined first rest

/-- What is held of other reports stays justified. -/
theorem justified_of_others {b : ReportAssembler} (h : Justified fed a)
    (hsub : ∀ p ∈ b.partials, p ∈ a.partials) (hdistinct : (b.partials.map (·.key)).Nodup)
    (hother : r.optFlds.segmentation = true → ∀ p ∈ b.partials, p.key ≠ r.key) :
    Justified (fed ++ [r]) b := by
  constructor
  · intro p hp
    obtain ⟨first, rest, hheld⟩ := h.held p (hsub p hp)
    exact ⟨first, rest, hheld.push_other fun hseg => hother hseg p hp⟩
  · exact hdistinct

theorem joined_alone (hmore : r.moreSegmentsFollow = false) : joined r [] = r := by
  cases r
  cases hmore
  rfl

theorem pushOk_nothing (h : Justified (fed ++ [r]) a) : PushOk fed r (a, none) := by
  constructor
  · exact h
  · rintro whole hwhole
    cases hwhole

theorem nodup_concat_key {ps : List PartialReport} (hdistinct : (ps.map (·.key)).Nodup)
    (hfresh : ∀ q ∈ ps, q.key ≠ p.key) : ((ps ++ [p]).map (·.key)).Nodup := by
  rw [List.map_append, List.map_singleton, List.nodup_append]
  refine ⟨hdistinct, List.nodup_singleton _, ?_⟩
  rintro x hx y hy rfl
  obtain ⟨q, hq, rfl⟩ := List.mem_map.mp hx
  exact hfresh q hq (List.mem_singleton.mp hy)

/-- Beginning a report, with or without the eviction of the oldest one. -/
theorem pushOk_begin (hr : r.optFlds.segmentation = true) (hmore : r.moreSegmentsFollow = true)
    (hzero : r.sub = 0) (h : Justified (fed ++ [r]) a) (hfresh : ∀ p ∈ a.partials, p.key ≠ r.key)
    {ps : List PartialReport} (hps : ps.Sublist a.partials) {b : ReportAssembler}
    (hb : b.partials = ps ++ [⟨r.key, satNext r.sub, r⟩]) : PushOk fed r (b, none) := by
  apply pushOk_nothing
  constructor
  · intro p hp
    rw [hb, List.mem_append, List.mem_singleton] at hp
    rcases hp with hp | rfl
    · exact h.held p (hps.subset hp)
    · exact ⟨r, [], heldAs_first hr hmore hzero fed⟩
  · rw [hb]
    exact nodup_concat_key (h.distinct.sublist (hps.map _)) fun p hp => hfresh p (hps.subset hp)

theorem start_ok (h : Justified (fed ++ [r]) a) (hr : r.optFlds.segmentation = true)
    (hfresh : ∀ p ∈ a.partials, p.key ≠ r.key) (hfirst : r.moreSegmentsFollow = false → r.sub = 0) :
    PushOk fed r (a.start r) := by
  unfold ReportAssembler.start
  split
  · rename_i hmore
    have hlast : r.moreSegmentsFollow = false := by simpa using hmore
    constructor
    · exact h
    · rintro whole hwhole -
      cases hwhole
      have hclosed : ∀ s ∈ ([] : List Report), s.moreSegmentsFollow = true := by
        intro s hs
        cases hs
      exact ⟨r, [], ⟨fedInOrder_first hr (hfirst hlast) fed, [], r, rfl, hclosed, hlast⟩,
        (joined_alone hlast).symm⟩
  · rename_i hmore
    rw [Bool.not_eq_true, Bool.not_eq_false] at hmore
    split
    · exact pushOk_nothing ⟨h.held, h.distinct⟩
    · rename_i hzero
      rw [not_not] at hzero
      split
      · exact pushOk_nothing ⟨h.held, h.distinct⟩
      · split
        · exact pushOk_begin hr hmore hzero h hfresh (List.tail_sublist _) rfl
        · exact pushOk_begin hr hmore hzero h hfresh (List.Sublist.refl _) rfl

/-- Feeding the segment that the report at index `i` waits for. -/
theorem extend_ok {i : Nat} (h : Justified fed a) (hget : a.partials[i]? = some p)
    (hr : r.optFlds.segmentation = true) (hkey : p.key = r.key) (hnext : p.nextSubSeq = r.sub)
    (hnew : p.report.entries.length + r.entries.length ≤ a.maxEntries → p.report.sub ≠ r.sub)
    (hleft : ∀ b : ReportAssembler, b.partials = swapRemove a.partials i →
      Justified (fed ++ [r]) b) : PushOk fed r (a.extend i p r) := by
  obtain ⟨first, rest, hheld⟩ := h.held p (List.mem_of_getElem? hget)
  unfold ReportAssembler.extend
  split
  · exact pushOk_nothing (hleft _ rfl)
  · rename_i hfits
    have hnew := hnew (Nat.le_of_not_lt hfits)
    simp only
    split
    · rename_i hmore
      apply pushOk_nothing
      constructor
      · intro q hq
        rcases (mem_set_iff hget _).mp hq with rfl | hq
        · exact ⟨first, rest ++ [r], hheld.extend hr hmore hkey hnext hnew⟩
        · exact (hleft { a with partials := swapRemove a.partials i } rfl).held q hq
      · have hkeys : (a.partials.set i ⟨p.key, satNext r.sub, merge p.report r⟩).map (·.key) =
            a.partials.map (·.key) := map_set_key hget rfl
        exact (congrArg List.Nodup hkeys).mpr h.distinct
    · rename_i hmore
      have hlast : r.moreSegmentsFollow = false := by simpa using hmore
      obtain ⟨hin, hmerge⟩ := hheld.joins hr hkey hnext hnew
      constructor
      · exact hleft _ rfl
      · rintro whole hwhole -
        cases hwhole
        refine ⟨first, rest ++ [r], ⟨hin, first :: rest, r, rfl, hheld.follow, hlast⟩, ?_⟩
        rw [joined, ← hmerge]

theorem push_ok {s : AssemblerSession} (h : Justified s.fed s.assembler)
    (hturn : InTurn s (.push r)) : PushOk s.fed r (s.assembler.push r) := by
  unfold ReportAssembler.push
  split
  · rename_i hplain
    have hseg : ¬ r.optFlds.segmentation = true := hplain
    constructor
    · exact justified_of_others h (fun _ hp => hp) h.distinct fun hr => absurd hr hseg
    · exact fun _ _ hr => absurd hr hseg
  · rename_i hplain
    have hr : r.optFlds.segmentation = true := by simpa using hplain
    obtain ⟨hfinal, hrepeat⟩ := hturn hr
    cases hfind : s.assembler.partials.findIdx? (fun p => decide (p.key = r.key)) with
    | none =>
      have hfree : ∀ p ∈ s.assembler.partials, p.key ≠ r.key := by
        simpa [List.findIdx?_eq_none_iff] using hfind
      refine start_ok (justified_of_others h (fun _ hp => hp) h.distinct fun _ => hfree) hr hfree ?_
      intro hlast
      by_contra hzero
      obtain ⟨p, hp, hkey, -⟩ := hfinal hlast hzero
      exact hfree p hp hkey
    | some i =>
      obtain ⟨hi, hpi, -⟩ := List.findIdx?_eq_some_iff_getElem.mp hfind
      have hget : s.assembler.partials[i]? = some s.assembler.partials[i] :=
        List.getElem?_eq_getElem hi
      generalize s.assembler.partials[i] = p at hpi hget
      have hkey : p.key = r.key := of_decide_eq_true hpi
      have hothers : ∀ q ∈ swapRemove s.assembler.partials i, q.key ≠ r.key :=
        fun q hq => hkey ▸ key_ne_of_mem_swapRemove h.distinct hget hq
      have hleft : ∀ b : ReportAssembler, b.partials = swapRemove s.assembler.partials i →
          Justified (s.fed ++ [r]) b := by
        intro b hb
        refine justified_of_others h ?_ (hb ▸ nodup_swapRemove h.distinct hget)
          fun _ q hq => hothers q (hb ▸ hq)
        intro q hq
        exact mem_of_mem_swapRemove hget (hb ▸ hq)
      simp only [hget]
      split
      · rename_i hskip
        refine start_ok (hleft _ rfl) hr hothers ?_
        intro hlast
        by_contra hzero
        -- the report held is the only one with this key, so it is the one waited for
        obtain ⟨q, hq, hqkey, hqnext⟩ := hfinal hlast hzero
        rcases List.mem_cons.mp ((swapRemove_perm hget).mem_iff.mpr hq) with rfl | hq'
        · exact hskip hqnext.symm
        · exact hothers q hq' hqkey
      · rename_i hnext
        rw [not_not] at hnext
        exact extend_ok h hget hr hkey hnext.symm
          (hrepeat p (List.mem_of_getElem? hget) hkey hnext.symm) hleft

/-! ### Every run -/

theorem justified_run {capacity maxEntries : Nat} {calls : List Call} {s : AssemblerSession}
    (hturn : Meets step InTurn (start capacity maxEntries) calls)
    (hrun : run step (start capacity maxEntries) calls = some s) : Justified s.fed s.assembler := by
  refine invariant_run (I := fun s => Justified s.fed s.assembler) ?_ ?_ hturn hrun
  · intro s call s' h hC hs
    cases call with
    | push r =>
      cases hs
      exact (push_ok h hC).justified
    | clear =>
      cases hs
      constructor
      · intro p hp
        cases hp
      · exact List.nodup_nil
  · constructor
    · intro p hp
      cases hp
    · exact List.nodup_nil

/-- In every run whose segments come in turn, a segmented report is handed back only when all its
segments were the latest ones fed of it, from number zero to the final one, and it is their join. -/
theorem push_returns_complete {capacity maxEntries : Nat} {calls : List Call}
    {s : AssemblerSession} {r whole : Report}
    (hturn : Meets step InTurn (start capacity maxEntries) calls)
    (hrun : run step (start capacity maxEntries) calls = some s)
    (hlast : InTurn s (.push r)) (hr : r.optFlds.segmentation = true)
    (hout : (s.assembler.push r).2 = some whole) :
    ∃ first rest, Complete r.key (s.fed ++ [r]) (first :: rest) ∧ whole = joined first rest :=
  (push_ok (justified_run hturn hrun) hlast).complete whole hout hr

/-- A segment of a report over a data set of two members, carrying one of them. -/
def memberSegment (sub : UInt32) (more : Bool) (index : Nat) : Report where
  rptId := ascii "brcb"
  optFlds := OptFlds.withSegmentation 0 true
  seqNum := none
  timeOfEntry := none
  dataSet := none
  bufOvfl := none
  entryId := none
  confRev := none
  subSeqNum := some sub
  moreSegmentsFollow := more
  inclusion := inclusionFor 2 [index]
  entries := [⟨index, none, .boolean true, none⟩]

/-- Two segments that come in turn are joined. -/
theorem push_returns_complete_two : ∃ first rest, Complete (memberSegment 1 false 1).key
        ([memberSegment 0 true 0] ++ [memberSegment 1 false 1]) (first :: rest) ∧
      { merge (memberSegment 0 true 0) (memberSegment 1 false 1) with
        moreSegmentsFollow := false } = joined first rest := by
  have hturn : Meets step InTurn (start 8 512) [.push (memberSegment 0 true 0)] := by
    constructor
    · intro _
      constructor
      · intro hlast
        cases hlast
      · intro p hp
        cases hp
    · intro s' _
      trivial
  refine push_returns_complete hturn rfl ?_ rfl rfl
  intro _
  constructor
  · intro _ _
    exact ⟨⟨(memberSegment 0 true 0).key, 1, memberSegment 0 true 0⟩, List.mem_singleton.mpr rfl,
      rfl, rfl⟩
  · intro p hp _ _ _
    rw [List.mem_singleton.mp hp]
    decide

/-- The last segment of a report whose first one was lost is handed back as if it were whole. -/
theorem push_returns_last_alone :
    let last := memberSegment 1 false 1
    ((start 8 512).assembler.push last).2 = some last ∧
      ¬ ∃ first rest, Complete last.key ((start 8 512).fed ++ [last]) (first :: rest) ∧
        last = joined first rest := by
  refine ⟨rfl, ?_⟩
  rintro ⟨first, rest, hcomplete, -⟩
  have hlen := hcomplete.latest.length_le
  have hrest : rest = [] := List.eq_nil_of_length_eq_zero (Nat.le_zero.mp (Nat.le_of_succ_le_succ hlen))
  subst hrest
  have hfirst : first = memberSegment 1 false 1 := by
    have hsub := hcomplete.latest.subset (List.mem_singleton.mpr rfl)
    exact List.mem_singleton.mp hsub
  have hnum := hcomplete.numbered
  rw [hfirst] at hnum
  exact absurd hnum (by decide)

end AssemblerSession

end Iec61850.Mms
