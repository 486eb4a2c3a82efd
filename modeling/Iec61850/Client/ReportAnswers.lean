import Iec61850.Client.ReportControl

/-!
# What a client makes of the answers about a report control block

The results of an answer are matched with what was asked for by position alone. A block that is read
has each attribute from the result in that attribute's place, and the requests of the services can
always be made but for values that do not encode.
-/

namespace Iec61850.Client

open Theory Ber Mms Server

/-! ### A block read by name -/

/-- The value that the results of a read have for an attribute. -/
def valueOf (limits : Limits) (buffered : Bool) (results : List AccessResult) (a : RcbAttribute) :
    Option Value :=
  (((attributeNames buffered).zip (results.map (accessResult limits))).lookup a).bind
    Except.toOption

/-- A field of the block, from the value of an attribute if there is one. -/
def given {α : Type} (value : Option Value) (decoded : Value → α) (before : α) : α :=
  match value with
  | some v => decoded v
  | none => before

/-- A block with every attribute taken from the value of that attribute. -/
def Rcb.updated (rcb : Rcb) (value : RcbAttribute → Option Value) : Rcb where
  reference := rcb.reference
  buffered := rcb.buffered
  rptId := given (value .rptId) Value.asStr rcb.rptId
  rptEna := given (value .rptEna) (fun v => v.asBool.getD false) rcb.rptEna
  dataSet := given (value .datSet) Value.asStr rcb.dataSet
  confRev := given (value .confRev) unsignedIn rcb.confRev
  optFlds := given (value .optFlds) (packedFromValue 10) rcb.optFlds
  bufTm := given (value .bufTm) unsignedIn rcb.bufTm
  sqNum := given (value .sqNum) unsignedIn rcb.sqNum
  trgOps := given (value .trgOps) (packedFromValue 6) rcb.trgOps
  intgPd := given (value .intgPd) unsignedIn rcb.intgPd
  gi := given (value .gi) Value.asBool rcb.gi
  resv := given (value .resv) Value.asBool rcb.resv
  purgeBuf := given (value .purgeBuf) Value.asBool rcb.purgeBuf
  entryId := given (value .entryId) octetsIn rcb.entryId
  timeOfEntry := ((value .timeofEntry).bind entryTimeIn).or
    (((value .timeOfEntry).bind entryTimeIn).or rcb.timeOfEntry)
  resvTms := given (value .resvTms) asI64 rcb.resvTms
  owner := given (value .owner) octetsIn rcb.owner

/-- The order of two attributes in a request: no attribute twice, and the standard's spelling of the
entry time before the other. -/
def RcbAttribute.Before (a b : RcbAttribute) : Prop :=
  a ≠ b ∧ ¬ (a = timeofEntry ∧ b = timeOfEntry)

instance : DecidableRel RcbAttribute.Before := fun a b =>
  inferInstanceAs (Decidable (a ≠ b ∧ ¬ (a = .timeofEntry ∧ b = .timeOfEntry)))

theorem attributeNames_before (buffered : Bool) :
    (attributeNames buffered).Pairwise RcbAttribute.Before := by
  cases buffered <;> decide

/-- One round of the loop, as an update of the attribute it is about. -/
theorem Rcb.updated_round (rcb : Rcb) (a : RcbAttribute) (r : Except Failure Value)
    {value : RcbAttribute → Option Value} (ha : value a = none)
    (htime : a = .timeofEntry → value .timeOfEntry = none) : (rcb.round (a, r)).updated value =
      rcb.updated fun b => if b = a then r.toOption else value b := by
  cases r with
  | error f =>
    have hsame : (fun b => if b = a then (Except.error f : Except Failure Value).toOption
        else value b) = value := by
      funext b
      by_cases hb : b = a
      · rw [if_pos hb, hb, ha]
        rfl
      · rw [if_neg hb]
    rw [hsame]
    rfl
  | ok v =>
    cases a
    case timeofEntry => simp [round, take, updated, given, ha, htime, Except.toOption]
    all_goals simp [round, take, updated, given, ha, Except.toOption]

theorem lookup_zip_eq_none {names : List RcbAttribute} {values : List (Except Failure Value)}
    {a : RcbAttribute} (h : a ∉ names) : (names.zip values).lookup a = none := by
  rw [List.lookup_eq_none_iff]
  intro pair hpair
  rw [bne_iff_ne]
  rintro rfl
  exact h (List.of_mem_zip hpair).1

/-- The loop of `read_rcb` takes every attribute from the value of that attribute. -/
theorem Rcb.foldl_round {names : List RcbAttribute} (hnames : names.Pairwise RcbAttribute.Before)
    (values : List (Except Failure Value)) (rcb : Rcb) : (names.zip values).foldl Rcb.round rcb =
      rcb.updated fun a => ((names.zip values).lookup a).bind Except.toOption := by
  induction names generalizing values rcb with
  | nil => rfl
  | cons a names ih =>
    cases values with
    | nil => rfl
    | cons r values =>
      obtain ⟨hbefore, hrest⟩ := List.pairwise_cons.mp hnames
      rw [List.zip_cons_cons, List.foldl_cons, ih hrest, Rcb.updated_round]
      · congr 1
        funext b
        rw [List.lookup_cons]
        by_cases hb : b = a
        · subst hb
          simp
        · rw [if_neg hb, beq_eq_false_iff_ne.mpr hb]
      · rw [lookup_zip_eq_none fun hmem => (hbefore a hmem).1 rfl]
        rfl
      · intro htime
        rw [lookup_zip_eq_none fun hmem => (hbefore _ hmem).2 ⟨htime, rfl⟩]
        rfl

/-! ### What a service makes of an answer -/

namespace Answer

/-- What `read_rcb` makes of an answer. -/
def rcb (limits : Limits) (base : Bytes) (buffered : Bool) : Answer → Except Failure Rcb
  | .response (.ok (.read _ results)) =>
    RcbSession.rcbOf base buffered (results.map (accessResult limits))
  | .response (.ok _) => .error (.own (.invalidValue "not a Read response"))
  | .response (.error e) => .error (.own e)
  | .failed f | .unsent f | .lost f => .error f

/-- The results of a read. -/
def read? : Answer → Option (List AccessResult)
  | .response (.ok (.read _ results)) => some results
  | _ => none

/-- The results of a read have something by which a block is known. -/
def Shows (limits : Limits) (buffered : Bool) (a : Answer) : Prop :=
  ∃ results, a.read? = some results ∧
    ((valueOf limits buffered results .rptId).bind Value.asStr ≠ none ∨
      (valueOf limits buffered results .datSet).bind Value.asStr ≠ none ∨
      (valueOf limits buffered results .optFlds).bind (packedFromValue 10) ≠ none)

/-- The results of a read have `RptEna` true. -/
def showsEnabled (limits : Limits) (buffered : Bool) (a : Answer) : Bool :=
  (a.read?.bind fun results =>
    (valueOf limits buffered results .rptEna).bind Value.asBool).getD false

/-- The number of results in an answer to a call. -/
def count : Asked → Answer → Option Nat
  | .read _, .response (.ok (.read _ results)) => some results.length
  | .write _, .response (.ok (.write results)) => some results.length
  | _, _ => none

end Answer

/-- The number of items in a call. -/
def Asked.size : Asked → Nat
  | .read names => names.length
  | .write writes => writes.length

/-- The answer has a number of results, and it is not that of the items. -/
def Answer.Miscounts (asked : Asked) (a : Answer) : Prop :=
  ∃ n, a.count asked = some n ∧ n ≠ asked.size

theorem given_none_eq_bind {α : Type} (value : Option Value) (decoded : Value → Option α) :
    given value decoded none = value.bind decoded := by
  cases value <;> rfl

theorem rcbOf_eq (limits : Limits) (base : Bytes) (buffered : Bool) (results : List AccessResult) :
    RcbSession.rcbOf base buffered (results.map (accessResult limits)) =
      if (valueOf limits buffered results .rptId).bind Value.asStr = none ∧
          (valueOf limits buffered results .datSet).bind Value.asStr = none ∧
          (valueOf limits buffered results .optFlds).bind (packedFromValue 10) = none then
        .error (.own (.notFound "report control block"))
      else .ok (({ reference := base, buffered } : Rcb).updated
        (valueOf limits buffered results)) := by
  have hloop : ((attributeNames buffered).zip (results.map (accessResult limits))).foldl Rcb.round
      ({ reference := base, buffered } : Rcb) =
        ({ reference := base, buffered } : Rcb).updated (valueOf limits buffered results) :=
    Rcb.foldl_round (attributeNames_before buffered) _ _
  have hrptId : (({ reference := base, buffered } : Rcb).updated
      (valueOf limits buffered results)).rptId =
        (valueOf limits buffered results .rptId).bind Value.asStr := given_none_eq_bind _ _
  have hdatSet : (({ reference := base, buffered } : Rcb).updated
      (valueOf limits buffered results)).dataSet =
        (valueOf limits buffered results .datSet).bind Value.asStr := given_none_eq_bind _ _
  have hoptFlds : (({ reference := base, buffered } : Rcb).updated
      (valueOf limits buffered results)).optFlds =
        (valueOf limits buffered results .optFlds).bind (packedFromValue 10) :=
    given_none_eq_bind _ _
  simp only [RcbSession.rcbOf, hloop, hrptId, hdatSet, hoptFlds]

theorem Answer.rcb_eq_ok {limits : Limits} {base : Bytes} {buffered : Bool} {a : Answer}
    {rcb : Rcb} : a.rcb limits base buffered = .ok rcb ↔ a.Shows limits buffered ∧
      ∃ results, a.read? = some results ∧ rcb =
          ({ reference := base, buffered } : Rcb).updated (valueOf limits buffered results) := by
  unfold Answer.rcb Answer.Shows Answer.read?
  split
  · rename_i access results
    rw [rcbOf_eq]
    split
    · rename_i hnone
      obtain ⟨hrptId, hdatSet, hoptFlds⟩ := hnone
      refine iff_of_false (fun h => nomatch h) ?_
      rintro ⟨⟨results', hresults, hshows⟩, -⟩
      cases hresults
      rcases hshows with h | h | h
      · exact h hrptId
      · exact h hdatSet
      · exact h hoptFlds
    · rename_i hsome
      constructor
      · intro h
        cases h
        refine ⟨⟨results, rfl, ?_⟩, results, rfl, rfl⟩
        by_contra hall
        rw [not_or, not_or, not_not, not_not, not_not] at hall
        exact hsome hall
      · rintro ⟨-, results', hresults, rfl⟩
        cases hresults
        rfl
  · rename_i hother
    refine iff_of_false (fun h => nomatch h) ?_
    rintro ⟨⟨results, hresults, -⟩, -⟩
    split at hresults
    · rename_i heq
      cases heq
      exact hother _ _ rfl
    · cases hresults
  all_goals
    refine iff_of_false (fun h => nomatch h) ?_
    rintro ⟨⟨results, hresults, -⟩, -⟩
    cases hresults

theorem Answer.Shows.exists_rcb {limits : Limits} {buffered : Bool} {a : Answer}
    (h : a.Shows limits buffered) (base : Bytes) : ∃ rcb, a.rcb limits base buffered = .ok rcb := by
  obtain ⟨results, hresults, -⟩ := id h
  exact ⟨_, Answer.rcb_eq_ok.mpr ⟨h, results, hresults, rfl⟩⟩

theorem Answer.rptEna_eq {limits : Limits} {base : Bytes} {buffered : Bool} {a : Answer}
    {rcb : Rcb} (h : a.rcb limits base buffered = .ok rcb) :
    rcb.rptEna = a.showsEnabled limits buffered := by
  obtain ⟨-, results, hresults, rfl⟩ := Answer.rcb_eq_ok.mp h
  rw [Answer.showsEnabled, hresults, Option.bind_some]
  change given _ _ false = _
  cases valueOf limits buffered results .rptEna with
  | none => rfl
  | some v => rfl

/-! ### The requests can be made -/

/-- The text of a control block: a node, a constraint and names. -/
structure BlockText (base : Bytes) (buffered : Bool) (fc : Fc) : Prop where
  reporting : fc = .rp ∨ fc = .br
  kind : buffered = decide (fc = .br)
  text : ∃ (ld ln : Bytes) (names : List Bytes), IsName ld ∧ IsName ln ∧
    (∀ name ∈ names, IsName name) ∧
    base = ld ++ slash :: (ln ++ sep :: fc.asStr ++ names.flatMap fun name => sep :: name)

theorem rcbBase_text {reference base : Bytes} {fc : Fc} {buffered : Bool}
    (h : rcbBase reference fc = .ok (base, buffered)) : ∃ fc', BlockText base buffered fc' := by
  obtain ⟨r, hr, h⟩ := bind_ok h
  dsimp only at h
  split at h
  · cases h
  · rename_i hfc
    have hnamed := ObjectReference.parse_named hr
    rw [not_and_or, not_not, not_not] at hfc
    cases h
    refine ⟨r.fc.getD fc, hfc, rfl, r.ld, r.ln, r.names, hnamed.ld, hnamed.ln, hnamed.names, ?_⟩
    have hsame : r.fc.getD (r.fc.getD fc) = r.fc.getD fc := by cases r.fc <;> rfl
    rw [ObjectReference.toMms, ObjectReference.toMmsUnder, hsame]

theorem BlockText.again {base : Bytes} {buffered : Bool} {fc : Fc} (h : BlockText base buffered fc)
    (fc' : Fc) : rcbBase base fc' = .ok (base, buffered) := by
  obtain ⟨hfc, hkind, ld, ln, names, hld, hln, hnames, htext⟩ := h
  have hreporting : ¬ (fc ≠ .rp ∧ fc ≠ .br) := by
    rw [not_and_or, not_not, not_not]
    exact hfc
  have hparse := ObjectReference.parse_mms hld hln fc hnames
  rw [← htext] at hparse
  rw [rcbBase, hparse]
  dsimp only [bind, Except.bind, Option.getD]
  rw [if_neg hreporting, ObjectReference.toMms, ObjectReference.toMmsUnder,
    ObjectReference.names_joined hnames, hkind, htext]
  rfl

theorem BlockText.attribute {base : Bytes} {buffered : Bool} {fc : Fc}
    (h : BlockText base buffered fc) (a : RcbAttribute) :
    ∃ r, ObjectReference.parse (a.under base) = .ok r ∧ r.fc = some fc := by
  obtain ⟨-, -, ld, ln, names, hld, hln, hnames, htext⟩ := h
  have hall : ∀ n ∈ names ++ [ascii a.name], IsName n := by
    intro n hn
    rcases List.mem_append.mp hn with hn | hn
    · exact hnames n hn
    · rw [List.mem_singleton.mp hn]
      cases a <;> exact ⟨by decide, by decide⟩
  have hparse := ObjectReference.parse_mms hld hln fc hall
  refine ⟨⟨ld, ln, some fc, ObjectReference.joined (names ++ [ascii a.name])⟩, ?_, rfl⟩
  rw [← hparse, RcbAttribute.under, htext]
  simp

theorem BlockText.exists_readRequest {base : Bytes} {buffered : Bool} {fc : Fc}
    (h : BlockText base buffered fc) (attributes : List RcbAttribute) : ∃ request, readManyRequest
      ((attributes.map (RcbAttribute.under base)).map fun name => (name, .st)) = .ok request := by
  have hitems : ∃ items, Addressed.all
      ((attributes.map (RcbAttribute.under base)).map fun name => (name, .st)) = .ok items := by
    refine exists_mapM ?_
    intro pair hpair
    obtain ⟨name, hname, rfl⟩ := List.mem_map.mp hpair
    obtain ⟨a, -, rfl⟩ := List.mem_map.mp hname
    obtain ⟨r, hr, -⟩ := h.attribute a
    dsimp only
    rw [Addressed.of, hr]
    exact ⟨_, rfl⟩
  obtain ⟨items, hitems⟩ := hitems
  rw [readManyRequest, hitems]
  exact ⟨_, rfl⟩

theorem BlockText.exists_enableRequest {base : Bytes} {buffered : Bool} {fc : Fc}
    (h : BlockText base buffered fc) (on : Bool) :
    ∃ request, writeManyRequest [(RcbAttribute.under base .rptEna, .boolean on)] = .ok request := by
  obtain ⟨r, hr, hfc⟩ := h.attribute .rptEna
  refine exists_writeManyRequest hr hfc (exists_encodedElement_of_primitive rfl (by decide) ?_)
  cases on <;> decide

/-! ### Where a call leaves the client -/

namespace RcbSession

variable {limits : Limits} {answers : Nat → Answer} {c : RcbSession}

/-- The client after a call. -/
def called (answers : Nat → Answer) (c : RcbSession) (asked : Asked) (request : ConfirmedRequest) :
    RcbSession :=
  ⟨(answers c.calls.length).alive, c.calls ++ [⟨asked, request, answers c.calls.length⟩]⟩

theorem readRcb_up {reference base : Bytes} {fc fc' : Fc} {buffered : Bool} (hup : c.up = true)
    (hbase : rcbBase reference fc = .ok (base, buffered)) (htext : BlockText base buffered fc') :
    ∃ request, c.readRcb limits answers reference fc =
      (c.called answers (.read ((attributeNames buffered).map (RcbAttribute.under base))) request,
        (answers c.calls.length).rcb limits base buffered) := by
  obtain ⟨request, hrequest⟩ := htext.exists_readRequest (attributeNames buffered)
  refine ⟨request, ?_⟩
  rw [readRcb, hbase]
  dsimp only
  rw [readManyResults, hrequest]
  dsimp only
  rw [call, if_neg (not_not.mpr hup), called]
  cases answers c.calls.length with
  | response r =>
    cases r with
    | error e => rfl
    | ok response => cases response <;> rfl
  | failed f => rfl
  | unsent f => rfl
  | lost f => rfl

theorem writeMany_up {writes : List (Bytes × Value)} {request : ConfirmedRequest}
    (hup : c.up = true) (hrequest : writeManyRequest writes = .ok request) :
    c.writeMany answers writes =
      (c.called answers (.write writes) request, (answers c.calls.length).results) := by
  rw [writeMany, hrequest]
  dsimp only
  rw [call, if_neg (not_not.mpr hup), called]
  cases answers c.calls.length with
  | response r =>
    cases r with
    | error e => rfl
    | ok response => cases response <;> rfl
  | failed f => rfl
  | unsent f => rfl
  | lost f => rfl

theorem writeOne_up {name : Bytes} {v : Value} {request : ConfirmedRequest} (hup : c.up = true)
    (hrequest : writeManyRequest [(name, v)] = .ok request) : c.writeOne answers name v =
      (c.called answers (.write [(name, v)]) request, (answers c.calls.length).verdict) := by
  rw [writeOne, writeMany_up hup hrequest, Answer.verdict]
  cases (answers c.calls.length).results with
  | error f => rfl
  | ok results => cases results <;> rfl

section WriteRcb

variable {reference base : Bytes} {fc : Fc} {buffered : Bool} {settings : RcbSettings}

theorem writeRcb_nothing (hbase : rcbBase reference fc = .ok (base, buffered))
    (hempty : (settingsWrites base buffered settings).isEmpty = true) :
    c.writeRcb answers reference fc settings = (c, .ok ()) := by
  rw [writeRcb, hbase]
  dsimp only
  rw [if_pos hempty]

theorem writeRcb_unsent {e : Error} (hbase : rcbBase reference fc = .ok (base, buffered))
    (hempty : (settingsWrites base buffered settings).isEmpty = false)
    (hrequest : writeManyRequest (settingsWrites base buffered settings) = .error e) :
    c.writeRcb answers reference fc settings = (c, .error (.own e)) := by
  rw [writeRcb, hbase]
  dsimp only
  rw [if_neg (by rw [hempty]; exact Bool.false_ne_true), writeMany, hrequest]

theorem writeRcb_up {request : ConfirmedRequest} (hup : c.up = true)
    (hbase : rcbBase reference fc = .ok (base, buffered))
    (hempty : (settingsWrites base buffered settings).isEmpty = false)
    (hrequest : writeManyRequest (settingsWrites base buffered settings) = .ok request) :
    c.writeRcb answers reference fc settings =
      (c.called answers (.write (settingsWrites base buffered settings)) request,
        (answers c.calls.length).outcome) := by
  rw [writeRcb, hbase]
  dsimp only
  rw [if_neg (by rw [hempty]; exact Bool.false_ne_true), writeMany_up hup hrequest, Answer.outcome]
  cases (answers c.calls.length).results <;> rfl

end WriteRcb

end RcbSession

end Iec61850.Client
