import Iec61850.Client.Unsolicited
import Iec61850.Common.DataSizes
import Iec61850.Server.Control
import Iec61850.Server.ReportEncoding

/-!
# The end of a command, from the server to the client

What `positive` and `negative` of `server/control.rs` build for a request that a client wrote is
what `Unsolicited::from_pdu` makes a command termination of (`termination_read_back`).
-/

namespace Iec61850.Client

open Theory Ber Mms Server

/-! ### A list of named variables -/

theorem name_rereads (n : ObjectName) :
    Rereads (constructed tagSequence (VariableSpecification.name n).write) tagSequence
      VariableSpecification.parse (fun v => v = .name n) := by
  refine rereads_constructed (by decide) fun value offset hvalue => gets_expect rfl ?_
  have hname : Rereads (constructed (Tag.contextConstructed 0) n.write) _ _ _ :=
    rereads_firstChild n.rereads (by decide)
  refine gets_nextRequired (c := (tlvAt offset _ value).children) (concatM_single.mpr hvalue)
    hname ?_
  intro t c hc htag hgets
  dsimp only
  rw [if_pos htag]
  refine gets_bind hgets fun child hchild => gets_bind hchild.2 ?_
  rintro _ rfl
  exact gets_absent hc lacks_nil (gets_ok rfl)

/-- The access to a list of names. -/
def accessTo (names : List ObjectName) : VariableAccess :=
  .listOfVariable (names.map VariableSpecification.name)

theorem accessTo_rereads {names : List ObjectName}
    (hcount : names.length ≤ Limits.default.maxDatasetMembers) :
    Rereads (accessTo names).write (Tag.contextConstructed 0) VariableAccess.parse
      (fun a => a = accessTo names) := by
  have hlist : Rereads (writeVariableList (names.map VariableSpecification.name)
      (Tag.contextConstructed 0)) (Tag.contextConstructed 0) (fun t =>
        parseVariableList t Limits.default) (List.Forall₂ (fun v v' => v' = v)
        (names.map VariableSpecification.name)) := by
    refine rereads_list _ (by decide) ?_ (by rwa [List.length_map])
    intro v hv
    obtain ⟨n, -, rfl⟩ := List.mem_map.mp hv
    exact ⟨_, name_rereads n⟩
  refine hlist.map (fun _ _ => rfl) fun items hitems => ?_
  rw [accessTo, eq_of_forall₂ hitems]

/-! ### A list of structures -/

/-- A result that holds the encoding of a structure, wherever it stands. -/
def Holds (m : List Value) (r : AccessResult) : Prop :=
  ∃ contents offset, Value.encodeAll m = .ok contents ∧
    r = .success (tlvAt offset (Tag.contextConstructed dataStructure) contents)

theorem structure_rereads (m : List Value) :
    Rereads (Value.structure m).encode (Tag.contextConstructed dataStructure) AccessResult.parse
      (Holds m) := by
  rw [Value.encode]
  exact rereads_constructed (by decide) fun value offset hvalue =>
    gets_ok ⟨value, offset, hvalue, rfl⟩

/-- The server turns a structure that can be encoded into a result that is written as it. -/
theorem exists_result {m : List Value} {n : Nat} (h : Fits (Value.structure m).encode n) :
    ∃ encoded r, Value.encodeAll [.structure m] = .ok encoded ∧ successOf encoded = .ok r ∧
      r.write = (Value.structure m).encode := by
  obtain ⟨bs, hencode, -⟩ := h
  have hall : Value.encodeAll [.structure m] = .ok bs := by
    rw [Value.encodeAll, Value.encodeAll, hencode]
    simp only [bind, Except.bind, List.append_nil]
  have hbytes := hencode
  rw [Value.encode] at hbytes
  obtain ⟨contents, -, hlen, rfl⟩ := constructed_ok hbytes
  have htag : (Tag.contextConstructed dataStructure).number ≤ u32Max := by decide
  have hfit : Fitting (Tag.contextConstructed dataStructure, contents) := ⟨htag, hlen⟩
  have hnext := nextRequired_element hfit 0 []
  rw [List.append_nil] at hnext
  refine ⟨_, .success (tlvAt 0 (Tag.contextConstructed dataStructure) contents), hall, ?_, ?_⟩
  · rw [successOf, Cursor.new, hnext]
    rfl
  · rw [hencode]
    exact primitive_eq hlen

theorem exists_results {n : Nat} {structures : List (List Value)}
    (h : ∀ m ∈ structures, Fits (Value.structure m).encode n) :
    ∃ encoded results, (structures.map Value.structure).mapM (fun v => Value.encodeAll [v]) =
        .ok encoded ∧ encoded.mapM successOf = .ok results ∧
      results.map AccessResult.write = structures.map fun m => (Value.structure m).encode := by
  induction structures with
  | nil => exact ⟨[], [], rfl, rfl, rfl⟩
  | cons m structures ih =>
    obtain ⟨encoded, r, hencoded, hr, hwrite⟩ := exists_result (h m List.mem_cons_self)
    obtain ⟨more, results, hmore, hresults, hwrites⟩ :=
      ih fun k hk => h k (List.mem_cons_of_mem m hk)
    refine ⟨encoded :: more, r :: results, ?_, ?_, ?_⟩
    · rw [List.map_cons, List.mapM_cons, hencoded, hmore]
      rfl
    · rw [List.mapM_cons, hr, hresults]
      rfl
    · rw [List.map_cons, List.map_cons, hwrite, hwrites]

theorem fits_structures {n : Nat} {structures : List (List Value)}
    (h : ∀ m ∈ structures, Fits (Value.structure m).encode n) :
    Fits (concatM (structures.map fun m => (Value.structure m).encode)) (structures.length * n) := by
  induction structures with
  | nil =>
    rw [List.length_nil, Nat.zero_mul]
    exact fits_concatM_nil
  | cons m structures ih =>
    rw [List.map_cons, List.length_cons, Nat.succ_mul, Nat.add_comm]
    exact fits_concatM_cons (h m List.mem_cons_self) (ih fun k hk => h k (List.mem_cons_of_mem m hk))

/-! ### The report -/

/-- The octets of a report of these structures under these names. -/
def reportWrite (names : List ObjectName) (structures : List (List Value)) : Except Error Bytes :=
  constructed (svc 3) (constructed (svc 0) (concatM [(accessTo names).write,
    constructed (svc 0) (concatM (structures.map fun m => (Value.structure m).encode))]))

section Report

variable {names : List ObjectName} {structures : List (List Value)}

/-- The server's report of structures that can be encoded. -/
theorem report_eq {n : Nat} (h : ∀ m ∈ structures, Fits (Value.structure m).encode n) :
    Control.report (names.map VariableSpecification.name) (structures.map Value.structure) =
      orDefault (reportWrite names structures) := by
  obtain ⟨encoded, results, hencoded, hresults, hwrites⟩ := exists_results h
  rw [Control.report, hencoded]
  dsimp only [bind, Except.bind]
  rw [hresults]
  change orDefault (constructed (svc 3) (constructed (svc 0)
    (concatM [(accessTo names).write, writeAccessResults results (svc 0)]))) = _
  rw [writeAccessResults, hwrites]
  rfl

/-- The service of a report is read back. -/
theorem service_rereads {limits : Limits} (hnames : names.length ≤ Limits.default.maxDatasetMembers)
    (hcount : structures.length ≤ limits.maxDatasetMembers) :
    Rereads (constructed (svc 0) (concatM [(accessTo names).write,
        constructed (svc 0) (concatM (structures.map fun m => (Value.structure m).encode))])) (svc 0)
      (fun t => Unconfirmed.parse t limits) (fun s => ∃ results,
        s = .informationReport (accessTo names) results ∧
          List.Forall₂ Holds structures results) := by
  have hlist : Rereads (constructed (svc 0)
      (concatM (structures.map fun m => (Value.structure m).encode))) (svc 0)
      (fun t => parseAccessResults t limits) (List.Forall₂ Holds structures) :=
    rereads_list _ (by decide) (fun m _ => ⟨_, structure_rereads m⟩) hcount
  refine rereads_constructed (by decide) fun value offset hvalue => ?_
  unfold Unconfirmed.parse
  rw [if_pos (tlvAt_tag offset (svc 0) value)]
  refine gets_nextRequired (c := (tlvAt offset _ value).children) hvalue
    (accessTo_rereads hnames) ?_
  intro a c hc _ hgets
  refine gets_bind hgets ?_
  rintro _ rfl
  refine gets_nextTag hc hlist ?_
  intro list c' _ hgets
  exact gets_map hgets fun results hresults => ⟨results, rfl, hresults⟩

/-- A report that fits is not empty, and whatever the limits of a client it reads from it the names
and results that hold the structures. -/
theorem report_parsed {k n : Nat} (hnames : names.length ≤ Limits.default.maxDatasetMembers)
    (haccess : Fits (accessTo names).write k)
    (hfits : ∀ m ∈ structures, Fits (Value.structure m).encode n)
    (hroom : k + structures.length * n + 64 ≤ u32Max) :
    Control.report (names.map VariableSpecification.name) (structures.map Value.structure) ≠ [] ∧
      ∀ limits : Limits, structures.length ≤ limits.maxDatasetMembers → ∃ results,
        Pdu.parse (Control.report (names.map VariableSpecification.name)
          (structures.map Value.structure)) limits =
          .ok (.unconfirmed (.informationReport (accessTo names) results)) ∧
        List.Forall₂ Holds structures results := by
  have hlist := @fits_constructed (svc 0) _ _ (fits_structures hfits) (by omega)
  have hcontents := fits_concatM_cons haccess (fits_concatM_cons hlist fits_concatM_nil)
  have hservice := @fits_constructed (svc 0) _ _ hcontents (by omega)
  obtain ⟨bs, hbs, -⟩ := @fits_constructed (svc 3) _ _ hservice (by omega)
  have hreport : Control.report (names.map VariableSpecification.name)
      (structures.map Value.structure) = bs := by
    rw [report_eq hfits, reportWrite, hbs]
    rfl
  rw [hreport]
  refine ⟨?_, fun limits hcount => ?_⟩
  · rintro rfl
    obtain ⟨contents, -, -, hnil⟩ := constructed_ok hbs
    have hpos := element_length_pos (svc 3) contents
    rw [← hnil] at hpos
    exact absurd hpos (Nat.lt_irrefl 0)
  · have htag : (svc 3).number ≤ u32Max := by decide
    have hread := rereads_child (service_rereads hnames hcount) htag
    have hgets : Gets (Pdu.parse bs limits) (fun p => ∃ results,
        p = .unconfirmed (.informationReport (accessTo names) results) ∧
          List.Forall₂ Holds structures results) := by
      refine Pdu.gets_element hbs (hread.lift Pdu.unconfirmed ?_) fun top _ htag => ?_
      · rintro s ⟨results, rfl, hresults⟩
        exact ⟨results, rfl, hresults⟩
      · dsimp only
        rw [htag, map_bind]
        rfl
    obtain ⟨_, hparse, results, rfl, hresults⟩ := hgets
    exact ⟨results, hparse, hresults⟩

theorem accessTo_ok {values : List Value}
    (h : Control.report (names.map VariableSpecification.name) values ≠ []) :
    ∃ bs, (accessTo names).write = .ok bs := by
  cases hreport : (do
      let encoded ← values.mapM fun v => Value.encodeAll [v]
      let results ← encoded.mapM successOf
      (Pdu.unconfirmed (.informationReport (accessTo names) results)).write) with
  | error e => exact absurd (congrArg orDefault hreport) h
  | ok bs =>
    obtain ⟨encoded, -, hreport⟩ := bind_ok hreport
    obtain ⟨results, -, hreport⟩ := bind_ok hreport
    obtain ⟨service, hservice, -, -⟩ := constructed_ok hreport
    obtain ⟨contents, hcontents, -, -⟩ := constructed_ok hservice
    obtain ⟨here, rest, hhere, -, -⟩ := concatM_cons_ok hcontents
    exact ⟨here, hhere⟩

end Report

/-! ### The name of a control object -/

/-- The `Oper` of an object, as the two ends name it. -/
def operText (object : Reference) : Bytes := Control.textOf object ++ ascii "$Oper"

/-- The item of the `Oper`. -/
def operItem (object : Reference) : Bytes := Control.itemText (object.item ++ [ascii "Oper"])

theorem itemText_concat {item : List Bytes} (h : item ≠ []) (name : Bytes) :
    Control.itemText (item ++ [name]) = Control.itemText item ++ ascii "$" ++ name := by
  induction item with
  | nil => exact absurd rfl h
  | cons first rest ih =>
    cases rest with
    | nil => simp [Control.itemText, List.intercalate]
    | cons second rest =>
      have hrest := ih (List.cons_ne_nil second rest)
      simp only [Control.itemText, List.intercalate, List.cons_append,
        List.intersperse_cons_cons, List.flatten_cons] at hrest ⊢
      rw [hrest]
      simp only [List.append_assoc]

section Object

variable {object : Reference}

theorem item_ne_nil (h : (Control.controlPath object).isSome = true) : object.item ≠ [] := by
  intro hnil
  rw [Control.controlPath, hnil] at h
  cases h

theorem operItem_eq (h : object.item ≠ []) :
    operItem object = Control.itemText object.item ++ ascii "$Oper" := by
  rw [operItem, itemText_concat h, List.append_assoc]
  rfl

theorem objectName_oper (h : object.item ≠ []) :
    objectName (.domainSpecific object.domain (operItem object)) = operText object := by
  rw [objectName, operItem_eq h, operText, Control.textOf]
  simp only [List.append_assoc]

theorem isOper_operText (object : Reference) : isOper (operText object) = true := by
  have hsuffix : (ascii "$Oper").isSuffixOf (operText object) = true :=
    List.isSuffixOf_iff_suffix.mpr (List.suffix_append _ _)
  rw [isOper, hsuffix]
  rfl

theorem isAscii_append (a b : Bytes) : isAscii (a ++ b) = (isAscii a && isAscii b) :=
  List.all_append

theorem isAscii_operText (object : Reference) :
    isAscii (operText object) = isAscii (Control.textOf object) := by
  rw [operText, isAscii_append, show isAscii (ascii "$Oper") = true from by decide, Bool.and_true]

theorem isAscii_names (h : object.item ≠ []) :
    (isAscii object.domain = true ∧ isAscii (operItem object) = true) ↔
      isAscii (Control.textOf object) = true := by
  rw [operItem_eq h, Control.textOf, isAscii_append, isAscii_append, isAscii_append,
    show isAscii (ascii "$Oper") = true from by decide, show isAscii (ascii "/") = true from by decide]
  simp

end Object

end Iec61850.Client
