import Iec61850.Osi.Session

/-!
# Reading back COTP and session units

What `Connect::write` of COTP and `Spdu::write` of a CONNECT or ACCEPT produce is parsed to
what was written, parameter by parameter.
-/

namespace Iec61850.Osi

open Theory

/-! ### COTP -/

namespace Cotp

/-- These octets take the parameter loop from one state to the other, whatever follows. -/
def Takes (bs : Bytes) (out out' : Connect) : Prop :=
  ∀ fuel rest, bs.length + rest.length < fuel →
    ∃ left, rest.length < left ∧
      Connect.parseParams fuel out (bs ++ rest) = Connect.parseParams left out' rest

theorem takes_nil (out : Connect) : Takes [] out out := by
  intro fuel rest hfuel
  exact ⟨fuel, by simpa using hfuel, rfl⟩

variable {bs : Bytes} {c : Connect} {code : UInt8}

theorem Takes.append {cs : Bytes} {out mid out' : Connect} (h : Takes bs out mid)
    (h' : Takes cs mid out') : Takes (bs ++ cs) out out' := by
  intro fuel rest hfuel
  rw [List.length_append] at hfuel
  obtain ⟨left, hleft, heq⟩ := h fuel (cs ++ rest) (by rw [List.length_append]; omega)
  obtain ⟨left', hleft', heq'⟩ := h' left rest (by rwa [List.length_append] at hleft)
  exact ⟨left', hleft', by rw [List.append_assoc, heq, heq']⟩

/-- One parameter: its code, its length and its value. -/
theorem takes_param (code : UInt8) (value : Bytes) (hlen : value.length ≤ 255)
    (out : Connect) :
    Takes (code :: UInt8.ofNat value.length :: value) out
      (if code = paramTpduSize then { out with tpduSizeExp := value.head?.map UInt8.toNat }
        else if code = paramSrcTsap then { out with srcTsel := some value }
        else if code = paramDstTsap then { out with dstTsel := some value }
        else out) := by
  intro fuel rest hfuel
  obtain ⟨left, rfl⟩ : ∃ l, fuel = l + 1 := ⟨fuel - 1, by omega⟩
  have hbyte : (UInt8.ofNat value.length).toNat = value.length := by
    rw [toNat_ofNat8]
    omega
  refine ⟨left, ?_, ?_⟩
  · simp only [List.length_cons] at hfuel
    omega
  · simp only [List.cons_append]
    rw [Connect.parseParams, hbyte, if_neg (by simp), List.take_left' rfl, List.drop_left' rfl]

theorem takes_tsel {param : UInt8} {tsel : Option Bytes}
    (h : Ber.optM tsel (Connect.writeTsel param) = .ok bs) {out out' : Connect}
    (hnone : tsel = none → out = out') (hsome : ∀ t, tsel = some t → t.length ≤ 255 →
      Takes (param :: UInt8.ofNat t.length :: t) out out') : Takes bs out out' := by
  cases tsel with
  | none =>
    rw [Ber.optM, Except.ok.injEq] at h
    rw [← h, hnone rfl]
    exact takes_nil out'
  | some t =>
    simp only [Ber.optM, Connect.writeTsel] at h
    split at h
    · cases h
    · rw [Except.ok.injEq] at h
      rw [← h]
      exact hsome t rfl (by omega)

/-- The numbers of a connect TPDU fit their fields. -/
def Connect.Fitting (c : Connect) : Prop :=
  c.dstRef < 65536 ∧ c.srcRef < 65536 ∧ ∀ exp, c.tpduSizeExp = some exp → exp < 256

theorem Connect.parse_fields (hfit : c.Fitting) {src dst : Bytes}
    (hsrc : Ber.optM c.srcTsel (Connect.writeTsel paramSrcTsap) = .ok src)
    (hdst : Ber.optM c.dstTsel (Connect.writeTsel paramDstTsap) = .ok dst) :
    Connect.parse (beBytes 2 c.dstRef ++ beBytes 2 c.srcRef ++ c.classOptions ::
      ((match c.tpduSizeExp with
        | some exp => [paramTpduSize, 1, UInt8.ofNat exp]
        | none => []) ++ src ++ dst)) = .ok c := by
  obtain ⟨hdstRef, hsrcRef, hexp⟩ := hfit
  have h1 : beNat (beBytes 2 c.dstRef) = c.dstRef := beNat_beBytes_of_lt (by simpa using hdstRef)
  have h2 : beNat (beBytes 2 c.srcRef) = c.srcRef := beNat_beBytes_of_lt (by simpa using hsrcRef)
  have hsize : Takes (match c.tpduSizeExp with
        | some exp => [paramTpduSize, 1, UInt8.ofNat exp]
        | none => [])
      { dstRef := c.dstRef, srcRef := c.srcRef, classOptions := c.classOptions }
      { dstRef := c.dstRef, srcRef := c.srcRef, classOptions := c.classOptions,
        tpduSizeExp := c.tpduSizeExp } := by
    cases hsome : c.tpduSizeExp with
    | none => exact takes_nil _
    | some exp =>
      have hbyte : (UInt8.ofNat exp).toNat = exp := by
        have := hexp exp hsome
        rw [toNat_ofNat8]
        omega
      have := takes_param paramTpduSize [UInt8.ofNat exp] (by simp)
        { dstRef := c.dstRef, srcRef := c.srcRef, classOptions := c.classOptions }
      rw [if_pos rfl] at this
      simpa [hbyte] using this
  have hsrcTakes : Takes src
      { dstRef := c.dstRef, srcRef := c.srcRef, classOptions := c.classOptions,
        tpduSizeExp := c.tpduSizeExp }
      { dstRef := c.dstRef, srcRef := c.srcRef, classOptions := c.classOptions,
        tpduSizeExp := c.tpduSizeExp, srcTsel := c.srcTsel } := by
    refine takes_tsel hsrc (fun hnone => by rw [hnone]) (fun t ht hlen => ?_)
    have := takes_param paramSrcTsap t hlen
      { dstRef := c.dstRef, srcRef := c.srcRef, classOptions := c.classOptions,
        tpduSizeExp := c.tpduSizeExp }
    rw [if_neg (by decide), if_pos rfl] at this
    rwa [ht]
  have hdstTakes : Takes dst
      { dstRef := c.dstRef, srcRef := c.srcRef, classOptions := c.classOptions,
        tpduSizeExp := c.tpduSizeExp, srcTsel := c.srcTsel } c := by
    refine takes_tsel hdst (fun hnone => ?_) (fun t ht hlen => ?_)
    · rw [← hnone]
    · have := takes_param paramDstTsap t hlen
        { dstRef := c.dstRef, srcRef := c.srcRef, classOptions := c.classOptions,
          tpduSizeExp := c.tpduSizeExp, srcTsel := c.srcTsel }
      rw [if_neg (by decide), if_neg (by decide), if_pos rfl, ← ht] at this
      exact this
  obtain ⟨left, hleft, heq⟩ := (hsize.append hsrcTakes).append hdstTakes _ [] (Nat.lt_succ_self _)
  obtain ⟨left, rfl⟩ : ∃ l, left = l + 1 := ⟨left - 1, by omega⟩
  rw [List.append_nil] at heq
  simp only [beBytes, List.cons_append, List.nil_append] at h1 h2 ⊢
  rw [Connect.parse, h1, h2]
  exact heq

/-- A connect TPDU in front of nothing is parsed to what was written. -/
theorem Connect.parse_write (hfit : c.Fitting) (h : c.write code = .ok bs) :
    ∃ body, bs = UInt8.ofNat (body.length + 1) :: code :: body ∧ body.length + 1 ≤ 255 ∧
      Connect.parse body = .ok c := by
  unfold Connect.write at h
  cases hsrc : Ber.optM c.srcTsel (writeTsel paramSrcTsap) with
  | error e =>
    rw [hsrc] at h
    cases h
  | ok src =>
    cases hdst : Ber.optM c.dstTsel (writeTsel paramDstTsap) with
    | error e =>
      rw [hsrc, hdst] at h
      cases h
    | ok dst =>
      have hparse := Connect.parse_fields hfit hsrc hdst
      rw [hsrc, hdst] at h
      simp only [bind, Except.bind] at h
      cases hexp : c.tpduSizeExp <;> simp only [hexp] at h hparse <;> split at h
      · cases h
      · rename_i hlen
        rw [Except.ok.injEq] at h
        exact ⟨_, h.symm, by simpa using hlen, hparse⟩
      · cases h
      · rename_i hlen
        rw [Except.ok.injEq] at h
        exact ⟨_, h.symm, by simpa using hlen, hparse⟩

theorem Tpdu.parse_control {body : Bytes} (h : body.length + 1 ≤ 255) :
    Tpdu.parse (UInt8.ofNat (body.length + 1) :: code :: body) =
      (if code = CR then .connectionRequest <$> Connect.parse body
        else if code = CC then .connectionConfirm <$> Connect.parse body
        else if code = DR then
          match body with
          | a :: b :: c :: d :: reason :: _ =>
            .ok (.disconnectRequest (beNat [a, b]) (beNat [c, d]) reason)
          | _ => .error (.decode .truncated 1)
        else if code = DT then
          match body with
          | nrEot :: _ => .ok (.data (decide (nrEot.toNat ≥ 128)) [])
          | [] => .error (.decode .truncated 1)
        else .ok (.other code body)) := by
  have hbyte : (UInt8.ofNat (body.length + 1)).toNat = body.length + 1 := by
    rw [toNat_ofNat8]
    omega
  rw [Tpdu.parse, hbyte, if_neg (by simp), List.take_of_length_le (by simp),
    List.drop_of_length_le (by simp)]
  rfl

theorem Tpdu.parse_connectionRequest (hfit : c.Fitting)
    (h : (Tpdu.connectionRequest c).write = .ok bs) :
    Tpdu.parse bs = .ok (.connectionRequest c) := by
  obtain ⟨body, rfl, hlen, hparse⟩ := Connect.parse_write hfit h
  rw [Tpdu.parse_control hlen, if_pos rfl, hparse]
  rfl

theorem Tpdu.parse_connectionConfirm (hfit : c.Fitting)
    (h : (Tpdu.connectionConfirm c).write = .ok bs) :
    Tpdu.parse bs = .ok (.connectionConfirm c) := by
  obtain ⟨body, rfl, hlen, hparse⟩ := Connect.parse_write hfit h
  rw [Tpdu.parse_control hlen, if_neg (by decide), if_pos rfl, hparse]
  rfl

theorem Tpdu.parse_data (eot : Bool) (payload : Bytes) :
    Tpdu.parse (2 :: DT :: (if eot then 0x80 else 0) :: payload) = .ok (.data eot payload) := by
  cases eot <;> rfl

theorem Tpdu.write_length (h : c.write code = .ok bs) (hfit : c.Fitting) : bs.length ≤ 256 := by
  obtain ⟨body, rfl, hlen, -⟩ := Connect.parse_write hfit h
  simp only [List.length_cons]
  omega

end Cotp

/-! ### Session -/

namespace Session

/-- The octets of a length indicator. -/
def liField (len : Nat) : Bytes := if len < 255 then [UInt8.ofNat len] else 0xFF :: beBytes 2 len

variable {bs : Bytes} {c : Connect}

theorem writeLi_ok {len : Nat} (h : writeLi len = .ok bs) : len ≤ 65535 ∧ bs = liField len := by
  unfold writeLi at h
  unfold liField
  split at h
  · rename_i hshort
    rw [Except.ok.injEq] at h
    rw [if_pos hshort]
    exact ⟨by omega, h.symm⟩
  · rename_i hshort
    split at h
    · cases h
    · rw [Except.ok.injEq] at h
      rw [if_neg hshort]
      exact ⟨by omega, h.symm⟩

theorem readLi_liField {len : Nat} (h : len ≤ 65535) (pos : Nat) (rest : Bytes) :
    readLi pos (liField len ++ rest) = .ok (len, pos + (liField len).length, rest) := by
  unfold liField
  by_cases hshort : len < 255
  · have hbyte : (UInt8.ofNat len).toNat = len := by
      rw [toNat_ofNat8]
      omega
    have hne : UInt8.ofNat len ≠ 0xFF := by
      intro heq
      rw [heq] at hbyte
      have : (255 : Nat) = len := hbyte
      omega
    rw [if_pos hshort, List.singleton_append]
    unfold readLi
    simp only
    rw [if_pos hne, hbyte]
    rfl
  · have hvalue : beNat (beBytes 2 len) = len := beNat_beBytes_of_lt (by omega)
    rw [if_neg hshort]
    simp only [beBytes, List.cons_append, List.nil_append] at hvalue ⊢
    rw [readLi, if_neg (by simp)]
    simp only [hvalue]
    rfl

/-- One parameter unit as octets. -/
def unitField (u : UInt8 × Bytes) : Bytes := u.1 :: liField u.2.length ++ u.2

theorem writeUnit_ok {code : UInt8} {value : Bytes} (h : writeUnit code value = .ok bs) :
    value.length ≤ 65535 ∧ bs = unitField (code, value) := by
  unfold writeUnit at h
  cases hli : writeLi value.length with
  | error e =>
    rw [hli] at h
    cases h
  | ok li =>
    rw [hli] at h
    obtain ⟨hlen, rfl⟩ := writeLi_ok hli
    simp only [bind, Except.bind, Except.ok.injEq] at h
    exact ⟨hlen, h.symm⟩

/-- Parameter units, one after the other. -/
def unitFields (us : List (UInt8 × Bytes)) : Bytes := (us.map unitField).flatten

/-- Parameter units that are not walked into are read back in order. -/
theorem parameters_unitFields {us : List (UInt8 × Bytes)} {groups : Nat}
    (h : ∀ u ∈ us, u.2.length ≤ 65535 ∧ (groups = 0 ∨ u.1 ≠ pgiConnectAccept)) :
    ∀ fuel pos, (unitFields us).length < fuel →
      parameters fuel groups pos (unitFields us) = .ok us := by
  induction us with
  | nil =>
    intro fuel pos hfuel
    obtain ⟨fuel, rfl⟩ : ∃ f, fuel = f + 1 := ⟨fuel - 1, by omega⟩
    rfl
  | cons u us ih =>
    intro fuel pos hfuel
    obtain ⟨fuel, rfl⟩ : ∃ f, fuel = f + 1 := ⟨fuel - 1, by omega⟩
    obtain ⟨hlen, hgroup⟩ := h u List.mem_cons_self
    have hsplit : unitFields (u :: us) =
        u.1 :: (liField u.2.length ++ (u.2 ++ unitFields us)) := by
      simp [unitFields, unitField]
    have hrest : (unitFields us).length < fuel := by
      rw [hsplit] at hfuel
      simp only [List.length_cons, List.length_append] at hfuel
      omega
    have hout : ¬ (u.1 = pgiConnectAccept ∧ groups > 0) := by
      rintro ⟨hcode, hpos⟩
      rcases hgroup with hzero | hne
      · omega
      · exact hne hcode
    rw [hsplit, parameters]
    simp only [readLi_liField hlen, bind, Except.bind]
    rw [if_neg (by simp), if_neg hout, List.drop_left' rfl, List.take_left' rfl]
    simp only [ih (fun v hv => h v (List.mem_cons_of_mem u hv)) fuel _ hrest]
    rfl

/-- The Connect/Accept Item is walked into once; the units after it are read on. -/
theorem parameters_group {inner outer : List (UInt8 × Bytes)}
    (hlen : (unitFields inner).length ≤ 65535) (hinner : ∀ u ∈ inner, u.2.length ≤ 65535)
    (houter : ∀ u ∈ outer, u.2.length ≤ 65535 ∧ u.1 ≠ pgiConnectAccept) :
    bodyParameters (unitField (pgiConnectAccept, unitFields inner) ++ unitFields outer) =
      .ok (inner ++ outer) := by
  have hsplit : unitField (pgiConnectAccept, unitFields inner) ++ unitFields outer =
      pgiConnectAccept :: (liField (unitFields inner).length ++
        (unitFields inner ++ unitFields outer)) := by
    simp [unitField]
  rw [bodyParameters, hsplit, parameters]
  simp only [readLi_liField hlen, bind, Except.bind]
  rw [if_neg (by simp), if_pos ⟨trivial, by decide⟩, List.drop_left' rfl, List.take_left' rfl]
  have hin : ∀ fuel, (unitFields inner).length < fuel →
      parameters fuel (parameterGroups - 1) 0 (unitFields inner) = .ok inner := fun fuel hfuel =>
    parameters_unitFields (fun u hu => ⟨hinner u hu, Or.inl rfl⟩) fuel 0 hfuel
  have hout : ∀ fuel pos, (unitFields outer).length < fuel →
      parameters fuel parameterGroups pos (unitFields outer) = .ok outer :=
    parameters_unitFields (fun u hu => ⟨(houter u hu).1, Or.inr (houter u hu).2⟩)
  rw [hin _ (by
      simp only [List.length_cons, List.length_append]
      omega), hout _ _ (by
      simp only [List.length_cons, List.length_append]
      omega)]

/-- The parameter units of a CONNECT or ACCEPT after its Connect/Accept Item. -/
def Connect.units (extended : Bool) (c : Connect) : List (UInt8 × Bytes) :=
  [(piSessionRequirement, beBytes 2 c.requirements)] ++
    (c.callingSsel.map (fun s => (piCallingSsel, s))).toList ++
    (c.calledSsel.map (fun s => (piCalledSsel, s))).toList ++
    (if c.userData.isEmpty then []
      else [(if extended then piExtendedUserData else piUserData, c.userData)])

/-- The Connect/Accept Item. -/
def Connect.item (c : Connect) : List (UInt8 × Bytes) :=
  [(piProtocolOptions, [c.protocolOptions]), (piVersionNumber, [c.version])]

theorem writeTsel_units {code : UInt8} {field : Option Bytes}
    (h : Ber.optM field (writeUnit code) = .ok bs) :
    bs = unitFields (field.map (fun s => (code, s))).toList ∧
      ∀ u ∈ (field.map (fun s => (code, s))).toList, u.2.length ≤ 65535 ∧ u.1 = code := by
  cases field with
  | none =>
    rw [Ber.optM, Except.ok.injEq] at h
    exact ⟨h.symm, by simp⟩
  | some value =>
    obtain ⟨hlen, rfl⟩ := writeUnit_ok h
    refine ⟨by simp [unitFields], fun u hu => ?_⟩
    simp only [Option.map_some, Option.toList_some, List.mem_singleton] at hu
    subst hu
    exact ⟨hlen, rfl⟩

theorem writeUserData_units {isConnect : Bool} {userData : Bytes}
    (h : Connect.writeUserData isConnect userData = .ok bs) :
    ∃ extended : Bool, bs = unitFields (if userData.isEmpty then []
        else [(if extended then piExtendedUserData else piUserData, userData)]) ∧
      (¬ userData.isEmpty → userData.length ≤ 65535) := by
  unfold Connect.writeUserData at h
  split at h
  · rename_i hempty
    rw [Except.ok.injEq] at h
    exact ⟨false, by rw [if_pos hempty, ← h]; rfl, fun hne => absurd hempty hne⟩
  · rename_i hempty
    simp only at h
    split at h
    · cases h
    · split at h
      · cases h
      · obtain ⟨hlen, rfl⟩ := writeUnit_ok h
        refine ⟨decide (userData.length > maxUserData), ?_, fun _ => hlen⟩
        rw [if_neg hempty]
        simp [unitFields]

theorem Connect.foldl_units (hreq : c.requirements < 65536) (extended : Bool) :
    (c.item ++ c.units extended).foldl Connect.setParameter {} = c := by
  have hbe : beU16 (beBytes 2 c.requirements) = c.requirements := by
    have h : beNat (beBytes 2 c.requirements) = c.requirements :=
      beNat_beBytes_of_lt (by omega)
    simpa [beU16, beBytes] using h
  obtain ⟨options, version, requirements, calling, called, userData⟩ := c
  simp only at hbe
  cases userData <;> cases extended <;> cases calling <;> cases called <;>
    simp [Connect.item, Connect.units, Connect.setParameter, piProtocolOptions, piVersionNumber,
      piSessionRequirement, piCallingSsel, piCalledSsel, piUserData, piExtendedUserData, hbe]

/-- The body of a CONNECT or ACCEPT is read back. -/
theorem Connect.parse_writeBody {isConnect : Bool} {body : Bytes} (hreq : c.requirements < 65536)
    (h : c.writeBody isConnect = .ok body) :
    ∃ ps, bodyParameters body = .ok ps ∧ ps.foldl Connect.setParameter {} = c := by
  unfold Connect.writeBody at h
  cases hcalling : Ber.optM c.callingSsel (writeUnit piCallingSsel) with
  | error e =>
    rw [hcalling] at h
    cases h
  | ok calling =>
    cases hcalled : Ber.optM c.calledSsel (writeUnit piCalledSsel) with
    | error e =>
      rw [hcalling, hcalled] at h
      cases h
    | ok called =>
      cases hdata : Connect.writeUserData isConnect c.userData with
      | error e =>
        rw [hcalling, hcalled, hdata] at h
        cases h
      | ok data =>
        rw [hcalling, hcalled, hdata] at h
        simp only [bind, Except.bind, Except.ok.injEq] at h
        obtain ⟨hcallingEq, hcallingLen⟩ := writeTsel_units hcalling
        obtain ⟨hcalledEq, hcalledLen⟩ := writeTsel_units hcalled
        obtain ⟨extended, hdataEq, hdataLen⟩ := writeUserData_units hdata
        have hbody : body = unitField (pgiConnectAccept, unitFields c.item) ++
            unitFields (c.units extended) := by
          rw [← h, hcallingEq, hcalledEq, hdataEq]
          simp [unitFields, unitField, Connect.units, Connect.item, liField, beBytes]
        refine ⟨c.item ++ c.units extended, ?_, Connect.foldl_units hreq extended⟩
        rw [hbody]
        refine parameters_group (by simp [unitFields, unitField, Connect.item, liField]) ?_ ?_
        · intro u hu
          simp only [Connect.item, List.mem_cons, List.not_mem_nil, or_false] at hu
          rcases hu with rfl | rfl <;> simp
        · intro u hu
          rw [Connect.units, List.mem_append, List.mem_append, List.mem_append] at hu
          rcases hu with ((hu | hu) | hu) | hu
          · rw [List.mem_singleton] at hu
            subst hu
            have hcode : piSessionRequirement ≠ pgiConnectAccept := by decide
            exact ⟨by simp, hcode⟩
          · obtain ⟨hlen, hcode⟩ := hcallingLen u hu
            exact ⟨hlen, by rw [hcode]; decide⟩
          · obtain ⟨hlen, hcode⟩ := hcalledLen u hu
            exact ⟨hlen, by rw [hcode]; decide⟩
          · split at hu
            · simp at hu
            · rename_i hne
              rw [List.mem_singleton] at hu
              subst hu
              refine ⟨hdataLen hne, ?_⟩
              cases extended <;> simp [piUserData, piExtendedUserData, pgiConnectAccept]

theorem writeSpdu_ok {si : UInt8} {body : Bytes} (h : writeSpdu si body = .ok bs) :
    body.length ≤ 65535 ∧ bs = si :: liField body.length ++ body := by
  unfold writeSpdu at h
  cases hli : writeLi body.length with
  | error e =>
    rw [hli] at h
    cases h
  | ok li =>
    rw [hli] at h
    obtain ⟨hlen, rfl⟩ := writeLi_ok hli
    simp only [bind, Except.bind, Except.ok.injEq] at h
    exact ⟨hlen, h.symm⟩

theorem Spdu.parse_connectAccept (isConnect : Bool) (hreq : c.requirements < 65536)
    (h : (do
      let body ← c.writeBody isConnect
      writeSpdu (if isConnect then siConnect else siAccept) body) = .ok bs) :
    Spdu.parse bs = .ok (if isConnect then .connect c else .accept c) := by
  cases hbody : c.writeBody isConnect with
  | error e =>
    rw [hbody] at h
    cases h
  | ok body =>
    rw [hbody] at h
    obtain ⟨hlen, rfl⟩ := writeSpdu_ok h
    obtain ⟨ps, hps, hfold⟩ := Connect.parse_writeBody hreq hbody
    rw [List.cons_append, Spdu.parse]
    simp only [readLi_liField hlen, bind, Except.bind]
    rw [if_neg (by simp), List.take_of_length_le (Nat.le_refl _)]
    cases isConnect
    · simp [siGiveTokens, siConnect, siAccept, hps, hfold]
    · simp [siGiveTokens, siConnect, siAccept, hps, hfold]

theorem Spdu.parse_connect (hreq : c.requirements < 65536) (h : (Spdu.connect c).write = .ok bs) :
    Spdu.parse bs = .ok (.connect c) :=
  Spdu.parse_connectAccept true hreq h

theorem Spdu.parse_accept (hreq : c.requirements < 65536) (h : (Spdu.accept c).write = .ok bs) :
    Spdu.parse bs = .ok (.accept c) :=
  Spdu.parse_connectAccept false hreq h

end Session

end Iec61850.Osi
