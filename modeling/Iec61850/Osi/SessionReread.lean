import Iec61850.Osi.RoundTrip
import Iec61850.Ber.Reread

/-!
# Every session SPDU is read back

`Spdu::write` and `Spdu::parse` of `proto/osi/session.rs` over all SPDUs. CONNECT and ACCEPT are
read back in `RoundTrip`; here are the five SPDUs that carry user data alone or behind a
reason, the two fixed ones and data transfer. `Spdu::Other` is for an SPDU the profile does not
use: it comes back exactly if no case of the parser takes its SI first.
-/

namespace Iec61850.Osi.Session

open Theory

/-! ### The SPDUs that come back -/

/-- The SIs the parser has a case for. -/
def ownSis : List UInt8 :=
  [siConnect, siAccept, siRefuse, siFinish, siDisconnect, siAbort, siAbortAccept]

/-- An `Other` that no case of the parser takes first. An SI of one in front of an empty body is
GIVE TOKENS. -/
def Spdu.Proper : Spdu → Prop
  | .other si body => si ∉ ownSis ∧ ¬ (si = siGiveTokens ∧ body = [])
  | _ => True

instance : DecidablePred Spdu.Proper := fun s => by
  cases s <;> unfold Spdu.Proper <;> infer_instance

/-- The session user requirements are a `u16`. -/
def Spdu.InRange : Spdu → Prop
  | .connect c => c.requirements < 65536
  | .accept c => c.requirements < 65536
  | _ => True

instance : DecidablePred Spdu.InRange := fun s => by
  cases s <;> unfold Spdu.InRange <;> infer_instance

/-! ### One framed body -/

/-- The parameter units that carry user data: none for no data. -/
def dataUnits (userData : Bytes) : List (UInt8 × Bytes) :=
  if userData.isEmpty then [] else [(piUserData, userData)]

/-- The parameter unit that carries a reason. -/
def reasonUnits (reason : Option UInt8) : List (UInt8 × Bytes) :=
  (reason.map (fun r => (piReasonCode, [r]))).toList

/-- What is written in front of a body is taken off, and the SI chooses the case. -/
theorem Spdu.parse_framed {si : UInt8} {body : Bytes} (hlen : body.length ≤ 65535)
    (htokens : ¬ (si = siGiveTokens ∧ body.length = 0)) :
    Spdu.parse (si :: liField body.length ++ body) =
      (if si = siConnect ∨ si = siAccept then do
          let ps ← bodyParameters body
          let c := ps.foldl Connect.setParameter {}
          .ok (if si = siConnect then .connect c else .accept c)
        else if si = siRefuse then do
          let ps ← bodyParameters body
          .ok (.refuse (reasonOf ps) (userDataOf ps))
        else if si = siFinish ∨ si = siDisconnect ∨ si = siAbort then do
          let ps ← bodyParameters body
          let userData := userDataOf ps
          .ok (if si = siFinish then .finish userData
            else if si = siDisconnect then .disconnect userData else .abort userData)
        else if si = siAbortAccept then .ok .abortAccept
        else .ok (.other si body)) := by
  rw [List.cons_append, Spdu.parse]
  simp only [readLi_liField hlen, bind, Except.bind]
  rw [if_neg (by simp), List.take_of_length_le (Nat.le_refl _), if_neg htokens]

theorem bodyParameters_unitFields {us : List (UInt8 × Bytes)}
    (h : ∀ u ∈ us, u.2.length ≤ 65535 ∧ u.1 ≠ pgiConnectAccept) :
    bodyParameters (unitFields us) = .ok us := by
  apply parameters_unitFields
  · intro u hu
    obtain ⟨hlen, hcode⟩ := h u hu
    exact ⟨hlen, Or.inr hcode⟩
  · exact Nat.lt_succ_self _

theorem writeUserData_ok {userData bs : Bytes} (h : writeUserData userData = .ok bs) :
    bs = unitFields (dataUnits userData) ∧
      ∀ u ∈ dataUnits userData, u.2.length ≤ 65535 ∧ u.1 ≠ pgiConnectAccept := by
  unfold writeUserData at h
  unfold dataUnits
  split at h
  · rename_i hempty
    rw [if_pos hempty, ← Except.ok.inj h]
    exact ⟨rfl, by simp⟩
  · rename_i hempty
    rw [if_neg hempty]
    split at h
    · cases h
    · rename_i hmost
      obtain ⟨li, hli, h⟩ := bind_ok h
      obtain ⟨hlen, rfl⟩ := writeLi_ok hli
      refine ⟨?_, ?_⟩
      · rw [← Except.ok.inj h]
        simp [unitFields, unitField]
      · intro u hu
        rw [List.mem_singleton] at hu
        subst hu
        exact ⟨hlen, by simp [piUserData, pgiConnectAccept]⟩

theorem userDataOf_units (reason : Option UInt8) (userData : Bytes) :
    userDataOf (reasonUnits reason ++ dataUnits userData) = userData := by
  unfold userDataOf dataUnits reasonUnits
  cases reason <;> cases userData <;>
    simp [piReasonCode, piUserData, piExtendedUserData]

theorem reasonOf_units (reason : Option UInt8) (userData : Bytes) :
    reasonOf (reasonUnits reason ++ dataUnits userData) = reason := by
  unfold reasonOf dataUnits reasonUnits
  cases reason <;> cases userData <;> simp [piReasonCode, piUserData]

/-! ### Case by case -/

/-- FINISH, DISCONNECT and ABORT: user data and nothing else. -/
theorem Spdu.parse_userData {si : UInt8} {userData bs : Bytes}
    (hsi : si = siFinish ∨ si = siDisconnect ∨ si = siAbort)
    (h : (do
      let ud ← writeUserData userData
      writeSpdu si ud) = .ok bs) :
    Spdu.parse bs = .ok (if si = siFinish then .finish userData
      else if si = siDisconnect then .disconnect userData else .abort userData) := by
  obtain ⟨ud, hud, h⟩ := bind_ok h
  obtain ⟨hlen, rfl⟩ := writeSpdu_ok h
  obtain ⟨rfl, hunits⟩ := writeUserData_ok hud
  have hread := bodyParameters_unitFields hunits
  have hdata : userDataOf (dataUnits userData) = userData := userDataOf_units none userData
  have hother : ¬ (si = siGiveTokens ∧ (unitFields (dataUnits userData)).length = 0) := by
    rintro ⟨rfl, -⟩
    revert hsi
    decide
  rw [Spdu.parse_framed hlen hother]
  rcases hsi with rfl | rfl | rfl
  · simp [siFinish, siConnect, siAccept, siRefuse, bind, Except.bind, hread, hdata]
  · simp [siDisconnect, siFinish, siConnect, siAccept, siRefuse, bind, Except.bind, hread, hdata]
  · simp [siAbort, siDisconnect, siFinish, siConnect, siAccept, siRefuse, bind, Except.bind, hread,
      hdata]

/-- The body of a REFUSE is its parameter units. -/
theorem Spdu.refuse_units {reason : Option UInt8} {userData bs : Bytes}
    (h : (Spdu.refuse reason userData).write = .ok bs) :
    writeSpdu siRefuse (unitFields (reasonUnits reason ++ dataUnits userData)) = .ok bs ∧
      ∀ u ∈ dataUnits userData, u.2.length ≤ 65535 ∧ u.1 ≠ pgiConnectAccept := by
  obtain ⟨ud, hud, h⟩ := bind_ok h
  obtain ⟨rfl, hunits⟩ := writeUserData_ok hud
  refine ⟨?_, hunits⟩
  rw [← h]
  cases reason <;> simp [reasonUnits, unitFields, unitField, liField]

theorem Spdu.parse_refuse {reason : Option UInt8} {userData bs : Bytes}
    (h : (Spdu.refuse reason userData).write = .ok bs) :
    Spdu.parse bs = .ok (.refuse reason userData) := by
  obtain ⟨h, hunits⟩ := Spdu.refuse_units h
  obtain ⟨hlen, rfl⟩ := writeSpdu_ok h
  have hread : bodyParameters (unitFields (reasonUnits reason ++ dataUnits userData)) =
      .ok (reasonUnits reason ++ dataUnits userData) := by
    apply bodyParameters_unitFields
    intro u hu
    rw [List.mem_append] at hu
    rcases hu with hu | hu
    · cases reason with
      | none => simp [reasonUnits] at hu
      | some r =>
        simp only [reasonUnits, Option.map_some, Option.toList_some, List.mem_singleton] at hu
        subst hu
        exact ⟨by simp, by simp [piReasonCode, pgiConnectAccept]⟩
    · exact hunits u hu
  have hsi : siRefuse ≠ siGiveTokens := by decide
  rw [Spdu.parse_framed hlen (fun hother => hsi hother.1), hread]
  simp [siRefuse, siConnect, siAccept, bind, Except.bind, reasonOf_units, userDataOf_units]

theorem Spdu.parse_other {si : UInt8} {body bs : Bytes}
    (hproper : (Spdu.other si body).Proper) (h : (Spdu.other si body).write = .ok bs) :
    Spdu.parse bs = .ok (.other si body) := by
  obtain ⟨hlen, rfl⟩ := writeSpdu_ok h
  obtain ⟨hown, htokens⟩ := hproper
  simp only [ownSis, List.mem_cons, List.not_mem_nil, or_false, not_or] at hown
  obtain ⟨h1, h2, h3, h4, h5, h6, h7⟩ := hown
  rw [Spdu.parse_framed hlen (by rwa [List.length_eq_zero_iff])]
  simp [h1, h2, h3, h4, h5, h6, h7]

theorem Spdu.parse_dataTransfer (payload : Bytes) :
    Spdu.parse (siGiveTokens :: 0 :: siDataTransfer :: 0 :: payload) =
      .ok (.dataTransfer payload) := by
  simp [Spdu.parse, readLi, siGiveTokens, siDataTransfer, bind, Except.bind]

theorem Spdu.proper_of_parse {bs : Bytes} {s : Spdu} (h : Spdu.parse bs = .ok s) : s.Proper := by
  cases s with
  | other si body =>
    cases bs with
    | nil => cases h
    | cons first rest =>
      unfold Spdu.parse at h
      obtain ⟨⟨li, bodyAt, rest⟩, -, h⟩ := bind_ok h
      dsimp only at h
      split at h
      · cases h
      · rename_i hlong
        split at h
        · -- GIVE TOKENS: data transfer or an error
          split at h
          · cases h
          · split at h
            · cases h
            · obtain ⟨⟨_, _, _⟩, -, h⟩ := bind_ok h
              dsimp only at h
              split at h <;> cases h
        · rename_i htokens
          split at h
          · obtain ⟨ps, -, h⟩ := bind_ok h
            split at h <;> cases h
          · rename_i h12
            split at h
            · obtain ⟨ps, -, h⟩ := bind_ok h
              cases h
            · rename_i h3
              split at h
              · obtain ⟨ps, -, h⟩ := bind_ok h
                split at h
                · cases h
                · split at h <;> cases h
              · rename_i h456
                split at h
                · cases h
                · rename_i h7
                  obtain ⟨rfl, rfl⟩ := Spdu.other.inj (Except.ok.inj h)
                  refine ⟨?_, ?_⟩
                  · simp only [not_or] at h12 h456
                    simp [ownSis, h12, h3, h456, h7]
                  · rintro ⟨hsi, hnil⟩
                    apply htokens
                    refine ⟨hsi, ?_⟩
                    have := congrArg List.length hnil
                    simp only [List.length_take, List.length_nil] at this
                    omega
  | _ => trivial

/-- What the writer accepts is parsed to what was written, exactly if it is not an `Other` that
carries the SI of an SPDU the parser knows. -/
theorem Spdu.spdu_rereads_iff {s : Spdu} {bs : Bytes} (hrange : s.InRange)
    (h : s.write = .ok bs) : Spdu.parse bs = .ok s ↔ s.Proper := by
  constructor
  · intro hparse
    exact Spdu.proper_of_parse hparse
  · intro hproper
    cases s with
    | connect c => exact Spdu.parse_connect hrange h
    | accept c => exact Spdu.parse_accept hrange h
    | refuse reason userData => exact Spdu.parse_refuse h
    | finish userData => exact Spdu.parse_userData (Or.inl rfl) h
    | disconnect userData => exact Spdu.parse_userData (Or.inr (Or.inl rfl)) h
    | abort userData => exact Spdu.parse_userData (Or.inr (Or.inr rfl)) h
    | abortAccept =>
      rw [← Except.ok.inj h]
      rfl
    | dataTransfer payload =>
      rw [← Except.ok.inj h]
      exact Spdu.parse_dataTransfer payload
    | other si body => exact Spdu.parse_other hproper h

/-- A CONNECT with a selector and user data comes back. -/
theorem Spdu.spdu_rereads_iff_connect :
    ∃ bs, Spdu.write (.connect (.new (some [0, 1]) none [7, 8, 9])) = .ok bs ∧
      Spdu.parse bs = .ok (.connect (.new (some [0, 1]) none [7, 8, 9])) :=
  ⟨_, rfl, (Spdu.spdu_rereads_iff (by decide) rfl).2 trivial⟩

/-- An SPDU with the SI of a FINISH, written as one the profile does not use, is read as a
FINISH. -/
theorem Spdu.other_read_as_finish :
    ∃ (s : Spdu) (bs : Bytes), s.write = .ok bs ∧ Spdu.parse bs ≠ .ok s :=
  ⟨.other siFinish [], [siFinish, 0], rfl, by decide⟩

end Iec61850.Osi.Session
