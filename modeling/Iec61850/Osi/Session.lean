import Iec61850.Osi.Transport

/-!
# The OSI session layer

`proto/osi/session.rs`: the SPDUs of ISO 8327 in the kernel subset of the profile. The walk over
the parameter units calls a closure in the source; here it returns the units in order, and
the closure is folded over them. A decode error abandons the SPDU either way.
-/

namespace Iec61850.Osi.Session

open Theory

def siDataTransfer : UInt8 := 1
def siGiveTokens : UInt8 := 1
def siFinish : UInt8 := 9
def siDisconnect : UInt8 := 10
def siRefuse : UInt8 := 12
def siConnect : UInt8 := 13
def siAccept : UInt8 := 14
def siAbort : UInt8 := 25
def siAbortAccept : UInt8 := 26
def pgiConnectAccept : UInt8 := 5
def piProtocolOptions : UInt8 := 19
def piSessionRequirement : UInt8 := 20
def piVersionNumber : UInt8 := 22
def piReasonCode : UInt8 := 50
def piCallingSsel : UInt8 := 51
def piCalledSsel : UInt8 := 52
def piUserData : UInt8 := 193
def piExtendedUserData : UInt8 := 194
def version2 : UInt8 := 2
def requirementDuplex : Nat := 2
def maxUserData : Nat := 512
def maxExtendedUserData : Nat := 10240

/-- The parameters of a CONNECT or ACCEPT SPDU (`session::Connect`). -/
structure Connect where
  protocolOptions : UInt8 := 0
  version : UInt8 := 0
  requirements : Nat := 0
  callingSsel : Option Bytes := none
  calledSsel : Option Bytes := none
  userData : Bytes := []
  deriving DecidableEq, Repr

/-- `Connect::new`: version 2, duplex, no extended concatenation. -/
def Connect.new (callingSsel calledSsel : Option Bytes) (userData : Bytes) : Connect :=
  { protocolOptions := 0, version := version2, requirements := requirementDuplex,
    callingSsel, calledSsel, userData }

/-- A decoded SPDU (`session::Spdu`). -/
inductive Spdu where
  | connect (c : Connect)
  | accept (c : Connect)
  | refuse (reason : Option UInt8) (userData : Bytes)
  | finish (userData : Bytes)
  | disconnect (userData : Bytes)
  | abort (userData : Bytes)
  | abortAccept
  | dataTransfer (payload : Bytes)
  | other (si : UInt8) (body : Bytes)
  deriving DecidableEq, Repr

/-- `read_li`: a length indicator at offset `pos`; one octet, or `FF` and two more. -/
def readLi (pos : Nat) : Bytes → Except Error (Nat × Nat × Bytes)
  | [] => .error (.decode .truncated pos)
  | first :: rest =>
    if first ≠ 0xFF then .ok (first.toNat, pos + 1, rest)
    else
      match rest with
      | hi :: lo :: rest => .ok (beNat [hi, lo], pos + 3, rest)
      | _ => .error (.decode .truncated (pos + 1))

def writeLi (len : Nat) : Except Error Bytes :=
  if len < 255 then .ok [UInt8.ofNat len]
  else if len > 65535 then .error (.encode "session parameter exceeds 65535 octets")
  else .ok (0xFF :: beBytes 2 len)

/-- `for_each_parameter`: the parameter units of an SPDU body, in order. The Connect/Accept
Item is walked into while `groups` allows it; `pos` is the offset inside the body. -/
def parameters : Nat → Nat → Nat → Bytes → Except Error (List (UInt8 × Bytes))
  | 0, _, _, _ => .ok []
  | _ + 1, _, _, [] => .ok []
  | fuel + 1, groups, pos, code :: rest => do
      let (len, valueAt, rest) ← readLi (pos + 1) rest
      if rest.length < len then .error (.decode .truncated valueAt)
      else
        let value := rest.take len
        let here ←
          if code = pgiConnectAccept ∧ groups > 0 then parameters fuel (groups - 1) 0 value
          else .ok [(code, value)]
        let after ← parameters fuel groups (valueAt + len) (rest.drop len)
        .ok (here ++ after)

/-- How many levels of parameter group are walked into: one. -/
def parameterGroups : Nat := 1

/-- The parameter units of a whole body. -/
def bodyParameters (body : Bytes) : Except Error (List (UInt8 × Bytes)) :=
  parameters (body.length + 1) parameterGroups 0 body

/-- `be_u16`: lenient about the width. -/
def beU16 : Bytes → Nat
  | a :: b :: _ => beNat [a, b]
  | [a] => a.toNat
  | [] => 0

/-- The closure of the CONNECT and ACCEPT case of `Spdu::parse`. -/
def Connect.setParameter (c : Connect) : UInt8 × Bytes → Connect
  | (code, value) =>
    if code = piProtocolOptions then { c with protocolOptions := value.headD 0 }
    else if code = piVersionNumber then { c with version := value.headD version2 }
    else if code = piSessionRequirement then { c with requirements := beU16 value }
    else if code = piCallingSsel then { c with callingSsel := some value }
    else if code = piCalledSsel then { c with calledSsel := some value }
    else if code = piUserData ∨ code = piExtendedUserData then { c with userData := value }
    else c

/-- The last user-data parameter, or nothing. -/
def userDataOf (ps : List (UInt8 × Bytes)) : Bytes :=
  ps.foldl (fun acc p => if p.1 = piUserData ∨ p.1 = piExtendedUserData then p.2 else acc) []

/-- The closure of the REFUSE case: the reason code of the last such parameter. -/
def reasonOf (ps : List (UInt8 × Bytes)) : Option UInt8 :=
  ps.foldl (fun acc p => if p.1 = piReasonCode then p.2.head? else acc) none

/-- `Spdu::parse`: one SPDU, and for data transfer the GIVE TOKENS in front of it. -/
def Spdu.parse : Bytes → Except Error Spdu
  | [] => .error (.decode .truncated 0)
  | si :: rest => do
      let (li, bodyAt, rest) ← readLi 1 rest
      if rest.length < li then .error (.decode .truncated bodyAt)
      else
        let body := rest.take li
        let after := rest.drop li
        if si = siGiveTokens ∧ li = 0 then
          match after with
          | [] => .error (.decode .missingField bodyAt)
          | next :: after =>
            if next ≠ siDataTransfer then .error (.decode .unexpectedTag (bodyAt + li))
            else do
              let (dtLi, dtAt, after) ← readLi 1 after
              if after.length < dtLi then .error (.decode .truncated dtAt)
              else .ok (.dataTransfer (after.drop dtLi))
        else if si = siConnect ∨ si = siAccept then do
          let ps ← bodyParameters body
          let c := ps.foldl Connect.setParameter {}
          .ok (if si = siConnect then .connect c else .accept c)
        else if si = siRefuse then do
          let ps ← bodyParameters body
          .ok (.refuse (reasonOf ps) (userDataOf ps))
        else if si = siFinish ∨ si = siDisconnect ∨ si = siAbort then do
          let ps ← bodyParameters body
          let userData := userDataOf ps
          .ok (if si = siFinish then .finish userData
            else if si = siDisconnect then .disconnect userData else .abort userData)
        else if si = siAbortAccept then .ok .abortAccept
        else .ok (.other si body)

/-- `Spdu::write_user_data`. -/
def writeUserData (userData : Bytes) : Except Error Bytes :=
  if userData.isEmpty then .ok []
  else if userData.length > maxUserData then
    .error (.encode "session user data above 512 octets needs Extended User Data")
  else do
    let li ← writeLi userData.length
    .ok (piUserData :: li ++ userData)

/-- One parameter unit. -/
def writeUnit (code : UInt8) (value : Bytes) : Except Error Bytes := do
  let li ← writeLi value.length
  .ok (code :: li ++ value)

/-- The user-data parameter of a CONNECT or ACCEPT: only a CONNECT may extend it. -/
def Connect.writeUserData (isConnect : Bool) (userData : Bytes) : Except Error Bytes :=
  if userData.isEmpty then .ok []
  else
    let extended := decide (userData.length > maxUserData)
    if extended ∧ ¬ isConnect then
      .error (.encode "an ACCEPT SPDU carries at most 512 octets of user data")
    else if userData.length > maxExtendedUserData then
      .error (.encode "session user data above 10240 octets needs a CONNECT DATA OVERFLOW SPDU")
    else writeUnit (if extended then piExtendedUserData else piUserData) userData

/-- The body of a CONNECT or ACCEPT. -/
def Connect.writeBody (isConnect : Bool) (c : Connect) : Except Error Bytes := do
  let calling ← Ber.optM c.callingSsel (writeUnit piCallingSsel)
  let called ← Ber.optM c.calledSsel (writeUnit piCalledSsel)
  let userData ← Connect.writeUserData isConnect c.userData
  .ok ([pgiConnectAccept, 6, piProtocolOptions, 1, c.protocolOptions, piVersionNumber, 1, c.version,
    piSessionRequirement, 2] ++ beBytes 2 c.requirements ++ calling ++ called ++ userData)

/-- SI, length indicator and body. -/
def writeSpdu (si : UInt8) (body : Bytes) : Except Error Bytes := do
  let li ← writeLi body.length
  .ok (si :: li ++ body)

def Spdu.write : Spdu → Except Error Bytes
  | .dataTransfer payload => .ok (siGiveTokens :: 0 :: siDataTransfer :: 0 :: payload)
  | .connect c => do
      let body ← c.writeBody true
      writeSpdu siConnect body
  | .accept c => do
      let body ← c.writeBody false
      writeSpdu siAccept body
  | .refuse reason userData => do
      let ud ← writeUserData userData
      writeSpdu siRefuse ((match reason with
        | some r => [piReasonCode, 1, r]
        | none => []) ++ ud)
  | .finish userData => do
      let ud ← writeUserData userData
      writeSpdu siFinish ud
  | .disconnect userData => do
      let ud ← writeUserData userData
      writeSpdu siDisconnect ud
  | .abort userData => do
      let ud ← writeUserData userData
      writeSpdu siAbort ud
  | .abortAccept => .ok [siAbortAccept, 0]
  | .other si body => writeSpdu si body

end Iec61850.Osi.Session
