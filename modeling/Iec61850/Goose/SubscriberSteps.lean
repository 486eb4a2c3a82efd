import Iec61850.Goose.Subscriber

/-!
# What a frame does to a subscriber

The paths through `on_frame`, said once: a frame is other traffic, is rejected before the
policies see it, is dropped by one of the two policies, or is judged (`Reception`,
`Treatment`, `Decision`). Every statement about frames is proved along these cases.
-/

namespace Iec61850.Goose

open Theory Ber Link

namespace SubscriberEvent

def isNewState : SubscriberEvent → Bool
  | .newState .. => true
  | _ => false

def isRetransmission : SubscriberEvent → Bool
  | .retransmission .. => true
  | _ => false

def isExpired : SubscriberEvent → Bool
  | .expired => true
  | _ => false

/-- The events of an accepted frame. -/
def isAcceptance (e : SubscriberEvent) : Bool := e.isNewState || e.isRetransmission

/-- Neither an acceptance nor an expiry. -/
def isRemark (e : SubscriberEvent) : Bool := !e.isAcceptance && !e.isExpired

end SubscriberEvent

namespace Subscriber

/-- The events that were raised from one state to another. -/
def raised (s s' : Subscriber) : List SubscriberEvent :=
  s'.events.history.drop s.events.history.length

theorem mem_raised {s t s' : Subscriber} {e : SubscriberEvent} {more : List SubscriberEvent}
    (h : s.events.history <+: t.events.history)
    (h' : s'.events.history = t.events.history ++ e :: more) : e ∈ raised s s' := by
  obtain ⟨es, hes⟩ := h
  rw [raised, h', ← hes, List.append_assoc, List.drop_left]
  simp

/-- The PDU of a frame that gets as far as the policies: it is a frame of this stream, its two
simulation flags agree, and so does its member count. -/
def streamPdu (key : SubscriptionKey) (frame : Bytes) : Option GoosePduView :=
  match Frame.parse frame with
  | .error _ => none
  | .ok fr =>
    if fr.ethertype ≠ ethertypeGoose ∨ fr.dst ≠ key.dst ∨ fr.appid ≠ key.appid then none
    else
      match GoosePduView.parse fr.apdu with
      | .error _ => none
      | .ok pdu =>
        if pdu.gocbRef ≠ key.gocbRef then none
        else if pdu.simulation ≠ fr.simulation then none
        else if !pdu.memberCountMatches then none
        else some pdu

/-- Where a frame ends when the expiry has been checked. -/
inductive Reception (now : Instant) (frame : Bytes) (s : Subscriber) : Subscriber → Prop
  | other (h : streamPdu s.cfg.key frame = none) : Reception now frame s s.other
  | rejected (why : Invalid) (h : streamPdu s.cfg.key frame = none) :
      Reception now frame s (s.reject why)
  | policies (pdu : GoosePduView) (h : streamPdu s.cfg.key frame = some pdu) :
      Reception now frame s (s.onPdu now pdu)

theorem onLink_cases (now : Instant) (frame : Bytes) (s : Subscriber) :
    Reception now frame s (s.onLink now frame) := by
  unfold onLink
  cases hframe : Frame.parse frame with
  | error e =>
    have hnone : streamPdu s.cfg.key frame = none := by simp only [streamPdu, hframe]
    simp only
    split
    · exact .rejected _ hnone
    · exact .other hnone
  | ok fr =>
    simp only
    by_cases haddress :
        fr.ethertype ≠ ethertypeGoose ∨ fr.dst ≠ s.cfg.key.dst ∨ fr.appid ≠ s.cfg.key.appid
    · rw [if_pos haddress]
      exact .other (by simp only [streamPdu, hframe, if_pos haddress])
    rw [if_neg haddress]
    cases hpdu : GoosePduView.parse fr.apdu with
    | error e => exact .rejected _ (by simp only [streamPdu, hframe, if_neg haddress, hpdu])
    | ok pdu =>
      simp only
      by_cases href : pdu.gocbRef ≠ s.cfg.key.gocbRef
      · rw [if_pos href]
        exact .other (by simp only [streamPdu, hframe, if_neg haddress, hpdu, if_pos href])
      rw [if_neg href]
      by_cases hsim : pdu.simulation ≠ fr.simulation
      · rw [if_pos hsim]
        exact .rejected _ (by
          simp only [streamPdu, hframe, if_neg haddress, hpdu, if_neg href, if_pos hsim])
      rw [if_neg hsim]
      by_cases hcount : (!pdu.memberCountMatches) = true
      · rw [if_pos hcount]
        exact .rejected _ (by
          simp only [streamPdu, hframe, if_neg haddress, hpdu, if_neg href, if_neg hsim,
            if_pos hcount])
      rw [if_neg hcount]
      exact .policies pdu (by
        simp only [streamPdu, hframe, if_neg haddress, hpdu, if_neg href, if_neg hsim,
          if_neg hcount])

/-- What the policies make of a frame. -/
inductive Treatment (now : Instant) (pdu : GoosePduView) (s : Subscriber) : Subscriber → Prop
  | simulationDropped (t : Subscriber) (h : s.simulationPolicyAdmits pdu.simulation = (false, t)) :
      Treatment now pdu s t
  | confRevDropped (t u : Subscriber) (h : s.simulationPolicyAdmits pdu.simulation = (true, t))
      (h' : t.confRevAdmits pdu.confRev = (false, u)) : Treatment now pdu s u
  | admitted (t u : Subscriber) (h : s.simulationPolicyAdmits pdu.simulation = (true, t))
      (h' : t.confRevAdmits pdu.confRev = (true, u)) : Treatment now pdu s (u.onAdmitted now pdu)

theorem onPdu_cases (now : Instant) (pdu : GoosePduView) (s : Subscriber) :
    Treatment now pdu s (s.onPdu now pdu) := by
  unfold onPdu
  rcases h : s.simulationPolicyAdmits pdu.simulation with ⟨_ | _, t⟩
  · exact .simulationDropped t h
  · rcases h' : t.confRevAdmits pdu.confRev with ⟨_ | _, u⟩
    · simp only [h']
      exact .confRevDropped t u h h'
    · simp only [h']
      exact .admitted t u h h'

/-- How a frame that both policies admit is judged. -/
inductive Decision (now : Instant) (pdu : GoosePduView) (s : Subscriber) : Subscriber → Prop
  | replay (h : s.verdict pdu = .replay) :
      Decision now pdu s (s.reject (.replay pdu.stNum pdu.sqNum))
  | undecodable (e : Error) (h : s.verdict pdu = .new) : Decision now pdu s (s.reject (.malformed e))
  | new (values : List Value) (h : s.verdict pdu = .new)
      (h' : pdu.allDataOwned s.cfg.limits = .ok values) :
      Decision now pdu s (s.acceptNew now pdu values)
  | retransmission (h : s.verdict pdu = .retransmission) :
      Decision now pdu s (s.acceptRetransmission now pdu)

theorem onAdmitted_cases (now : Instant) (pdu : GoosePduView) (s : Subscriber) :
    Decision now pdu s (s.onAdmitted now pdu) := by
  unfold onAdmitted
  cases hverdict : s.verdict pdu with
  | replay => exact .replay hverdict
  | retransmission => exact .retransmission hverdict
  | new =>
    cases hvalues : pdu.allDataOwned s.cfg.limits with
    | ok values => exact .new values hverdict hvalues
    | error e => exact .undecodable e hverdict

end Subscriber

end Iec61850.Goose
