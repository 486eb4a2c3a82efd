import Iec61850.Ber.Records
import Iec61850.Common.DataRoundTrip
import Iec61850.Sv.Apdu

/-!
# Sampled-value APDUs of one width

The counts and the synchronisation of a stream are encoded in the octets that its widest value
takes. What a decoder sees of such an APDU is what was put into it, with the places of its fields
(`Asdu.view`).
-/

namespace Iec61850.Sv

open Theory Ber

/-! ### Encoding -/

/-- The fewest octets of the fields that are overwritten in place. -/
structure Widths where
  smpCnt : Nat
  smpSynch : Nat
  deriving DecidableEq, Repr

/-- The widths of an encoder that is asked for nothing else. -/
def Widths.least : Widths := ⟨2, 1⟩

/-- The fields of an ASDU, some of them no narrower than asked for. -/
def Asdu.fieldsAt (w : Widths) (a : Asdu) : List (Except Error Bytes) :=
  [ visibleString (Tag.context 0) a.svId
  , optM a.datSet (visibleString (Tag.context 1))
  , unsignedFixedMin (Tag.context 2) a.smpCnt.toNat w.smpCnt
  , unsignedFixedMin (Tag.context 3) a.confRev.toNat 4
  , optM a.refrTm fun t => primitive (Tag.context 4) t.toOctets
  , optM a.smpSynch fun s => unsignedFixedMin (Tag.context 5) s.toU8.toNat w.smpSynch
  , optM a.smpRate fun r => unsignedFixedMin (Tag.context 6) r.toNat 2
  , primitive (Tag.context 7) a.sample
  , optM a.smpMod fun m => unsignedFixedMin (Tag.context 8) m.toNat 1
  , optM a.gmIdentity fun g => primitive (Tag.context 9) g.octets ]

def Asdu.encodeAt (w : Widths) (a : Asdu) : Except Error Bytes :=
  constructed tagAsdu (concatM (a.fieldsAt w))

/-- A `savPdu` with fields no narrower than asked for. -/
def SavPdu.encodeAt (w : Widths) (pdu : SavPdu) : Except Error Bytes :=
  constructed tagSavPdu (concatM
    [ unsignedFixedMin (Tag.context 0) pdu.asdus.length 1
    , constructed (Tag.contextConstructed 2) (concatM (pdu.asdus.map (Asdu.encodeAt w))) ])

theorem SavPdu.encodeAt_least (pdu : SavPdu) : pdu.encodeAt Widths.least = pdu.encode := rfl

/-- The contents of an unsigned field. -/
def fixedContents (minWidth value : Nat) : Bytes := beBytes (unsignedWidth value minWidth) value

/-- The elements of an ASDU. -/
def Asdu.elements (w : Widths) (a : Asdu) : List (Tag × Bytes) :=
  (Tag.context 0, a.svId) ::
  optionally (Tag.context 1) a.datSet (
  (Tag.context 2, fixedContents w.smpCnt a.smpCnt.toNat) ::
  (Tag.context 3, fixedContents 4 a.confRev.toNat) ::
  optionally (Tag.context 4) (a.refrTm.map UtcTime.toOctets) (
  optionally (Tag.context 5) (a.smpSynch.map fun s => fixedContents w.smpSynch s.toU8.toNat) (
  optionally (Tag.context 6) (a.smpRate.map fun r => fixedContents 2 r.toNat) (
  (Tag.context 7, a.sample) ::
  optionally (Tag.context 8) (a.smpMod.map fun m => fixedContents 1 m.toNat) (
  optionally (Tag.context 9) (a.gmIdentity.map GmIdentity.octets) [])))))

/-- Widths that a field can have. -/
structure Widths.Proper (w : Widths) : Prop where
  smpCnt : w.smpCnt ≤ 8
  smpSynch : w.smpSynch ≤ 8

theorem Widths.least_proper : Widths.least.Proper := ⟨by decide, by decide⟩

theorem lt_of_toNat16 (n : UInt16) : n.toNat < 2 ^ 64 := by
  have h := n.toNat_lt
  omega

theorem lt_of_toNat32 (n : UInt32) : n.toNat < 2 ^ 64 := by
  have h := n.toNat_lt
  omega

theorem lt_of_toNat8 (n : UInt8) : n.toNat < 2 ^ 64 := by
  have h := n.toNat_lt
  omega

theorem Asdu.lists_fieldsAt {w : Widths} (hw : w.Proper) (a : Asdu) :
    Lists (concatM (a.fieldsAt w)) (a.elements w) := by
  refine lists_cons (lists_visibleString (by decide)) ?_
  refine lists_optionally_self (fun _ => lists_visibleString (by decide)) ?_
  refine lists_cons (lists_unsignedFixedMin (by decide) (lt_of_toNat16 _) hw.smpCnt) ?_
  refine lists_cons (lists_unsignedFixedMin (by decide) (lt_of_toNat32 _) (by decide)) ?_
  refine lists_optionally (fun _ => lists_primitive (by decide)) ?_
  refine lists_optionally (fun _ =>
    lists_unsignedFixedMin (by decide) (lt_of_toNat8 _) hw.smpSynch) ?_
  refine lists_optionally (fun _ =>
    lists_unsignedFixedMin (by decide) (lt_of_toNat16 _) (by decide)) ?_
  refine lists_cons (lists_primitive (by decide)) ?_
  refine lists_optionally (fun _ =>
    lists_unsignedFixedMin (by decide) (lt_of_toNat8 _) (by decide)) ?_
  exact lists_optionally (fun _ => lists_primitive (by decide)) lists_concatM_nil

/-! ### Decoding -/

/-- The place of the field with a tag. -/
def fieldIn (tag : Tag) (start : Nat) (es : List (Tag × Bytes)) : Option Field :=
  (placeOf tag start es).map fun place => ⟨place.1, place.2⟩

/-- The places of the fields of elements that start at an offset. -/
def placesIn (start : Nat) (es : List (Tag × Bytes)) : AsduOffsets where
  smpCnt := (fieldIn (Tag.context 2) start es).getD ⟨0, 0⟩
  smpSynch := fieldIn (Tag.context 5) start es
  refrTm := (fieldIn (Tag.context 4) start es).map Field.start
  sample := ((fieldIn (Tag.context 7) start es).getD ⟨0, 0⟩).start
  gmIdentity := (fieldIn (Tag.context 9) start es).map Field.start

/-- What a decoder sees of an ASDU whose contents start at an offset. -/
def Asdu.view (w : Widths) (a : Asdu) (start : Nat) : AsduView where
  svId := a.svId
  datSet := a.datSet
  smpCnt := a.smpCnt.toNat
  confRev := a.confRev.toNat
  refrTm := a.refrTm.map UtcTime.onWire
  smpSynch := a.smpSynch.map fun s => SmpSynch.fromU8 s.toU8
  smpRate := a.smpRate.map UInt16.toNat
  sample := a.sample
  smpMod := a.smpMod.map UInt8.toNat
  gmIdentity := a.gmIdentity.map GmIdentity.octets
  offsets := placesIn start (a.elements w)

theorem unsignedLenientU32_fixedContents {value minWidth : Nat} (hvalue : value ≤ u32Max)
    (hmin : minWidth ≤ 8) (offset : Nat) (tag : Tag) :
    (tlvAt offset tag (fixedContents minWidth value)).unsignedLenientU32 = .ok value := by
  have hlt : value < 2 ^ 64 := by
    rw [u32Max] at hvalue
    omega
  obtain ⟨hpos, hle, -, hfits⟩ := unsignedWidth_spec hlt hmin
  exact unsignedLenientU32_fixed hpos hle hfits hvalue offset tag

theorem unsignedUpTo_fixedContents {value minWidth top : Nat} (hvalue : value ≤ top)
    (htop : top ≤ u32Max) (hmin : minWidth ≤ 8) (c : Cursor) (offset : Nat) (tag : Tag) :
    unsignedUpTo c top (tlvAt offset tag (fixedContents minWidth value)) = .ok value := by
  rw [unsignedUpTo, unsignedLenientU32_fixedContents (Nat.le_trans hvalue htop) hmin]
  exact if_pos hvalue

/-- An optional field is read as far as it is there. -/
theorem mapM_field {α β : Type} {tag : Tag} {field : Option α} {contents : α → Bytes}
    {read : Tlv → Except Error β} {result : α → β} {offset : Nat}
    (h : ∀ a, read (tlvAt offset tag (contents a)) = .ok (result a)) :
    ((field.map contents).map (tlvAt offset tag)).mapM read = .ok (field.map result) := by
  cases field with
  | none => rfl
  | some a =>
    simp only [Option.map_some, Option.mapM_some, h]
    rfl

end Iec61850.Sv
