import TrustAnchors.Certificate
import TrustAnchors.Proofs.PublicKey
import TrustAnchors.Proofs.Time

/-!
# Fields of a certificate as they are written

Serial numbers, versions and periods of validity have one form each. An extension that is not
critical has two, as its mark can be written out (`Extension.Written`).
-/

namespace TrustAnchors

open Der Decoder

namespace SerialNumber

theorem takes_decode : Takes encode id decode := by
  intro c s c' h
  obtain ⟨n, c₁, hn, h⟩ := bind_eq_ok_iff.1 h
  obtain ⟨o, c₂, ho, h⟩ := bind_eq_ok_iff.1 h
  obtain ⟨hm, hl⟩ := of_take_eq_ok ho
  split at h
  · split at h
    · obtain ⟨rfl, rfl⟩ := of_pure_eq_ok h
      exact ⟨_, rfl, (of_expect_eq_ok hn).tlv hm hl⟩
    · cases h
  · cases h

theorem reads_encode (s : SerialNumber) : Reads decode s.encode s := by
  refine ReadsBefore.expect ((reads_take s.octets).bind_nil ?_)
  rw [dif_pos s.shortest, dif_pos s.length_le]
  exact reads_pure s

end SerialNumber

namespace Version

theorem takes_decode : Takes encode id decode := by
  intro c v c' h
  obtain ⟨n, c₁, hn, h⟩ := bind_eq_ok_iff.1 h
  obtain ⟨m, c₂, hm, h⟩ := bind_eq_ok_iff.1 h
  have hm := (of_expect_eq_ok hn).tlv (moves_of_unsignedValue_eq_ok (by decide) hm).1
    (moves_of_unsignedValue_eq_ok (by decide) hm).2
  split at h
  · obtain ⟨rfl, rfl⟩ := of_pure_eq_ok h
    exact ⟨v1, rfl, hm⟩
  · obtain ⟨rfl, rfl⟩ := of_pure_eq_ok h
    exact ⟨v2, rfl, hm⟩
  · obtain ⟨rfl, rfl⟩ := of_pure_eq_ok h
    exact ⟨v3, rfl, hm⟩
  · cases h

theorem reads_encode (v : Version) : Reads decode v.encode v := by
  have hvalue : Reads (unsignedValue 1 (unsignedContent v.number).length)
      (unsignedContent v.number) v.number := by
    have hlength : ¬ 1 + 1 < (unsignedContent v.number).length := by cases v <;> decide
    have hunsigned : unsigned 1 (unsignedContent v.number) = .ok v.number := by cases v <;> rfl
    rw [unsignedValue, if_neg hlength]
    exact (reads_take _).bind_nil (reads_ofExcept hunsigned)
  refine ReadsBefore.expect (hvalue.bind_nil ?_)
  cases v <;> exact reads_pure _

end Version

namespace Extension

def IsReadable (e : Extension) : Prop := e.type.IsReadable

instance (e : Extension) : Decidable e.IsReadable :=
  inferInstanceAs (Decidable e.type.IsReadable)

theorem yields_decode : Yields IsReadable decode := by
  refine Yields.sequence ?_
  exact ObjectIdentifier.yields_decode.bind fun _ h =>
    yields_bind fun _ => yields_bind fun _ => yields_pure h

theorem takes_decodeCritical :
    Takes (fun x : Option Bool => x.elim [] encodeBoolean) (·.getD false) decodeCritical := by
  intro c b c' h
  obtain ⟨t, c₁, ht, h⟩ := bind_eq_ok_iff.1 h
  obtain ⟨rfl, -⟩ := of_peekTag_eq_ok ht
  split at h
  · obtain ⟨b, rfl, hm⟩ := takesContent_booleanValue.expect h
    exact ⟨some b, rfl, hm⟩
  · obtain ⟨rfl, rfl⟩ := of_pure_eq_ok h
    exact ⟨none, rfl, .refl c⟩

/-- An octet string follows. -/
theorem reads_decodeCritical (x : Option Bool) :
    ReadsBefore (fun r => ∃ s, r = Tag.octetString.octet :: s) decodeCritical
      (x.elim [] encodeBoolean) (x.getD false) := by
  cases x with
  | none => exact (reads_peekTag .octetString).bind_nil (reads_pure false)
  | some b =>
    refine (reads_peekTag .boolean).nil_bind ?_ fun r _ => tlv_append _ _ r
    exact (reads_booleanValue b).before.expect

/-- An extension, and whether its mark is written out. -/
structure Written where
  type : ObjectIdentifier
  critical : Option Bool
  value : Octets

namespace Written

variable (w : Written)

def extension : Extension := ⟨w.type, w.critical.getD false, w.value⟩

def octets : Octets :=
  tlv .sequence (w.type.encode ++ w.critical.elim [] encodeBoolean ++ tlv .octetString w.value)

theorem takes_decode : Takes octets extension decode := by
  refine Takes.sequence ?_
  intro c e c' h
  obtain ⟨type, c₁, ht, h⟩ := bind_eq_ok_iff.1 h
  obtain ⟨critical, c₂, hc, h⟩ := bind_eq_ok_iff.1 h
  obtain ⟨value, c₃, hv, h⟩ := bind_eq_ok_iff.1 h
  obtain ⟨rfl, rfl⟩ := of_pure_eq_ok h
  obtain ⟨x, rfl, hx⟩ := takes_decodeCritical hc
  exact ⟨⟨type, x, value⟩, rfl,
    ((ObjectIdentifier.takes_decode.moves ht).trans hx).trans (takes_octetString.moves hv)⟩

theorem reads_octets (h : w.extension.IsReadable) : Reads decode w.octets w.extension := by
  refine ReadsToEnd.sequence ?_
  rw [List.append_assoc]
  refine (ObjectIdentifier.IsReadable.reads_encode h).bind ?_
  refine (reads_decodeCritical w.critical).bind ?_ fun r _ => tlv_append _ _ r
  exact (reads_octetString w.value).before.bind_nil (reads_pure _)

theorem length_encode_le : w.extension.encode.length ≤ w.octets.length := by
  refine length_tlv_mono (Octets.length_append_mono (Octets.length_append_mono ?_ ?_) ?_)
  · exact Nat.le_refl _
  · obtain ⟨type, _ | _ | _, value⟩ := w
    · exact Nat.le_refl _
    · exact Nat.zero_le _
    · exact Nat.le_refl _
  · exact Nat.le_refl _

end Written

/-- The form that the encoder writes. -/
def written (e : Extension) : Written := ⟨e.type, if e.critical then some true else none, e.value⟩

@[simp] theorem extension_written (e : Extension) : e.written.extension = e := by
  obtain ⟨type, _ | _, value⟩ := e <;> rfl

@[simp] theorem octets_written (e : Extension) : e.written.octets = e.encode := by
  obtain ⟨type, _ | _, value⟩ := e <;> rfl

end Extension

namespace Validity

theorem takes_decode : Takes encode id decode := by
  refine Takes.sequence ?_
  intro c v c' h
  obtain ⟨notBefore, c₁, hb, h⟩ := bind_eq_ok_iff.1 h
  obtain ⟨notAfter, c₂, ha, h⟩ := bind_eq_ok_iff.1 h
  obtain ⟨rfl, rfl⟩ := of_pure_eq_ok h
  exact ⟨_, rfl, (Time.takes_decode.moves hb).trans (Time.takes_decode.moves ha)⟩

theorem reads_encode (v : Validity) : Reads decode v.encode v := by
  refine ReadsToEnd.sequence (v.notBefore.reads_encode.bind ?_)
  exact v.notAfter.reads_encode.before.bind_nil (reads_pure v)

end Validity

end TrustAnchors
