import TrustAnchors.Proofs.Certificate.Written
import TrustAnchors.Proofs.Pem

/-!
# Certificates that are read from a stream

In a stream nothing can be passed over, and nobody looks at what follows the certificate. A stream
that does not break yields a certificate exactly if it starts with a plain form of it
(`Certificate.decodeStream_eq_ok_iff`). So does the text that is written for some octets
(`Certificate.ofPem_encode`).
-/

namespace TrustAnchors

open Der Decoder

namespace Certificate

/-- The octets are a form of the certificate, and the decoder has nothing to pass over in them. -/
def IsPlain (o : Octets) (c : Certificate) : Prop :=
  ∃ w : Written, w.octets = o ∧ w.certificate = c ∧ w.body.PassesNothing ∧ c.IsReadable ∧
    o.length ≤ maxLength

namespace IsPlain

variable {o p r s : Octets} {b c : Certificate}

theorem reads (h : IsPlain o c) : Reads decode o c := by
  obtain ⟨w, rfl, rfl, hp, hr, -⟩ := h
  exact w.reads_octets hp hr

theorem length_le (h : IsPlain o c) : o.length ≤ maxLength := by
  obtain ⟨-, -, -, -, -, hl⟩ := h
  exact hl

theorem decode_eq_ok (h : IsPlain o c) : decode.decode o = .ok c := h.reads.before.decode h.length_le

theorem decodeStream_append (h : IsPlain o c) (r : Octets) :
    decode.decodeStream ⟨o ++ r, none⟩ = .ok c :=
  h.reads.decodeStream h.length_le rfl

theorem unique (ho : IsPlain o b) (hp : IsPlain p c) (h : o ++ r = p ++ s) : b = c ∧ o = p ∧ r = s :=
  ho.reads.unique hp.reads ho.length_le hp.length_le h

end IsPlain

/-- The encoding of what was decoded is plain. -/
theorem isPlain_encode {o : Octets} {c : Certificate} (h : decode.decode o = .ok c) :
    IsPlain c.encode c := by
  obtain ⟨hle, -⟩ := decode_encode h
  obtain ⟨hl, -⟩ := Written.takesFrom_decode.takes.of_decode_eq_ok h
  exact ⟨c.written, c.octets_written, c.certificate_written, c.body.passesNothing_written,
    yields_decode.of_decode_eq_ok h, Nat.le_trans hle hl⟩

theorem exists_isPlain_of_decodeStream {s : Pem.Stream} {c : Certificate}
    (h : decode.decodeStream s = .ok c) : ∃ o r, s.octets = o ++ r ∧ IsPlain o c := by
  obtain ⟨⟨a, c'⟩, ha, h⟩ := Except.bind_eq_ok_iff.1 h
  cases h
  obtain ⟨w, hw, hfrom, hm⟩ := Written.takesFrom_decode ha
  have hl := offset_le_of_sequence_eq_ok ha
  rw [hm.eq_advance] at hl
  refine ⟨w.octets, c'.rest, hm.rest_eq, w, rfl, hw, hfrom nofun, yields_decode ha, ?_⟩
  simpa [Cursor.advance] using hl

theorem decodeStream_eq_ok_iff {d : Octets} {c : Certificate} :
    decode.decodeStream ⟨d, none⟩ = .ok c ↔ ∃ o r, d = o ++ r ∧ IsPlain o c := by
  constructor
  · exact exists_isPlain_of_decodeStream
  · rintro ⟨o, r, rfl, h⟩
    exact h.decodeStream_append r

/-- The label of certificates in text. -/
def label : Octets := Ascii.ofString "CERTIFICATE"

/-- The text for some octets is read as the stream of them. -/
theorem ofPem_encode {lineEnd d : Octets} (hend : Pem.IsLineEnd lineEnd) (hd : d ≠ []) :
    ofPem (Pem.encode lineEnd label d) = decode.decodeStream ⟨d, none⟩ := by
  have hlabel : ∀ b ∈ label, Pem.isLabelOctet b = true := by decide +kernel
  have hdecode : Pem.decodeLabelled "CERTIFICATE" (Pem.encode lineEnd label d) =
      .ok ⟨d, none⟩ := by
    rw [Pem.decodeLabelled, Pem.decode_encode hend hlabel hd, Except.ok_bind]
    exact if_pos rfl
  rw [ofPem, Decoder.decodePem, hdecode]
  rfl

end Certificate

end TrustAnchors
