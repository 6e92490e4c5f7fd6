import TrustAnchors.Proofs.Der.Primitive
import TrustAnchors.Proofs.Name.Encoding
import TrustAnchors.PublicKey

/-!
# Public keys as they are written

A public key has one form, with the parameters of its algorithm as they are, so that a key that was
decoded encodes to the octets it came from (`PublicKey.decode_eq_ok_iff`).
-/

namespace TrustAnchors

open Der Decoder

namespace Der.Element

theorem takes_decode? : Takes (·.elim [] encode) id decode? := by
  intro c x c' h
  obtain ⟨t, c₁, ht, h⟩ := bind_eq_ok_iff.1 h
  obtain ⟨rfl, -⟩ := of_peekTag_eq_ok ht
  cases t with
  | none =>
    obtain ⟨rfl, rfl⟩ := of_pure_eq_ok h
    exact ⟨none, rfl, .refl c⟩
  | some t =>
    obtain ⟨e, rfl, hm⟩ := takes_decode.map some h
    exact ⟨some e, rfl, hm⟩

theorem readsToEnd_decode? (x : Option Element) : ReadsToEnd decode? (x.elim [] encode) x := by
  cases x with
  | none => exact reads_peekTag_nil.bind_nil (reads_pure none)
  | some e =>
    refine (reads_peekTag e.tag).nil_bind ?_ fun r _ => tlv_append _ _ r
    exact e.reads_encode.before.bind_nil (reads_pure (some e))

end Der.Element

namespace AlgorithmIdentifier

def IsReadable (a : AlgorithmIdentifier) : Prop := a.algorithm.IsReadable

instance (a : AlgorithmIdentifier) : Decidable a.IsReadable :=
  inferInstanceAs (Decidable a.algorithm.IsReadable)

theorem takes_decode : Takes encode id decode := by
  refine Takes.sequence ?_
  intro c a c' h
  obtain ⟨algorithm, c₁, ha, h⟩ := bind_eq_ok_iff.1 h
  obtain ⟨parameters, c₂, hp, h⟩ := bind_eq_ok_iff.1 h
  obtain ⟨rfl, rfl⟩ := of_pure_eq_ok h
  exact ⟨_, rfl, (ObjectIdentifier.takes_decode.moves ha).trans (Element.takes_decode?.moves hp)⟩

theorem yields_decode : Yields IsReadable decode := by
  refine Yields.sequence ?_
  exact ObjectIdentifier.yields_decode.bind fun _ h => yields_bind fun _ => yields_pure h

theorem IsReadable.reads_encode {a : AlgorithmIdentifier} (h : a.IsReadable) :
    Reads decode a.encode a := by
  refine ReadsToEnd.sequence ?_
  refine (ObjectIdentifier.IsReadable.reads_encode h).bind ?_
  exact (Element.readsToEnd_decode? a.parameters).bind_nil (reads_pure a)

end AlgorithmIdentifier

namespace PublicKey

def IsReadable (k : PublicKey) : Prop := k.algorithm.IsReadable

instance (k : PublicKey) : Decidable k.IsReadable :=
  inferInstanceAs (Decidable k.algorithm.IsReadable)

theorem takes_decode : Takes encode id decode := by
  refine Takes.sequence ?_
  intro c k c' h
  obtain ⟨algorithm, c₁, ha, h⟩ := bind_eq_ok_iff.1 h
  obtain ⟨key, c₂, hk, h⟩ := bind_eq_ok_iff.1 h
  obtain ⟨rfl, rfl⟩ := of_pure_eq_ok h
  exact ⟨_, rfl, (AlgorithmIdentifier.takes_decode.moves ha).trans (BitString.takes_decode.moves hk)⟩

theorem yields_decode : Yields IsReadable decode := by
  refine Yields.sequence ?_
  exact AlgorithmIdentifier.yields_decode.bind fun _ h => yields_bind fun _ => yields_pure h

theorem IsReadable.reads_encode {k : PublicKey} (h : k.IsReadable) : Reads decode k.encode k := by
  refine ReadsToEnd.sequence ?_
  refine (AlgorithmIdentifier.IsReadable.reads_encode h).bind ?_
  exact k.key.reads_encode.before.bind_nil (reads_pure k)

theorem decode_eq_ok_iff {o : Octets} {k : PublicKey} :
    decode.decode o = .ok k ↔ k.encode = o ∧ k.IsReadable ∧ o.length ≤ maxLength := by
  constructor
  · intro h
    obtain ⟨hl, k, rfl, ho⟩ := takes_decode.of_decode_eq_ok h
    exact ⟨ho, yields_decode.of_decode_eq_ok h, hl⟩
  · rintro ⟨rfl, hk, hl⟩
    exact hk.reads_encode.before.decode hl

end PublicKey

end TrustAnchors
