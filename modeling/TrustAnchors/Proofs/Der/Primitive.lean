import TrustAnchors.Der.Primitive
import TrustAnchors.Proofs.Der.Inversion

/-!
# Booleans, octet strings and bit strings

Each of them has one form, which the decoder takes and which it reads whatever follows. A limit on
the octets of an unsigned integer only refuses more of them.
-/

namespace TrustAnchors.Der

open Decoder

def booleanContent (b : Bool) : Octets := [if b then 0xff else 0x00]

theorem takesContent_booleanValue : TakesContent booleanContent id booleanValue := by
  intro n c b c' h
  unfold booleanValue at h
  split at h
  · next hn =>
    obtain ⟨o, c₁, ho, h⟩ := bind_eq_ok_iff.1 h
    have ho := of_octet_eq_ok ho
    split at h
    · obtain ⟨rfl, rfl⟩ := of_pure_eq_ok h
      exact ⟨true, rfl, ho, hn.symm⟩
    · obtain ⟨rfl, rfl⟩ := of_pure_eq_ok h
      exact ⟨false, rfl, ho, hn.symm⟩
    · cases h
  · cases h

theorem reads_booleanValue (b : Bool) : Reads (booleanValue 1) (booleanContent b) b := by
  refine (reads_octet _).bind_nil ?_
  cases b <;> exact reads_pure _

theorem takes_octetString : Takes (tlv .octetString) id octetString := takesContent_take.expect

theorem reads_octetString (o : Octets) : Reads octetString (tlv .octetString o) o :=
  (reads_take o).expect

namespace BitString

theorem takesContent_value : TakesContent content id value := by
  intro n c s c' h
  unfold value at h
  split at h
  · cases h
  · next hn =>
    obtain ⟨unused, c₁, hu, h⟩ := bind_eq_ok_iff.1 h
    obtain ⟨o, c₂, ho, h⟩ := bind_eq_ok_iff.1 h
    obtain ⟨hm, hl⟩ := of_take_eq_ok ho
    split at h
    · next hs =>
      obtain ⟨rfl, rfl⟩ := of_pure_eq_ok h
      have hcontent : content ⟨unused.toNat, o, hs.1, hs.2⟩ = [unused] ++ o := by
        rw [content, UInt8.ofNat_toNat]
        rfl
      refine ⟨_, rfl, ?_, ?_⟩
      · rw [hcontent]
        exact (of_octet_eq_ok hu).trans hm
      · rw [hcontent, List.length_append, List.length_singleton]
        omega
    · cases h

theorem takes_decode : Takes encode id decode := takesContent_value.expect

theorem reads_value (s : BitString) : Reads (value s.content.length) s.content s := by
  have hunused : (UInt8.ofNat s.unused).toNat = s.unused := by
    rw [UInt8.toNat_ofNat', Nat.mod_eq_of_lt (Nat.lt_trans s.unused_lt (by decide))]
  have hcontent : s.content = [UInt8.ofNat s.unused] ++ s.octets := rfl
  rw [value, if_neg (by simp [content]), hcontent]
  refine (reads_octet _).bind ?_
  have hlength : s.content.length - 1 = s.octets.length := rfl
  rw [hcontent] at hlength
  rw [hlength]
  refine (reads_take s.octets).bind_nil ?_
  simp only [hunused]
  rw [dif_pos ⟨s.unused_lt, s.unused_eq_zero⟩]
  exact reads_pure s

theorem reads_encode (s : BitString) : Reads decode s.encode s := s.reads_value.expect

end BitString

theorem unsigned_mono {k l : Nat} (hkl : k ≤ l) {o : Octets} {n : Nat} (h : unsigned k o = .ok n) :
    unsigned l o = .ok n := by
  unfold unsigned at h ⊢
  split <;> grind

theorem moves_of_unsignedValue_eq_ok {k n m : Nat} {c c' : Cursor} (hk : k ≤ 4)
    (h : unsignedValue k n c = .ok (m, c')) :
    c.Moves (unsignedContent m) c' ∧ (unsignedContent m).length = n := by
  unfold unsignedValue at h
  split at h
  · cases h
  · obtain ⟨o, c₁, ho, h⟩ := bind_eq_ok_iff.1 h
    obtain ⟨hu, rfl⟩ := of_ofExcept_eq_ok h
    obtain ⟨rfl, -⟩ := of_unsigned_eq_ok (unsigned_mono hk hu)
    exact of_take_eq_ok ho

end TrustAnchors.Der
