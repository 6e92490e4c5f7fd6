import TrustAnchors.Proofs.Der.Inversion
import TrustAnchors.Proofs.Name.RelativeNames
import TrustAnchors.Proofs.Octets

/-!
# Names as they are written

The decoder of a relative name takes its attributes in any order, so that a name has several written
forms (`Name.Written`). They are equally long, and the one that the encoder writes is the one whose
attributes are in order (`Name.Written.encode_eq_iff`).
-/

namespace TrustAnchors

open Der Decoder

namespace ObjectIdentifier

theorem takesContent_value : TakesContent octets id value := by
  intro n c oid c' h
  unfold value at h
  split at h
  · cases h
  · obtain ⟨o, c₁, ho, h⟩ := bind_eq_ok_iff.1 h
    obtain ⟨hm, hn⟩ := of_take_eq_ok ho
    split at h
    · obtain ⟨rfl, rfl⟩ := of_pure_eq_ok h
      exact ⟨_, rfl, hm, hn⟩
    · cases h

theorem takes_decode : Takes encode id decode := takesContent_value.expect

end ObjectIdentifier

namespace Attribute

theorem takes_decode : Takes encode id decode := by
  refine Takes.sequence ?_
  intro c a c' h
  obtain ⟨type, c₁, ht, h⟩ := bind_eq_ok_iff.1 h
  obtain ⟨value, c₂, hv, h⟩ := bind_eq_ok_iff.1 h
  obtain ⟨rfl, rfl⟩ := of_pure_eq_ok h
  exact ⟨_, rfl, (ObjectIdentifier.takes_decode.moves ht).trans (Element.takes_decode.moves hv)⟩

/-- Encodings of attributes can be told apart when they stand in a row. -/
theorem map_encode_eq_of_flatMap_eq {as bs : List Attribute}
    (h : as.flatMap encode = bs.flatMap encode) (hl : (as.flatMap encode).length ≤ maxLength) :
    as.map encode = bs.map encode := by
  have hmap := congrArg (List.map (tlv .sequence)) (map_eq_of_flatMap_tlv_eq h hl)
  rwa [List.map_map, List.map_map] at hmap

theorem ascending_iff_pairwise_map {as : List Attribute} :
    Ascending as ↔ (as.map encode).Pairwise (· < ·) :=
  List.pairwise_map.symm

end Attribute

namespace RelativeName

theorem perm_of_ofList? {as : List Attribute} {n : RelativeName} (h : ofList? as = some n) :
    n.attributes.Perm as := by
  refine (List.perm_ext_iff_of_nodup n.ascending.nodup (nodup_of_foldlM_insert? h).1).2 fun a => ?_
  exact (mem_foldlM_insert? h a).trans (or_iff_right nofun)

/-- A relative name, and its attributes in the order in which they are listed. -/
structure Written where
  attributes : List Attribute
  relative : RelativeName
  ofList?_eq : ofList? attributes = some relative

namespace Written

variable (w : Written)

def octets : Octets := tlv .set (w.attributes.flatMap Attribute.encode)

def Sorted : Prop := Attribute.Ascending w.attributes

theorem takes_decode : Takes octets relative decode := by
  refine TakesContent.expect (Takes.nested ?_)
  intro c n c' h
  obtain ⟨as, c₁, has, h⟩ := bind_eq_ok_iff.1 h
  obtain ⟨hn, rfl⟩ := of_ofOption_eq_ok h
  exact ⟨⟨as, n, hn⟩, rfl, Attribute.takes_decode.many_id.moves has⟩

theorem length_octets : w.relative.encode.length = w.octets.length :=
  length_tlv_congr ((perm_of_ofList? w.ofList?_eq).flatMap_right _).length_eq

theorem encode_eq_iff (h : w.octets.length ≤ maxLength) :
    w.relative.encode = w.octets ↔ w.Sorted := by
  constructor
  · -- Equal contents list the same encodings in the same order.
    intro he
    obtain ⟨-, hcontent⟩ := tlv_injective he
    have hl := Nat.le_trans (length_le_tlv _ _) h
    have hmap := Attribute.map_encode_eq_of_flatMap_eq hcontent (hcontent ▸ hl)
    rw [Sorted, Attribute.ascending_iff_pairwise_map, ← hmap]
    exact Attribute.ascending_iff_pairwise_map.1 w.relative.ascending
  · intro hs
    have hperm := perm_of_ofList? w.ofList?_eq
    have hattributes := w.relative.ascending.eq_of_mem_iff hs fun a => hperm.mem_iff
    rw [RelativeName.encode, hattributes, octets]

end Written

end RelativeName

namespace Name

structure Written where
  relatives : List RelativeName.Written

namespace Written

variable (w : Written)

def name : Name := ⟨w.relatives.map (·.relative)⟩

def octets : Octets := tlv .sequence (w.relatives.flatMap (·.octets))

/-- The attributes of each relative name are in order. -/
def Sorted : Prop := ∀ r ∈ w.relatives, r.Sorted

theorem takes_decode : Takes octets name decode := by
  refine Takes.sequence ?_
  intro c n c' h
  obtain ⟨ns, c₁, hns, h⟩ := bind_eq_ok_iff.1 h
  obtain ⟨rfl, rfl⟩ := of_pure_eq_ok h
  obtain ⟨ws, rfl, hm⟩ := RelativeName.Written.takes_decode.many hns
  exact ⟨⟨ws⟩, rfl, hm⟩

theorem encode_name :
    w.name.encode = tlv .sequence (w.relatives.flatMap (·.relative.encode)) := by
  rw [Name.encode, name, List.flatMap_map]

theorem length_octets : w.name.encode.length = w.octets.length := by
  rw [encode_name]
  refine length_tlv_congr ?_
  rw [List.length_flatMap, List.length_flatMap]
  exact congrArg List.sum (List.map_congr_left fun r _ => r.length_octets)

theorem encode_eq_iff (h : w.octets.length ≤ maxLength) :
    w.name.encode = w.octets ↔ w.Sorted := by
  have hle : ∀ r ∈ w.relatives, r.octets.length ≤ maxLength := fun r hr =>
    Nat.le_trans (Octets.length_le_length_flatMap hr) (Nat.le_trans (length_le_tlv _ _) h)
  rw [encode_name, octets, tlv_inj, Octets.flatMap_eq_flatMap_iff_of_length_le
    fun r _ => Nat.le_of_eq r.length_octets]
  exact forall₂_congr fun r hr => r.encode_eq_iff (hle r hr)

end Written

end Name

end TrustAnchors
