import TrustAnchors.Proofs.Der.Yields
import TrustAnchors.Proofs.Name.Inversion

/-!
# Names that are read from their encoding

The decoder of identifiers refuses some of those that can be written from text. A name is readable
if all its types are accepted. Every name that was decoded is readable (`Name.yields_decode`), every
written form of a readable name is decoded (`Name.Written.reads_octets`), and the encoding of a name
is decoded only if the name is readable (`Name.decode_encode_eq_ok_iff`).
-/

namespace TrustAnchors

open Der Decoder

namespace ObjectIdentifier

/-- The decoder accepts the content octets. -/
structure IsReadable (oid : ObjectIdentifier) : Prop where
  length_le : oid.octets.length ≤ maxOctets
  wellFormed : isWellFormed oid.octets = true

instance (oid : ObjectIdentifier) : Decidable oid.IsReadable :=
  decidable_of_iff (oid.octets.length ≤ maxOctets ∧ isWellFormed oid.octets = true)
    ⟨fun h => ⟨h.1, h.2⟩, fun h => ⟨h.1, h.2⟩⟩

theorem yields_decode : Yields IsReadable decode := by
  refine yields_bind fun n => ?_
  rw [value]
  split
  · exact yields_fail _
  · next hn =>
    have hlength : Yields (·.length = n) (Decoder.take n) := fun _ _ _ h => (of_take_eq_ok h).2
    refine hlength.bind fun o ho => ?_
    split
    · next hw => exact yields_pure ⟨ho ▸ Nat.not_lt.1 hn, hw⟩
    · exact yields_fail _

theorem IsReadable.reads_value {oid : ObjectIdentifier} (h : oid.IsReadable) :
    Reads (value oid.octets.length) oid.octets oid := by
  rw [value, if_neg (Nat.not_lt.2 h.length_le)]
  refine (reads_take oid.octets).bind_nil ?_
  rw [if_pos h.wellFormed]
  exact reads_pure oid

theorem IsReadable.reads_encode {oid : ObjectIdentifier} (h : oid.IsReadable) :
    Reads decode oid.encode oid :=
  h.reads_value.expect

end ObjectIdentifier

namespace Attribute

def IsReadable (a : Attribute) : Prop := a.type.IsReadable

instance (a : Attribute) : Decidable a.IsReadable :=
  inferInstanceAs (Decidable a.type.IsReadable)

theorem yields_decode : Yields IsReadable decode := by
  refine Yields.sequence ?_
  exact ObjectIdentifier.yields_decode.bind fun _ h => yields_bind fun _ => yields_pure h

theorem IsReadable.reads_encode {a : Attribute} (h : a.IsReadable) : Reads decode a.encode a := by
  refine ReadsToEnd.sequence ?_
  refine (ObjectIdentifier.IsReadable.reads_encode h).bind ?_
  exact a.value.reads_encode.before.bind_nil (reads_pure a)

end Attribute

namespace RelativeName

def IsReadable (n : RelativeName) : Prop := ∀ a ∈ n.attributes, a.IsReadable

instance (n : RelativeName) : Decidable n.IsReadable :=
  inferInstanceAs (Decidable (∀ a ∈ n.attributes, a.IsReadable))

theorem yields_decode : Yields IsReadable decode := by
  refine yields_bind fun n => Yields.nested ?_ n
  refine Attribute.yields_decode.many.bind fun as has => yields_ofOption fun m hm a ha => ?_
  exact has a ((perm_of_ofList? hm).mem_iff.1 ha)

namespace Written

theorem reads_octets (w : Written) (h : w.relative.IsReadable) :
    Reads decode w.octets w.relative := by
  have has : ∀ a ∈ w.attributes, a.IsReadable := fun a ha =>
    h a ((perm_of_ofList? w.ofList?_eq).mem_iff.2 ha)
  refine ReadsBefore.expect (ReadsToEnd.nested ?_)
  refine ReadsBefore.bind_nil ?_ (reads_ofOption w.ofList?_eq)
  exact readsToEnd_many_id (fun _ => tlv_ne_nil _ _) fun a ha => (has a ha).reads_encode

end Written

/-- The form that the encoder writes. -/
def written (n : RelativeName) : Written := ⟨n.attributes, n, n.ofList?_attributes⟩

end RelativeName

namespace Name

def IsReadable (n : Name) : Prop := ∀ r ∈ n.relatives, r.IsReadable

instance (n : Name) : Decidable n.IsReadable :=
  inferInstanceAs (Decidable (∀ r ∈ n.relatives, r.IsReadable))

theorem yields_decode : Yields IsReadable decode := by
  refine Yields.sequence ?_
  exact RelativeName.yields_decode.many.bind fun _ h => yields_pure h

theorem Written.reads_octets (w : Written) (h : w.name.IsReadable) :
    Reads decode w.octets w.name := by
  have hw : ∀ r ∈ w.relatives, r.relative.IsReadable := fun r hr =>
    h r.relative (List.mem_map_of_mem hr)
  refine ReadsToEnd.sequence (ReadsBefore.bind_nil ?_ (reads_pure _))
  exact readsToEnd_many (fun _ => tlv_ne_nil _ _) fun r hr => r.reads_octets (hw r hr)

/-- The form that the encoder writes. -/
def written (n : Name) : Written := ⟨n.relatives.map RelativeName.written⟩

@[simp] theorem name_written (n : Name) : n.written.name = n := by
  simp [written, Written.name, Function.comp_def, RelativeName.written]

@[simp] theorem octets_written (n : Name) : n.written.octets = n.encode := by
  rw [written, Written.octets, List.flatMap_map]
  rfl

theorem IsReadable.reads_encode {n : Name} (h : n.IsReadable) : Reads decode n.encode n := by
  have hreads := n.written.reads_octets (by rwa [name_written])
  rwa [name_written, octets_written] at hreads

/-- A form with the octets of the encoding lists the attributes of the name. -/
theorem mem_attributes_of_octets_eq {w : Written} {n : Name} (h : w.octets = n.encode)
    (hl : n.encode.length ≤ maxLength) {r : RelativeName} (hr : r ∈ n.relatives) {a : Attribute}
    (ha : a ∈ r.attributes) : ∃ v ∈ w.relatives, a ∈ v.attributes := by
  obtain ⟨-, hrelatives⟩ := tlv_injective h.symm
  have hl := Nat.le_trans (length_le_tlv _ _) hl
  have hmap := map_eq_of_flatMap_tlv_eq hrelatives hl
  obtain ⟨v, hv, hcontent⟩ := List.mem_map.1 (hmap ▸ List.mem_map_of_mem hr)
  have hl := Nat.le_trans (Octets.length_le_length_flatMap (f := RelativeName.encode) hr) hl
  have hl := Nat.le_trans (length_le_tlv _ _) hl
  have hmap := map_eq_of_flatMap_tlv_eq hcontent.symm hl
  obtain ⟨b, hb, hcontent⟩ := List.mem_map.1 (hmap ▸ List.mem_map_of_mem ha)
  have hl := Nat.le_trans (Octets.length_le_length_flatMap (f := Attribute.encode) ha) hl
  have hla := Nat.le_trans (length_le_tlv _ _) hl
  have hlb := congrArg List.length hcontent
  rw [List.length_append] at hla hlb
  rw [List.length_append] at hlb
  have he := Attribute.eq_of_content_eq (by omega) (by omega) hcontent
  exact ⟨v, hv, he ▸ hb⟩

/-- The encoding of a name is decoded exactly if the name is readable. -/
theorem decode_encode_eq_ok_iff {n m : Name} (hl : n.encode.length ≤ maxLength) :
    decode.decode n.encode = .ok m ↔ n.IsReadable ∧ n = m := by
  constructor
  · intro h
    have hm := yields_decode.of_decode_eq_ok h
    obtain ⟨-, w, rfl, hw⟩ := Written.takes_decode.of_decode_eq_ok h
    have hn : n.IsReadable := by
      intro r hr a ha
      obtain ⟨v, hv, ha⟩ := mem_attributes_of_octets_eq hw hl hr ha
      refine hm v.relative (List.mem_map_of_mem hv) a ?_
      exact (RelativeName.perm_of_ofList? v.ofList?_eq).mem_iff.2 ha
    have hread := hn.reads_encode.before.decode hl
    exact ⟨hn, Except.ok.inj (hread.symm.trans h)⟩
  · rintro ⟨hn, rfl⟩
    exact hn.reads_encode.before.decode hl

end Name

end TrustAnchors
