import TrustAnchors.GeneralName
import TrustAnchors.Proofs.Name.Inversion

/-!
# General names as they are written

Only a name inside a general name can be written in several forms.
-/

namespace TrustAnchors

open Der Decoder

theorem DirectoryString.takes_decode : Takes encode id decode := by
  intro c s c' h
  obtain ⟨t, c₁, ht, h⟩ := bind_eq_ok_iff.1 h
  obtain ⟨rfl, -⟩ := of_choice_eq_ok ht
  split at h
  · obtain ⟨s, rfl, hm⟩ := CharacterString.takes_decode.map printable h
    exact ⟨.printable s, rfl, hm⟩
  · obtain ⟨s, rfl, hm⟩ := CharacterString.takes_decode.map teletex h
    exact ⟨.teletex s, rfl, hm⟩
  · obtain ⟨n, c₁, hn, h⟩ := bind_eq_ok_iff.1 h
    obtain ⟨cs, rfl, hm, hl⟩ := takesContent_utf8Value.map utf8 h
    exact ⟨.utf8 cs, rfl, (of_expect_eq_ok hn).tlv hm hl⟩
  · cases h

namespace GeneralName

inductive Written where
  | exact (n : GeneralName)
  | directory (w : Name.Written)

namespace Written

def name : Written → GeneralName
  | exact n => n
  | directory w => .directory w.name

def content : Written → Octets
  | exact n => n.content
  | directory w => w.octets

def octets (w : Written) : Octets := tlv w.name.tag w.content

def Sorted : Written → Prop
  | exact _ => True
  | directory w => w.Sorted

theorem length_octets (w : Written) : w.name.encode.length = w.octets.length := by
  refine length_tlv_congr ?_
  cases w with
  | exact n => rfl
  | directory w => exact w.length_octets

theorem encode_eq_iff (w : Written) (h : w.octets.length ≤ maxLength) :
    w.name.encode = w.octets ↔ w.Sorted := by
  rw [GeneralName.encode, octets, tlv_inj]
  cases w with
  | exact n => exact iff_of_true rfl trivial
  | directory w => exact w.encode_eq_iff (Nat.le_trans (length_le_tlv _ _) h)

end Written

theorem takes_other : Takes
    (fun p : ObjectIdentifier × Element => p.1.encode ++ explicitly 0 p.2.encode)
    (fun p => other p.1 p.2)
    (do return other (← ObjectIdentifier.decode) (← Decoder.explicit 0 Element.decode)) := by
  intro c a c' h
  obtain ⟨type, c₁, ht, h⟩ := bind_eq_ok_iff.1 h
  obtain ⟨value, c₂, hv, h⟩ := bind_eq_ok_iff.1 h
  obtain ⟨rfl, rfl⟩ := of_pure_eq_ok h
  exact ⟨(type, value), rfl,
    (ObjectIdentifier.takes_decode.moves ht).trans (Element.takes_decode.explicit.moves hv)⟩

theorem takes_ediParty : Takes
    (fun p : Option DirectoryString × DirectoryString =>
      p.1.elim [] (explicitly 0 ·.encode) ++ explicitly 1 p.2.encode)
    (fun p => ediParty p.1 p.2)
    (do
      let assigner ← Decoder.explicit? 0 DirectoryString.decode
      return ediParty assigner (← Decoder.explicit 1 DirectoryString.decode)) := by
  intro c a c' h
  obtain ⟨assigner, c₁, ha, h⟩ := bind_eq_ok_iff.1 h
  obtain ⟨party, c₂, hp, h⟩ := bind_eq_ok_iff.1 h
  obtain ⟨rfl, rfl⟩ := of_pure_eq_ok h
  obtain ⟨es, x, hes, rfl, hm⟩ := of_explicit?_eq_ok DirectoryString.takes_decode ha
  rw [eq_nil_of_passed_zero hes] at hm
  refine ⟨(x.map id, party), rfl, ?_⟩
  rw [Option.map_id]
  exact hm.trans (DirectoryString.takes_decode.explicit.moves hp)

/-- The content of a form, and the context number that tells the form. -/
theorem of_form?_eq_ok {constructed : Bool} {number n : Nat} {d : Nat → Decoder GeneralName}
    {c c' : Cursor} {a : GeneralName} (hd : form? constructed number = some d)
    (h : d n c = .ok (a, c')) :
    ∃ w : Written, w.name = a ∧ a.tag = .context constructed number ∧ c.Moves w.content c' ∧
      w.content.length = n := by
  unfold form? at hd
  split at hd
  · cases hd
    obtain ⟨p, rfl, hm, hn⟩ := takes_other.nested h
    exact ⟨.exact _, rfl, rfl, hm, hn⟩
  · cases hd
    obtain ⟨s, rfl, hm, hn⟩ := CharacterString.takesContent_value.map rfc822 h
    exact ⟨.exact _, rfl, rfl, hm, hn⟩
  · cases hd
    obtain ⟨s, rfl, hm, hn⟩ := CharacterString.takesContent_value.map dns h
    exact ⟨.exact _, rfl, rfl, hm, hn⟩
  · cases hd
    obtain ⟨w, rfl, hm, hn⟩ := Name.Written.takes_decode.nested.map directory h
    exact ⟨.directory w, rfl, rfl, hm, hn⟩
  · cases hd
    obtain ⟨p, rfl, hm, hn⟩ := takes_ediParty.nested h
    exact ⟨.exact _, rfl, rfl, hm, hn⟩
  · cases hd
    obtain ⟨s, rfl, hm, hn⟩ := CharacterString.takesContent_value.map uri h
    exact ⟨.exact _, rfl, rfl, hm, hn⟩
  · cases hd
    obtain ⟨o, rfl, hm, hn⟩ := takesContent_take.map ip h
    exact ⟨.exact _, rfl, rfl, hm, hn⟩
  · cases hd
    obtain ⟨type, rfl, hm, hn⟩ := ObjectIdentifier.takesContent_value.map registeredId h
    exact ⟨.exact _, rfl, rfl, hm, hn⟩
  · cases hd

theorem takes_decode : Takes Written.octets Written.name decode := by
  intro c a c' h
  obtain ⟨t, c₁, ht, h⟩ := bind_eq_ok_iff.1 h
  obtain ⟨rfl, r, hr⟩ := of_choice_eq_ok ht
  split at h
  · next constructed number =>
    cases hd : form? constructed number.val with
    | none =>
      rw [hd] at h
      cases h
    | some d =>
      rw [hd] at h
      obtain ⟨⟨u, n⟩, c₁, hu, h⟩ := bind_eq_ok_iff.1 h
      obtain ⟨w, rfl, htag, hm, hn⟩ := of_form?_eq_ok hd h
      have hu := (of_header_eq_ok hu).1
      obtain rfl := hu.tag_eq hr
      have hnumber : Fin.ofNat 31 number.val = number := Fin.ext (Nat.mod_eq_of_lt number.isLt)
      rw [Tag.context, hnumber] at htag
      refine ⟨w, rfl, ?_⟩
      rw [Written.octets, htag]
      exact hu.tlv hm hn
  · cases h

end GeneralName

end TrustAnchors
