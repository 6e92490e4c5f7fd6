import TrustAnchors.Name.Basic
import TrustAnchors.Proofs.Der.Injectivity

/-!
# Relative names as sets

A relative name is determined by its members (`RelativeName.ext_mem`). A list of attributes with
short types becomes the set of them (`exists_ofList?`), unless it has one of them twice
(`ofList?_eq_none`).
-/

namespace TrustAnchors

open Der

namespace Attribute

/-- The types of attributes that come from text are far below the limit. -/
def HasShortType (a : Attribute) : Prop := a.type.octets.length < 0x80

theorem HasShortType.length_encode_le {a : Attribute} (h : a.HasShortType) :
    a.type.encode.length ≤ maxLength := by
  unfold HasShortType at h
  simp only [ObjectIdentifier.encode, tlv, List.length_append, List.length_cons,
    length_lengthOctets, if_pos h]
  exact Nat.le_trans (show 1 + 1 + a.type.octets.length ≤ 0x82 by omega) (by decide)

theorem eq_of_content_eq {a b : Attribute} (ha : a.type.encode.length ≤ maxLength)
    (hb : b.type.encode.length ≤ maxLength)
    (h : a.type.encode ++ a.value.encode = b.type.encode ++ b.value.encode) : a = b := by
  obtain ⟨_, htype, hvalue⟩ := tlv_append_injective ha hb h
  have hvalue := Element.encode_injective hvalue
  obtain ⟨⟨t⟩, v⟩ := a
  obtain ⟨⟨u⟩, w⟩ := b
  cases htype
  cases hvalue
  rfl

theorem encode_injective {a b : Attribute} (ha : a.HasShortType) (hb : b.HasShortType)
    (h : a.encode = b.encode) : a = b := by
  obtain ⟨_, hcontent⟩ := tlv_injective h
  exact eq_of_content_eq ha.length_encode_le hb.length_encode_le hcontent

theorem insert?_eq_none_iff {a : Attribute} {as : List Attribute} (h : Ascending as) :
    insert? a as = none ↔ ∃ b ∈ as, a.encode = b.encode := by
  induction as with
  | nil => simp [insert?]
  | cons c r ih =>
    obtain ⟨hc, hr⟩ := List.pairwise_cons.1 h
    rw [insert?]
    split
    · next hlt =>
      refine ⟨fun hn => by contradiction, ?_⟩
      rintro ⟨b, hb, he⟩
      rcases List.mem_cons.1 hb with rfl | hb
      · exact absurd (he ▸ hlt) (List.lt_irrefl _)
      · exact absurd (List.lt_trans hlt (hc b hb)) (he ▸ List.lt_irrefl _)
    · split
      · next he => exact ⟨fun _ => ⟨c, List.mem_cons_self, he⟩, fun _ => rfl⟩
      · next hne =>
        have hmap : ((c :: ·) <$> insert? a r : Option _) = none ↔ insert? a r = none :=
          Option.map_eq_none_iff
        rw [hmap, ih hr]
        simp [hne]

theorem insert?_of_forall_lt {a : Attribute} {as : List Attribute}
    (h : ∀ b ∈ as, b.encode < a.encode) : insert? a as = some (as ++ [a]) := by
  induction as with
  | nil => rfl
  | cons b as ih =>
    obtain ⟨hb, has⟩ := List.forall_mem_cons.1 h
    have hnlt : ¬ a.encode < b.encode := fun hlt => List.lt_irrefl _ (List.lt_trans hlt hb)
    have hne : a.encode ≠ b.encode := fun he => List.lt_irrefl _ (he ▸ hb)
    rw [insert?, if_neg hnlt, if_neg hne, ih has]
    rfl

theorem Ascending.nodup {as : List Attribute} (h : Ascending as) : as.Nodup := by
  refine List.Pairwise.imp ?_ h
  rintro a _ hlt rfl
  exact List.lt_irrefl _ hlt

theorem Ascending.eq_of_mem_iff {as bs : List Attribute} (ha : Ascending as) (hb : Ascending bs)
    (h : ∀ a, a ∈ as ↔ a ∈ bs) : as = bs := by
  have hperm := (List.perm_ext_iff_of_nodup ha.nodup hb.nodup).2 h
  refine hperm.eq_of_pairwise (fun a b _ _ hab hba => ?_) ha hb
  exact absurd (List.lt_trans hab hba) (List.lt_irrefl _)

end Attribute

namespace RelativeName

open Attribute

theorem ext_mem {m n : RelativeName} (h : ∀ a, a ∈ m.attributes ↔ a ∈ n.attributes) : m = n := by
  obtain ⟨as, ha⟩ := m
  obtain ⟨bs, hb⟩ := n
  cases ha.eq_of_mem_iff hb h
  rfl

theorem attributes_of_insert? {n m : RelativeName} {a : Attribute} (h : n.insert? a = some m) :
    a.insert? n.attributes = some m.attributes := by
  rw [RelativeName.insert?] at h
  split at h
  · next as has =>
    rw [← Option.some.inj h]
    exact has
  · contradiction

theorem insert?_eq_none_iff {n : RelativeName} {a : Attribute} :
    n.insert? a = none ↔ a.insert? n.attributes = none := by
  rw [RelativeName.insert?]
  split <;> simp_all

theorem mem_foldlM_insert? {n m : RelativeName} {as : List Attribute}
    (h : as.foldlM insert? n = some m) (b : Attribute) :
    b ∈ m.attributes ↔ b ∈ n.attributes ∨ b ∈ as := by
  induction as generalizing n with
  | nil =>
    cases h
    simp
  | cons a as ih =>
    rw [List.foldlM_cons] at h
    obtain ⟨k, hk, h⟩ := Option.bind_eq_some_iff.1 h
    rw [ih h, mem_insert? (attributes_of_insert? hk), List.mem_cons]
    grind

theorem exists_foldlM_insert? {n : RelativeName} {as : List Attribute}
    (hn : ∀ a ∈ n.attributes, a.HasShortType) (has : ∀ a ∈ as, a.HasShortType)
    (hd : as.Nodup) (hdisjoint : ∀ a ∈ as, a ∉ n.attributes) :
    ∃ m, as.foldlM insert? n = some m := by
  induction as generalizing n with
  | nil => exact ⟨n, rfl⟩
  | cons a as ih =>
    obtain ⟨ha, hd⟩ := List.nodup_cons.1 hd
    cases hk : n.insert? a with
    | none =>
      obtain ⟨b, hb, he⟩ := (Attribute.insert?_eq_none_iff n.ascending).1 (insert?_eq_none_iff.1 hk)
      have hab := Attribute.encode_injective (has a List.mem_cons_self) (hn b hb) he
      exact absurd (hab ▸ hb) (hdisjoint a List.mem_cons_self)
    | some k =>
      have hmem := fun b => mem_insert? (b := b) (attributes_of_insert? hk)
      obtain ⟨m, hm⟩ := ih (n := k)
        (fun b hb => ((hmem b).1 hb).elim (fun h => h ▸ has a List.mem_cons_self) (hn b))
        (fun b hb => has b (List.mem_cons_of_mem a hb)) hd
        (fun b hb hbk => ((hmem b).1 hbk).elim (fun h => ha (h ▸ hb))
          (hdisjoint b (List.mem_cons_of_mem a hb)))
      refine ⟨m, ?_⟩
      rw [List.foldlM_cons, hk]
      exact hm

/-- A list of different attributes becomes the set of them. -/
theorem exists_ofList? {as : List Attribute} (hs : ∀ a ∈ as, a.HasShortType) (hd : as.Nodup) :
    ∃ n, ofList? as = some n ∧ ∀ a, a ∈ n.attributes ↔ a ∈ as := by
  obtain ⟨n, hn⟩ := exists_foldlM_insert? (n := empty) nofun hs hd fun _ _ => nofun
  exact ⟨n, hn, fun a => (mem_foldlM_insert? hn a).trans (or_iff_right nofun)⟩

theorem foldlM_insert?_of_ascending {n : RelativeName} {as : List Attribute}
    (h : Ascending (n.attributes ++ as)) :
    ∃ m, as.foldlM insert? n = some m ∧ m.attributes = n.attributes ++ as := by
  induction as generalizing n with
  | nil => exact ⟨n, rfl, (List.append_nil _).symm⟩
  | cons a as ih =>
    have hlast : ∀ b ∈ n.attributes, b.encode < a.encode := fun b hb =>
      (List.pairwise_append.1 h).2.2 b hb a List.mem_cons_self
    cases hk : n.insert? a with
    | none =>
      have hnone := insert?_eq_none_iff.1 hk
      rw [insert?_of_forall_lt hlast] at hnone
      cases hnone
    | some k =>
      have hattributes := (attributes_of_insert? hk).symm.trans (insert?_of_forall_lt hlast)
      have hattributes := Option.some.inj hattributes
      obtain ⟨m, hm, hma⟩ := ih (n := k) (by rwa [hattributes, List.append_assoc])
      refine ⟨m, ?_, ?_⟩
      · rw [List.foldlM_cons, hk]
        exact hm
      · rw [hma, hattributes, List.append_assoc]
        rfl

/-- What is in order stays as it is. -/
theorem ofList?_attributes (n : RelativeName) : ofList? n.attributes = some n := by
  obtain ⟨m, hm, hattributes⟩ := foldlM_insert?_of_ascending (n := empty) n.ascending
  have he : m = n := ext_mem fun a => by rw [hattributes]; rfl
  rw [ofList?, hm, he]

theorem nodup_of_foldlM_insert? {n m : RelativeName} {as : List Attribute}
    (h : as.foldlM insert? n = some m) : as.Nodup ∧ ∀ a ∈ as, a ∉ n.attributes := by
  induction as generalizing n with
  | nil => exact ⟨List.nodup_nil, nofun⟩
  | cons a as ih =>
    rw [List.foldlM_cons] at h
    obtain ⟨k, hk, h⟩ := Option.bind_eq_some_iff.1 h
    obtain ⟨hd, hdisjoint⟩ := ih h
    have hmem := fun b => mem_insert? (b := b) (attributes_of_insert? hk)
    refine ⟨List.nodup_cons.2 ⟨fun ha => hdisjoint a ha ((hmem a).2 (.inl rfl)), hd⟩, ?_⟩
    intro b hb hbn
    rcases List.mem_cons.1 hb with rfl | hb
    · have hnone := insert?_eq_none_iff.2
        ((Attribute.insert?_eq_none_iff n.ascending).2 ⟨b, hbn, rfl⟩)
      rw [hk] at hnone
      contradiction
    · exact hdisjoint b hb ((hmem b).2 (.inr hbn))

theorem ofList?_eq_none {as : List Attribute} (hd : ¬ as.Nodup) : ofList? as = none := by
  cases h : ofList? as with
  | none => rfl
  | some n => exact absurd (nodup_of_foldlM_insert? h).1 hd

end RelativeName

end TrustAnchors
