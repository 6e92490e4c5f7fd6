import TrustAnchors.Der.Reads

/-!
# Encodings determine what they encode

An element is determined by its encoding (`tlv_injective`), however long it is: length octets get no
fewer when the content gets longer, so two contents of different length have encodings of different
length.
-/

namespace TrustAnchors.Der

theorem Tag.octet_injective {t u : Tag} (h : t.octet = u.octet) : t = u := by
  have ht : ofOctet? t.octet t.numberBits_octet_lt = some u := by
    simp only [h, ofOctet?_octet]
  exact Option.some.inj (t.ofOctet?_octet.symm.trans ht)

theorem length_lengthOctets (n : Nat) :
    (lengthOctets n).length = if n < 0x80 then 1 else 1 + width n := by
  rw [lengthOctets]
  split <;> simp [Nat.add_comm]

theorem length_lengthOctets_mono {m n : Nat} (h : m ≤ n) :
    (lengthOctets m).length ≤ (lengthOctets n).length := by
  simp only [length_lengthOctets, width]
  grind

theorem tlv_injective {t u : Tag} {c d : Octets} (h : tlv t c = tlv u d) : t = u ∧ c = d := by
  simp only [tlv, List.cons_append, List.cons.injEq] at h
  have hlength := congrArg List.length h.2
  simp only [List.length_append] at hlength
  have hcd : c.length = d.length := by
    rcases Nat.lt_trichotomy c.length d.length with hlt | he | hlt
    · have := length_lengthOctets_mono (Nat.le_of_lt hlt)
      omega
    · exact he
    · have := length_lengthOctets_mono (Nat.le_of_lt hlt)
      omega
  have hrest := h.2
  rw [hcd] at hrest
  exact ⟨Tag.octet_injective h.1, List.append_cancel_left hrest⟩

theorem tlv_inj {t : Tag} {c d : Octets} : tlv t c = tlv t d ↔ c = d :=
  ⟨fun h => (tlv_injective h).2, congrArg _⟩

theorem tlv_ne_nil (t : Tag) (c : Octets) : tlv t c ≠ [] := List.cons_ne_nil _ _

theorem length_le_tlv (t : Tag) (c : Octets) : c.length ≤ (tlv t c).length := by
  rw [tlv, List.length_append]
  exact Nat.le_add_left _ _

theorem Element.encode_injective {e f : Element} (h : e.encode = f.encode) : e = f := by
  obtain ⟨ht, hc⟩ := tlv_injective h
  cases e
  cases f
  cases ht
  cases hc
  rfl

theorem Element.flatMap_encode_eq_nil {es : List Element} :
    es.flatMap Element.encode = [] ↔ es = [] := by
  rw [List.flatMap_eq_nil_iff]
  refine ⟨fun h => List.eq_nil_iff_forall_not_mem.2 fun e he => encode_ne_nil e (h e he), ?_⟩
  rintro rfl
  exact nofun

theorem length_tlv_mono {t u : Tag} {c d : Octets} (h : c.length ≤ d.length) :
    (tlv t c).length ≤ (tlv u d).length := by
  have := length_lengthOctets_mono h
  simp only [tlv, List.length_append, List.length_cons]
  omega

theorem length_tlv_congr {t u : Tag} {c d : Octets} (h : c.length = d.length) :
    (tlv t c).length = (tlv u d).length :=
  Nat.le_antisymm (length_tlv_mono (Nat.le_of_eq h)) (length_tlv_mono (Nat.le_of_eq h.symm))

/-- One decoder does not read two different encodings from the same octets. -/
theorem Decoder.Reads.unique {α : Type} {d : Decoder α} {o p r s : Octets} {a b : α}
    (ho : Reads d o a) (hp : Reads d p b) (hlo : o.length ≤ maxLength) (hlp : p.length ≤ maxLength)
    (h : o ++ r = p ++ s) : a = b ∧ o = p ∧ r = s := by
  have ho := ho ⟨(o ++ r).length, 0, o ++ r, .memory⟩ r rfl trivial ⟨by simpa using hlo, rfl⟩
  have hp := hp ⟨(o ++ r).length, 0, o ++ r, .memory⟩ s h trivial ⟨by simpa using hlp, rfl⟩
  have he := Except.ok.inj (ho.symm.trans hp)
  simp only [Cursor.advance, Prod.mk.injEq, Cursor.mk.injEq, Nat.zero_add] at he
  exact ⟨he.1, List.append_inj h he.2.2.1⟩

/-- An element is determined by its encoding also if more octets follow. -/
theorem tlv_append_injective {t u : Tag} {c d r s : Octets} (hc : (tlv t c).length ≤ maxLength)
    (hd : (tlv u d).length ≤ maxLength) (h : tlv t c ++ r = tlv u d ++ s) :
    t = u ∧ c = d ∧ r = s := by
  obtain ⟨he, _, hrs⟩ :=
    (Element.reads_encode ⟨t, c⟩).unique (Element.reads_encode ⟨u, d⟩) hc hd h
  cases he
  exact ⟨rfl, rfl, hrs⟩

/-- Elements with one tag can be told apart when they stand in a row. -/
theorem map_eq_of_flatMap_tlv_eq {α β : Type} {t : Tag} {f : α → Octets} {g : β → Octets}
    {xs : List α} {ys : List β}
    (h : (xs.flatMap fun x => tlv t (f x)) = ys.flatMap fun y => tlv t (g y))
    (hl : (xs.flatMap fun x => tlv t (f x)).length ≤ maxLength) : xs.map f = ys.map g := by
  induction xs generalizing ys with
  | nil =>
    cases ys with
    | nil => rfl
    | cons y ys => simp [tlv] at h
  | cons x xs ih =>
    cases ys with
    | nil => simp [tlv] at h
    | cons y ys =>
      have hl' := h ▸ hl
      rw [List.flatMap_cons, List.length_append] at hl hl'
      rw [List.flatMap_cons, List.flatMap_cons] at h
      obtain ⟨-, hcontent, hrest⟩ := tlv_append_injective (Nat.le_of_add_right_le hl)
        (Nat.le_of_add_right_le hl') h
      rw [List.map_cons, List.map_cons, hcontent, ih hrest (Nat.le_of_add_left_le hl)]

end TrustAnchors.Der
