import TrustAnchors.Proofs.Der.Inversion

/-!
# Where a message ends

The header of an element tells how long it is, so a message that is one sequence cannot end
anywhere else. Octets that are accepted as such a message are refused with more octets behind them,
for those octets (`decode_sequence_append`), and cut short at any place they are refused as
incomplete (`decode_sequence_cut`).
-/

namespace TrustAnchors.Der.Decoder

variable {α β : Type}

theorem bind_apply_of_ok {d : Decoder α} {f : α → Decoder β} {c c' : Cursor} {a : α}
    (h : d c = .ok (a, c')) : (d >>= f) c = f a c' := by
  change (d c >>= fun x => f x.1 x.2) = _
  rw [h]
  rfl

theorem bind_apply_of_error {d : Decoder α} {f : α → Decoder β} {c : Cursor} {e : Error}
    (h : d c = .error e) : (d >>= f) c = .error e := by
  change (d c >>= fun x => f x.1 x.2) = _
  rw [h]
  rfl

/-- On octets that are cut short the decoder misses those that are cut off. -/
def Starves (d : Decoder α) (o : Octets) : Prop :=
  ∀ (c : Cursor) (cut : Octets), c.source = .memory → c.rest ++ cut = o → cut ≠ [] →
    c.offset + o.length ≤ maxLength →
    ∃ expected, d c = .error (.incomplete expected (c.offset + c.rest.length))

/-- There is nothing to cut off. -/
theorem starves_nil (d : Decoder α) : Starves d [] := by
  intro c cut _ hc hcut _
  exact absurd (List.append_eq_nil_iff.1 hc).2 hcut

theorem starves_octet (b : UInt8) : Starves octet [b] := by
  intro c cut _ hc hcut hm
  have hrest : c.rest = [] := by
    rcases List.append_eq_singleton_iff.1 hc with ⟨hrest, -⟩ | ⟨-, hnil⟩
    · exact hrest
    · exact absurd hnil hcut
  rw [List.length_singleton] at hm
  refine ⟨c.offset + 1, ?_⟩
  simp only [octet, hrest, if_neg (Nat.not_lt.2 hm), List.length_nil, Nat.add_zero]

theorem Starves.bind {d : Decoder α} {f : α → Decoder β} {o p : Octets} {a : α}
    (hd : Starves d o) (hread : Reads d o a) (hf : Starves (f a) p) :
    Starves (d >>= f) (o ++ p) := by
  intro c cut hsource hc hcut hm
  rw [List.length_append] at hm
  -- Either the cut is within `o`, or `o` is there and the cut is behind it.
  have hcases : (∃ q, q ≠ [] ∧ c.rest ++ q = o) ∨ ∃ q, c.rest = o ++ q ∧ q ++ cut = p := by
    rcases List.append_eq_append_iff.1 hc with ⟨q, ho, hp⟩ | ⟨q, hrest, hp⟩
    · by_cases hq : q = []
      · subst hq
        exact .inr ⟨[], by simpa using ho.symm, hp⟩
      · exact .inl ⟨q, hq, ho.symm⟩
    · exact .inr ⟨q, hrest, hp.symm⟩
  rcases hcases with ⟨q, hq, ho⟩ | ⟨q, hrest, hp⟩
  · obtain ⟨expected, he⟩ := hd c q hsource ho hq (by omega)
    exact ⟨expected, bind_apply_of_error he⟩
  · have hok := hread c q hrest trivial ⟨by omega, by rw [hsource]; rfl⟩
    obtain ⟨expected, he⟩ := hf (c.advance o.length) cut hsource
      (by simpa [Cursor.advance, hrest] using hp) hcut (by simp only [Cursor.advance]; omega)
    refine ⟨expected, ?_⟩
    rw [bind_apply_of_ok hok, he]
    simp [Cursor.advance, hrest, Nat.add_assoc]

/-- What follows the first decoder takes no octets. -/
theorem Starves.bind_nil {d : Decoder α} {f : α → Decoder β} {o : Octets} {a : α}
    (hd : Starves d o) (hread : Reads d o a) : Starves (d >>= f) o := by
  rw [← List.append_nil o]
  exact hd.bind hread (starves_nil _)

/-- The first decoder takes no octets. -/
theorem Starves.nil_bind {d : Decoder α} {f : α → Decoder β} {o : Octets} {a : α}
    (hread : Reads d [] a) (hf : Starves (f a) o) : Starves (d >>= f) o :=
  (starves_nil d).bind hread hf

theorem starves_lengthDigits (o : Octets) (n : Nat) : Starves (lengthDigits o.length n) o := by
  induction o generalizing n with
  | nil => exact starves_nil _
  | cons b r ih => exact (starves_octet b).bind (reads_octet b) (ih _)

theorem starves_lengthOf (tag : Tag) (n : Nat) : Starves (lengthOf tag) (lengthOctets n) := by
  by_cases hs : n < 0x80
  · rw [lengthOctets, if_pos hs]
    exact (starves_octet _).bind_nil (reads_octet _)
  · obtain ⟨hnlt, hne, hle, hd⟩ := longForm_spec n
    rw [lengthOctets, if_neg hs, ← List.singleton_append]
    refine (starves_octet _).bind (reads_octet _) ?_
    rw [if_neg hnlt, if_neg hne, if_pos hle, hd]
    exact (starves_lengthDigits _ 0).bind_nil (reads_lengthDigits _ 0)

theorem starves_expect (tag : Tag) {n : Nat} (h : n ≤ maxLength) :
    Starves (expect tag) (tag.octet :: lengthOctets n) := by
  refine Starves.bind_nil ?_ (reads_header tag h)
  rw [← List.singleton_append]
  refine (starves_octet _).bind (reads_octet _) ?_
  refine Starves.nil_bind (reads_tagOfOctet tag) ?_
  exact (starves_lengthOf tag n).bind_nil (reads_lengthOf tag h)

/-- The content is all there before the decoder for it starts. -/
theorem starves_nested (content : Octets) (d : Decoder α) :
    Starves (nested content.length d) content := by
  intro c cut _ hc hcut hm
  have hlt : c.rest.length < content.length := by
    have hpos := List.length_pos_iff.2 hcut
    rw [← hc, List.length_append]
    omega
  have hrequire : require content.length c =
      .error (.incomplete (c.offset + content.length) (c.offset + c.rest.length)) := by
    simp only [require, if_neg (Nat.not_lt.2 hm), if_pos hlt]
  refine ⟨c.offset + content.length, ?_⟩
  simp only [nested, hrequire]
  rfl

theorem starves_sequence {content : Octets} (h : content.length ≤ maxLength) (fields : Decoder α) :
    Starves (sequence fields) (tlv .sequence content) :=
  (starves_expect .sequence h).bind (reads_expect .sequence h) (starves_nested content fields)

/-- What is read inside an element does not depend on what follows it. -/
theorem nested_append {d : Decoder α} {n : Nat} {c c' : Cursor} {a : α}
    (h : nested n d c = .ok (a, c')) (k : Nat) (more : Octets) :
    nested n d ⟨k, c.offset, c.rest ++ more, c.source⟩ =
      .ok (a, ⟨k, c'.offset, c'.rest ++ more, c'.source⟩) := by
  obtain ⟨⟨u, c₀⟩, hr, h⟩ := Except.bind_eq_ok_iff.1 h
  have hoffset : ¬ maxLength < c.offset + n := by
    intro hlt
    simp only [require, if_pos hlt] at hr
    cases hr
  obtain ⟨hn, rfl⟩ := of_require_eq_ok hr
  obtain ⟨⟨b, inner⟩, hd, h⟩ := Except.bind_eq_ok_iff.1 h
  have hmore : ¬ (c.rest ++ more).length < n := by
    rw [List.length_append]
    omega
  have htake : (c.rest ++ more).take n = c.rest.take n := List.take_append_of_le_length hn
  by_cases he : inner.rest.isEmpty
  · simp only [if_pos he] at h
    cases h
    simp only [nested, require, if_neg hoffset, if_neg hmore, htake, Except.ok_bind, hd, if_pos he,
      Cursor.advance, List.drop_append_of_le_length hn]
    rfl
  · simp only [if_neg he] at h
    cases h

variable {fields : Decoder α} {o : Octets} {a : α}

theorem sequence_append {c c' : Cursor} (h : sequence fields c = .ok (a, c'))
    (hsource : c.source = .memory) (k : Nat) (more : Octets) :
    sequence fields ⟨k, c.offset, c.rest ++ more, .memory⟩ =
      .ok (a, ⟨k, c'.offset, c'.rest ++ more, .memory⟩) := by
  have hend := offset_le_of_sequence_eq_ok h
  obtain ⟨n, c₁, hn, h⟩ := bind_eq_ok_iff.1 h
  have hheader := of_expect_eq_ok hn
  obtain ⟨content, -, -, hcontent, rfl, -⟩ := of_nested_eq_ok h
  have hoffset₁ : c₁.offset =
      c.offset + (Tag.octet .sequence :: lengthOctets content.length).length := by
    rw [hheader.eq_advance]
    rfl
  have hoffset : c'.offset = c₁.offset + content.length := by
    rw [hcontent.eq_advance]
    rfl
  have hle : content.length ≤ maxLength := by omega
  have hdelivers : c.offset + (Tag.octet .sequence :: lengthOctets content.length).length ≤
      maxLength := by omega
  have hread := reads_expect .sequence hle ⟨k, c.offset, c.rest ++ more, .memory⟩ (c₁.rest ++ more)
    (by rw [hheader.rest_eq, List.append_assoc]) trivial ⟨hdelivers, rfl⟩
  have hcursor : Cursor.advance ⟨k, c.offset, c.rest ++ more, .memory⟩
      (Tag.octet .sequence :: lengthOctets content.length).length =
        ⟨k, c₁.offset, c₁.rest ++ more, .memory⟩ := by
    rw [hheader.rest_eq, List.append_assoc, hoffset₁]
    simp only [Cursor.advance, List.drop_left]
  have hsource₁ : c₁.source = .memory := hheader.source_eq.trans hsource
  have hsource' : c'.source = .memory := hcontent.source_eq.trans hsource₁
  have hnested := nested_append h k more
  rw [hsource₁, hsource'] at hnested
  rw [sequence, bind_apply_of_ok hread, hcursor, hnested]

theorem of_sequence_eq_ok {c c' : Cursor} (h : sequence fields c = .ok (a, c')) :
    ∃ content, c.Moves (tlv .sequence content) c' := by
  obtain ⟨n, c₁, hn, h⟩ := bind_eq_ok_iff.1 h
  obtain ⟨content, -, -, hcontent, hlength, -⟩ := of_nested_eq_ok h
  exact ⟨content, (of_expect_eq_ok hn).tlv hcontent hlength⟩

/-- Octets behind a message are refused, whatever they are. -/
theorem decode_sequence_append (h : (sequence fields).decode o = .ok a) {more : Octets}
    (hmore : more ≠ []) :
    (sequence fields).decode (o ++ more) =
      .error (if maxLength < (o ++ more).length then .overflow
        else .trailingData o.length more.length) := by
  obtain ⟨-, c, hc, hr⟩ := of_decode_eq_ok h
  by_cases hm : maxLength < (o ++ more).length
  · simp only [Decoder.decode, if_pos hm]
    rfl
  · have happend := sequence_append hc rfl (o ++ more).length more
    have hlength : (o ++ more).length - more.length = o.length := by
      rw [List.length_append, Nat.add_sub_cancel]
    simp only [Decoder.decode, if_neg hm, happend, Except.ok_bind, hr, List.nil_append,
      List.isEmpty_iff, if_neg hmore, hlength]

/-- A message that is cut short is refused as incomplete, wherever the cut is. -/
theorem decode_sequence_cut (h : (sequence fields).decode o = .ok a) {begun cut : Octets}
    (ho : begun ++ cut = o) (hcut : cut ≠ []) :
    ∃ expected, (sequence fields).decode begun = .error (.incomplete expected begun.length) := by
  obtain ⟨hm, c, hc, hr⟩ := of_decode_eq_ok h
  obtain ⟨content, hmoves⟩ := of_sequence_eq_ok hc
  obtain rfl : o = tlv .sequence content := hmoves.rest_eq_of_rest_eq_nil hr
  have hcontent : content.length ≤ maxLength := Nat.le_trans (length_le_tlv _ _) hm
  have hbegun : ¬ maxLength < begun.length := by
    have hlength := congrArg List.length ho
    rw [List.length_append] at hlength
    omega
  obtain ⟨expected, he⟩ := starves_sequence hcontent fields ⟨begun.length, 0, begun, .memory⟩ cut
    rfl ho hcut (by simpa using hm)
  refine ⟨expected, ?_⟩
  simp only [Decoder.decode, if_neg hbegun, he, Nat.zero_add]
  rfl

end TrustAnchors.Der.Decoder
