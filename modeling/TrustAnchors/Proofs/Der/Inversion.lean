import Mathlib.Data.List.Induction
import TrustAnchors.Proofs.Der.Injectivity
import TrustAnchors.Proofs.Utf8
import TrustAnchors.Der.CharacterString
import TrustAnchors.Der.Integer

/-!
# The octets a decoder took

`Cursor.Moves c o c'` says that the octets `o` lie between two cursors. Each decoder is inverted: a
run that succeeds moves its cursor over the octets of what it read. `Takes octets value d` says so
of a decoder whose values are written in forms of some type, of which `octets` gives the encoding
and `value` the meaning. Where each value has one form only, the form is the value itself.
-/

namespace TrustAnchors.Der

/-- From one cursor to a later one, over exactly these octets. -/
structure Cursor.Moves (c : Cursor) (o : Octets) (c' : Cursor) : Prop where
  rest_eq : c.rest = o ++ c'.rest
  eq_advance : c' = c.advance o.length

namespace Cursor.Moves

variable {c c₁ c₂ : Cursor} {o p : Octets}

theorem refl (c : Cursor) : c.Moves [] c := ⟨rfl, c.advance_zero.symm⟩

theorem trans (h : c.Moves o c₁) (h' : c₁.Moves p c₂) : c.Moves (o ++ p) c₂ := by
  refine ⟨?_, ?_⟩
  · rw [h.rest_eq, h'.rest_eq, List.append_assoc]
  · rw [h'.eq_advance, h.eq_advance, advance_advance, List.length_append]

theorem of_take {n : Nat} (hn : n ≤ c.rest.length) : c.Moves (c.rest.take n) (c.advance n) := by
  refine ⟨(List.take_append_drop n c.rest).symm, ?_⟩
  rw [List.length_take, Nat.min_eq_left hn]

theorem source_eq (h : c.Moves o c₁) : c₁.source = c.source := by
  rw [h.eq_advance]
  rfl

theorem rest_eq_of_rest_eq_nil (h : c.Moves o c₁) (hr : c₁.rest = []) : c.rest = o := by
  rw [h.rest_eq, hr, List.append_nil]

end Cursor.Moves

theorem bigEndian_ofBigEndian (o : Octets) : bigEndian o.length (ofBigEndian o) = o := by
  induction o using List.reverseRecOn with
  | nil => rfl
  | append_singleton o b ih =>
    have hb := b.toNat_lt
    rw [ofBigEndian_concat, List.length_append, List.length_singleton, bigEndian]
    have hdiv : (ofBigEndian o * 256 + b.toNat) / 256 = ofBigEndian o := by omega
    have hmod : UInt8.ofNat (ofBigEndian o * 256 + b.toNat) = b := by
      rw [← UInt8.toNat_inj, UInt8.toNat_ofNat']
      omega
    rw [hdiv, hmod, ih]

theorem width_le (n : Nat) : width n ≤ 4 := by grind [width]

/-- The first of several length octets is right for the number that the others hold. -/
theorem lengthOctets_of_head? {o : Octets} {b : UInt8} (hb : ¬ b < 0x80)
    (hk : o.length = (b - 0x80).toNat) (h : (lengthOctets (ofBigEndian o)).head? = some b) :
    lengthOctets (ofBigEndian o) = b :: o := by
  have hb : 0x80 ≤ b := UInt8.not_lt.1 hb
  have hb' : 0x80 ≤ b.toNat := UInt8.le_iff_toNat_le.1 hb
  unfold lengthOctets at h ⊢
  by_cases hs : ofBigEndian o < 0x80
  · rw [if_pos hs, List.head?_cons, Option.some.injEq] at h
    have h := congrArg UInt8.toNat h
    rw [UInt8.toNat_ofNat'] at h
    omega
  · rw [if_neg hs, List.head?_cons, Option.some.injEq] at h
    -- The first octet counts the others, so they are as many as the number needs.
    have hw := width_le (ofBigEndian o)
    have hwidth : width (ofBigEndian o) = o.length := by
      have h := congrArg UInt8.toNat h
      rw [UInt8.toNat_ofNat'] at h
      have hsub : (b - 0x80).toNat = b.toNat - 0x80 := UInt8.toNat_sub_of_le b 0x80 hb
      omega
    rw [if_neg hs, h, hwidth, bigEndian_ofBigEndian]

namespace Decoder

variable {α β : Type} {c c' : Cursor} {n : Nat}

theorem of_pure_eq_ok {a b : α} (h : (pure a : Decoder α) c = .ok (b, c')) : a = b ∧ c = c' := by
  rw [pure_apply] at h
  cases h
  exact ⟨rfl, rfl⟩

theorem of_ofOption_eq_ok {e : Error} {x : Option α} {a : α}
    (h : ofOption e x c = .ok (a, c')) : x = some a ∧ c = c' := by
  cases x with
  | none => cases h
  | some b =>
    obtain ⟨rfl, rfl⟩ := of_pure_eq_ok h
    exact ⟨rfl, rfl⟩

theorem of_ofExcept_eq_ok {x : Except Error α} {a : α}
    (h : ofExcept x c = .ok (a, c')) : x = .ok a ∧ c = c' := by
  cases x with
  | error e => cases h
  | ok b =>
    cases h
    exact ⟨rfl, rfl⟩

theorem of_require_eq_ok {u : Unit} (h : require n c = .ok (u, c')) :
    n ≤ c.rest.length ∧ c = c' := by
  unfold require at h
  split at h
  · cases h
  · split at h
    · cases h
    · next hn =>
      cases h
      exact ⟨Nat.not_lt.1 hn, rfl⟩

theorem of_take_eq_ok {o : Octets} (h : take n c = .ok (o, c')) : c.Moves o c' ∧ o.length = n := by
  obtain ⟨_, c₁, hr, h⟩ := bind_eq_ok_iff.1 h
  obtain ⟨hn, rfl⟩ := of_require_eq_ok hr
  unfold read at h
  split at h
  · cases h
  · cases h
    refine ⟨.of_take hn, ?_⟩
    rw [List.length_take, Nat.min_eq_left hn]

theorem of_take_ofOption_eq_ok {e : Error} {f : Octets → Option α} {a : α}
    (h : (take n >>= fun o => ofOption e (f o)) c = .ok (a, c')) :
    ∃ o, f o = some a ∧ c.Moves o c' ∧ o.length = n := by
  obtain ⟨o, c₁, ho, h⟩ := bind_eq_ok_iff.1 h
  obtain ⟨hf, rfl⟩ := of_ofOption_eq_ok h
  exact ⟨o, hf, of_take_eq_ok ho⟩

theorem of_take_ofExcept_eq_ok {f : Octets → Except Error α} {a : α}
    (h : (take n >>= fun o => ofExcept (f o)) c = .ok (a, c')) :
    ∃ o, f o = .ok a ∧ c.Moves o c' ∧ o.length = n := by
  obtain ⟨o, c₁, ho, h⟩ := bind_eq_ok_iff.1 h
  obtain ⟨hf, rfl⟩ := of_ofExcept_eq_ok h
  exact ⟨o, hf, of_take_eq_ok ho⟩

theorem of_octet_eq_ok {b : UInt8} (h : octet c = .ok (b, c')) : c.Moves [b] c' := by
  unfold octet at h
  split at h
  · cases h
  · next hr =>
    split at h
    · cases h
    · cases h
      have ht := Cursor.Moves.of_take (c := c) (n := 1) (by simp [hr])
      rwa [hr] at ht

/-- The decoder for the inside has read its octets to their end. -/
theorem of_nested_eq_ok {d : Decoder α} {a : α} (h : nested n d c = .ok (a, c')) :
    ∃ o c₁ c₂, c.Moves o c' ∧ o.length = n ∧ d c₁ = .ok (a, c₂) ∧ c₁.source = c.source ∧
      c₁.rest = o ∧ c₂.rest = [] := by
  obtain ⟨⟨_, c₀⟩, hr, h⟩ := Except.bind_eq_ok_iff.1 h
  obtain ⟨hn, rfl⟩ := of_require_eq_ok hr
  obtain ⟨⟨b, inner⟩, hd, h⟩ := Except.bind_eq_ok_iff.1 h
  by_cases he : inner.rest = []
  · simp only [he, List.isEmpty_nil, if_true] at h
    cases h
    refine ⟨c.rest.take n, _, inner, .of_take hn, ?_, hd, rfl, rfl, he⟩
    rw [List.length_take, Nat.min_eq_left hn]
  · simp only [List.isEmpty_iff, if_neg he] at h
    cases h

theorem offset_le_of_nested_eq_ok {d : Decoder α} {a : α} (h : nested n d c = .ok (a, c')) :
    c'.offset ≤ maxLength := by
  obtain ⟨⟨_, c₀⟩, hr, h⟩ := Except.bind_eq_ok_iff.1 h
  obtain ⟨⟨b, inner⟩, -, h⟩ := Except.bind_eq_ok_iff.1 h
  have hn : c.offset + n ≤ maxLength := by
    unfold require at hr
    split at hr
    · cases hr
    · next hn => exact Nat.not_lt.1 hn
  obtain ⟨-, rfl⟩ := of_require_eq_ok hr
  by_cases he : inner.rest.isEmpty
  · simp only [if_pos he] at h
    cases h
    exact hn
  · simp only [if_neg he] at h
    cases h

theorem offset_le_of_sequence_eq_ok {d : Decoder α} {a : α} (h : sequence d c = .ok (a, c')) :
    c'.offset ≤ maxLength := by
  obtain ⟨n, c₁, -, h⟩ := bind_eq_ok_iff.1 h
  exact offset_le_of_nested_eq_ok h

theorem of_tagOfOctet_eq_ok {b : UInt8} {t : Tag} (h : tagOfOctet b c = .ok (t, c')) :
    t.octet = b ∧ c = c' := by
  unfold tagOfOctet at h
  split at h
  · obtain ⟨ht, rfl⟩ := of_ofOption_eq_ok h
    exact ⟨Tag.octet_of_ofOctet? ht, rfl⟩
  · cases h

theorem of_lengthDigits_eq_ok {k m : Nat} (h : lengthDigits k m c = .ok (n, c')) :
    ∃ o, c.Moves o c' ∧ o.length = k ∧ o.foldl (fun n b => n * 256 + b.toNat) m = n := by
  induction k generalizing c m with
  | zero =>
    obtain ⟨rfl, rfl⟩ := of_pure_eq_ok h
    exact ⟨[], .refl c, rfl, rfl⟩
  | succ k ih =>
    obtain ⟨b, c₁, hb, h⟩ := bind_eq_ok_iff.1 h
    obtain ⟨o, ho, hk, hn⟩ := ih h
    exact ⟨b :: o, (of_octet_eq_ok hb).trans ho, by rw [List.length_cons, hk], hn⟩

theorem of_lengthOf_eq_ok {tag : Tag} (h : lengthOf tag c = .ok (n, c')) :
    c.Moves (lengthOctets n) c' ∧ n ≤ maxLength := by
  obtain ⟨b, c₁, hb, h⟩ := bind_eq_ok_iff.1 h
  have hb := of_octet_eq_ok hb
  by_cases hs : b < 0x80
  · rw [if_pos hs] at h
    obtain ⟨rfl, rfl⟩ := of_pure_eq_ok h
    have hs : b.toNat < 0x80 := UInt8.lt_iff_toNat_lt.1 hs
    rw [lengthOctets, if_pos hs, UInt8.ofNat_toNat]
    exact ⟨hb, Nat.le_trans (Nat.le_of_lt hs) (by decide)⟩
  · rw [if_neg hs] at h
    split at h
    · cases h
    · split at h
      · obtain ⟨m, c₂, hm, h⟩ := bind_eq_ok_iff.1 h
        obtain ⟨o, ho, hk, hm⟩ := of_lengthDigits_eq_ok hm
        have hm : ofBigEndian o = m := hm
        split at h
        · cases h
        · next hle =>
          split at h
          · next hhead =>
            obtain ⟨rfl, rfl⟩ := of_pure_eq_ok h
            subst hm
            rw [lengthOctets_of_head? hs hk hhead]
            exact ⟨hb.trans ho, Nat.not_lt.1 hle⟩
          · cases h
      · cases h

theorem of_header_eq_ok {t : Tag} (h : header c = .ok ((t, n), c')) :
    c.Moves (t.octet :: lengthOctets n) c' ∧ n ≤ maxLength := by
  obtain ⟨b, c₁, hb, h⟩ := bind_eq_ok_iff.1 h
  obtain ⟨u, c₂, ht, h⟩ := bind_eq_ok_iff.1 h
  obtain ⟨rfl, rfl⟩ := of_tagOfOctet_eq_ok ht
  obtain ⟨m, c₃, hl, h⟩ := bind_eq_ok_iff.1 h
  obtain ⟨hm, hle⟩ := of_lengthOf_eq_ok hl
  obtain ⟨he, rfl⟩ := of_pure_eq_ok h
  cases he
  exact ⟨(of_octet_eq_ok hb).trans hm, hle⟩

theorem of_expect_eq_ok {t : Tag} (h : expect t c = .ok (n, c')) :
    c.Moves (t.octet :: lengthOctets n) c' := by
  obtain ⟨⟨u, m⟩, c₁, hu, h⟩ := bind_eq_ok_iff.1 h
  by_cases ht : u = t
  · simp only [if_pos ht] at h
    obtain ⟨rfl, rfl⟩ := of_pure_eq_ok h
    rw [← ht]
    exact (of_header_eq_ok hu).1
  · simp only [if_neg ht] at h
    cases h

end Decoder

theorem Cursor.Moves.tlv {c c₁ c₂ : Cursor} {t : Tag} {n : Nat} {o : Octets}
    (h : c.Moves (t.octet :: lengthOctets n) c₁) (h' : c₁.Moves o c₂) (hn : o.length = n) :
    c.Moves (tlv t o) c₂ := by
  subst hn
  exact h.trans h'

/-- The next octet tells the tag of an element that was read. -/
theorem Cursor.Moves.tag_eq {c c' : Cursor} {t u : Tag} {o r : Octets}
    (h : c.Moves (t.octet :: o) c') (hr : c.rest = u.octet :: r) : t = u := by
  have he := h.rest_eq.symm.trans hr
  exact Tag.octet_injective (List.cons.inj he).1

namespace Decoder

variable {α W : Type} {octets : W → Octets} {value : W → α} {d : Decoder α} {c c' : Cursor}

/-- What the decoder accepts is a form of its result, and it takes the octets of that form. -/
def Takes (octets : W → Octets) (value : W → α) (d : Decoder α) : Prop :=
  ∀ ⦃c a c'⦄, d c = .ok (a, c') → ∃ w, value w = a ∧ c.Moves (octets w) c'

/-- The same of a decoder that is told how many octets there are. -/
def TakesContent (octets : W → Octets) (value : W → α) (d : Nat → Decoder α) : Prop :=
  ∀ ⦃n c a c'⦄, d n c = .ok (a, c') →
    ∃ w, value w = a ∧ c.Moves (octets w) c' ∧ (octets w).length = n

/-- The same, where a source does not provide all forms. -/
def TakesFrom (ok : Source → W → Prop) (octets : W → Octets) (value : W → α)
    (d : Decoder α) : Prop :=
  ∀ ⦃c a c'⦄, d c = .ok (a, c') → ∃ w, value w = a ∧ ok c.source w ∧ c.Moves (octets w) c'

theorem TakesFrom.takes {ok : Source → W → Prop} (h : TakesFrom ok octets value d) :
    Takes octets value d := by
  intro c a c' hd
  obtain ⟨w, hw, -, hm⟩ := h hd
  exact ⟨w, hw, hm⟩

theorem Takes.moves {encode : α → Octets} (h : Takes encode id d) {a : α}
    (ha : d c = .ok (a, c')) : c.Moves (encode a) c' := by
  obtain ⟨w, rfl, hm⟩ := h ha
  exact hm

theorem Takes.nested (h : Takes octets value d) :
    TakesContent octets value fun n => nested n d := by
  intro n c a c' hd
  obtain ⟨o, c₁, c₂, hc, hn, hd, -, rfl, hr⟩ := of_nested_eq_ok hd
  obtain ⟨w, hw, hm⟩ := h hd
  rw [hm.rest_eq_of_rest_eq_nil hr] at hc hn
  exact ⟨w, hw, hc, hn⟩

theorem Takes.map {β : Type} (f : α → β) (h : Takes octets value d) :
    Takes octets (fun w => f (value w)) (do return f (← d)) := by
  intro c b c' hd
  obtain ⟨a, c₁, ha, hd⟩ := bind_eq_ok_iff.1 hd
  obtain ⟨rfl, rfl⟩ := of_pure_eq_ok hd
  obtain ⟨w, rfl, hm⟩ := h ha
  exact ⟨w, rfl, hm⟩

theorem TakesContent.map {β : Type} {d : Nat → Decoder α} (f : α → β)
    (h : TakesContent octets value d) :
    TakesContent octets (fun w => f (value w)) (fun n => do return f (← d n)) := by
  intro n c b c' hd
  obtain ⟨a, c₁, ha, hd⟩ := bind_eq_ok_iff.1 hd
  obtain ⟨rfl, rfl⟩ := of_pure_eq_ok hd
  obtain ⟨w, rfl, hm, hn⟩ := h ha
  exact ⟨w, rfl, hm, hn⟩

theorem TakesContent.expect {d : Nat → Decoder α} {t : Tag} (h : TakesContent octets value d) :
    Takes (fun w => tlv t (octets w)) value (expect t >>= d) := by
  intro c a c' hd
  obtain ⟨n, c₁, hn, hd⟩ := bind_eq_ok_iff.1 hd
  obtain ⟨w, hw, hm, hl⟩ := h hd
  exact ⟨w, hw, (of_expect_eq_ok hn).tlv hm hl⟩

theorem Takes.sequence (h : Takes octets value d) :
    Takes (fun w => tlv .sequence (octets w)) value (sequence d) :=
  h.nested.expect

theorem TakesFrom.sequence {ok : Source → W → Prop} (h : TakesFrom ok octets value d) :
    TakesFrom ok (fun w => tlv .sequence (octets w)) value (sequence d) := by
  intro c a c' hd
  obtain ⟨n, c₁, hn, hd⟩ := bind_eq_ok_iff.1 hd
  have hn := of_expect_eq_ok hn
  obtain ⟨o, c₂, c₃, hc, ho, hd, hsource, rfl, hr⟩ := of_nested_eq_ok hd
  obtain ⟨w, hw, hok, hm⟩ := h hd
  rw [hsource, hn.source_eq] at hok
  rw [hm.rest_eq_of_rest_eq_nil hr] at hc ho
  exact ⟨w, hw, hok, hn.tlv hc ho⟩

theorem takes_elements (h : Takes octets value d) (k : Nat) :
    Takes (fun ws : List W => ws.flatMap octets) (·.map value) (elements d k) := by
  induction k with
  | zero =>
    intro c as c' hd
    obtain ⟨rfl, rfl⟩ := of_pure_eq_ok hd
    exact ⟨[], rfl, .refl c⟩
  | succ k ih =>
    intro c as c' hd
    obtain ⟨_, c₀, hg, hd⟩ := bind_eq_ok_iff.1 hd
    cases hg
    split at hd
    · obtain ⟨rfl, rfl⟩ := of_pure_eq_ok hd
      exact ⟨[], rfl, .refl c⟩
    · obtain ⟨a, c₁, ha, hd⟩ := bind_eq_ok_iff.1 hd
      obtain ⟨as, c₂, has, hd⟩ := bind_eq_ok_iff.1 hd
      obtain ⟨rfl, rfl⟩ := of_pure_eq_ok hd
      obtain ⟨w, rfl, hw⟩ := h ha
      obtain ⟨ws, rfl, hws⟩ := ih has
      exact ⟨w :: ws, rfl, hw.trans hws⟩

theorem Takes.many (h : Takes octets value d) :
    Takes (fun ws : List W => ws.flatMap octets) (·.map value) (many d) := by
  intro c as c' hd
  obtain ⟨_, c₀, hg, hd⟩ := bind_eq_ok_iff.1 hd
  cases hg
  exact takes_elements h _ hd

/-- A list of values that have one form each. -/
theorem Takes.many_id {encode : α → Octets} (h : Takes encode id d) :
    Takes (fun as : List α => as.flatMap encode) id (Decoder.many d) := by
  intro c as c' hd
  obtain ⟨ws, hw, hm⟩ := h.many hd
  exact ⟨ws, (List.map_id ws).symm.trans hw, hm⟩

/-- An element with a context number below that of the field that is looked for. -/
def Passed (number : Nat) (e : Element) : Prop :=
  ∃ constructed found, e.tag = .tagged .contextSpecific constructed found ∧ found.val < number

theorem of_peekTag_eq_ok {x : Option Tag} (h : peekTag c = .ok (x, c')) :
    c = c' ∧ ∀ t ∈ x, ∃ r, c.rest = t.octet :: r := by
  unfold peekTag at h
  split at h
  · cases h
    exact ⟨rfl, fun t ht => by contradiction⟩
  · next b r hr =>
    obtain ⟨⟨t, c₁⟩, ht, h⟩ := Except.bind_eq_ok_iff.1 h
    obtain ⟨rfl, rfl⟩ := of_tagOfOctet_eq_ok ht
    cases h
    refine ⟨rfl, fun u hu => ⟨r, ?_⟩⟩
    rw [hr, Option.mem_some.1 hu]

theorem of_choice_eq_ok {t : Tag} (h : choice c = .ok (t, c')) :
    c = c' ∧ ∃ r, c.rest = t.octet :: r := by
  obtain ⟨⟨x, c₁⟩, hp, h⟩ := Except.bind_eq_ok_iff.1 h
  obtain ⟨rfl, hx⟩ := of_peekTag_eq_ok hp
  cases x with
  | none => cases h
  | some u =>
    cases h
    exact ⟨rfl, hx t rfl⟩

theorem of_skip_eq_ok {u : Unit} (h : skip c = .ok (u, c')) :
    ∃ e : Element, c.source = .memory ∧ c.Moves e.encode c' := by
  obtain ⟨⟨t, n⟩, c₁, ht, h⟩ := bind_eq_ok_iff.1 h
  have ht := (of_header_eq_ok ht).1
  obtain ⟨_, c₂, hr, h⟩ := bind_eq_ok_iff.1 h
  obtain ⟨hn, rfl⟩ := of_require_eq_ok hr
  obtain ⟨s, c₃, hs, h⟩ := bind_eq_ok_iff.1 h
  cases hs
  cases hsource : c₁.source with
  | memory =>
    rw [hsource] at h
    cases h
    have hlength : (c₁.rest.take n).length = n := by rw [List.length_take, Nat.min_eq_left hn]
    exact ⟨⟨t, c₁.rest.take n⟩, ht.source_eq.symm.trans hsource, ht.tlv (.of_take hn) hlength⟩
  | stream breaksAt =>
    rw [hsource] at h
    cases h

theorem of_seekContext_eq_ok {number k : Nat} {b : Bool}
    (h : seekContext number k c = .ok (b, c')) :
    ∃ es : List Element, (∀ e ∈ es, Passed number e) ∧ (c.source ≠ .memory → es = []) ∧
      c.Moves (es.flatMap Element.encode) c' ∧
      (b = true → ∃ constructed r, c'.rest = (Tag.context constructed number).octet :: r) := by
  induction k generalizing c with
  | zero =>
    obtain ⟨rfl, rfl⟩ := of_pure_eq_ok h
    exact ⟨[], nofun, fun _ => rfl, .refl c, nofun⟩
  | succ k ih =>
    obtain ⟨x, c₁, hp, h⟩ := bind_eq_ok_iff.1 h
    obtain ⟨rfl, hx⟩ := of_peekTag_eq_ok hp
    split at h
    · next constructed found =>
      obtain ⟨r, hr⟩ := hx _ rfl
      split at h
      · next he =>
        obtain ⟨rfl, rfl⟩ := of_pure_eq_ok h
        refine ⟨[], nofun, fun _ => rfl, .refl c, fun _ => ⟨constructed, r, ?_⟩⟩
        have hfound : Fin.ofNat 31 number = found := Fin.ext (he ▸ Nat.mod_eq_of_lt found.isLt)
        rw [Tag.context, hfound, hr]
      · split at h
        · next hlt =>
          obtain ⟨_, c₂, hs, h⟩ := bind_eq_ok_iff.1 h
          obtain ⟨e, hsource, he⟩ := of_skip_eq_ok hs
          obtain ⟨es, hes, -, hm, hb⟩ := ih h
          refine ⟨e :: es, ?_, fun hne => absurd hsource hne, he.trans hm, hb⟩
          intro f hf
          rcases List.mem_cons.1 hf with rfl | hf
          · exact ⟨constructed, found, he.tag_eq hr, hlt⟩
          · exact hes f hf
        · obtain ⟨rfl, rfl⟩ := of_pure_eq_ok h
          exact ⟨[], nofun, fun _ => rfl, .refl c, nofun⟩
    · obtain ⟨rfl, rfl⟩ := of_pure_eq_ok h
      exact ⟨[], nofun, fun _ => rfl, .refl c, nofun⟩

/-- A field that is looked for by its context number. The elements passed over come first, also if
the field is not there. -/
structure Sought (number : Nat) (W : Type) where
  passed : List Element
  field : Option W
  passed_lt : ∀ e ∈ passed, Passed number e

namespace Sought

variable {number : Nat}

def encode (field : W → Octets) (s : Sought number W) : Octets :=
  s.passed.flatMap Element.encode ++ s.field.elim [] field

theorem length_field_le (s : Sought number W) (field : W → Octets) :
    (s.field.elim [] field).length ≤ (s.encode field).length := by
  rw [encode, List.length_append]
  exact Nat.le_add_left _ _

theorem encode_of_passed_eq_nil {s : Sought number W} (h : s.passed = []) (field : W → Octets) :
    s.encode field = s.field.elim [] field := by
  rw [encode, h]
  rfl

/-- The field with nothing before it to pass over. -/
def direct (field : Option W) : Sought number W := ⟨[], field, nofun⟩

@[simp] theorem field_direct (field : Option W) : (direct field : Sought number W).field = field := rfl

@[simp] theorem encode_direct (x : Option W) (field : W → Octets) :
    (direct x : Sought number W).encode field = x.elim [] field := rfl

/-- Nothing can be passed over in a stream. -/
def IsFrom (source : Source) (s : Sought number W) : Prop := source ≠ .memory → s.passed = []

end Sought

theorem TakesContent.implicit? {number : Nat} {constructed : Bool} {d : Nat → Decoder α}
    (hd : TakesContent octets value d) :
    TakesFrom Sought.IsFrom
      (Sought.encode fun w => tlv (.context constructed number) (octets w))
      (fun s : Sought number W => s.field.map value) (implicit? number constructed d) := by
  intro c y c' h
  obtain ⟨b, c₁, hs, h⟩ := bind_eq_ok_iff.1 h
  obtain ⟨_, c₀, hg, hs⟩ := bind_eq_ok_iff.1 hs
  cases hg
  obtain ⟨es, hes, hsource, hm, hb⟩ := of_seekContext_eq_ok hs
  cases b with
  | false =>
    obtain ⟨rfl, rfl⟩ := of_pure_eq_ok h
    exact ⟨⟨es, none, hes⟩, rfl, hsource, hm.trans (.refl c₁)⟩
  | true =>
    obtain ⟨constructed', r, hr⟩ := hb rfl
    obtain ⟨⟨t, n⟩, c₂, ht, h⟩ := bind_eq_ok_iff.1 h
    obtain ⟨a, c₃, ha, h⟩ := bind_eq_ok_iff.1 h
    obtain ⟨w, hw, hc, hn⟩ := hd ha
    have ht := (of_header_eq_ok ht).1
    -- The tag that was found in passing is the one that the header has.
    obtain rfl := ht.tag_eq hr
    by_cases he : (Tag.context constructed' number).isConstructed = constructed
    · simp only [if_pos he] at h
      obtain ⟨rfl, rfl⟩ := of_pure_eq_ok h
      obtain rfl : constructed' = constructed := he
      exact ⟨⟨es, some w, hes⟩, congrArg some hw, hsource, hm.trans (ht.tlv hc hn)⟩
    · simp only [if_neg he] at h
      cases h

theorem Takes.explicit? {number : Nat} (hd : Takes octets value d) :
    TakesFrom Sought.IsFrom (Sought.encode fun w => explicitly number (octets w))
      (fun s : Sought number W => s.field.map value) (explicit? number d) := by
  intro c y c' h
  obtain ⟨b, c₁, hs, h⟩ := bind_eq_ok_iff.1 h
  obtain ⟨_, c₀, hg, hs⟩ := bind_eq_ok_iff.1 hs
  cases hg
  obtain ⟨es, hes, hsource, hm, hb⟩ := of_seekContext_eq_ok hs
  cases b with
  | false =>
    obtain ⟨rfl, rfl⟩ := of_pure_eq_ok h
    exact ⟨⟨es, none, hes⟩, rfl, hsource, hm.trans (.refl c₁)⟩
  | true =>
    obtain ⟨constructed, r, hr⟩ := hb rfl
    obtain ⟨⟨t, n⟩, c₂, ht, h⟩ := bind_eq_ok_iff.1 h
    have ht := (of_header_eq_ok ht).1
    obtain rfl := ht.tag_eq hr
    cases constructed with
    | false => cases h
    | true =>
      obtain ⟨a, c₃, ha, h⟩ := bind_eq_ok_iff.1 h
      obtain ⟨w, hw, hc, hn⟩ := hd.nested ha
      obtain ⟨rfl, rfl⟩ := of_pure_eq_ok h
      exact ⟨⟨es, some w, hes⟩, congrArg some hw, hsource, hm.trans (ht.tlv hc hn)⟩

theorem of_implicit?_eq_ok {number : Nat} {constructed : Bool} {d : Nat → Decoder α}
    {y : Option α} (hd : TakesContent octets value d)
    (h : implicit? number constructed d c = .ok (y, c')) :
    ∃ (es : List Element) (x : Option W), (∀ e ∈ es, Passed number e) ∧ x.map value = y ∧
      c.Moves (es.flatMap Element.encode ++
        x.elim [] fun w => tlv (.context constructed number) (octets w)) c' := by
  obtain ⟨s, hs, -, hm⟩ := hd.implicit? h
  exact ⟨s.passed, s.field, s.passed_lt, hs, hm⟩

theorem of_explicit?_eq_ok {number : Nat} {y : Option α} (hd : Takes octets value d)
    (h : explicit? number d c = .ok (y, c')) :
    ∃ (es : List Element) (x : Option W), (∀ e ∈ es, Passed number e) ∧ x.map value = y ∧
      c.Moves (es.flatMap Element.encode ++
        x.elim [] fun w => explicitly number (octets w)) c' := by
  obtain ⟨s, hs, -, hm⟩ := hd.explicit? h
  exact ⟨s.passed, s.field, s.passed_lt, hs, hm⟩

theorem not_passed_zero (e : Element) : ¬ Passed 0 e := by
  rintro ⟨_, _, _, h⟩
  exact Nat.not_lt_zero _ h

theorem eq_nil_of_passed_zero {es : List Element} (h : ∀ e ∈ es, Passed 0 e) : es = [] :=
  List.eq_nil_iff_forall_not_mem.2 fun e he => not_passed_zero e (h e he)

theorem Takes.explicit {number : Nat} (hd : Takes octets value d) :
    Takes (fun w => explicitly number (octets w)) value (explicit number d) := by
  intro c a c' h
  obtain ⟨tag, c₁, ht, h⟩ := bind_eq_ok_iff.1 h
  split at h
  · next found n =>
    have ht := (of_header_eq_ok ht).1
    obtain ⟨b, c₂, hb, h⟩ := bind_eq_ok_iff.1 h
    obtain ⟨w, hw, hc, hn⟩ := hd.nested hb
    by_cases he : found.val = number
    · rw [if_pos he] at h
      obtain ⟨rfl, rfl⟩ := of_pure_eq_ok h
      have hfound : Fin.ofNat 31 number = found := Fin.ext (he ▸ Nat.mod_eq_of_lt found.isLt)
      refine ⟨w, hw, ?_⟩
      dsimp only
      rw [explicitly, Tag.context, hfound]
      exact ht.tlv hc hn
    · rw [if_neg he] at h
      cases h
  · cases h

theorem Takes.of_decode_eq_ok {o : Octets} {a : α} (hd : Takes octets value d)
    (h : d.decode o = .ok a) : o.length ≤ maxLength ∧ ∃ w, value w = a ∧ octets w = o := by
  obtain ⟨hm, c, hc, hr⟩ := Decoder.of_decode_eq_ok h
  obtain ⟨w, hw, hmoves⟩ := hd hc
  exact ⟨hm, w, hw, (hmoves.rest_eq_of_rest_eq_nil hr).symm⟩

theorem takesContent_take : TakesContent id id take := by
  intro n c o c' h
  obtain ⟨hm, hn⟩ := of_take_eq_ok h
  exact ⟨o, rfl, hm, hn⟩

end Decoder

open Decoder

theorem Element.takes_decode : Takes encode id decode := by
  intro c e c' h
  obtain ⟨⟨t, n⟩, c₁, ht, h⟩ := bind_eq_ok_iff.1 h
  obtain ⟨o, c₂, ho, h⟩ := bind_eq_ok_iff.1 h
  obtain ⟨hm, hn⟩ := of_take_eq_ok ho
  obtain ⟨rfl, rfl⟩ := of_pure_eq_ok h
  exact ⟨_, rfl, (of_header_eq_ok ht).1.tlv hm hn⟩

namespace CharacterString

variable {r : Repertoire}

theorem octets_of_ofOctets? {o : Octets} {s : CharacterString r} (h : ofOctets? r o = some s) :
    s.octets = o := by
  unfold ofOctets? at h
  split at h
  · cases h
    rfl
  · cases h

theorem takesContent_value : TakesContent octets id (value r) := by
  intro n c s c' h
  obtain ⟨o, hs, hm, hn⟩ := of_take_ofOption_eq_ok h
  rw [← octets_of_ofOctets? hs] at hm hn
  exact ⟨s, rfl, hm, hn⟩

theorem takes_decode : Takes encode id (decode r) := takesContent_value.expect

end CharacterString

theorem takesContent_utf8Value : TakesContent Utf8.encode id utf8Value := by
  intro n c cs c' h
  obtain ⟨o, hs, hm, hn⟩ := of_take_ofExcept_eq_ok h
  cases hd : Utf8.decode o with
  | error e =>
    rw [hd] at hs
    cases hs
  | ok ds =>
    rw [hd] at hs
    cases hs
    rw [← Utf8.encode_of_decode hd] at hm hn
    exact ⟨cs, rfl, hm, hn⟩

theorem width_ofBigEndian_cons {a : UInt8} (ha : a ≠ 0) {r : Octets} (hr : r.length < 4) :
    width (ofBigEndian (a :: r)) = (a :: r).length := by
  have ha : a.toNat ≠ 0 := fun h => ha (UInt8.toNat_inj.1 h)
  have ha' := a.toNat_lt
  match r, hr with
  | [], _ => grind [width, ofBigEndian]
  | [b], _ =>
    have hb := b.toNat_lt
    grind [width, ofBigEndian]
  | [b, c], _ =>
    have hb := b.toNat_lt
    have hc := c.toNat_lt
    grind [width, ofBigEndian]
  | [b, c, d], _ =>
    have hb := b.toNat_lt
    have hc := c.toNat_lt
    have hd := d.toNat_lt
    grind [width, ofBigEndian]

theorem digits_ofBigEndian_cons {a : UInt8} (ha : a ≠ 0) {r : Octets} (hr : r.length < 4) :
    bigEndian (width (ofBigEndian (a :: r))) (ofBigEndian (a :: r)) = a :: r := by
  rw [width_ofBigEndian_cons ha hr, bigEndian_ofBigEndian]

theorem ofBigEndian_lt {o : Octets} (h : o.length ≤ 4) : ofBigEndian o < 0x100000000 := by
  match o, h with
  | [], _ => decide
  | [a], _ =>
    have ha := a.toNat_lt
    simp only [ofBigEndian, List.foldl]
    omega
  | [a, b], _ =>
    have ha := a.toNat_lt
    have hb := b.toNat_lt
    simp only [ofBigEndian, List.foldl]
    omega
  | [a, b, c], _ =>
    have ha := a.toNat_lt
    have hb := b.toNat_lt
    have hc := c.toNat_lt
    simp only [ofBigEndian, List.foldl]
    omega
  | [a, b, c, d], _ =>
    have ha := a.toNat_lt
    have hb := b.toNat_lt
    have hc := c.toNat_lt
    have hd := d.toNat_lt
    simp only [ofBigEndian, List.foldl]
    omega

theorem of_unsigned_eq_ok {o : Octets} {n : Nat} (h : unsigned 4 o = .ok n) :
    unsignedContent n = o ∧ n < 0x100000000 := by
  unfold unsigned at h
  split at h
  · cases h
  · next b =>
    split at h
    · next hb =>
      cases h
      have hb : b.toNat < 0x80 := UInt8.lt_iff_toNat_lt.1 hb
      have hwidth : width b.toNat = 1 := by grind [width]
      refine ⟨?_, by omega⟩
      simp [unsignedContent, hwidth, bigEndian]
      omega
    · cases h
  · next a b r =>
    split at h
    · next ha =>
      split at h
      · cases h
      · next hb =>
        split at h
        · cases h
        · next hl =>
          cases h
          have hl : (b :: r).length ≤ 4 := Nat.not_lt.1 hl
          have hne : b ≠ 0 := fun hz => hb (hz ▸ by decide)
          refine ⟨?_, ofBigEndian_lt hl⟩
          rw [unsignedContent, digits_ofBigEndian_cons hne hl, ha]
          simp [UInt8.not_lt.1 hb]
    · next ha =>
      split at h
      · cases h
      · next hb =>
        split at h
        · cases h
        · next hl =>
          cases h
          have hl : (a :: b :: r).length ≤ 4 := Nat.not_lt.1 hl
          refine ⟨?_, ofBigEndian_lt hl⟩
          rw [unsignedContent, digits_ofBigEndian_cons ha hl]
          simp [hb]

theorem takesContent_unsignedValue :
    TakesContent (fun n : Fin 0x100000000 => unsignedContent n.val) (·.val) (unsignedValue 4) := by
  intro n c m c' h
  unfold unsignedValue at h
  split at h
  · cases h
  · obtain ⟨o, hu, hm, hn⟩ := of_take_ofExcept_eq_ok h
    obtain ⟨rfl, hlt⟩ := of_unsigned_eq_ok hu
    exact ⟨⟨m, hlt⟩, rfl, hm, hn⟩

end TrustAnchors.Der
