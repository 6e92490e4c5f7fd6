import TrustAnchors.Except
import TrustAnchors.Utf8

/-!
# Decoded characters encode to the octets they came from

The decoder refuses overlong forms, surrogates and numbers that are too large, so each sequence that
it accepts is the one sequence of its character (`encode_of_decode`).
-/

namespace TrustAnchors.Utf8

theorem toNat_val_ofNat {n : Nat} (h : n.isValidChar) : (Char.ofNat n).val.toNat = n := by
  rw [Char.ofNat, dif_pos h]
  rfl

theorem toNat_payload (b : UInt8) : payload b = b.toNat % 64 := rfl

theorem isContinuation_iff {b : UInt8} :
    isContinuation b = true ↔ 0x80 ≤ b.toNat ∧ b.toNat ≤ 0xbf := by
  simp [isContinuation, UInt8.le_iff_toNat_le]

theorem continues_spec {low least high most a b : UInt8} (hleast : 0x80 ≤ least.toNat)
    (hmost : most.toNat ≤ 0xbf) (hne : high.toNat ≠ low.toNat)
    (h : continues low least high most a b = true) :
    0x80 ≤ b.toNat ∧ b.toNat ≤ 0xbf ∧ (a.toNat = low.toNat → least.toNat ≤ b.toNat) ∧
      (a.toNat = high.toNat → b.toNat ≤ most.toNat) := by
  unfold continues at h
  split at h
  · next ha =>
    subst ha
    simp only [Bool.and_eq_true, decide_eq_true_eq, UInt8.le_iff_toNat_le, UInt8.reduceToNat] at h
    omega
  · next ha =>
    have ha : a.toNat ≠ low.toNat := fun he => ha (UInt8.toNat_inj.1 he)
    split at h
    · simp only [Bool.and_eq_true, decide_eq_true_eq, UInt8.le_iff_toNat_le,
        UInt8.reduceToNat] at h
      omega
    · next ha' =>
      have ha' : a.toNat ≠ high.toNat := fun he => ha' (UInt8.toNat_inj.1 he)
      have hb := isContinuation_iff.1 h
      omega

theorem utf8EncodeChar_one {a : UInt8} (ha : a < 0x80) :
    String.utf8EncodeChar (Char.ofUInt8 a) = [a] := by
  have ha : a.toNat < 0x80 := UInt8.lt_iff_toNat_lt.1 ha
  have hv : (Char.ofUInt8 a).val.toNat = a.toNat := rfl
  rw [String.utf8EncodeChar, hv]
  simp only [if_pos (show a.toNat ≤ 0x7f by omega), UInt8.ofNat_toNat]

theorem utf8EncodeChar_two {a b : UInt8} (ha : 0xc2 ≤ a) (ha' : a < 0xe0)
    (hb : isContinuation b = true) :
    String.utf8EncodeChar (Char.ofNat ((a % 32).toNat * 64 + payload b)) = [a, b] := by
  have ha : 0xc2 ≤ a.toNat := UInt8.le_iff_toNat_le.1 ha
  have ha' : a.toNat < 0xe0 := UInt8.lt_iff_toNat_lt.1 ha'
  have hb := isContinuation_iff.1 hb
  have hmod : (a % 32).toNat = a.toNat % 32 := rfl
  rw [toNat_payload, hmod]
  have hv := toNat_val_ofNat (n := a.toNat % 32 * 64 + b.toNat % 64) (.inl (by omega))
  rw [String.utf8EncodeChar, hv]
  simp only [if_neg (show ¬ a.toNat % 32 * 64 + b.toNat % 64 ≤ 0x7f by omega),
    if_pos (show a.toNat % 32 * 64 + b.toNat % 64 ≤ 0x7ff by omega)]
  simp only [List.cons.injEq, ← UInt8.toNat_inj, UInt8.toNat_ofNat', and_true]
  omega

theorem utf8EncodeChar_three {a b c : UInt8} (ha : 0xe0 ≤ a) (ha' : a < 0xf0)
    (hb : continuesThree a b = true) (hc : isContinuation c = true) :
    String.utf8EncodeChar
      (Char.ofNat (((a % 16).toNat * 64 + payload b) * 64 + payload c)) = [a, b, c] := by
  have ha : 0xe0 ≤ a.toNat := UInt8.le_iff_toNat_le.1 ha
  have ha' : a.toNat < 0xf0 := UInt8.lt_iff_toNat_lt.1 ha'
  obtain ⟨hb, hb', he0, hed⟩ : 0x80 ≤ b.toNat ∧ b.toNat ≤ 0xbf ∧
      (a.toNat = 0xe0 → 0xa0 ≤ b.toNat) ∧ (a.toNat = 0xed → b.toNat ≤ 0x9f) :=
    continues_spec (by decide) (by decide) (by decide) hb
  have hc := isContinuation_iff.1 hc
  have hmod : (a % 16).toNat = a.toNat % 16 := rfl
  rw [toNat_payload, toNat_payload, hmod]
  generalize hn : (a.toNat % 16 * 64 + b.toNat % 64) * 64 + c.toNat % 64 = n
  have hv := toNat_val_ofNat (n := n) (by unfold Nat.isValidChar; omega)
  rw [String.utf8EncodeChar, hv]
  simp only [if_neg (show ¬ n ≤ 0x7f by omega), if_neg (show ¬ n ≤ 0x7ff by omega),
    if_pos (show n ≤ 0xffff by omega)]
  simp only [List.cons.injEq, ← UInt8.toNat_inj, UInt8.toNat_ofNat', and_true]
  omega

theorem utf8EncodeChar_four {a b c d : UInt8} (ha : 0xf0 ≤ a) (ha' : a < 0xf5)
    (hb : continuesFour a b = true) (hc : isContinuation c = true) (hd : isContinuation d = true) :
    String.utf8EncodeChar (Char.ofNat
      ((((a % 8).toNat * 64 + payload b) * 64 + payload c) * 64 + payload d)) = [a, b, c, d] := by
  have ha : 0xf0 ≤ a.toNat := UInt8.le_iff_toNat_le.1 ha
  have ha' : a.toNat < 0xf5 := UInt8.lt_iff_toNat_lt.1 ha'
  obtain ⟨hb, hb', hf0, hf4⟩ : 0x80 ≤ b.toNat ∧ b.toNat ≤ 0xbf ∧
      (a.toNat = 0xf0 → 0x90 ≤ b.toNat) ∧ (a.toNat = 0xf4 → b.toNat ≤ 0x8f) :=
    continues_spec (by decide) (by decide) (by decide) hb
  have hc := isContinuation_iff.1 hc
  have hd := isContinuation_iff.1 hd
  have hmod : (a % 8).toNat = a.toNat % 8 := rfl
  rw [toNat_payload, toNat_payload, toNat_payload, hmod]
  generalize hn :
    ((a.toNat % 8 * 64 + b.toNat % 64) * 64 + c.toNat % 64) * 64 + d.toNat % 64 = n
  have hv := toNat_val_ofNat (n := n) (by unfold Nat.isValidChar; omega)
  rw [String.utf8EncodeChar, hv]
  simp only [if_neg (show ¬ n ≤ 0x7f by omega), if_neg (show ¬ n ≤ 0x7ff by omega),
    if_neg (show ¬ n ≤ 0xffff by omega)]
  simp only [List.cons.injEq, ← UInt8.toNat_inj, UInt8.toNat_ofNat', and_true]
  omega

/-- What holds of 128 numbers holds of every ASCII character. -/
theorem forall_ascii {P : Char → Prop} (h : ∀ k : Fin 128, P (Char.ofNat k)) {c : Char}
    (hc : c.toNat < 0x80) : P c := by
  simpa using h ⟨c.toNat, hc⟩

/-- The octets of any other character are none of ASCII. -/
theorem le_of_mem_utf8EncodeChar {c : Char} (hc : 0x80 ≤ c.toNat) {b : UInt8}
    (hb : b ∈ String.utf8EncodeChar c) : 0x80 ≤ b := by
  have hv : 0x80 ≤ c.val.toNat := hc
  have hmax : c.val.toNat < 0x110000 := by
    rcases c.valid with h | h
    · exact Nat.lt_trans h (by decide)
    · exact h.2
  rw [UInt8.le_iff_toNat_le]
  unfold String.utf8EncodeChar at hb
  simp only [if_neg (show ¬ c.val.toNat ≤ 0x7f by omega)] at hb
  split at hb
  · simp only [List.mem_cons, List.not_mem_nil, or_false] at hb
    rcases hb with rfl | rfl <;> simp only [UInt8.toNat_ofNat', UInt8.reduceToNat] <;> omega
  · split at hb
    · simp only [List.mem_cons, List.not_mem_nil, or_false] at hb
      rcases hb with rfl | rfl | rfl <;>
        simp only [UInt8.toNat_ofNat', UInt8.reduceToNat] <;> omega
    · simp only [List.mem_cons, List.not_mem_nil, or_false] at hb
      rcases hb with rfl | rfl | rfl | rfl <;>
        simp only [UInt8.toNat_ofNat', UInt8.reduceToNat] <;> omega

theorem encode_ne_nil {cs : List Char} (h : cs ≠ []) : encode cs ≠ [] := by
  obtain ⟨c, cs, rfl⟩ := List.exists_cons_of_ne_nil h
  simp [String.utf8EncodeChar_ne_nil]

theorem encode_chars {o : Octets} (h : ∀ b ∈ o, b < 0x80) : encode (Ascii.chars o) = o := by
  induction o with
  | nil => rfl
  | cons b o ih =>
    have ih := ih fun c hc => h c (List.mem_cons_of_mem b hc)
    change encode (Char.ofUInt8 b :: Ascii.chars o) = b :: o
    rw [encode_cons, utf8EncodeChar_one (h b List.mem_cons_self), ih, List.singleton_append]

theorem encode_intercalate (separator : List Char) (parts : List (List Char)) :
    encode (separator.intercalate parts) = (encode separator).intercalate (parts.map encode) := by
  induction parts with
  | nil => rfl
  | cons p ps ih =>
    cases ps with
    | nil => simp
    | cons q qs =>
      rw [List.intercalate_cons_cons, List.map_cons, List.map_cons, List.intercalate_cons_cons,
        encode_append, encode_append, ih, List.map_cons]

theorem encode_of_decodeFrom {i : Nat} {o : Octets} {cs : List Char}
    (h : decodeFrom i o = .ok cs) : encode cs = o := by
  fun_induction decodeFrom i o generalizing cs with
  | case1 =>
    cases h
    rfl
  | case2 i a r ha ih =>
    obtain ⟨ds, hds, rfl⟩ := Except.map_eq_ok_iff.1 h
    rw [encode_cons, utf8EncodeChar_one ha, ih hds]
    rfl
  | case5 i a _ ha ha' b r hb ih =>
    obtain ⟨ds, hds, rfl⟩ := Except.map_eq_ok_iff.1 h
    rw [encode_cons, utf8EncodeChar_two (UInt8.not_lt.1 ha) ha' hb, ih hds]
    rfl
  | case9 i a _ _ ha ha' b hb c r hc ih =>
    obtain ⟨ds, hds, rfl⟩ := Except.map_eq_ok_iff.1 h
    rw [encode_cons, utf8EncodeChar_three (UInt8.not_lt.1 ha) ha' hb hc, ih hds]
    rfl
  | case15 i a _ _ _ ha ha' b hb c hc d r hd ih =>
    obtain ⟨ds, hds, rfl⟩ := Except.map_eq_ok_iff.1 h
    rw [encode_cons, utf8EncodeChar_four (UInt8.not_lt.1 ha) ha' hb hc hd, ih hds]
    rfl
  | _ => cases h

theorem encode_of_decode {o : Octets} {cs : List Char} (h : decode o = .ok cs) : encode cs = o :=
  encode_of_decodeFrom h

end TrustAnchors.Utf8
