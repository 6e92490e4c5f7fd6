import TrustAnchors.Proofs.Name.AttributeKeys
import TrustAnchors.Proofs.Name.LenientInversion
import TrustAnchors.Proofs.Utf8.Boundary

/-!
# Octets that no name goes on with

The reader finds an octet unexpected only behind a value in quotes or in hexadecimal and the spaces
after it. What comes before that octet is a name already, and it ends in an octet of ASCII, so that
the offset of the fault is a boundary of the text (`normalize_unexpected`). The message shows the
octet as the character with its number, which need not be the character that starts there.
-/

namespace TrustAnchors.Name.Lenient

open Ascii

theorem toDigits_inj {m n : Nat} (h : Nat.toDigits 10 m = Nat.toDigits 10 n) : m = n := by
  have hvalue := congrArg (fun ds => Nat.ofDigitChars 10 ds 0) h
  simpa only [Nat.ofDigitChars_ten_toDigits] using hvalue

/-- Only an unexpected octet has a message of this form. -/
theorem Fault.of_message_eq_unexpected {fault : Fault} {c : Char} {k : Nat}
    (h : fault.message = s!"unexpected '{c}' at offset {k}") :
    ∃ b, fault = .unexpected b k ∧ Char.ofUInt8 b = c := by
  have hchars := congrArg String.toList h
  unfold Fault.message at hchars
  cases fault with
  | unexpected b j =>
    dsimp only at hchars
    simp [toString] at hchars
    exact ⟨b, by rw [toDigits_inj hchars.2], hchars.1⟩
  | _ => simp [toString] at hchars

def Fault.isUnexpected : Fault → Bool
  | unexpected _ _ => true
  | _ => false

theorem not_isUnexpected_of_readType {c : Cursor} {e : Fault} (h : readType c = .error e) :
    e.isUnexpected = false := by
  unfold readType at h
  split at h
  · split at h <;> cases h
    rfl
  · cases h
    rfl

theorem not_isUnexpected_of_readPieces {isEnd : UInt8 → Bool} {i : Nat} {o : Octets} {e : Fault}
    (h : readPieces isEnd i o = .error e) : e.isUnexpected = false := by
  fun_induction readPieces isEnd i o with
  | case4 i b r hb hend ih => exact ih (Except.map_eq_error_iff.1 h)
  | case8 i x hx high hhigh y r low hlow hend ih => exact ih (Except.map_eq_error_iff.1 h)
  | case9 i b r hend hb ih => exact ih (Except.map_eq_error_iff.1 h)
  | _ => cases h <;> rfl

theorem not_isUnexpected_of_readValue {c : Cursor} {e : Fault} (h : readValue c = .error e) :
    e.isUnexpected = false := by
  unfold readValue at h
  split at h
  · unfold readHex at h
    split at h <;> cases h
    rfl
  · rcases Except.bind_eq_error_iff.1 h with h | ⟨⟨ps, after⟩, -, h⟩
    · exact not_isUnexpected_of_readPieces h
    · dsimp only at h
      split at h <;> cases h
      rfl
  · rcases Except.bind_eq_error_iff.1 h with h | ⟨⟨ps, after⟩, -, h⟩
    · exact not_isUnexpected_of_readPieces h
    · cases h

theorem not_isUnexpected_of_readAssignment {c : Cursor} {e : Fault}
    (h : readAssignment c = .error e) : e.isUnexpected = false := by
  rcases Except.bind_eq_error_iff.1 h with h | ⟨⟨type, c₁⟩, -, h⟩
  · exact not_isUnexpected_of_readType h
  · rcases Except.bind_eq_error_iff.1 h with h | ⟨⟨v, c₂⟩, -, h⟩
    · exact not_isUnexpected_of_readValue h
    · cases h

def EndsInAscii (o : Octets) : Prop := ∃ p x, o = p ++ [x] ∧ x < 0x80

theorem EndsInAscii.append_left {o : Octets} (h : EndsInAscii o) (p : Octets) :
    EndsInAscii (p ++ o) := by
  obtain ⟨q, x, rfl, hx⟩ := h
  exact ⟨p ++ q, x, (List.append_assoc p q [x]).symm, hx⟩

theorem EndsInAscii.cons {o : Octets} (h : EndsInAscii o) (b : UInt8) : EndsInAscii (b :: o) :=
  h.append_left [b]

theorem EndsInAscii.append_spaces {o s : Octets} (h : EndsInAscii o) (hs : IsSpaces s) :
    EndsInAscii (o ++ s) := by
  rcases List.eq_nil_or_concat s with rfl | ⟨s, x, rfl⟩
  · rwa [List.append_nil]
  · have hx : x = space := hs x (by simp)
    exact ⟨o ++ s, x, by simp, by rw [hx]; decide⟩

/-- Only a value in quotes or in hexadecimal comes before an octet that is no separator. -/
theorem SpellsValueBefore.endsInAscii {b : UInt8} {v : Value} {o : Octets}
    (h : SpellsValueBefore (some b) v o) (hb : isSeparator b = false) : EndsInAscii o := by
  cases h with
  | @hex digits s hne hd hs =>
    obtain ⟨p, x, rfl⟩ := (List.eq_nil_or_concat digits).resolve_left hne
    have hdigits : EndsInAscii (p.concat x) := ⟨p, x, by simp, lt_of_isHexDigit (hd x (by simp))⟩
    exact (hdigits.append_spaces hs).cons numberSign
  | @quoted ps o s hp hs =>
    have hquote : EndsInAscii [quote] := ⟨[], quote, rfl, by decide⟩
    exact ((hquote.append_spaces hs).append_left o).cons quote
  | bare hp ho hnext =>
    have hsep := hnext b rfl
    rw [hb] at hsep
    cases hsep

theorem SpellsAssignmentBefore.endsInAscii {b : UInt8} {a : Assignment} {o : Octets}
    (h : SpellsAssignmentBefore (some b) a o) (hb : isSeparator b = false) : EndsInAscii o := by
  cases h with
  | @mk s₁ t s₂ s₃ o v h₁ ht h₂ h₃ hv =>
    have hvalue := ((hv.endsInAscii hb).append_left s₃).cons equals
    exact ((hvalue.append_left s₂).append_left t).append_left s₁

/-- A name that cannot go on with the given octet. -/
structure Rejects (b : UInt8) (p : Octets) : Prop where
  spells : ∃ gs, Spells gs p
  endsInAscii : EndsInAscii p
  rejected : ∀ i r, readRelatives ⟨i, p ++ b :: r⟩ = .error (.unexpected b (i + p.length))

theorem Rejects.single {b : UInt8} {a : Assignment} {o : Octets}
    (h : SpellsAssignmentBefore (some b) a o) (hb : isSeparator b = false) : Rejects b o where
  spells := ⟨[[a]], .single (.single h.spells)⟩
  endsInAscii := h.endsInAscii hb
  rejected := by
    intro i r
    have hplus : b ≠ plus := by
      rintro rfl
      exact absurd hb (by decide)
    rw [readRelatives_eq (readAssignment_of_before (r := b :: r) h i)]
    simp only [if_neg hplus, hb, Bool.false_eq_true, if_false]

theorem Rejects.cons {b s : UInt8} {a : Assignment} {o p : Octets} (ha : SpellsAssignment a o)
    (hs : isSeparator s = true) (h : Rejects b p) : Rejects b (o ++ s :: p) where
  spells := by
    obtain ⟨gs, hgs⟩ := h.spells
    by_cases hplus : s = plus
    · subst hplus
      exact ⟨join a gs, spells_join ha hgs⟩
    · exact ⟨[a] :: gs, .cons (.single ha) (by simpa [isSeparator, hplus] using hs) hgs⟩
  endsInAscii := (h.endsInAscii.cons s).append_left o
  rejected := by
    intro i r
    have hends : EndsAssignment (s :: (p ++ b :: r)) := by
      rintro _ ⟨⟩
      exact hs
    have hoffset : i + (o ++ s :: p).length = i + o.length + 1 + p.length := by
      simp only [List.length_append, List.length_cons]
      omega
    have hrest := h.rejected (i + o.length + 1) r
    rw [List.append_assoc, List.cons_append,
      readRelatives_eq (readAssignment_of_spells ha hends i), hoffset]
    dsimp only
    by_cases hplus : s = plus
    · rw [if_pos hplus]
      exact Except.map_eq_error_iff.2 hrest
    · rw [if_neg hplus, if_pos hs]
      exact Except.map_eq_error_iff.2 hrest

/-- The text at the cursor is a name and then, at offset `k`, an octet that it cannot go on with. -/
def StopsAt (c : Cursor) (b : UInt8) (k : Nat) : Prop :=
  ∃ p r, c.rest = p ++ b :: r ∧ k = c.offset + p.length ∧ Rejects b p

theorem StopsAt.cons {c after : Cursor} {a : Assignment} {b s : UInt8} {r : Octets} {k : Nat}
    (ha : readAssignment c = .ok (a, after)) (hr : after.rest = s :: r)
    (hs : isSeparator s = true) (h : StopsAt ⟨after.offset + 1, r⟩ b k) : StopsAt c b k := by
  obtain ⟨o, ho, hpasses⟩ := of_readAssignment_eq_ok ha
  obtain ⟨p, q, rfl, rfl, hp⟩ := h
  refine ⟨o ++ s :: p, q, ?_, ?_, hp.cons ho.spells hs⟩
  · rw [hpasses.rest_eq, hr, List.append_assoc, List.cons_append]
  · simp only [hpasses.offset_eq, List.length_append, List.length_cons]
    omega

theorem stopsAt_of_readRelatives {c : Cursor} {b : UInt8} {k : Nat}
    (h : readRelatives c = .error (.unexpected b k)) : StopsAt c b k := by
  fun_induction readRelatives c with
  | case1 c e he =>
    cases h
    cases not_isUnexpected_of_readAssignment he
  | case2 c a after ha hr => cases h
  | case3 c a after ha r hr hlt ih =>
    exact .cons ha hr (by decide) (ih (Except.map_eq_error_iff.1 h))
  | case4 c a after ha s r hr hlt hplus hsep ih =>
    exact .cons ha hr hsep (ih (Except.map_eq_error_iff.1 h))
  | case5 c a after ha s r hr hlt hplus hsep =>
    cases h
    obtain ⟨o, ho, hpasses⟩ := of_readAssignment_eq_ok ha
    rw [hr] at ho
    exact ⟨o, r, by rw [hpasses.rest_eq, hr], hpasses.offset_eq,
      .single ho (Bool.eq_false_iff.2 hsep)⟩

/-- The first octet of a character has the number of the character in ASCII only, and for U+00C3,
whose octets are C3 and 83. -/
theorem ofUInt8_head_eq_iff {d : Char} {b : UInt8} {r : Octets}
    (h : String.utf8EncodeChar d = b :: r) :
    Char.ofUInt8 b = d ↔ d.toNat < 0x80 ∨ d = 'Ã' := by
  have hhead : (String.utf8EncodeChar d).head? = some b := by rw [h, List.head?_cons]
  constructor
  · -- The character is given by the octet, so that there are 256 cases.
    rintro rfl
    revert hhead
    refine forall_octet (P := fun b => (String.utf8EncodeChar (Char.ofUInt8 b)).head? = some b →
      (Char.ofUInt8 b).toNat < 0x80 ∨ Char.ofUInt8 b = 'Ã') ?_ b
    decide +kernel
  · have hshown : (String.utf8EncodeChar d).head?.map Char.ofUInt8 = some d →
        Char.ofUInt8 b = d := by
      rw [hhead]
      exact Option.some.inj
    rintro (hd | rfl)
    · refine hshown (Utf8.forall_ascii (P := fun d =>
        (String.utf8EncodeChar d).head?.map Char.ofUInt8 = some d) ?_ hd)
      decide +kernel
    · exact hshown (by decide)

/-- Octets that end in one of ASCII are those of some first characters, and the octet behind them
is the first one of a character. -/
theorem EndsInAscii.exists_chars {cs : List Char} {p r : Octets} {b : UInt8} (hp : EndsInAscii p)
    (h : Utf8.encode cs = p ++ b :: r) :
    ∃ before d after t, cs = before ++ d :: after ∧ Utf8.encode before = p ∧
      String.utf8EncodeChar d = b :: t := by
  obtain ⟨q, x, rfl, hx⟩ := hp
  have hget : (Utf8.encode cs)[q.length]? = some x := by simp [h]
  obtain ⟨before, es, rfl, hlength⟩ := (Utf8.isBoundary_of_lt hget hx).2
  rw [Utf8.encode_append] at h
  obtain ⟨hbefore, hes⟩ := List.append_inj h (by simpa using hlength)
  cases es with
  | nil => cases hes
  | cons d after =>
    obtain ⟨a, t, hd, -⟩ := Utf8.utf8EncodeChar_spec d
    rw [Utf8.encode_cons, hd] at hes
    cases hes
    exact ⟨before, d, after, t, rfl, hbefore, hd⟩

/-- An unexpected octet starts a character of the text, behind a name and with any text after it.
The message shows this character if it is one of ASCII, or U+00C3. -/
theorem normalize_unexpected {text : String} {fault : Fault} {c : Char} {k : Nat}
    (h : normalize (Utf8.encode text.toList) = .error fault)
    (hm : fault.message = s!"unexpected '{c}' at offset {k}") :
    ∃ before d after, text.toList = before ++ d :: after ∧ (Utf8.encode before).length = k ∧
      (∃ strict, normalize (Utf8.encode before) = .ok strict) ∧
      (∀ other, normalize (Utf8.encode (before ++ d :: other)) = .error fault) ∧
      (c = d ↔ d.toNat < 0x80 ∨ d = 'Ã') := by
  obtain ⟨b, rfl, rfl⟩ := Fault.of_message_eq_unexpected hm
  obtain ⟨p, r, hrest, hk, hp⟩ := stopsAt_of_readRelatives (Except.map_eq_error_iff.1 h)
  obtain ⟨before, d, after, t, htext, rfl, hd⟩ := hp.endsInAscii.exists_chars hrest
  obtain ⟨gs, hgs⟩ := hp.spells
  refine ⟨before, d, after, htext, by simpa using hk.symm, ⟨render gs, normalize_of_spells hgs⟩,
    fun other => ?_, ofUInt8_head_eq_iff hd⟩
  rw [Utf8.encode_append, Utf8.encode_cons, hd, List.cons_append, hk]
  exact Except.map_eq_error_iff.2 (hp.rejected 0 _)

theorem normalize_unexpected_letter :
    normalize (Utf8.encode "a=#0, é = \"q\" xé".toList) = .error (.unexpected 0x78 15) ∧
      (Fault.unexpected 0x78 15).message = "unexpected 'x' at offset 15" ∧
      ∃ before d after, "a=#0, é = \"q\" xé".toList = before ++ d :: after ∧
        (Utf8.encode before).length = 15 ∧
        (∃ strict, normalize (Utf8.encode before) = .ok strict) ∧
        (∀ other, normalize (Utf8.encode (before ++ d :: other)) =
          .error (.unexpected 0x78 15)) ∧
        ('x' = d ↔ d.toNat < 0x80 ∨ d = 'Ã') := by
  have h : normalize (Utf8.encode "a=#0, é = \"q\" xé".toList) =
      .error (.unexpected 0x78 15) := by
    decide +kernel
  have hm : (Fault.unexpected 0x78 15).message = "unexpected 'x' at offset 15" := rfl
  exact ⟨h, hm, normalize_unexpected h hm⟩

/-- An octet is shown as a character that is nowhere in the text. -/
theorem normalize_unexpected_accent :
    normalize (Utf8.encode "CN=\"q\"é".toList) = .error (.unexpected 0xc3 6) ∧
      (Fault.unexpected 0xc3 6).message = "unexpected 'Ã' at offset 6" ∧
      "CN=\"q\"é".toList = "CN=\"q\"".toList ++ ['é'] ∧
      (Utf8.encode "CN=\"q\"".toList).length = 6 ∧
      ¬ 'Ã' ∈ "CN=\"q\"é".toList := by
  decide +kernel

end TrustAnchors.Name.Lenient
