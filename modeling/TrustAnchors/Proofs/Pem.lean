import TrustAnchors.Pem
import TrustAnchors.Proofs.Base64

/-!
# Messages that were written

The parts of a written message are found again one after the other: its boundaries, its label, its
lines, and the digits in them. So a message that was written with line feeds, or with carriage
returns and line feeds, is read with its label and with all of its octets (`Pem.decode_encode`).
-/

namespace TrustAnchors.Pem

open Ascii

theorem dropStart?_append (start r : Octets) : dropStart? start (start ++ r) = some r := by
  have hp : start.isPrefixOf (start ++ r) = true := List.isPrefixOf_iff_prefix.2 ⟨r, rfl⟩
  rw [dropStart?, if_pos hp, List.drop_left]

theorem dropFinal?_append (o final : Octets) : dropFinal? final (o ++ final) = some o := by
  have hs : final.isSuffixOf (o ++ final) = true := List.isSuffixOf_iff_suffix.2 ⟨o, rfl⟩
  rw [dropFinal?, if_pos hs, List.length_append, Nat.add_sub_cancel, List.take_left]

theorem dropFinal?_eq_none {final o : Octets} (h : ¬ final <:+ o) : dropFinal? final o = none :=
  if_neg fun hs => h (List.isSuffixOf_iff_suffix.1 hs)

/-- Ends of line that are written. -/
inductive IsLineEnd : Octets → Prop
  | lineFeed : IsLineEnd [lineFeed]
  | both : IsLineEnd [carriageReturn, lineFeed]

variable {lineEnd : Octets}

theorem IsLineEnd.dropLineStart?_append (h : IsLineEnd lineEnd) (r : Octets) :
    dropLineStart? (lineEnd ++ r) = some r := by
  cases h <;> rfl

/-- A single line feed is not taken for one half of an end of line. -/
theorem IsLineEnd.dropLineEnd?_append (h : IsLineEnd lineEnd) {o : Octets} {b : UInt8}
    (ho : o.getLast? = some b) (hb : b ≠ carriageReturn) :
    dropLineEnd? (o ++ lineEnd) = some o := by
  cases h with
  | both => rw [dropLineEnd?, dropFinal?_append]; rfl
  | lineFeed =>
    have hnone : dropFinal? [carriageReturn, Ascii.lineFeed] (o ++ [Ascii.lineFeed]) = none := by
      refine dropFinal?_eq_none ?_
      rintro ⟨p, hp⟩
      have hp : (p ++ [carriageReturn]) ++ [Ascii.lineFeed] = o ++ [Ascii.lineFeed] := by
        rw [List.append_assoc]
        exact hp
      have ho' := List.append_cancel_right hp
      rw [← ho', List.getLast?_concat] at ho
      exact hb (Option.some.inj ho).symm
    rw [dropLineEnd?, hnone, dropFinal?_append]
    rfl

theorem dropLineEnd?_eq_none {o : Octets} (h : ∀ b ∈ o, b ≠ carriageReturn ∧ b ≠ lineFeed) :
    dropLineEnd? o = none := by
  have hnone {final : Octets} {b : UInt8} (hb : b ∈ final) (hb' : b = carriageReturn ∨ b = lineFeed) :
      dropFinal? final o = none := by
    refine dropFinal?_eq_none fun hs => ?_
    exact hb'.elim (h b (hs.mem hb)).1 (h b (hs.mem hb)).2
  rw [dropLineEnd?, hnone List.mem_cons_self (.inl rfl), hnone List.mem_cons_self (.inr rfl),
    hnone List.mem_cons_self (.inl rfl)]
  rfl

/-- The lines without the last end of line. -/
def body (lineEnd : Octets) (digits : Octets) : Octets :=
  if digits.length ≤ lineLength then digits
  else digits.take lineLength ++ lineEnd ++ body lineEnd (digits.drop lineLength)
termination_by digits.length
decreasing_by
  rw [List.length_drop, lineLength]
  simp only [lineLength] at *
  omega

theorem lines_eq_body_append (lineEnd : Octets) {digits : Octets} (h : digits ≠ []) :
    lines lineEnd digits = body lineEnd digits ++ lineEnd := by
  induction digits using lines.induct with
  | case1 => exact absurd rfl h
  | case2 b r ih =>
    rw [lines, body]
    split
    · next hle =>
      rw [List.take_of_length_le hle, List.drop_of_length_le hle, lines, List.append_nil]
    · next hlt =>
      have hdrop : (b :: r).drop lineLength ≠ [] := by
        intro he
        exact hlt (List.drop_eq_nil_iff.1 he)
      rw [ih hdrop, List.append_assoc _ (body _ _)]

theorem getLast?_body (lineEnd : Octets) (digits : Octets) :
    (body lineEnd digits).getLast? = digits.getLast? := by
  induction digits using body.induct with
  | case1 digits hle => rw [body, if_pos hle]
  | case2 digits hlt ih =>
    have hdrop : digits.drop lineLength ≠ [] := fun he => hlt (List.drop_eq_nil_iff.1 he)
    obtain ⟨b, hb⟩ := Option.ne_none_iff_exists'.1 (mt List.getLast?_eq_none_iff.1 hdrop)
    rw [body, if_neg hlt, List.getLast?_append, ih, hb, Option.some_or]
    conv => rhs; rw [← List.take_append_drop lineLength digits]
    rw [List.getLast?_append, hb, Option.some_or]

theorem joinLines_body (hend : IsLineEnd lineEnd) {digits : Octets} (hne : digits ≠ [])
    (h : ∀ b ∈ digits, b ≠ carriageReturn ∧ b ≠ lineFeed) (k : Nat)
    (hk : (body lineEnd digits).length ≤ k) :
    joinLines k (body lineEnd digits) = some (digits, false) := by
  induction digits using body.induct generalizing k with
  | case1 digits hle =>
    rw [body, if_pos hle] at hk ⊢
    cases k with
    | zero => exact absurd (List.length_eq_zero_iff.1 (Nat.le_zero.1 hk)) hne
    | succ k =>
      have hempty : digits.isEmpty = false := by simpa using hne
      simp [joinLines, if_pos hle, dropLineEnd?_eq_none h, hempty]
  | case2 digits hlt ih =>
    have hdrop : digits.drop lineLength ≠ [] := fun he => hlt (List.drop_eq_nil_iff.1 he)
    have htake : (digits.take lineLength).length = lineLength := by
      rw [List.length_take, Nat.min_eq_left (Nat.le_of_not_le hlt)]
    rw [body, if_neg hlt, List.append_assoc] at hk ⊢
    have hline : 0 < lineLength := by decide
    have hends : 0 < lineEnd.length := by cases hend <;> decide
    have hlong : ¬ (digits.take lineLength ++
        (lineEnd ++ body lineEnd (digits.drop lineLength))).length ≤ lineLength := by
      rw [List.length_append, List.length_append, htake]
      omega
    rw [List.length_append, List.length_append, htake] at hk
    obtain ⟨k, rfl⟩ := Nat.exists_eq_add_one.2 (show 0 < k by omega)
    have hrest := ih hdrop (fun b hb => h b (List.mem_of_mem_drop hb)) k (by omega)
    rw [joinLines, if_neg hlong, List.drop_left' htake, List.take_left' htake,
      hend.dropLineStart?_append, Option.bind_eq_bind, Option.bind_some, hrest,
      Option.bind_eq_bind, Option.bind_some]
    simp only [Option.pure_def, List.take_append_drop]

theorem decodeBody_body (hend : IsLineEnd lineEnd) {d : Octets} (hd : d ≠ []) :
    decodeBody (body lineEnd (Base64.encode d)) = .ok ⟨d, none⟩ := by
  have hne := Base64.encode_ne_nil hd
  have hlines := joinLines_body hend hne (fun _ hb => Base64.not_lineEnd_of_mem_encode hb) _
    (Nat.le_refl _)
  have hdecode := Base64.decode_encode hd
  obtain ⟨b, r, hdigits⟩ := List.exists_cons_of_ne_nil hne
  rw [hdigits] at hlines hdecode
  rw [hdigits, decodeBody, hlines]
  simp only [Bool.not_false, hdecode, Option.map_none]

theorem labelRun_append {label : Octets} (h : ∀ b ∈ label, isLabelOctet b = true) (k : Bool)
    (r : Octets) : labelRun k (label ++ dash :: r) = label := by
  induction label generalizing k with
  | nil =>
    have hdash : isLabelOctet dash = false := by decide
    have hblank : (dash = space || dash = tab) = false := by decide
    simp [labelRun, hdash, hblank]
  | cons b label ih =>
    obtain ⟨hb, hlabel⟩ := List.forall_mem_cons.1 h
    rw [List.cons_append, labelRun, if_pos hb, ih hlabel]

theorem splitLabel_append (hend : IsLineEnd lineEnd) {label : Octets}
    (h : ∀ b ∈ label, isLabelOctet b = true) (r : Octets) :
    splitLabel (label ++ (dashes ++ (lineEnd ++ r))) = .ok (label, r) := by
  have hrun : labelRun false (label ++ (dashes ++ (lineEnd ++ r))) = label :=
    labelRun_append h false _
  rw [splitLabel, hrun, List.drop_left, dropStart?_append, Option.bind_eq_bind, Option.bind_some,
    hend.dropLineStart?_append]

theorem beforeEnd_append (hend : IsLineEnd lineEnd) (label : Octets) {o : Octets} {b : UInt8}
    (ho : o.getLast? = some b) (hb : b ≠ carriageReturn) :
    beforeEnd label (o ++ lineEnd ++ endMark ++ label ++ dashes ++ lineEnd) = .ok o := by
  have hdash : (o ++ lineEnd ++ endMark ++ label ++ dashes).getLast? = some dash := by
    simp [dashes, List.getLast?_append]
  rw [beforeEnd, hend.dropLineEnd?_append hdash (by decide), Option.getD_some, dropFinal?_append]
  simp only [dropFinal?_append, Option.bind_eq_bind, Option.bind_some,
    hend.dropLineEnd?_append ho hb]

theorem decode_encode (hend : IsLineEnd lineEnd) {label : Octets}
    (hlabel : ∀ b ∈ label, isLabelOctet b = true) {d : Octets} (hd : d ≠ []) :
    decode (encode lineEnd label d) = .ok ⟨label, ⟨d, none⟩⟩ := by
  have hne := Base64.encode_ne_nil hd
  obtain ⟨b, hb⟩ := Option.ne_none_iff_exists'.1 (mt List.getLast?_eq_none_iff.1 hne)
  have hbody : (body lineEnd (Base64.encode d)).getLast? = some b := by rw [getLast?_body, hb]
  have hdigit := (Base64.not_lineEnd_of_mem_encode (List.mem_of_getLast? hb)).1
  have hbefore := beforeEnd_append hend label hbody hdigit
  rw [← lines_eq_body_append lineEnd hne] at hbefore
  have htext : encode lineEnd label d = beginMark ++ (label ++ (dashes ++ (lineEnd ++
      (lines lineEnd (Base64.encode d) ++ endMark ++ label ++ dashes ++ lineEnd)))) := by
    simp only [encode, List.append_assoc]
  rw [htext, decode, afterBegin, dropStart?_append, Except.ok_bind,
    splitLabel_append hend hlabel, Except.ok_bind]
  simp only [hbefore, Except.ok_bind, decodeBody_body hend hd]
  rfl

end TrustAnchors.Pem
