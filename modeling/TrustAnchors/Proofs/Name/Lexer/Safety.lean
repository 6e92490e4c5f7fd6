import TrustAnchors.Proofs.Name.Lexer.Meaning

/-!
# Steps of the machine

`Invariant cs r` says what holds of a state in a run over the text `cs` that gives `r`: which
offsets are boundaries, what has been passed since the start of a type or of digits, and that what
is left to read gives `r`. Every step keeps to it and makes progress (`Invariant.next`), so that
none leads to panic.
-/

namespace TrustAnchors.Name.Lexer

open Ascii Lenient
open Utf8 (IsBoundary isBoundary_of_lt)

/-- The cursor is at a boundary where spaces or digits are passed and where text is cut out, and may
be inside a character elsewhere. There is no case of panic. -/
inductive Invariant (cs : List Char) (r : Except Fault Octets) : State → Prop
  | head {k : Nat} {out : Octets} (hk : IsBoundary cs k)
      (hr : r = readNames out (cursorAt (Utf8.encode cs) k)) : Invariant cs r ⟨.head, k, out⟩
  | spaces {part : Part} {k : Nat} {out : Octets} (hk : IsBoundary cs k)
      (hr : r = readPart part out (cursorAt (Utf8.encode cs) k)) :
      Invariant cs r ⟨.spaces part, k, out⟩
  | type {start k : Nat} {out : Octets} (hstart : IsBoundary cs start)
      (hspace : (Utf8.encode cs)[start]? ≠ some space)
      (hrun : IsRun (Utf8.encode cs) isTypeOctet start k)
      (hr : r = readNames out (cursorAt (Utf8.encode cs) start)) :
      Invariant cs r ⟨.type start, k, out⟩
  | takeType {start k : Nat} {out : Octets} (hstart : IsBoundary cs start)
      (hspace : (Utf8.encode cs)[start]? ≠ some space)
      (hrun : IsRun (Utf8.encode cs) isTypeOctet start k)
      (hget : (Utf8.encode cs)[k]? = some equals)
      (hr : r = readNames out (cursorAt (Utf8.encode cs) start)) :
      Invariant cs r ⟨.takeType start, k, out⟩
  | value {k : Nat} {out : Octets} (hk : IsBoundary cs k)
      (hspace : (Utf8.encode cs)[k]? ≠ some space)
      (hr : r = readPart .value out (cursorAt (Utf8.encode cs) k)) : Invariant cs r ⟨.value, k, out⟩
  | hex {start k : Nat} {out : Octets} (hstart : IsBoundary cs start) (hk : IsBoundary cs k)
      (hrun : IsRun (Utf8.encode cs) isHexDigit start k)
      (hr : r = readHex (cursorAt (Utf8.encode cs) start) >>= finish out) :
      Invariant cs r ⟨.hex start, k, out⟩
  | takeHex {start k : Nat} {out : Octets} (hstart : IsBoundary cs start) (hk : IsBoundary cs k)
      (hle : start ≤ k)
      (hr : r = readPart .separator (out ++ numberSign :: slice (Utf8.encode cs) start k)
        (cursorAt (Utf8.encode cs) k)) : Invariant cs r ⟨.takeHex start, k, out⟩
  | content {body : Body} {k : Nat} {out : Octets} (hk : k ≤ (Utf8.encode cs).length)
      (hr : r = readBody (Utf8.encode cs) body out k) : Invariant cs r ⟨.content body, k, out⟩
  | escape {body : Body} {k : Nat} {out : Octets} (hget : (Utf8.encode cs)[k]? = some backslash)
      (hr : r = readBody (Utf8.encode cs) body out k) : Invariant cs r ⟨.escape body, k + 1, out⟩
  | escapeDigit {body : Body} {k : Nat} {x high : UInt8} {out : Octets}
      (hget : (Utf8.encode cs)[k]? = some backslash) (hx : (Utf8.encode cs)[k + 1]? = some x)
      (hhigh : hexValue? x = some high) (hr : r = readBody (Utf8.encode cs) body out k) :
      Invariant cs r ⟨.escapeDigit body (k + 1) high, k + 2, out⟩
  | separator {k : Nat} {out : Octets} (hk : IsBoundary cs k)
      (hspace : (Utf8.encode cs)[k]? ≠ some space)
      (hr : r = readPart .separator out (cursorAt (Utf8.encode cs) k)) :
      Invariant cs r ⟨.separator, k, out⟩
  | unexpected {b : UInt8} {k : Nat} {out : Octets} (hk : k < (Utf8.encode cs).length)
      (hr : r = .error (.unexpected b k)) : Invariant cs r ⟨.unexpected b, k + 1, out⟩
  | done {q : Except Fault Octets} {k : Nat} {out : Octets} (hk : k ≤ (Utf8.encode cs).length)
      (hr : r = q) : Invariant cs r ⟨.done q, k, out⟩

/-- Steps that can follow each other without an octet in between go down in rank. -/
def Mode.rank : Mode → Nat
  | .spaces .value => 5
  | .head | .value | .hex _ => 4
  | .spaces .type | .takeHex _ | .content _ => 3
  | .type _ | .spaces .separator => 2
  | .takeType _ | .escape _ | .escapeDigit _ _ _ | .separator | .unexpected _ => 1
  | .done _ | .panicked => 0

theorem Mode.rank_le (m : Mode) : m.rank ≤ 5 := by
  cases m with
  | spaces part => cases part <;> decide
  | _ => exact Nat.le_of_ble_eq_true rfl

/-- The cursor goes on by one octet of the text, or stays and the rank goes down. -/
def Progress (o : Octets) (s s' : State) : Prop :=
  s'.pos = s.pos + 1 ∧ s.pos < o.length ∨ s'.pos = s.pos ∧ s'.mode.rank < s.mode.rank

structure Next (cs : List Char) (r : Except Fault Octets) (s s' : State) : Prop where
  invariant : Invariant cs r s'
  progress : Progress (Utf8.encode cs) s s'

section Steps

variable {cs : List Char} {r : Except Fault Octets} {k start : Nat} {out : Octets}

theorem Next.bump {mode mode' : Mode} {out' : Octets} {b : UInt8}
    (hget : (Utf8.encode cs)[k]? = some b) (h : Invariant cs r ⟨mode', k + 1, out'⟩) :
    Next cs r ⟨mode, k, out⟩ ⟨mode', k + 1, out'⟩ :=
  ⟨h, .inl ⟨rfl, (List.getElem?_eq_some_iff.1 hget).1⟩⟩

theorem Next.goto {mode mode' : Mode} {out' : Octets}
    (hrank : decide (mode'.rank < mode.rank) = true) (h : Invariant cs r ⟨mode', k, out'⟩) :
    Next cs r ⟨mode, k, out⟩ ⟨mode', k, out'⟩ :=
  ⟨h, .inr ⟨rfl, of_decide_eq_true hrank⟩⟩

theorem lt_of_isSeparator {b : UInt8} (h : isSeparator b = true) : b < 0x80 := by
  rcases of_isSeparator h with rfl | rfl | rfl <;> decide

theorem slice?_of_isBoundary (hstart : IsBoundary cs start) (hk : IsBoundary cs k)
    (hle : start ≤ k) : slice? (Utf8.encode cs) start k = some (slice (Utf8.encode cs) start k) :=
  if_pos ⟨hle, hstart.isBoundaryOf_encode, hk.isBoundaryOf_encode⟩

theorem next_spaces {part : Part} (hk : IsBoundary cs k)
    (hr : r = readPart part out (cursorAt (Utf8.encode cs) k)) :
    Next cs r ⟨.spaces part, k, out⟩ (step (Utf8.encode cs) ⟨.spaces part, k, out⟩) := by
  rw [step]
  dsimp only
  by_cases hspace : (Utf8.encode cs)[k]? = some space
  · rw [if_pos hspace]
    refine .bump hspace (.spaces (isBoundary_of_lt hspace (by decide)).2 ?_)
    rw [hr]
    exact readPart_congr (skipSpaces_cursorAt_succ hspace).symm part out
  · rw [if_neg hspace]
    cases part with
    | type => exact .goto rfl (.type hk hspace (.refl hk.le_length) hr)
    | value => exact .goto rfl (.value hk hspace hr)
    | separator => exact .goto rfl (.separator hk hspace hr)

theorem next_type (hstart : IsBoundary cs start) (hspace : (Utf8.encode cs)[start]? ≠ some space)
    (hrun : IsRun (Utf8.encode cs) isTypeOctet start k)
    (hr : r = readNames out (cursorAt (Utf8.encode cs) start)) :
    Next cs r ⟨.type start, k, out⟩ (step (Utf8.encode cs) ⟨.type start, k, out⟩) := by
  have hmissing (hstop : ∀ b ∈ (Utf8.encode cs)[k]?, isSeparator b = true) :
      Next cs r ⟨.type start, k, out⟩
        (State.fail ⟨.type start, k, out⟩ (.missingEquals start)) := by
    rw [readNames_missing hspace hrun hstop] at hr
    exact .goto rfl (.done hrun.le_length hr)
  rw [step]
  dsimp only
  cases hget : (Utf8.encode cs)[k]? with
  | none => exact hmissing (by simp [hget])
  | some b =>
    dsimp only
    by_cases hequals : b = equals
    · rw [if_pos hequals]
      subst hequals
      exact .goto rfl (.takeType hstart hspace hrun hget hr)
    rw [if_neg hequals]
    by_cases hsep : isSeparator b = true
    · rw [if_pos hsep]
      exact hmissing (by simpa [hget] using hsep)
    · rw [if_neg hsep]
      have hb : isTypeOctet b = true := by simp [isTypeOctet, hequals, hsep]
      exact .bump hget (.type hstart hspace (hrun.succ hget hb) hr)

theorem next_takeType (hstart : IsBoundary cs start)
    (hspace : (Utf8.encode cs)[start]? ≠ some space)
    (hrun : IsRun (Utf8.encode cs) isTypeOctet start k) (hget : (Utf8.encode cs)[k]? = some equals)
    (hr : r = readNames out (cursorAt (Utf8.encode cs) start)) :
    Next cs r ⟨.takeType start, k, out⟩ (step (Utf8.encode cs) ⟨.takeType start, k, out⟩) := by
  obtain ⟨hk, hk'⟩ := isBoundary_of_lt hget (by decide)
  rw [readNames_type hspace hrun hget] at hr
  rw [step]
  simp only [slice?_of_isBoundary hstart hk hrun.le]
  by_cases hempty : (trimEnd (slice (Utf8.encode cs) start k)).isEmpty = true
  · rw [if_pos hempty] at hr ⊢
    exact .bump hget (.done hk'.le_length hr)
  · rw [if_neg hempty] at hr ⊢
    exact .bump hget (.spaces hk' hr)

theorem next_value (hk : IsBoundary cs k) (hspace : (Utf8.encode cs)[k]? ≠ some space)
    (hr : r = readPart .value out (cursorAt (Utf8.encode cs) k)) :
    Next cs r ⟨.value, k, out⟩ (step (Utf8.encode cs) ⟨.value, k, out⟩) := by
  rw [readPart, skipSpaces_cursorAt hspace] at hr
  rw [step]
  dsimp only
  by_cases hnumber : (Utf8.encode cs)[k]? = some numberSign
  · rw [if_pos hnumber]
    rw [readValue_numberSign hnumber] at hr
    have hk' := (isBoundary_of_lt hnumber (by decide)).2
    exact .bump hnumber (.hex hk' hk' (.refl hk'.le_length) hr)
  rw [if_neg hnumber]
  by_cases hquote : (Utf8.encode cs)[k]? = some quote
  · rw [if_pos hquote]
    rw [readValue_quote hquote] at hr
    exact .bump hquote (.content (isBoundary_of_lt hquote (by decide)).2.le_length hr)
  · rw [if_neg hquote]
    rw [readValue_bare] at hr
    · exact .goto rfl (.content hk.le_length hr)
    · rintro b hb
      refine ⟨?_, ?_, ?_⟩ <;> rintro rfl
      · exact hspace hb
      · exact hnumber hb
      · exact hquote hb

theorem next_hex (hstart : IsBoundary cs start) (hk : IsBoundary cs k)
    (hrun : IsRun (Utf8.encode cs) isHexDigit start k)
    (hr : r = readHex (cursorAt (Utf8.encode cs) start) >>= finish out) :
    Next cs r ⟨.hex start, k, out⟩ (step (Utf8.encode cs) ⟨.hex start, k, out⟩) := by
  rw [step]
  dsimp only
  by_cases hdigit : (Utf8.encode cs)[k]?.any isHexDigit = true
  · rw [if_pos hdigit]
    obtain ⟨b, hget, hb⟩ := (Option.any_eq_true _ _).1 hdigit
    have hk' := (isBoundary_of_lt hget (lt_of_isHexDigit hb)).2
    exact .bump hget (.hex hstart hk' (hrun.succ hget hb) hr)
  rw [if_neg hdigit]
  have hstop : ∀ b ∈ (Utf8.encode cs)[k]?, isHexDigit b = false := by
    intro b hb
    rw [Option.mem_def] at hb
    simpa [hb] using hdigit
  rw [readHex_cursorAt hrun hstop] at hr
  by_cases hempty : k = start
  · rw [if_pos hempty] at hr ⊢
    exact .goto rfl (.done hk.le_length hr)
  · rw [if_neg hempty] at hr ⊢
    exact .goto rfl (.takeHex hstart hk hrun.le hr)

theorem next_takeHex (hstart : IsBoundary cs start) (hk : IsBoundary cs k) (hle : start ≤ k)
    (hr : r = readPart .separator (out ++ numberSign :: slice (Utf8.encode cs) start k)
      (cursorAt (Utf8.encode cs) k)) :
    Next cs r ⟨.takeHex start, k, out⟩ (step (Utf8.encode cs) ⟨.takeHex start, k, out⟩) := by
  rw [step]
  simp only [slice?_of_isBoundary hstart hk hle]
  exact .goto rfl (.spaces hk hr)

theorem next_readContent {body : Body} {b : UInt8} (hget : (Utf8.encode cs)[k]? = some b)
    (hend : body.isEnd b = false) (hr : r = readBody (Utf8.encode cs) body out k) :
    Next cs r ⟨.content body, k, out⟩ (State.readContent ⟨.content body, k, out⟩ body b) := by
  rw [State.readContent]
  by_cases hb : b = backslash
  · rw [if_pos hb]
    subst hb
    exact .bump hget (.escape hget hr)
  · rw [if_neg hb]
    rw [readBody_piece (.bare hend hb) (drop_of_getElem? hget)] at hr
    exact .bump hget (.content (List.getElem?_eq_some_iff.1 hget).1 hr)

theorem next_quoted {opening : Nat} {octets : Octets} (hk : k ≤ (Utf8.encode cs).length)
    (hr : r = readBody (Utf8.encode cs) (.quoted opening octets) out k) :
    Next cs r ⟨.content (.quoted opening octets), k, out⟩
      (step (Utf8.encode cs) ⟨.content (.quoted opening octets), k, out⟩) := by
  rw [step]
  dsimp only
  cases hget : (Utf8.encode cs)[k]? with
  | none =>
    rw [readBody_close (by simp [hget]), closeBody, cursorAt, drop_of_none hget] at hr
    exact .goto rfl (.done hk hr)
  | some b =>
    dsimp only
    by_cases hquote : b = quote
    · subst hquote
      obtain ⟨-, hk'⟩ := isBoundary_of_lt hget (by decide)
      rw [readBody_close (by simp [hget, Body.isEnd]), closeBody, cursorAt,
        drop_of_getElem? hget] at hr
      rw [if_pos rfl]
      exact .bump hget (.spaces hk' hr)
    · rw [if_neg hquote]
      exact next_readContent hget (by simpa [Body.isEnd] using hquote) hr

theorem next_bare {octets : Octets} {significant : Nat} (hk : k ≤ (Utf8.encode cs).length)
    (hr : r = readBody (Utf8.encode cs) (.bare octets significant) out k) :
    Next cs r ⟨.content (.bare octets significant), k, out⟩
      (step (Utf8.encode cs) ⟨.content (.bare octets significant), k, out⟩) := by
  rw [step]
  dsimp only
  cases hget : (Utf8.encode cs)[k]? with
  | none =>
    -- At the end of the text there is a boundary as well.
    have hend : k = (Utf8.encode cs).length :=
      Nat.le_antisymm hk (List.getElem?_eq_none_iff.1 hget)
    rw [readBody_close (by simp [hget])] at hr
    exact .goto rfl (.spaces (hend ▸ Utf8.isBoundary_length cs) hr)
  | some b =>
    dsimp only
    by_cases hsep : isSeparator b = true
    · rw [readBody_close (by simpa [hget, Body.isEnd] using hsep)] at hr
      rw [if_pos hsep]
      exact .goto rfl (.spaces (isBoundary_of_lt hget (lt_of_isSeparator hsep)).1 hr)
    · rw [if_neg hsep]
      exact next_readContent hget (Bool.eq_false_iff.2 hsep) hr

theorem next_content {body : Body} (hk : k ≤ (Utf8.encode cs).length)
    (hr : r = readBody (Utf8.encode cs) body out k) :
    Next cs r ⟨.content body, k, out⟩ (step (Utf8.encode cs) ⟨.content body, k, out⟩) := by
  cases body with
  | quoted opening octets => exact next_quoted hk hr
  | bare octets significant => exact next_bare hk hr

theorem next_escape {body : Body} (hget : (Utf8.encode cs)[k]? = some backslash)
    (hr : r = readBody (Utf8.encode cs) body out k) :
    Next cs r ⟨.escape body, k + 1, out⟩
      (step (Utf8.encode cs) ⟨.escape body, k + 1, out⟩) := by
  have hk : k + 1 ≤ (Utf8.encode cs).length := (List.getElem?_eq_some_iff.1 hget).1
  rw [step]
  dsimp only
  cases hx : (Utf8.encode cs)[k + 1]? with
  | none =>
    rw [readBody_badEscape hget (by simp [hx])] at hr
    exact .goto rfl (.done hk hr)
  | some x =>
    have hk' : k + 2 ≤ (Utf8.encode cs).length := (List.getElem?_eq_some_iff.1 hx).1
    dsimp only
    by_cases hescapable : isEscapable x = true
    · have hpiece : SpellsPiece body.isEnd ⟨x, true⟩ [backslash, x] := .special hescapable
      have htext : (Utf8.encode cs).drop k = [backslash, x] ++ (Utf8.encode cs).drop (k + 2) := by
        rw [drop_of_getElem? hget, drop_of_getElem? hx]
        rfl
      rw [readBody_piece hpiece htext] at hr
      rw [if_pos hescapable]
      exact .bump hx (.content hk' hr)
    rw [if_neg hescapable]
    cases hhigh : hexValue? x with
    | none =>
      rw [readBody_badEscape hget (by simp [hx, hescapable, hhigh])] at hr
      exact .bump hx (.done hk' hr)
    | some high => exact .bump hx (.escapeDigit hget hx hhigh hr)

theorem next_escapeDigit {body : Body} {x high : UInt8}
    (hget : (Utf8.encode cs)[k]? = some backslash) (hx : (Utf8.encode cs)[k + 1]? = some x)
    (hhigh : hexValue? x = some high) (hr : r = readBody (Utf8.encode cs) body out k) :
    Next cs r ⟨.escapeDigit body (k + 1) high, k + 2, out⟩
      (step (Utf8.encode cs) ⟨.escapeDigit body (k + 1) high, k + 2, out⟩) := by
  have hk : k + 2 ≤ (Utf8.encode cs).length := (List.getElem?_eq_some_iff.1 hx).1
  rw [step]
  dsimp only
  cases hy : (Utf8.encode cs)[k + 2]? with
  | none =>
    rw [readBody_badHexEscape hget hx hhigh (by simp [hy])] at hr
    exact .goto rfl (.done hk hr)
  | some y =>
    have hk' : k + 3 ≤ (Utf8.encode cs).length := (List.getElem?_eq_some_iff.1 hy).1
    dsimp only
    cases hlow : hexValue? y with
    | none =>
      rw [readBody_badHexEscape hget hx hhigh (by simp [hy, hlow])] at hr
      exact .bump hy (.done hk' hr)
    | some low =>
      have hpiece : SpellsPiece body.isEnd ⟨high * 16 + low, true⟩ [backslash, x, y] :=
        .hex hhigh hlow
      have htext : (Utf8.encode cs).drop k =
          [backslash, x, y] ++ (Utf8.encode cs).drop (k + 3) := by
        rw [drop_of_getElem? hget, drop_of_getElem? hx, drop_of_getElem? hy]
        rfl
      rw [readBody_piece hpiece htext] at hr
      exact .bump hy (.content hk' hr)

theorem next_separator (hk : IsBoundary cs k) (hspace : (Utf8.encode cs)[k]? ≠ some space)
    (hr : r = readPart .separator out (cursorAt (Utf8.encode cs) k)) :
    Next cs r ⟨.separator, k, out⟩ (step (Utf8.encode cs) ⟨.separator, k, out⟩) := by
  rw [readPart, skipSpaces_cursorAt hspace, readSeparator, cursorAt] at hr
  rw [step]
  dsimp only
  cases hget : (Utf8.encode cs)[k]? with
  | none =>
    rw [drop_of_none hget] at hr
    exact .goto rfl (.done hk.le_length hr)
  | some b =>
    rw [drop_of_getElem? hget] at hr
    dsimp only at hr ⊢
    by_cases hplus : b = plus
    · rw [if_pos hplus] at hr ⊢
      exact .bump hget (.head (isBoundary_of_lt hget (by rw [hplus]; decide)).2 hr)
    rw [if_neg hplus] at hr ⊢
    by_cases hsep : isSeparator b = true
    · rw [if_pos hsep] at hr ⊢
      exact .bump hget (.head (isBoundary_of_lt hget (lt_of_isSeparator hsep)).2 hr)
    · rw [if_neg hsep] at hr ⊢
      exact .bump hget (.unexpected (List.getElem?_eq_some_iff.1 hget).1 hr)

end Steps

/-- One step from a state of a run. -/
theorem Invariant.next {cs : List Char} {r : Except Fault Octets} {s : State}
    (h : Invariant cs r s) (hs : s.mode ≠ .done r) : Next cs r s (step (Utf8.encode cs) s) := by
  cases h with
  | head hk hr => exact .goto rfl (.spaces hk hr)
  | spaces hk hr => exact next_spaces hk hr
  | type hstart hspace hrun hr => exact next_type hstart hspace hrun hr
  | takeType hstart hspace hrun hget hr => exact next_takeType hstart hspace hrun hget hr
  | value hk hspace hr => exact next_value hk hspace hr
  | hex hstart hk hrun hr => exact next_hex hstart hk hrun hr
  | takeHex hstart hk hle hr => exact next_takeHex hstart hk hle hr
  | content hk hr => exact next_content hk hr
  | escape hget hr => exact next_escape hget hr
  | escapeDigit hget hx hhigh hr => exact next_escapeDigit hget hx hhigh hr
  | separator hk hspace hr => exact next_separator hk hspace hr
  | unexpected hk hr => exact .goto rfl (.done hk hr)
  | done hk hr => exact absurd (by rw [hr]) hs

end TrustAnchors.Name.Lexer
