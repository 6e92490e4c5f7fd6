import Mathlib.Data.List.Induction
import TrustAnchors.Proofs.Name.Lexer.Machine
import TrustAnchors.Proofs.Name.Normalization

/-!
# What is left to read

`readPart part out c` is the result of a text that is read up to the cursor and written to `out` so
far, with spaces and then the given part to come; `readBody` is the same in the middle of a value.
Each of the machine's steps leaves the result as it is, which takes one equation for each step.
-/

namespace TrustAnchors.Name.Lexer

open Ascii Lenient

def cursorAt (o : Octets) (k : Nat) : Cursor := ⟨k, o.drop k⟩

theorem drop_of_getElem? {o : Octets} {k : Nat} {b : UInt8} (h : o[k]? = some b) :
    o.drop k = b :: o.drop (k + 1) := by
  obtain ⟨hk, rfl⟩ := List.getElem?_eq_some_iff.1 h
  exact List.drop_eq_getElem_cons hk

theorem drop_of_none {o : Octets} {k : Nat} (h : o[k]? = none) : o.drop k = [] :=
  List.drop_eq_nil_of_le (List.getElem?_eq_none_iff.1 h)

theorem skipSpaces_cursorAt {o : Octets} {k : Nat} (h : o[k]? ≠ some space) :
    (cursorAt o k).skipSpaces = cursorAt o k :=
  skipSpaces_append (s := []) nofun (by rwa [List.head?_drop]) k

theorem skipSpaces_cursorAt_succ {o : Octets} {k : Nat} (h : o[k]? = some space) :
    (cursorAt o (k + 1)).skipSpaces = (cursorAt o k).skipSpaces := by
  simp only [Cursor.skipSpaces, Cursor.advance, cursorAt, drop_of_getElem? h, List.takeWhile_cons,
    decide_true, if_true, List.length_cons, List.drop_succ_cons]
  congr 1
  omega

/-- From one offset to another there are octets of one kind only. -/
structure IsRun (o : Octets) (p : UInt8 → Bool) (start k : Nat) : Prop where
  le : start ≤ k
  le_length : k ≤ o.length
  all : ∀ b ∈ slice o start k, p b = true

namespace IsRun

variable {o : Octets} {p : UInt8 → Bool} {start k : Nat}

theorem refl (h : start ≤ o.length) : IsRun o p start start where
  le := Nat.le_refl start
  le_length := h
  all := by simp [slice]

theorem succ (h : IsRun o p start k) {b : UInt8} (hget : o[k]? = some b) (hb : p b = true) :
    IsRun o p start (k + 1) where
  le := Nat.le_succ_of_le h.le
  le_length := (List.getElem?_eq_some_iff.1 hget).1
  all := by
    have hlast : (o.drop start)[k - start]? = some b := by
      rw [List.getElem?_drop, Nat.add_sub_cancel' h.le, hget]
    intro c hc
    rw [slice, Nat.succ_sub h.le, List.take_add_one, hlast] at hc
    rcases List.mem_append.1 hc with hc | hc
    · exact h.all c hc
    · obtain rfl : c = b := by simpa using hc
      exact hb

theorem drop_drop (h : IsRun o p start k) : (o.drop start).drop (k - start) = o.drop k := by
  rw [List.drop_drop, Nat.add_sub_cancel' h.le]

theorem length_slice (h : IsRun o p start k) : (slice o start k).length = k - start := by
  have hle := h.le
  have hlength := h.le_length
  rw [slice, List.length_take, List.length_drop]
  omega

theorem takeWhile_eq (h : IsRun o p start k) (hstop : ∀ b ∈ o[k]?, p b = false) :
    (o.drop start).takeWhile p = slice o start k := by
  have hsplit : o.drop start = slice o start k ++ o.drop k := by
    rw [slice, ← h.drop_drop, List.take_append_drop]
  rw [hsplit, List.takeWhile_append_of_pos h.all,
    takeWhile_of_head (by rwa [List.head?_drop]), List.append_nil]

end IsRun

def isTypeOctet (b : UInt8) : Bool := !(b = equals || isSeparator b)

theorem readType_cursorAt {o : Octets} {start k : Nat} (h : IsRun o isTypeOctet start k)
    (hget : o[k]? = some equals) :
    readType (cursorAt o start) =
      if (trimEnd (slice o start k)).isEmpty then .error (.emptyType start)
      else .ok (dropMark (trimEnd (slice o start k)), cursorAt o (k + 1)) := by
  have hle := h.le
  have hrun : typeRun (o.drop start) = slice o start k := by
    refine h.takeWhile_eq ?_
    rw [hget]
    rintro _ ⟨⟩
    decide
  rw [readType]
  simp only [cursorAt, hrun, h.length_slice, h.drop_drop, drop_of_getElem? hget,
    Nat.add_sub_cancel' hle]
  rfl

theorem readType_missing {o : Octets} {start k : Nat} (h : IsRun o isTypeOctet start k)
    (hstop : ∀ b ∈ o[k]?, isSeparator b = true) :
    readType (cursorAt o start) = .error (.missingEquals start) := by
  have hrun : typeRun (o.drop start) = slice o start k := by
    refine h.takeWhile_eq fun b hb => ?_
    simp [isTypeOctet, hstop b hb]
  rw [readType]
  simp only [cursorAt, hrun, h.length_slice, h.drop_drop]
  split
  · next r hr =>
    have hget : o[k]? = some equals := by
      rw [← List.head?_drop, hr]
      rfl
    exact absurd (hstop equals hget) (by decide)
  · rfl

theorem readHex_cursorAt {o : Octets} {start k : Nat} (h : IsRun o isHexDigit start k)
    (hstop : ∀ b ∈ o[k]?, isHexDigit b = false) :
    readHex (cursorAt o start) =
      if k = start then .error (.emptyHex start)
      else .ok (.hex (slice o start k), cursorAt o k) := by
  have hle := h.le
  have hlength := h.length_slice
  rw [readHex]
  simp only [cursorAt, Cursor.advance, h.takeWhile_eq hstop, hlength, h.drop_drop,
    Nat.add_sub_cancel' hle, List.isEmpty_iff_length_eq_zero]
  congr 1
  simp only [eq_iff_iff]
  omega

def readNames (out : Octets) (c : Cursor) : Except Fault Octets :=
  (out ++ ·) <$> (render <$> readRelatives c)

/-- The text goes on behind an assignment and the spaces after it. -/
def readSeparator (out : Octets) (c : Cursor) : Except Fault Octets :=
  match c.rest with
  | [] => .ok out
  | b :: r =>
    if b = plus then readNames (out ++ [plus]) ⟨c.offset + 1, r⟩
    else if isSeparator b then readNames (out ++ [comma]) ⟨c.offset + 1, r⟩
    else .error (.unexpected b c.offset)

def finish (out : Octets) (r : Value × Cursor) : Except Fault Octets :=
  readSeparator (out ++ r.1.render) r.2.skipSpaces

def readPart : Part → Octets → Cursor → Except Fault Octets
  | .type, out, c => readNames out c
  | .value, out, c => readValue c.skipSpaces >>= finish out
  | .separator, out, c => readSeparator out c.skipSpaces

theorem readRelatives_of_error {c : Cursor} {e : Fault} (h : readAssignment c = .error e) :
    readRelatives c = .error e := by
  rw [readRelatives]
  split
  · next e' he =>
    cases he.symm.trans h
    rfl
  · next he => cases he.symm.trans h

theorem render_assignment (a : Assignment) : render [[a]] = a.render := by
  rw [render_singleton, renderRelative, List.map_singleton, List.intercalate_singleton]

/-- Strict text for an assignment in front of relative names that are read. -/
theorem render_of_readRelatives {c : Cursor} {gss : List (List Assignment)}
    (h : readRelatives c = .ok gss) (a : Assignment) :
    render (join a gss) = a.render ++ plus :: render gss ∧
      render ([a] :: gss) = a.render ++ comma :: render gss := by
  have hgss := spells_of_readRelatives h
  refine ⟨render_join hgss.ne_nil fun gs hgs => (hgss.wellFormed gs hgs).1, ?_⟩
  rw [render_cons hgss.ne_nil, ← render_singleton, render_assignment]

theorem readNames_of_readAssignment (out : Octets) {c after : Cursor} {a : Assignment}
    (h : readAssignment c = .ok (a, after)) :
    readNames out c = readSeparator (out ++ a.render) after := by
  rw [readNames, readRelatives_eq h, readSeparator]
  cases hr : after.rest with
  | nil => exact congrArg (fun o => Except.ok (out ++ o)) (render_assignment a)
  | cons b r =>
    dsimp only
    cases hnext : readRelatives ⟨after.offset + 1, r⟩ with
    | error e =>
      simp only [readNames, hnext]
      split
      · rfl
      · split <;> rfl
    | ok gss =>
      obtain ⟨hjoin, hcons⟩ := render_of_readRelatives hnext a
      simp only [readNames, hnext]
      split
      · refine congrArg Except.ok ?_
        rw [hjoin]
        simp only [List.append_assoc, List.singleton_append]
      · split
        · refine congrArg Except.ok ?_
          rw [hcons]
          simp only [List.append_assoc, List.singleton_append]
        · rfl

theorem readNames_eq (out : Octets) (c : Cursor) :
    readNames out c =
      readType c.skipSpaces >>= fun r => readPart .value (out ++ (r.1 ++ [equals])) r.2 := by
  have hassignment : readAssignment c =
      readType c.skipSpaces >>= fun r => readValue r.2.skipSpaces >>= fun q =>
        .ok (⟨r.1, q.1⟩, q.2.skipSpaces) := rfl
  cases htype : readType c.skipSpaces with
  | error e =>
    rw [htype] at hassignment
    rw [readNames, readRelatives_of_error hassignment]
    rfl
  | ok r =>
    rw [htype, Except.ok_bind] at hassignment
    rw [Except.ok_bind, readPart]
    cases hvalue : readValue r.2.skipSpaces with
    | error e =>
      rw [hvalue] at hassignment
      rw [readNames, readRelatives_of_error hassignment]
      rfl
    | ok q =>
      rw [hvalue, Except.ok_bind] at hassignment
      rw [Except.ok_bind, readNames_of_readAssignment out hassignment, finish, Assignment.render]
      simp only [List.append_assoc, List.singleton_append]

theorem readPart_congr {c c' : Cursor} (h : c.skipSpaces = c'.skipSpaces) (part : Part)
    (out : Octets) : readPart part out c = readPart part out c' := by
  cases part with
  | type => simp only [readPart, readNames_eq, h]
  | value => simp only [readPart, h]
  | separator => simp only [readPart, h]

theorem readNames_missing {o : Octets} {start k : Nat} (hspace : o[start]? ≠ some space)
    (h : IsRun o isTypeOctet start k) (hstop : ∀ b ∈ o[k]?, isSeparator b = true) (out : Octets) :
    readNames out (cursorAt o start) = .error (.missingEquals start) := by
  rw [readNames_eq, skipSpaces_cursorAt hspace, readType_missing h hstop, Except.error_bind]

theorem readNames_type {o : Octets} {start k : Nat} (hspace : o[start]? ≠ some space)
    (h : IsRun o isTypeOctet start k) (hget : o[k]? = some equals) (out : Octets) :
    readNames out (cursorAt o start) =
      if (trimEnd (slice o start k)).isEmpty then .error (.emptyType start)
      else readPart .value (out ++ (dropMark (trimEnd (slice o start k)) ++ [equals]))
        (cursorAt o (k + 1)) := by
  rw [readNames_eq, skipSpaces_cursorAt hspace, readType_cursorAt h hget]
  split <;> rfl

theorem readNames_zero (o : Octets) : readNames [] (cursorAt o 0) = Lenient.normalize o := by
  rw [readNames, Lenient.normalize, parse, cursorAt, List.drop_zero]
  cases readRelatives ⟨0, o⟩ <;> rfl

theorem foldl_push_quoted (opening : Nat) (octets : Octets) (ps : List Piece) :
    ps.foldl Body.push (.quoted opening octets) =
      .quoted opening (octets ++ ps.map Piece.octet) := by
  induction ps generalizing octets with
  | nil => rw [List.map_nil, List.append_nil, List.foldl_nil]
  | cons p ps ih =>
    rw [List.foldl_cons, Body.push, ih, List.append_assoc, List.map_cons, List.singleton_append]

theorem unquoted_concat (ps : List Piece) (p : Piece) :
    unquoted (ps ++ [p]) =
      if !p.escaped && p.octet = space then unquoted ps else (ps ++ [p]).map Piece.octet := by
  rw [unquoted, List.reverse_append, List.reverse_singleton, List.singleton_append,
    List.dropWhile_cons]
  split
  · rfl
  · rw [List.reverse_cons, List.reverse_reverse]

theorem foldl_push_bare (ps : List Piece) :
    ∃ significant, significant ≤ ps.length ∧
      ps.foldl Body.push (.bare [] 0) = .bare (ps.map Piece.octet) significant ∧
      (ps.map Piece.octet).take significant = unquoted ps := by
  -- The last piece decides, so that the list is taken apart at its end.
  induction ps using List.reverseRecOn with
  | nil => exact ⟨0, Nat.le_refl 0, rfl, rfl⟩
  | append_singleton ps p ih =>
    obtain ⟨significant, hle, hbody, hvalue⟩ := ih
    rw [List.foldl_concat, hbody, Body.push, unquoted_concat, List.length_append, List.map_append,
      List.map_singleton]
    split
    · refine ⟨significant, by omega, rfl, ?_⟩
      rw [List.take_append_of_le_length (by rwa [List.length_map]), hvalue]
    · refine ⟨ps.length + 1, by simp, by rw [List.length_map], ?_⟩
      rw [List.take_of_length_le (by simp)]

/-- The end of a value has been reached. -/
def closeBody : Body → Octets → Cursor → Except Fault Octets
  | .quoted opening octets, out, c =>
    match c.rest with
    | [] => .error (.unterminated opening)
    | _ :: r => readPart .separator (out ++ escape octets) ⟨c.offset + 1, r⟩
  | .bare octets significant, out, c =>
    readPart .separator (out ++ escape (octets.take significant)) c

def readBody (o : Octets) (body : Body) (out : Octets) (k : Nat) : Except Fault Octets :=
  readPieces body.isEnd k (o.drop k) >>= fun r => closeBody (r.1.foldl Body.push body) out r.2

theorem readValue_numberSign {o : Octets} {k : Nat} (h : o[k]? = some numberSign) :
    readValue (cursorAt o k) = readHex (cursorAt o (k + 1)) := by
  rw [cursorAt, drop_of_getElem? h]
  rfl

theorem readValue_quote {o : Octets} {k : Nat} (h : o[k]? = some quote) (out : Octets) :
    readValue (cursorAt o k) >>= finish out = readBody o (.quoted k []) out (k + 1) := by
  rw [cursorAt, drop_of_getElem? h]
  change readQuoted ⟨k + 1, o.drop (k + 1)⟩ >>= finish out = _
  rw [readQuoted, readBody]
  change _ = readPieces (· = quote) (k + 1) (o.drop (k + 1)) >>= _
  cases readPieces (· = quote) (k + 1) (o.drop (k + 1)) with
  | error e => rfl
  | ok r =>
    obtain ⟨ps, ⟨i, after⟩⟩ := r
    simp only [Except.ok_bind, foldl_push_quoted, List.nil_append]
    cases after <;> rfl

theorem readValue_bare {o : Octets} {k : Nat}
    (h : ∀ b ∈ o[k]?, b ≠ space ∧ b ≠ numberSign ∧ b ≠ quote) (out : Octets) :
    readValue (cursorAt o k) >>= finish out = readBody o (.bare [] 0) out k := by
  rw [cursorAt, readValue_of_head_bare (by rwa [List.head?_drop]), readUnquoted, readBody]
  change _ = readPieces isSeparator k (o.drop k) >>= _
  dsimp only
  cases readPieces isSeparator k (o.drop k) with
  | error e => rfl
  | ok r =>
    obtain ⟨significant, -, hbody, hvalue⟩ := foldl_push_bare r.1
    simp only [Except.ok_bind, hbody, closeBody, hvalue]
    rfl

theorem readBody_piece {o q : Octets} {body : Body} {p : Piece} {k : Nat}
    (h : SpellsPiece body.isEnd p q) (htext : o.drop k = q ++ o.drop (k + q.length))
    (out : Octets) : readBody o body out k = readBody o (body.push p) out (k + q.length) := by
  rw [readBody, htext, readPieces_append body.isEnd_backslash h, readBody, Body.isEnd_push]
  cases readPieces body.isEnd (k + q.length) (o.drop (k + q.length)) <;> rfl

theorem readBody_close {o : Octets} {body : Body} {k : Nat}
    (h : ∀ b ∈ o[k]?, body.isEnd b = true) (out : Octets) :
    readBody o body out k = closeBody body out (cursorAt o k) := by
  rw [readBody, readPieces_end (by rwa [List.head?_drop])]
  rfl

theorem readBody_badEscape {o : Octets} {k : Nat} (h : o[k]? = some backslash)
    (hstop : ∀ x ∈ o[k + 1]?, isEscapable x = false ∧ hexValue? x = none) (body : Body)
    (out : Octets) : readBody o body out k = .error (.badEscape (k + 1)) := by
  rw [readBody, drop_of_getElem? h, readPieces.eq_def]
  simp only [body.isEnd_backslash, Bool.false_eq_true, if_false, if_true]
  cases hx : o[k + 1]? with
  | none =>
    rw [drop_of_none hx]
    rfl
  | some x =>
    obtain ⟨hescapable, hvalue⟩ := hstop x hx
    rw [drop_of_getElem? hx]
    simp only [hescapable, hvalue, Bool.false_eq_true, if_false]
    rfl

theorem readBody_badHexEscape {o : Octets} {k : Nat} {x high : UInt8} (h : o[k]? = some backslash)
    (hx : o[k + 1]? = some x) (hhigh : hexValue? x = some high)
    (hstop : ∀ y ∈ o[k + 2]?, hexValue? y = none) (body : Body) (out : Octets) :
    readBody o body out k = .error (.badHexEscape (k + 1)) := by
  rw [readBody, drop_of_getElem? h, drop_of_getElem? hx, readPieces.eq_def]
  simp only [body.isEnd_backslash, isEscapable_of_hexValue? hhigh, hhigh, Bool.false_eq_true,
    if_false, if_true]
  cases hy : o[k + 2]? with
  | none =>
    rw [drop_of_none hy]
    rfl
  | some y =>
    rw [drop_of_getElem? hy]
    simp only [hstop y hy]
    rfl

end TrustAnchors.Name.Lexer
