import Mathlib.Data.List.TakeWhile
import TrustAnchors.Proofs.Name.LenientGrammar

/-!
# What the lenient reader accepts

Each step of the reader passes over some octets of the text (`Cursor.Passes`), and what a successful
step has passed over is a spelling of its result. So a text that is read is a spelling of the
relative names that it is read as (`spells_of_parse`).
-/

namespace TrustAnchors.Name.Lenient

open Ascii

/-- From one cursor to another by way of the given octets. -/
structure Cursor.Passes (c : Cursor) (o : Octets) (c' : Cursor) : Prop where
  rest_eq : c.rest = o ++ c'.rest
  offset_eq : c'.offset = c.offset + o.length

namespace Cursor.Passes

variable {c c' c'' : Cursor} {o p : Octets}

theorem refl (c : Cursor) : c.Passes [] c := ⟨rfl, rfl⟩

theorem trans (h : c.Passes o c') (h' : c'.Passes p c'') : c.Passes (o ++ p) c'' where
  rest_eq := by rw [h.rest_eq, h'.rest_eq, List.append_assoc]
  offset_eq := by rw [h'.offset_eq, h.offset_eq, List.length_append, Nat.add_assoc]

theorem of_advance (h : c.rest = o ++ p) : c.Passes o (c.advance o.length) where
  rest_eq := by rw [advance, h, List.drop_left]
  offset_eq := rfl

/-- The first octet behind the cursor is a step of its own. -/
theorem head {b : UInt8} {r : Octets} (h : c.rest = b :: r) :
    c.Passes [b] ⟨c.offset + 1, r⟩ :=
  ⟨h, rfl⟩

end Cursor.Passes

theorem drop_takeWhile (p : UInt8 → Bool) (o : Octets) :
    o.drop (o.takeWhile p).length = o.dropWhile p := by
  have h : (o.takeWhile p ++ o.dropWhile p).drop (o.takeWhile p).length = o.dropWhile p :=
    List.drop_left
  rwa [List.takeWhile_append_dropWhile] at h

theorem head_dropWhile {p : UInt8 → Bool} {o : Octets} : ∀ b ∈ (o.dropWhile p).head?, p b = false := by
  intro b hb
  have h := List.head?_dropWhile_not p o
  rw [hb] at h
  exact h

/-- A run of octets that satisfy a predicate ends where the predicate fails. -/
theorem Cursor.passes_takeWhile (c : Cursor) (p : UInt8 → Bool) :
    c.Passes (c.rest.takeWhile p) (c.advance (c.rest.takeWhile p).length) ∧
      ∀ b ∈ (c.advance (c.rest.takeWhile p).length).rest.head?, p b = false := by
  refine ⟨.of_advance List.takeWhile_append_dropWhile.symm, ?_⟩
  rw [advance, drop_takeWhile]
  exact head_dropWhile

theorem passes_skipSpaces (c : Cursor) :
    ∃ s, IsSpaces s ∧ c.Passes s c.skipSpaces ∧ c.skipSpaces.rest.head? ≠ some space := by
  obtain ⟨hpasses, hstop⟩ := c.passes_takeWhile (· = space)
  refine ⟨_, fun b hb => ?_, hpasses, fun h => ?_⟩
  · simpa using List.mem_takeWhile_imp hb
  · simpa using hstop space h

theorem exists_trimEnd (o : Octets) :
    ∃ s, IsSpaces s ∧ o = trimEnd o ++ s ∧ (trimEnd o).getLast? ≠ some space := by
  refine ⟨(o.reverse.takeWhile (· = space)).reverse, fun b hb => ?_, ?_, fun h => ?_⟩
  · simpa using List.mem_takeWhile_imp (List.mem_reverse.1 hb)
  · rw [trimEnd, ← List.reverse_append, List.takeWhile_append_dropWhile, List.reverse_reverse]
  · rw [trimEnd, List.getLast?_reverse] at h
    simpa using head_dropWhile space h

theorem of_readType_eq_ok {c c' : Cursor} {type : Octets} (hc : c.rest.head? ≠ some space)
    (h : readType c = .ok (type, c')) :
    ∃ t s, IsType t ∧ IsSpaces s ∧ type = dropMark t ∧ c.Passes (t ++ (s ++ [equals])) c' := by
  obtain ⟨hrun, -⟩ := c.passes_takeWhile fun b => !(b = equals || isSeparator b)
  change c.Passes (typeRun c.rest) (c.advance (typeRun c.rest).length) at hrun
  obtain ⟨s, hs, hsplit, hlast⟩ := exists_trimEnd (typeRun c.rest)
  unfold readType at h
  split at h
  · next r hr =>
    split at h
    · cases h
    · next hne =>
      cases h
      have hne : trimEnd (typeRun c.rest) ≠ [] := by simpa using hne
      have hbare : ∀ b ∈ trimEnd (typeRun c.rest), b ≠ equals ∧ isSeparator b = false := by
        intro b hb
        have hb : b ∈ typeRun c.rest := hsplit ▸ List.mem_append_left s hb
        simpa using List.mem_takeWhile_imp hb
      have hhead : (trimEnd (typeRun c.rest)).head? ≠ some space := by
        intro hspace
        refine hc ?_
        rw [hrun.rest_eq, hsplit, List.append_assoc, List.head?_append, hspace]
        rfl
      refine ⟨trimEnd (typeRun c.rest), s, ⟨hne, hbare, hhead, hlast⟩, hs, rfl, ?_⟩
      rw [← List.append_assoc, ← hsplit]
      exact hrun.trans (.head hr)
  · cases h

/-- From one cursor to an octet that ends a value, or to the end of the text, by way of a spelling
of the given pieces. -/
def PassesPieces (isEnd : UInt8 → Bool) (c : Cursor) (ps : List Piece) (c' : Cursor) : Prop :=
  ∃ o, SpellsPieces isEnd ps o ∧ c.Passes o c' ∧ ∀ b ∈ c'.rest.head?, isEnd b = true

theorem PassesPieces.cons {isEnd : UInt8 → Bool} {i : Nat} {o r : Octets} {p : Piece}
    {ps : List Piece} {c : Cursor} (hp : SpellsPiece isEnd p o)
    (ih : ∀ {ps : List Piece} {c : Cursor}, readPieces isEnd (i + o.length) r = .ok (ps, c) →
      PassesPieces isEnd ⟨i + o.length, r⟩ ps c)
    (h : Prod.map (p :: ·) id <$> readPieces isEnd (i + o.length) r = .ok (ps, c)) :
    PassesPieces isEnd ⟨i, o ++ r⟩ ps c := by
  obtain ⟨⟨qs, c₁⟩, hread, he⟩ := Except.map_eq_ok_iff.1 h
  cases he
  obtain ⟨q, hq, hpasses, hstop⟩ := ih hread
  exact ⟨o ++ q, .cons hp hq, .trans ⟨rfl, rfl⟩ hpasses, hstop⟩

theorem of_readPieces_eq_ok {isEnd : UInt8 → Bool} {i : Nat} {o : Octets} {ps : List Piece}
    {c : Cursor} (h : readPieces isEnd i o = .ok (ps, c)) : PassesPieces isEnd ⟨i, o⟩ ps c := by
  fun_induction readPieces isEnd i o generalizing ps c with
  | case1 i =>
    cases h
    exact ⟨[], .nil, .refl _, by simp⟩
  | case2 i b r hend =>
    cases h
    exact ⟨[], .nil, .refl _, by simpa using hend⟩
  | case4 i b r hb hend ih => exact .cons (o := [backslash, b]) (.special hb) ih h
  | case8 i x hx high hhigh y r low hlow hend ih =>
    exact .cons (o := [backslash, x, y]) (.hex hhigh hlow) ih h
  | case9 i b r hend hb ih =>
    exact .cons (o := [b]) (.bare (Bool.eq_false_iff.2 hend) hb) ih h
  | _ => cases h

theorem of_readHex_eq_ok {c c' : Cursor} {v : Value} (h : readHex c = .ok (v, c')) :
    ∃ digits, digits ≠ [] ∧ (∀ b ∈ digits, isHexDigit b = true) ∧ v = .hex digits ∧
      c.Passes digits c' ∧ ∀ b ∈ c'.rest.head?, isHexDigit b = false := by
  obtain ⟨hpasses, hstop⟩ := c.passes_takeWhile isHexDigit
  unfold readHex at h
  split at h
  · cases h
  · next hne =>
    cases h
    exact ⟨_, by simpa using hne, fun b hb => List.mem_takeWhile_imp hb, rfl, hpasses, hstop⟩

theorem of_readQuoted_eq_ok {c c' : Cursor} {v : Value} (h : readQuoted c = .ok (v, c')) :
    ∃ ps o, SpellsPieces (· = quote) ps o ∧ v = .plain (ps.map Piece.octet) ∧
      c.Passes (o ++ [quote]) c' := by
  obtain ⟨⟨ps, after⟩, hread, h⟩ := Except.bind_eq_ok_iff.1 h
  obtain ⟨o, ho, hpasses, hstop⟩ := of_readPieces_eq_ok hread
  dsimp only at h
  split at h
  · cases h
  · next b r hr =>
    cases h
    obtain rfl : b = quote := by simpa [hr] using hstop
    exact ⟨ps, o, ho, rfl, hpasses.trans (.head hr)⟩

theorem of_readUnquoted_eq_ok {c c' : Cursor} {v : Value} (h : readUnquoted c = .ok (v, c')) :
    ∃ ps o, SpellsPieces isSeparator ps o ∧ v = .plain (unquoted ps) ∧ c.Passes o c' ∧
      EndsAssignment c'.rest := by
  obtain ⟨⟨ps, after⟩, hread, h⟩ := Except.bind_eq_ok_iff.1 h
  cases h
  obtain ⟨o, ho, hpasses, hstop⟩ := of_readPieces_eq_ok hread
  exact ⟨ps, o, ho, rfl, hpasses, hstop⟩

theorem of_readValue_eq_ok {c c' : Cursor} {v : Value} (hc : c.rest.head? ≠ some space)
    (h : readValue c = .ok (v, c')) :
    ∃ o, SpellsValueBefore c'.skipSpaces.rest.head? v o ∧ c.Passes o c'.skipSpaces := by
  obtain ⟨s, hs, hspaces, hnext⟩ := passes_skipSpaces c'
  unfold readValue at h
  split at h
  · next r hr =>
    obtain ⟨digits, hne, hd, rfl, hpasses, hstop⟩ := of_readHex_eq_ok h
    rw [hspaces.rest_eq] at hstop
    refine ⟨_, .hex hne hd hs hnext ?_, Cursor.Passes.trans (.head hr) (hpasses.trans hspaces)⟩
    rintro rfl
    exact hstop
  · next r hr =>
    obtain ⟨ps, o, ho, rfl, hpasses⟩ := of_readQuoted_eq_ok h
    have hall := Cursor.Passes.trans (.head hr) (hpasses.trans hspaces)
    rw [List.append_assoc] at hall
    exact ⟨_, .quoted ho hs hnext, hall⟩
  · next hnumber hquote =>
    obtain ⟨ps, o, ho, rfl, hpasses, hends⟩ := of_readUnquoted_eq_ok h
    have hskip : c'.skipSpaces = c' := skipSpaces_append (s := []) nofun hends.head_ne_space _
    rw [hskip]
    refine ⟨o, .bare ho (fun b hb => ?_) hends, hpasses⟩
    have hrest : c.rest.head? = some b := by
      rw [hpasses.rest_eq, List.head?_append, hb]
      rfl
    obtain ⟨r, hr⟩ := List.head?_eq_some_iff.1 hrest
    refine ⟨?_, ?_, ?_⟩
    · rintro rfl
      exact hc hrest
    · rintro rfl
      exact hnumber r hr
    · rintro rfl
      exact hquote r hr

theorem of_readAssignment_eq_ok {c c' : Cursor} {a : Assignment}
    (h : readAssignment c = .ok (a, c')) :
    ∃ o, SpellsAssignmentBefore c'.rest.head? a o ∧ c.Passes o c' := by
  obtain ⟨⟨type, c₁⟩, htype, h⟩ := Except.bind_eq_ok_iff.1 h
  obtain ⟨⟨v, c₂⟩, hvalue, h⟩ := Except.bind_eq_ok_iff.1 h
  cases h
  obtain ⟨s₁, hs₁, hspaces₁, hne₁⟩ := passes_skipSpaces c
  obtain ⟨t, s₂, ht, hs₂, rfl, hpasses⟩ := of_readType_eq_ok hne₁ htype
  obtain ⟨s₃, hs₃, hspaces₃, hne₃⟩ := passes_skipSpaces c₁
  obtain ⟨o, ho, hpasses'⟩ := of_readValue_eq_ok hne₃ hvalue
  have hall := hspaces₁.trans (hpasses.trans (hspaces₃.trans hpasses'))
  simp only [List.append_assoc, List.singleton_append] at hall
  exact ⟨_, .mk hs₁ ht hs₂ hs₃ ho, hall⟩

/-- An assignment in front of the first relative name. -/
theorem spells_join {a : Assignment} {o p : Octets} {gs : List (List Assignment)}
    (ha : SpellsAssignment a o) (h : Spells gs p) : Spells (join a gs) (o ++ plus :: p) := by
  cases h with
  | single h => exact .single (.cons ha rfl h)
  | @cons g gs q r s h hs rest =>
    rw [← List.cons_append, ← List.append_assoc]
    exact .cons (.cons ha rfl h) hs rest

theorem spells_of_readRelatives {c : Cursor} {gs : List (List Assignment)}
    (h : readRelatives c = .ok gs) : Spells gs c.rest := by
  fun_induction readRelatives c generalizing gs with
  | case1 c e he => cases h
  | case2 c a after ha hr =>
    cases h
    obtain ⟨o, ho, hpasses⟩ := of_readAssignment_eq_ok ha
    rw [hpasses.rest_eq, hr, List.append_nil]
    exact .single (.single ho.spells)
  | case3 c a after ha r hr hlt ih =>
    obtain ⟨gs, hgs, rfl⟩ := Except.map_eq_ok_iff.1 h
    obtain ⟨o, ho, hpasses⟩ := of_readAssignment_eq_ok ha
    rw [hpasses.rest_eq, hr]
    exact spells_join ho.spells (ih hgs)
  | case4 c a after ha b r hr hlt hplus hsep ih =>
    obtain ⟨gs, hgs, rfl⟩ := Except.map_eq_ok_iff.1 h
    obtain ⟨o, ho, hpasses⟩ := of_readAssignment_eq_ok ha
    have hs : b = comma ∨ b = semicolon := by
      simpa [isSeparator, hplus] using hsep
    rw [hpasses.rest_eq, hr]
    exact .cons (.single ho.spells) hs (ih hgs)
  | case5 c a after ha b r hr hlt hplus hsep => cases h

theorem spells_of_parse {text : Octets} {gs : List (List Assignment)} (h : parse text = .ok gs) :
    Spells gs text :=
  spells_of_readRelatives h

theorem parse_eq_ok_iff {text : Octets} {gs : List (List Assignment)} :
    parse text = .ok gs ↔ Spells gs text :=
  ⟨spells_of_parse, parse_of_spells⟩

end TrustAnchors.Name.Lenient
