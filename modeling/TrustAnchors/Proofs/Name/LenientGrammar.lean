import Mathlib.Data.List.Forall2
import TrustAnchors.Name.Lenient

/-!
# The grammar of lenient text

`SpellsAssignment a o` says that the octets `o` are a lenient spelling of the assignment `a`, with
the spaces that may stand around its parts, and `SeparatedBy` puts spellings into a row. The reader
reads every spelling of a list of relative names as that list (`parse_of_spells`).
-/

namespace TrustAnchors.Name.Lenient

open Ascii

def IsSpaces (o : Octets) : Prop := ∀ b ∈ o, b = space

/-- Octets for one octet of a value in which the octets of `isEnd` cannot stand bare. -/
inductive SpellsPiece (isEnd : UInt8 → Bool) : Piece → Octets → Prop
  | bare {b : UInt8} (hend : isEnd b = false) (hb : b ≠ backslash) :
      SpellsPiece isEnd ⟨b, false⟩ [b]
  | special {b : UInt8} (hb : isEscapable b = true) : SpellsPiece isEnd ⟨b, true⟩ [backslash, b]
  | hex {x y high low : UInt8} (hx : hexValue? x = some high) (hy : hexValue? y = some low) :
      SpellsPiece isEnd ⟨high * 16 + low, true⟩ [backslash, x, y]

inductive SpellsPieces (isEnd : UInt8 → Bool) : List Piece → Octets → Prop
  | nil : SpellsPieces isEnd [] []
  | cons {p : Piece} {ps : List Piece} {o q : Octets} (h : SpellsPiece isEnd p o)
      (rest : SpellsPieces isEnd ps q) : SpellsPieces isEnd (p :: ps) (o ++ q)

theorem spellsPieces_bare {isEnd : UInt8 → Bool} {o : Octets}
    (h : ∀ b ∈ o, isEnd b = false ∧ b ≠ backslash) :
    SpellsPieces isEnd (o.map (⟨·, false⟩)) o := by
  induction o with
  | nil => exact .nil
  | cons b o ih =>
    have hb := h b List.mem_cons_self
    have hpiece : SpellsPiece isEnd ⟨b, false⟩ [b] := .bare hb.1 hb.2
    exact .cons hpiece (ih fun c hc => h c (List.mem_cons_of_mem b hc))

theorem SpellsPieces.append {isEnd : UInt8 → Bool} {ps qs : List Piece} {o q : Octets}
    (h : SpellsPieces isEnd ps o) (h' : SpellsPieces isEnd qs q) :
    SpellsPieces isEnd (ps ++ qs) (o ++ q) := by
  induction h with
  | nil => exact h'
  | cons hp _ ih =>
    rw [List.cons_append, List.append_assoc]
    exact .cons hp ih

/-- Octets for a value, with the spaces after it. -/
inductive SpellsValue : Value → Octets → Prop
  | hex {digits s : Octets} (hne : digits ≠ []) (hd : ∀ b ∈ digits, isHexDigit b = true)
      (hs : IsSpaces s) : SpellsValue (.hex digits) (numberSign :: (digits ++ s))
  | quoted {ps : List Piece} {o s : Octets} (hp : SpellsPieces (· = quote) ps o)
      (hs : IsSpaces s) : SpellsValue (.plain (ps.map Piece.octet)) (quote :: (o ++ quote :: s))
  | bare {ps : List Piece} {o : Octets} (hp : SpellsPieces isSeparator ps o)
      (ho : ∀ b ∈ o.head?, b ≠ space ∧ b ≠ numberSign ∧ b ≠ quote) :
      SpellsValue (.plain (unquoted ps)) o

/-- Octets that can stand in front of `=`, spaces apart. -/
structure IsType (t : Octets) : Prop where
  ne_nil : t ≠ []
  bare : ∀ b ∈ t, b ≠ equals ∧ isSeparator b = false
  head : t.head? ≠ some space
  last : t.getLast? ≠ some space

inductive SpellsAssignment : Assignment → Octets → Prop
  | mk {s₁ t s₂ s₃ o : Octets} {v : Value} (h₁ : IsSpaces s₁) (ht : IsType t) (h₂ : IsSpaces s₂)
      (h₃ : IsSpaces s₃) (hv : SpellsValue v o) :
      SpellsAssignment ⟨dropMark t, v⟩ (s₁ ++ (t ++ (s₂ ++ equals :: (s₃ ++ o))))

/-- Without spaces around its parts, and without a mark. -/
theorem SpellsAssignment.compact {t o : Octets} {v : Value} (ht : IsType t) (hmark : dropMark t = t)
    (hv : SpellsValue v o) : SpellsAssignment ⟨t, v⟩ (t ++ equals :: o) := by
  have hnil : IsSpaces [] := nofun
  have h := SpellsAssignment.mk hnil ht hnil hnil hv
  rwa [hmark] at h

/-- Spellings in a row, with one separator between each two. -/
inductive SeparatedBy {α : Type} (isSep : UInt8 → Prop) (Spells : α → Octets → Prop) :
    List α → Octets → Prop
  | single {a : α} {o : Octets} (h : Spells a o) : SeparatedBy isSep Spells [a] o
  | cons {a : α} {as : List α} {o p : Octets} {s : UInt8} (h : Spells a o) (hs : isSep s)
      (rest : SeparatedBy isSep Spells as p) : SeparatedBy isSep Spells (a :: as) (o ++ s :: p)

theorem SeparatedBy.ne_nil {α : Type} {isSep : UInt8 → Prop} {Spells : α → Octets → Prop}
    {as : List α} {o : Octets} (h : SeparatedBy isSep Spells as o) : as ≠ [] := by
  cases h <;> exact List.cons_ne_nil _ _

theorem SeparatedBy.mono {α : Type} {isSep isSep' : UInt8 → Prop}
    {Spells Spells' : α → Octets → Prop} (hsep : ∀ s, isSep s → isSep' s)
    (hspells : ∀ a o, Spells a o → Spells' a o) {as : List α} {o : Octets}
    (h : SeparatedBy isSep Spells as o) : SeparatedBy isSep' Spells' as o := by
  induction h with
  | single h => exact .single (hspells _ _ h)
  | cons h hs _ ih => exact .cons (hspells _ _ h) (hsep _ hs) ih

theorem exists_of_mem_forall₂ {α β : Type} {R : α → β → Prop} {as : List α} {bs : List β}
    (h : List.Forall₂ R as bs) : ∀ b ∈ bs, ∃ a ∈ as, R a b := by
  induction h with
  | nil => exact nofun
  | @cons a b as bs hab _ ih =>
    intro c hc
    rcases List.mem_cons.1 hc with rfl | hc
    · exact ⟨a, List.mem_cons_self, hab⟩
    · obtain ⟨d, hd, hdc⟩ := ih c hc
      exact ⟨d, List.mem_cons_of_mem a hd, hdc⟩

/-- A row with one and the same separator is an intercalation. -/
theorem SeparatedBy.exists_intercalate {α : Type} {s : UInt8} {Spells : α → Octets → Prop}
    {as : List α} {o : Octets} (h : SeparatedBy (· = s) Spells as o) :
    ∃ os, os ≠ [] ∧ o = [s].intercalate os ∧ List.Forall₂ Spells as os := by
  induction h with
  | @single a o h => exact ⟨[o], List.cons_ne_nil o [], by simp, .cons h .nil⟩
  | @cons a as o p s h hs _ ih =>
    obtain ⟨os, hne, rfl, hall⟩ := ih
    refine ⟨o :: os, List.cons_ne_nil o os, ?_, .cons h hall⟩
    rw [List.intercalate_cons_of_ne_nil hne, List.append_assoc, hs]
    rfl

theorem SeparatedBy.intercalate {α β : Type} {isSep : UInt8 → Prop} {Spells : α → Octets → Prop}
    {s : UInt8} (hs : isSep s) {f : β → α} {g : β → Octets} {bs : List β} (hne : bs ≠ [])
    (h : ∀ b ∈ bs, Spells (f b) (g b)) :
    SeparatedBy isSep Spells (bs.map f) ([s].intercalate (bs.map g)) := by
  induction bs with
  | nil => exact absurd rfl hne
  | cons b bs ih =>
    have hb := h b List.mem_cons_self
    cases bs with
    | nil =>
      rw [List.map_singleton, List.map_singleton, List.intercalate_singleton]
      exact .single hb
    | cons c cs =>
      have ih := ih (List.cons_ne_nil c cs) fun d hd => h d (List.mem_cons_of_mem b hd)
      simp only [List.map_cons] at ih ⊢
      rw [List.intercalate_cons_cons, List.append_assoc]
      exact .cons hb hs ih

/-- The rendering of relative names is a row of rows. -/
theorem separatedBy_render {isSep : UInt8 → Prop} {S : Assignment → Octets → Prop}
    (hs : isSep comma) {gss : List (List Assignment)} (hne : gss ≠ [])
    (h : ∀ gs ∈ gss, gs ≠ [] ∧ ∀ g ∈ gs, S g g.render) :
    SeparatedBy isSep (SeparatedBy (· = plus) S) gss (render gss) := by
  have hrelative : ∀ gs ∈ gss, SeparatedBy (· = plus) S (id gs)
      ([plus].intercalate (gs.map Assignment.render)) := by
    intro gs hgs
    have hrow : SeparatedBy (· = plus) S (gs.map id)
        ([plus].intercalate (gs.map Assignment.render)) :=
      .intercalate (by rfl) (h gs hgs).1 (h gs hgs).2
    rwa [List.map_id] at hrow
  have hrow : SeparatedBy isSep (SeparatedBy (· = plus) S) (gss.map id) (render gss) :=
    .intercalate hs hne hrelative
  rwa [List.map_id] at hrow

abbrev SpellsRelative : List Assignment → Octets → Prop := SeparatedBy (· = plus) SpellsAssignment

abbrev Spells : List (List Assignment) → Octets → Prop :=
  SeparatedBy (fun s => s = comma ∨ s = semicolon) SpellsRelative

theorem IsSpaces.nil : IsSpaces [] := nofun

theorem IsSpaces.append {s t : Octets} (hs : IsSpaces s) (ht : IsSpaces t) : IsSpaces (s ++ t) :=
  fun b hb => (List.mem_append.1 hb).elim (hs b) (ht b)

theorem takeWhile_of_head {p : UInt8 → Bool} {r : Octets} (hr : ∀ b ∈ r.head?, p b = false) :
    r.takeWhile p = [] := by
  cases r with
  | nil => rfl
  | cons b r => simp [hr b rfl]

theorem dropWhile_of_head {p : UInt8 → Bool} {r : Octets} (hr : ∀ b ∈ r.head?, p b = false) :
    r.dropWhile p = r := by
  cases r with
  | nil => rfl
  | cons b r => simp [hr b rfl]

theorem isSpace_eq_false {x : Option UInt8} (h : x ≠ some space) :
    ∀ b ∈ x, decide (b = space) = false := by
  rintro b rfl
  simpa using h

theorem skipSpaces_append {s r : Octets} (hs : IsSpaces s) (hr : r.head? ≠ some space) (i : Nat) :
    Cursor.skipSpaces ⟨i, s ++ r⟩ = ⟨i + s.length, r⟩ := by
  have hrun : (s ++ r).takeWhile (· = space) = s := by
    rw [List.takeWhile_append_of_pos (by simpa [IsSpaces] using hs),
      takeWhile_of_head (isSpace_eq_false hr), List.append_nil]
  simp [Cursor.skipSpaces, Cursor.advance, hrun]

theorem trimEnd_append {t s : Octets} (hs : IsSpaces s) (ht : t.getLast? ≠ some space) :
    trimEnd (t ++ s) = t := by
  rw [← List.head?_reverse] at ht
  rw [trimEnd, List.reverse_append, List.dropWhile_append_of_pos (by simpa [IsSpaces] using hs),
    dropWhile_of_head (isSpace_eq_false ht), List.reverse_reverse]

theorem typeRun_append {t s r : Octets} (ht : IsType t) (hs : IsSpaces s) :
    typeRun (t ++ (s ++ equals :: r)) = t ++ s := by
  have hbare : ∀ b ∈ t ++ s, (!(b = equals || isSeparator b)) = true := by
    intro b hb
    rcases List.mem_append.1 hb with hb | hb
    · have h := ht.bare b hb
      simp [h.1, h.2]
    · rw [hs b hb]
      decide
  rw [typeRun, ← List.append_assoc, List.takeWhile_append_of_pos hbare, takeWhile_of_head (by simp),
    List.append_nil]

theorem readType_append {t s r : Octets} (ht : IsType t) (hs : IsSpaces s) (i : Nat) :
    readType ⟨i, t ++ (s ++ equals :: r)⟩ =
      .ok (dropMark t, ⟨i + (t ++ s).length + 1, r⟩) := by
  have hdrop : (t ++ (s ++ equals :: r)).drop (t ++ s).length = equals :: r := by
    rw [← List.append_assoc, List.drop_left]
  have hne : t.isEmpty = false := by simpa using ht.ne_nil
  rw [readType]
  simp only [typeRun_append ht hs, trimEnd_append hs ht.last]
  rw [hdrop]
  exact if_neg (by simp [hne])

theorem readPieces_end {isEnd : UInt8 → Bool} {r : Octets} (hr : ∀ b ∈ r.head?, isEnd b = true)
    (i : Nat) : readPieces isEnd i r = .ok ([], ⟨i, r⟩) := by
  rw [readPieces.eq_def]
  cases r with
  | nil => rfl
  | cons b r => exact if_pos (hr b rfl)

theorem isEscapable_of_hexValue? {x v : UInt8} (h : hexValue? x = some v) :
    isEscapable x = false := by
  have hall : ∀ k : Fin 256, (hexValue? (UInt8.ofNat k)).isSome →
      isEscapable (UInt8.ofNat k) = false := by decide +kernel
  have hx := hall ⟨x.toNat, x.toNat_lt⟩
  simp only [UInt8.ofNat_toNat] at hx
  exact hx (by simp [h])

theorem readPieces_append {isEnd : UInt8 → Bool} (hend : isEnd backslash = false) {p : Piece}
    {o : Octets} (ho : SpellsPiece isEnd p o) (r : Octets) (i : Nat) :
    readPieces isEnd i (o ++ r) = Prod.map (p :: ·) id <$> readPieces isEnd (i + o.length) r := by
  rw [readPieces.eq_def]
  cases ho with
  | @bare b hb hne =>
    simp only [List.singleton_append, hb, hne, Bool.false_eq_true, if_false]
    rfl
  | special hb =>
    simp only [List.cons_append, List.nil_append, hend, hb, Bool.false_eq_true, if_false, if_true]
    rfl
  | hex hx hy =>
    simp only [List.cons_append, List.nil_append, hend, isEscapable_of_hexValue? hx, hx, hy,
      Bool.false_eq_true, if_false, if_true]
    rfl

theorem readPieces_of_spells {isEnd : UInt8 → Bool} (hend : isEnd backslash = false)
    {ps : List Piece} {o r : Octets} (h : SpellsPieces isEnd ps o)
    (hr : ∀ b ∈ r.head?, isEnd b = true) (i : Nat) :
    readPieces isEnd i (o ++ r) = .ok (ps, ⟨i + o.length, r⟩) := by
  induction h generalizing i with
  | nil => exact readPieces_end hr i
  | @cons p ps o q hp rest ih =>
    rw [List.append_assoc, List.length_append, ← Nat.add_assoc, readPieces_append hend hp, ih]
    rfl

theorem of_isSeparator {b : UInt8} (h : isSeparator b = true) :
    b = comma ∨ b = plus ∨ b = semicolon := by
  simpa [isSeparator, or_assoc] using h

/-- The octets after an assignment start with a separator, if there are any. -/
def EndsAssignment (r : Octets) : Prop := ∀ b ∈ r.head?, isSeparator b = true

theorem EndsAssignment.head_ne_space {r : Octets} (hr : EndsAssignment r) :
    r.head? ≠ some space := by
  intro h
  exact absurd (hr space h) (by decide)

theorem EndsAssignment.head_bare {r : Octets} (hr : EndsAssignment r) :
    ∀ b ∈ r.head?, b ≠ space ∧ b ≠ numberSign ∧ b ≠ quote := by
  intro b hb
  rcases of_isSeparator (hr b hb) with rfl | rfl | rfl <;> decide

/-- Octets for a value, with the spaces after it, of which the reader goes no further when `next`
comes next. -/
inductive SpellsValueBefore (next : Option UInt8) : Value → Octets → Prop
  | hex {digits s : Octets} (hne : digits ≠ []) (hd : ∀ b ∈ digits, isHexDigit b = true)
      (hs : IsSpaces s) (hnext : next ≠ some space)
      (hstop : s = [] → ∀ b ∈ next, isHexDigit b = false) :
      SpellsValueBefore next (.hex digits) (numberSign :: (digits ++ s))
  | quoted {ps : List Piece} {o s : Octets} (hp : SpellsPieces (· = quote) ps o)
      (hs : IsSpaces s) (hnext : next ≠ some space) :
      SpellsValueBefore next (.plain (ps.map Piece.octet)) (quote :: (o ++ quote :: s))
  | bare {ps : List Piece} {o : Octets} (hp : SpellsPieces isSeparator ps o)
      (ho : ∀ b ∈ o.head?, b ≠ space ∧ b ≠ numberSign ∧ b ≠ quote)
      (hnext : ∀ b ∈ next, isSeparator b = true) : SpellsValueBefore next (.plain (unquoted ps)) o

theorem SpellsValueBefore.spells {next : Option UInt8} {v : Value} {o : Octets}
    (h : SpellsValueBefore next v o) : SpellsValue v o := by
  cases h with
  | hex hne hd hs => exact .hex hne hd hs
  | quoted hp hs => exact .quoted hp hs
  | bare hp ho => exact .bare hp ho

theorem SpellsValue.before {v : Value} {o r : Octets} (h : SpellsValue v o)
    (hr : EndsAssignment r) : SpellsValueBefore r.head? v o := by
  cases h with
  | hex hne hd hs =>
    refine .hex hne hd hs hr.head_ne_space fun _ b hb => ?_
    rcases of_isSeparator (hr b hb) with rfl | rfl | rfl <;> decide
  | quoted hp hs => exact .quoted hp hs hr.head_ne_space
  | bare hp ho => exact .bare hp ho hr

theorem head_append_bare {o r : Octets} (ho : ∀ b ∈ o.head?, b ≠ space ∧ b ≠ numberSign ∧ b ≠ quote)
    (hr : EndsAssignment r) : ∀ b ∈ (o ++ r).head?, b ≠ space ∧ b ≠ numberSign ∧ b ≠ quote := by
  cases o with
  | nil => exact hr.head_bare
  | cons x o => exact ho

theorem readValue_of_head_bare {r : Octets}
    (hr : ∀ b ∈ r.head?, b ≠ space ∧ b ≠ numberSign ∧ b ≠ quote) (i : Nat) :
    readValue ⟨i, r⟩ = readUnquoted ⟨i, r⟩ := by
  rw [readValue]
  split
  · next x h =>
    change r = numberSign :: x at h
    exact absurd rfl (hr numberSign (by simp [h])).2.1
  · next x h =>
    change r = quote :: x at h
    exact absurd rfl (hr quote (by simp [h])).2.2
  · rfl

theorem readHex_append {digits s r : Octets} (hne : digits ≠ [])
    (hd : ∀ b ∈ digits, isHexDigit b = true) (hs : IsSpaces s)
    (hr : s = [] → ∀ b ∈ r.head?, isHexDigit b = false) (i : Nat) :
    readHex ⟨i, digits ++ (s ++ r)⟩ = .ok (.hex digits, ⟨i + digits.length, s ++ r⟩) := by
  have hstop : ∀ b ∈ (s ++ r).head?, isHexDigit b = false := by
    intro b hb
    cases s with
    | nil => exact hr rfl b hb
    | cons x s =>
      obtain rfl : x = b := by simpa using hb
      rw [hs x List.mem_cons_self]
      decide
  have hrun : (digits ++ (s ++ r)).takeWhile isHexDigit = digits := by
    rw [List.takeWhile_append_of_pos hd, takeWhile_of_head hstop, List.append_nil]
  have hd : digits.isEmpty = false := by simpa using hne
  simp [readHex, hrun, hd, Cursor.advance]

theorem readValue_of_before {v : Value} {o r : Octets} (h : SpellsValueBefore r.head? v o)
    (i : Nat) : ∃ c, readValue ⟨i, o ++ r⟩ = .ok (v, c) ∧ c.skipSpaces = ⟨i + o.length, r⟩ := by
  cases h with
  | @hex digits s hne hd hs hnext hstop =>
    have hread := readHex_append hne hd hs hstop (i + 1)
    refine ⟨⟨i + 1 + digits.length, s ++ r⟩, ?_, ?_⟩
    · rw [List.cons_append, List.append_assoc]
      exact hread
    · rw [skipSpaces_append hs hnext]
      simp only [List.length_cons, List.length_append]
      congr 1
      omega
  | @quoted ps o s hp hs hnext =>
    have hread := readPieces_of_spells (by decide) hp (r := quote :: (s ++ r)) (by simp) (i + 1)
    refine ⟨⟨i + 1 + o.length + 1, s ++ r⟩, ?_, ?_⟩
    · rw [List.cons_append, List.append_assoc, List.cons_append]
      change readQuoted ⟨i + 1, o ++ quote :: (s ++ r)⟩ = _
      rw [readQuoted, hread]
      rfl
    · rw [skipSpaces_append hs hnext]
      simp only [List.length_cons, List.length_append]
      congr 1
      omega
  | bare hp ho hnext =>
    have hread := readPieces_of_spells (by decide) hp hnext i
    have hspace := EndsAssignment.head_ne_space hnext
    refine ⟨⟨i + o.length, r⟩, ?_, skipSpaces_append (s := []) nofun hspace _⟩
    rw [readValue_of_head_bare (head_append_bare ho hnext), readUnquoted, hread]
    rfl

theorem SpellsValueBefore.head_ne_space {v : Value} {o r : Octets}
    (h : SpellsValueBefore r.head? v o) : (o ++ r).head? ≠ some space := by
  cases h with
  | hex => exact fun h => absurd (Option.some.inj h) (by decide)
  | quoted => exact fun h => absurd (Option.some.inj h) (by decide)
  | bare hp ho hnext => exact fun h => (head_append_bare ho hnext space h).1 rfl

theorem IsType.head_append_ne_space {t o : Octets} (ht : IsType t) :
    (t ++ o).head? ≠ some space := by
  obtain ⟨b, u, rfl⟩ := List.exists_cons_of_ne_nil ht.ne_nil
  exact ht.head

inductive SpellsAssignmentBefore (next : Option UInt8) : Assignment → Octets → Prop
  | mk {s₁ t s₂ s₃ o : Octets} {v : Value} (h₁ : IsSpaces s₁) (ht : IsType t) (h₂ : IsSpaces s₂)
      (h₃ : IsSpaces s₃) (hv : SpellsValueBefore next v o) :
      SpellsAssignmentBefore next ⟨dropMark t, v⟩ (s₁ ++ (t ++ (s₂ ++ equals :: (s₃ ++ o))))

theorem SpellsAssignmentBefore.spells {next : Option UInt8} {a : Assignment} {o : Octets}
    (h : SpellsAssignmentBefore next a o) : SpellsAssignment a o := by
  cases h with
  | mk h₁ ht h₂ h₃ hv => exact .mk h₁ ht h₂ h₃ hv.spells

theorem SpellsAssignment.before {a : Assignment} {o r : Octets} (h : SpellsAssignment a o)
    (hr : EndsAssignment r) : SpellsAssignmentBefore r.head? a o := by
  cases h with
  | mk h₁ ht h₂ h₃ hv => exact .mk h₁ ht h₂ h₃ (hv.before hr)

theorem readAssignment_of_before {a : Assignment} {o r : Octets}
    (h : SpellsAssignmentBefore r.head? a o) (i : Nat) :
    readAssignment ⟨i, o ++ r⟩ = .ok (a, ⟨i + o.length, r⟩) := by
  cases h with
  | @mk s₁ t s₂ s₃ o v h₁ ht h₂ h₃ hv =>
    obtain ⟨c, hread, hc⟩ := readValue_of_before hv
      (i + s₁.length + (t ++ s₂).length + 1 + s₃.length)
    have htext : s₁ ++ (t ++ (s₂ ++ equals :: (s₃ ++ o))) ++ r =
        s₁ ++ (t ++ (s₂ ++ equals :: (s₃ ++ (o ++ r)))) := by simp
    rw [readAssignment, htext, skipSpaces_append h₁ ht.head_append_ne_space,
      readType_append ht h₂, Except.ok_bind]
    dsimp only
    rw [skipSpaces_append h₃ hv.head_ne_space, hread, Except.ok_bind]
    dsimp only
    rw [hc]
    simp only [List.length_append, List.length_cons]
    congr 3
    omega

theorem readAssignment_of_spells {a : Assignment} {o r : Octets} (h : SpellsAssignment a o)
    (hr : EndsAssignment r) (i : Nat) :
    readAssignment ⟨i, o ++ r⟩ = .ok (a, ⟨i + o.length, r⟩) :=
  readAssignment_of_before (h.before hr) i

theorem readRelatives_eq {a : Assignment} {c after : Cursor}
    (h : readAssignment c = .ok (a, after)) :
    readRelatives c =
      match after.rest with
      | [] => .ok [[a]]
      | b :: r =>
        if b = plus then join a <$> readRelatives ⟨after.offset + 1, r⟩
        else if isSeparator b then ([a] :: ·) <$> readRelatives ⟨after.offset + 1, r⟩
        else .error (.unexpected b after.offset) := by
  rw [readRelatives]
  split
  · next e he => exact absurd (h.symm.trans he) (by simp)
  · next a' after' h' =>
    cases h.symm.trans h'
    split <;> simp_all

/-- How the reader goes on after a relative name: there is nothing left, or a separator and then
the relative names `gs`. -/
def Continues (r : Octets) (gs : List (List Assignment)) : Prop :=
  (r = [] ∧ gs = []) ∨
    ∃ s p, r = s :: p ∧ (s = comma ∨ s = semicolon) ∧ ∀ i, readRelatives ⟨i, p⟩ = .ok gs

theorem Continues.endsAssignment {r : Octets} {gs : List (List Assignment)}
    (h : Continues r gs) : EndsAssignment r := by
  rcases h with ⟨rfl, _⟩ | ⟨s, p, rfl, rfl | rfl, _⟩
  · exact nofun
  · rintro b ⟨⟩
    decide
  · rintro b ⟨⟩
    decide

theorem readRelatives_single {a : Assignment} {o r : Octets} {gs : List (List Assignment)}
    (h : SpellsAssignment a o) (hr : Continues r gs) (i : Nat) :
    readRelatives ⟨i, o ++ r⟩ = .ok ([a] :: gs) := by
  rw [readRelatives_eq (readAssignment_of_spells h hr.endsAssignment i)]
  rcases hr with ⟨rfl, rfl⟩ | ⟨s, p, rfl, hs, hp⟩
  · rfl
  · have hsep : s ≠ plus ∧ isSeparator s = true := by
      rcases hs with rfl | rfl <;> decide
    simp only [if_neg hsep.1, if_pos hsep.2, hp]
    rfl

theorem readRelatives_plus {a : Assignment} {as : List Assignment} {o p : Octets}
    {gs : List (List Assignment)} (h : SpellsAssignment a o)
    (hp : ∀ i, readRelatives ⟨i, p⟩ = .ok (as :: gs)) (i : Nat) :
    readRelatives ⟨i, o ++ plus :: p⟩ = .ok ((a :: as) :: gs) := by
  have hends : EndsAssignment (plus :: p) := by
    rintro b ⟨⟩
    decide
  rw [readRelatives_eq (readAssignment_of_spells h hends i)]
  simp only [if_pos, hp]
  rfl

theorem readRelatives_relative {as : List Assignment} {o r : Octets} {gs : List (List Assignment)}
    (h : SpellsRelative as o) (hr : Continues r gs) (i : Nat) :
    readRelatives ⟨i, o ++ r⟩ = .ok (as :: gs) := by
  induction h generalizing i with
  | single h => exact readRelatives_single h hr i
  | cons h hs rest ih =>
    subst hs
    rw [List.append_assoc, List.cons_append]
    exact readRelatives_plus h ih i

theorem readRelatives_of_spells {gs : List (List Assignment)} {o : Octets} (h : Spells gs o)
    (i : Nat) : readRelatives ⟨i, o⟩ = .ok gs := by
  induction h generalizing i with
  | single h =>
    have hread := readRelatives_relative h (r := []) (.inl ⟨rfl, rfl⟩) i
    rwa [List.append_nil] at hread
  | cons h hs rest ih => exact readRelatives_relative h (.inr ⟨_, _, rfl, hs, ih⟩) i

theorem parse_of_spells {gs : List (List Assignment)} {o : Octets} (h : Spells gs o) :
    parse o = .ok gs :=
  readRelatives_of_spells h 0

theorem normalize_of_spells {gs : List (List Assignment)} {o : Octets} (h : Spells gs o) :
    normalize o = .ok (render gs) := by
  rw [normalize, parse_of_spells h]
  rfl

end TrustAnchors.Name.Lenient
