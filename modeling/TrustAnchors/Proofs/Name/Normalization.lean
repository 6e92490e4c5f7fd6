import TrustAnchors.Proofs.Name.Denotation
import TrustAnchors.Proofs.Name.TextInversion

/-!
# What lenient text is normalized to

`Normalizes text strict` relates lenient text to strict text attribute by attribute, without the
reader: each attribute is a type and a value with spaces around both, and the strict text has the
type without its mark and the octets that the value denotes, escaped by their places.
`normalize` gives just the strict text that belongs to a text, and nothing for any other text
(`normalize_eq_ok_iff`).
-/

namespace TrustAnchors.Name.Lenient

open Ascii

/-- Strict text for an octet of a value, by its place and the last place of the value. -/
def escapeAt (last i : Nat) (b : UInt8) : Octets :=
  if b = backslash then ofString "\\5c"
  else if b ∈ ofString ",+;\"<>=" then [backslash, b]
  else if b = numberSign ∧ i = 0 then [backslash, numberSign]
  else if b = space ∧ (i = 0 ∨ i = last) then [backslash, space]
  else if 0x20 ≤ b ∧ b ≤ 0x7e then [b]
  else backslash :: hexPair b

/-- Strict text for the octets of a value. -/
def escapeByPlace (o : Octets) : Octets := (o.mapIdx (escapeAt (o.length - 1))).flatten

theorem escapeOctet_eq (b : UInt8) :
    escapeOctet b =
      if b = backslash then ofString "\\5c"
      else if b ∈ ofString ",+;\"<>=" then [backslash, b]
      else if 0x20 ≤ b ∧ b ≤ 0x7e then [b]
      else backslash :: hexPair b := by
  by_cases hb : b = backslash
  · rw [hb]
    decide +kernel
  · simp only [escapeOctet, isSpecial, decide_eq_true_eq, Bool.and_eq_true, ne_eq, hb,
      not_false_eq_true, and_true, if_false]

/-- Only a number sign and a space are escaped for their places. -/
theorem escapeAt_eq (last i : Nat) (b : UInt8) :
    escapeAt last i b =
      if b = numberSign ∧ i = 0 ∨ b = space ∧ (i = 0 ∨ i = last) then [backslash, b]
      else escapeOctet b := by
  rw [escapeOctet_eq, escapeAt]
  by_cases hsharp : b = numberSign
  · subst hsharp
    have hspace : ¬ (numberSign = space ∧ (i = 0 ∨ i = last)) := fun h => absurd h.1 (by decide)
    simp only [if_neg hspace, or_iff_left hspace, true_and]
    rfl
  by_cases hspace : b = space
  · subst hspace
    have hsharp : ¬ (space = numberSign ∧ i = 0) := fun h => hsharp h.1
    simp only [if_neg hsharp, or_iff_right hsharp, true_and]
    rfl
  simp only [hsharp, hspace, false_and, or_false, if_false]

/-- Behind the first place, only a space in the last place is escaped for its place. -/
theorem escapeRest_eq (o : Octets) (k : Nat) :
    escapeRest o = (o.mapIdx fun i => escapeAt (k + o.length) (k + 1 + i)).flatten := by
  -- The first octet of `o` has the place `k + 1`, so that no octet of it is in the first place.
  induction o generalizing k with
  | nil => rfl
  | cons b r ih =>
    have hrest : r.mapIdx (fun i => escapeAt (k + 1 + r.length) (k + 1 + 1 + i)) =
        r.mapIdx fun i => escapeAt (k + (b :: r).length) (k + 1 + (i + 1)) := by
      congr 1
      funext i
      rw [List.length_cons]
      congr 1 <;> omega
    rw [List.mapIdx_cons, List.flatten_cons, ← hrest, ← ih (k + 1), escapeAt_eq]
    cases r with
    | nil => simp [escapeRest]
    | cons c r =>
      rw [if_neg (by simp only [List.length_cons]; omega)]
      rfl

theorem escape_eq_escapeByPlace (o : Octets) : escape o = escapeByPlace o := by
  cases o with
  | nil => rfl
  | cons b r =>
    have hrest := escapeRest_eq r 0
    rw [escapeByPlace, List.mapIdx_cons, List.flatten_cons, escapeAt_eq, escape, hrest]
    congr 1
    · congr 1
      simp [or_comm]
    · simp [Nat.add_comm]

/-- A value without spaces around it, and strict text for it. -/
inductive NormalizesValue : Octets → Octets → Prop
  | hex {digits : Octets} (hne : digits ≠ []) (hd : ∀ b ∈ digits, isHexDigit b = true) :
      NormalizesValue (numberSign :: digits) (numberSign :: digits)
  | quoted {ps : List Piece} {o : Octets} (hp : SpellsPieces (· = quote) ps o) :
      NormalizesValue (quote :: (o ++ [quote])) (escapeByPlace (ps.map Piece.octet))
  | bare {ps : List Piece} {o : Octets} (hp : SpellsPieces isSeparator ps o)
      (ho : ∀ b ∈ o.head?, b ≠ space ∧ b ≠ numberSign ∧ b ≠ quote)
      (hlast : ∀ p ∈ ps.getLast?, p.escaped = false → p.octet ≠ space) :
      NormalizesValue o (escapeByPlace (ps.map Piece.octet))

/-- A type, and the type without a mark. Of two marks in a row only the first one is left out. -/
inductive Unmarks : Octets → Octets → Prop
  | marked {mark t : Octets} (hm : mark = ofString "OID." ∨ mark = ofString "oid.") :
      Unmarks (mark ++ t) t
  | bare {t : Octets} (h : ∀ r, t ≠ ofString "OID." ++ r ∧ t ≠ ofString "oid." ++ r) : Unmarks t t

theorem unmarks_iff {t u : Octets} : Unmarks t u ↔ dropMark t = u := by
  constructor
  · intro h
    cases h with
    | marked hm => rcases hm with rfl | rfl <;> rfl
    | bare h => exact dropMark_of_no_mark h
  · rintro rfl
    by_cases hoid : ofString "OID." <+: t
    · obtain ⟨r, rfl⟩ := hoid
      exact .marked (.inl rfl)
    · by_cases hoid' : ofString "oid." <+: t
      · obtain ⟨r, rfl⟩ := hoid'
        exact .marked (.inr rfl)
      · have hbare : ∀ r, t ≠ ofString "OID." ++ r ∧ t ≠ ofString "oid." ++ r :=
          fun r => ⟨fun he => hoid ⟨r, he.symm⟩, fun he => hoid' ⟨r, he.symm⟩⟩
        rw [dropMark_of_no_mark hbare]
        exact .bare hbare

/-- An attribute with spaces around its type and its value, and strict text for it. -/
inductive NormalizesAttribute : Octets → Octets → Prop
  | mk {s₁ t u s₂ s₃ o s₄ v : Octets} (h₁ : IsSpaces s₁) (ht : IsType t) (hu : Unmarks t u)
      (h₂ : IsSpaces s₂) (h₃ : IsSpaces s₃) (hv : NormalizesValue o v) (h₄ : IsSpaces s₄) :
      NormalizesAttribute (s₁ ++ (t ++ (s₂ ++ equals :: (s₃ ++ (o ++ s₄))))) (u ++ equals :: v)

def strictSeparator (s : UInt8) : UInt8 := if s = semicolon then comma else s

/-- Attributes with one separator between each two, and strict text for them. -/
inductive Normalizes : Octets → Octets → Prop
  | single {o v : Octets} (h : NormalizesAttribute o v) : Normalizes o v
  | cons {o v p w : Octets} {s : UInt8} (h : NormalizesAttribute o v) (hs : isSeparator s = true)
      (rest : Normalizes p w) : Normalizes (o ++ s :: p) (v ++ strictSeparator s :: w)

theorem NormalizesValue.spells {s₃ o s₄ v : Octets} (h : NormalizesValue o v) (h₃ : IsSpaces s₃)
    (h₄ : IsSpaces s₄) :
    ∃ s p w, s₃ ++ (o ++ s₄) = s ++ p ∧ IsSpaces s ∧ SpellsValue w p ∧ w.render = v := by
  cases h with
  | @hex digits hne hd =>
    exact ⟨s₃, numberSign :: (digits ++ s₄), .hex digits, by simp, h₃, .hex hne hd h₄, rfl⟩
  | @quoted ps o hp =>
    exact ⟨s₃, quote :: (o ++ quote :: s₄), _, by simp, h₃, .quoted hp h₄,
      escape_eq_escapeByPlace _⟩
  | @bare ps o hp ho hlast =>
    obtain ⟨s, p, htext, hs, hvalue⟩ := Assertion.exists_spellsValue_bare hp ho hlast h₃ h₄
    exact ⟨s, p, _, htext, hs, hvalue, escape_eq_escapeByPlace _⟩

theorem SpellsPieces.of_append {isEnd : UInt8 → Bool} {ps qs : List Piece} {o : Octets}
    (h : SpellsPieces isEnd (ps ++ qs) o) :
    ∃ p q, o = p ++ q ∧ SpellsPieces isEnd ps p ∧ SpellsPieces isEnd qs q := by
  induction ps generalizing o with
  | nil => exact ⟨[], o, rfl, .nil, h⟩
  | cons x ps ih =>
    cases h with
    | @cons _ _ o r hx hrest =>
      obtain ⟨p, q, rfl, hp, hq⟩ := ih hrest
      exact ⟨o ++ p, q, by simp, .cons hx hp, hq⟩

theorem SpellsPieces.isSpaces {isEnd : UInt8 → Bool} {ps : List Piece} {o : Octets}
    (h : SpellsPieces isEnd ps o) (hps : ∀ p ∈ ps, p = ⟨space, false⟩) : IsSpaces o := by
  induction h with
  | nil => exact .nil
  | cons hp _ ih =>
    have hspace := hps _ List.mem_cons_self
    refine IsSpaces.append ?_ (ih fun q hq => hps q (List.mem_cons_of_mem _ hq))
    cases hp with
    | bare => simpa [IsSpaces] using hspace
    | special => cases hspace
    | hex => simp at hspace

/-- A bare value is spelled up to the raw spaces at its end. -/
theorem exists_unquoted (ps : List Piece) :
    ∃ qs rs, ps = qs ++ rs ∧ (∀ p ∈ rs, p = ⟨space, false⟩) ∧
      (∀ p ∈ qs.getLast?, p.escaped = false → p.octet ≠ space) ∧
      unquoted ps = qs.map Piece.octet := by
  let isRaw : Piece → Bool := fun p => !p.escaped && p.octet = space
  refine ⟨(ps.reverse.dropWhile isRaw).reverse, (ps.reverse.takeWhile isRaw).reverse, ?_, ?_, ?_,
    rfl⟩
  · rw [← List.reverse_append, List.takeWhile_append_dropWhile, List.reverse_reverse]
  · intro p hp
    have hraw : isRaw p = true := List.mem_takeWhile_imp (List.mem_reverse.1 hp)
    simp only [isRaw, Bool.and_eq_true, Bool.not_eq_true', decide_eq_true_eq] at hraw
    rw [← hraw.1, ← hraw.2]
  · intro p hp he hspace
    rw [List.getLast?_reverse] at hp
    have hstop := List.head?_dropWhile_not isRaw ps.reverse
    rw [hp] at hstop
    simp [isRaw, he, hspace] at hstop

theorem SpellsValue.normalizes {w : Value} {p : Octets} (h : SpellsValue w p) :
    ∃ o s, p = o ++ s ∧ IsSpaces s ∧ NormalizesValue o w.render := by
  cases h with
  | @hex digits s hne hd hs => exact ⟨numberSign :: digits, s, rfl, hs, .hex hne hd⟩
  | @quoted ps o s hp hs =>
    refine ⟨quote :: (o ++ [quote]), s, by simp, hs, ?_⟩
    rw [Value.render, escape_eq_escapeByPlace]
    exact .quoted hp
  | @bare ps o hp ho =>
    obtain ⟨qs, rs, rfl, hspaces, hlast, hvalue⟩ := exists_unquoted ps
    obtain ⟨o, s, rfl, hq, hs⟩ := hp.of_append
    refine ⟨o, s, rfl, hs.isSpaces hspaces, ?_⟩
    rw [Value.render, hvalue, escape_eq_escapeByPlace]
    refine .bare hq (fun b hb => ho b ?_) hlast
    rw [List.head?_append, hb]
    rfl

theorem normalizesAttribute_iff {o v : Octets} :
    NormalizesAttribute o v ↔ ∃ a, SpellsAssignment a o ∧ a.render = v := by
  constructor
  · rintro ⟨h₁, ht, hu, h₂, h₃, hv, h₄⟩
    obtain ⟨s, p, w, htext, hs, hw, rfl⟩ := hv.spells h₃ h₄
    rw [htext, ← unmarks_iff.1 hu]
    exact ⟨_, .mk h₁ ht h₂ hs hw, rfl⟩
  · rintro ⟨_, ⟨h₁, ht, h₂, h₃, hv⟩, rfl⟩
    obtain ⟨o, s, rfl, hs, hnormal⟩ := hv.normalizes
    exact .mk h₁ ht (unmarks_iff.2 rfl) h₂ h₃ hnormal hs

def renderRelative (as : List Assignment) : Octets := [plus].intercalate (as.map Assignment.render)

theorem render_singleton (gs : List Assignment) : render [gs] = renderRelative gs := by
  rw [render, List.map_singleton, List.intercalate_singleton, renderRelative]

theorem render_cons {gs : List Assignment} {gss : List (List Assignment)} (hne : gss ≠ []) :
    render (gs :: gss) = renderRelative gs ++ comma :: render gss := by
  rw [render, List.map_cons, List.intercalate_cons_of_ne_nil (by simpa using hne),
    List.append_assoc]
  rfl

theorem renderRelative_cons {a : Assignment} {as : List Assignment} (hne : as ≠ []) :
    renderRelative (a :: as) = a.render ++ plus :: renderRelative as := by
  rw [renderRelative, List.map_cons, List.intercalate_cons_of_ne_nil (by simpa using hne),
    List.append_assoc]
  rfl

/-- Strict text for the first relative name with one more assignment. -/
theorem render_join {a : Assignment} {gss : List (List Assignment)} (hne : gss ≠ [])
    (h : ∀ gs ∈ gss, gs ≠ []) : render (join a gss) = a.render ++ plus :: render gss := by
  obtain ⟨gs, gss, rfl⟩ := List.exists_cons_of_ne_nil hne
  have hgs := h gs List.mem_cons_self
  cases gss with
  | nil => rw [join, render_singleton, render_singleton, renderRelative_cons hgs]
  | cons gs' gss =>
    rw [join, render_cons (List.cons_ne_nil _ _), render_cons (List.cons_ne_nil _ _),
      renderRelative_cons hgs, List.append_assoc, List.cons_append]

/-- A relative name goes on as each of its assignments does. -/
theorem normalizes_append {as : List Assignment} {o r q : Octets} (h : SpellsRelative as o)
    (hr : ∀ a p, SpellsAssignment a p → Normalizes (p ++ r) (a.render ++ q)) :
    Normalizes (o ++ r) (renderRelative as ++ q) := by
  induction h with
  | @single a o h =>
    rw [renderRelative, List.map_singleton, List.intercalate_singleton]
    exact hr a o h
  | @cons a as o p s h hs rest ih =>
    subst hs
    rw [renderRelative_cons rest.ne_nil, List.append_assoc, List.append_assoc]
    exact .cons (s := plus) (normalizesAttribute_iff.2 ⟨a, h, rfl⟩) (by decide) ih

theorem normalizes_of_spells {gss : List (List Assignment)} {o : Octets} (h : Spells gss o) :
    Normalizes o (render gss) := by
  induction h with
  | @single gs o h =>
    have hall := normalizes_append (r := []) (q := []) h fun a p ha => by
      rw [List.append_nil, List.append_nil]
      exact .single (normalizesAttribute_iff.2 ⟨a, ha, rfl⟩)
    rwa [List.append_nil, List.append_nil, ← render_singleton] at hall
  | @cons gs gss o p s h hs rest ih =>
    rw [render_cons rest.ne_nil]
    refine normalizes_append h fun a p ha => ?_
    have hattribute := normalizesAttribute_iff.2 ⟨a, ha, rfl⟩
    rcases hs with rfl | rfl
    · exact .cons (s := comma) hattribute (by decide) ih
    · exact .cons (s := semicolon) hattribute (by decide) ih

theorem Normalizes.exists_spells {o v : Octets} (h : Normalizes o v) :
    ∃ gss, Spells gss o ∧ render gss = v := by
  induction h with
  | single h =>
    obtain ⟨a, ha, rfl⟩ := normalizesAttribute_iff.1 h
    refine ⟨[[a]], .single (.single ha), ?_⟩
    rw [render_singleton, renderRelative, List.map_singleton, List.intercalate_singleton]
  | @cons o v p w s h hs _ ih =>
    obtain ⟨a, ha, rfl⟩ := normalizesAttribute_iff.1 h
    obtain ⟨gss, hgss, rfl⟩ := ih
    by_cases hplus : s = plus
    · subst hplus
      exact ⟨join a gss, spells_join ha hgss,
        render_join hgss.ne_nil fun gs hgs => (hgss.wellFormed gs hgs).1⟩
    · have hs : s = comma ∨ s = semicolon := by simpa [isSeparator, hplus] using hs
      refine ⟨[a] :: gss, .cons (.single ha) hs hgss, ?_⟩
      have hcomma : strictSeparator s = comma := by rcases hs with rfl | rfl <;> rfl
      rw [render_cons hgss.ne_nil, hcomma, renderRelative, List.map_singleton,
        List.intercalate_singleton]

/-- Lenient text is a row of attributes, and is normalized to strict text for the same attributes.
Any other text is refused. -/
theorem normalize_eq_ok_iff {text strict : Octets} :
    normalize text = .ok strict ↔ Normalizes text strict := by
  simp only [normalize, Except.map_eq_ok_iff, parse_eq_ok_iff]
  constructor
  · rintro ⟨gss, hgss, rfl⟩
    exact normalizes_of_spells hgss
  · exact Normalizes.exists_spells

example : normalize (ofString " OID.2.5.4.3 = \" a,\\\\\" ;o=b\\# \\20 ") =
    .ok (ofString "2.5.4.3=\\ a\\,\\5c,o=b# \\ ") := by
  decide +kernel

end TrustAnchors.Name.Lenient
