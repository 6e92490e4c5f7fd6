import TrustAnchors.Proofs.Name.Denotation
import TrustAnchors.Proofs.Name.TextInversion

/-!
# Strict text is read as it stands

Strict text is lenient text, but normalizing it does not leave it alone: a bare `=` gets an escape,
octets that do not print get hexadecimal ones, and hexadecimal escapes of octets that print are
undone. In both texts the same separators are cut, and attribute by attribute the same is read
(`Writes.ofStrict`), so that lenient reading gives what strict reading of the text itself gives, be
it a name or an error (`ofText_of_writes`).
-/

namespace TrustAnchors

namespace Name.Strict

open Ascii Der Lenient

def isLetter (b : UInt8) : Bool := isUpper b || isLower b

/-- Octets of a type: a letter and then letters, digits and hyphens, or digits and dots. -/
inductive IsKey : Octets → Prop
  | name {b : UInt8} {t : Octets} (hb : isLetter b = true)
      (ht : ∀ c ∈ t, isLetter c = true ∨ isDigit c = true ∨ c = dash) : IsKey (b :: t)
  | dotted {b : UInt8} {t : Octets} (hb : isDigit b = true)
      (ht : ∀ c ∈ t, isDigit c = true ∨ c = dot) : IsKey (b :: t)

/-- Octets for one octet of a value. A backslash is written with its digits, and not behind another
backslash. -/
inductive WritesPiece : Piece → Octets → Prop
  | bare {b : UInt8} (hb : b ∉ ofString "\"+,;<>\\") : WritesPiece ⟨b, false⟩ [b]
  | special {b : UInt8} (hb : b ∈ ofString "\"+,;<> #=") : WritesPiece ⟨b, true⟩ [backslash, b]
  | hex {x y high low : UInt8} (hx : hexValue? x = some high) (hy : hexValue? y = some low) :
      WritesPiece ⟨high * 16 + low, true⟩ [backslash, x, y]

inductive WritesPieces : List Piece → Octets → Prop
  | nil : WritesPieces [] []
  | cons {p : Piece} {ps : List Piece} {o q : Octets} (h : WritesPiece p o)
      (rest : WritesPieces ps q) : WritesPieces (p :: ps) (o ++ q)

/-- Octets for a value: pairs of hexadecimal digits, or a string that has no bare space at its
ends and no bare number sign in front. -/
inductive WritesValue : Value → Octets → Prop
  | hex {digits : Octets} (hne : digits ≠ []) (heven : digits.length % 2 = 0)
      (hd : ∀ b ∈ digits, isHexDigit b = true) : WritesValue (.hex digits) (numberSign :: digits)
  | plain {ps : List Piece} {o : Octets} (hp : WritesPieces ps o)
      (hfirst : ∀ p ∈ ps.head?, p.escaped = false → p.octet ≠ space ∧ p.octet ≠ numberSign)
      (hlast : ∀ p ∈ ps.getLast?, p.escaped = false → p.octet ≠ space) :
      WritesValue (.plain (ps.map Piece.octet)) o

inductive WritesAssignment : Assignment → Octets → Prop
  | mk {t o : Octets} {v : Value} (ht : IsKey t) (hv : WritesValue v o) :
      WritesAssignment ⟨t, v⟩ (t ++ equals :: o)

/-- Strict text for relative names, each given by its assignments in the order of the text. -/
abbrev Writes : List (List Assignment) → Octets → Prop :=
  SeparatedBy (· = comma) (SeparatedBy (· = plus) WritesAssignment)

theorem isKeyOctet_of_letter {b : UInt8} (h : isLetter b = true ∨ isDigit b = true ∨ b = dash) :
    isKeyOctet b = true ∧ b ≠ dot := by
  revert h
  refine forall_octet (P := fun b => isLetter b = true ∨ isDigit b = true ∨ b = dash →
    isKeyOctet b = true ∧ b ≠ dot) ?_ b
  decide +kernel

theorem isKeyOctet_of_digit {b : UInt8} (h : isDigit b = true ∨ b = dot) : isKeyOctet b = true := by
  revert h
  refine forall_octet (P := fun b => isDigit b = true ∨ b = dot → isKeyOctet b = true) ?_ b
  decide +kernel

theorem IsKey.isType {t : Octets} (h : IsKey t) : IsType t := by
  cases h with
  | name hb ht =>
    refine isType_of_isKeyOctet (List.cons_ne_nil _ _) (List.forall_mem_cons.2 ⟨?_, fun c hc => ?_⟩)
    · exact (isKeyOctet_of_letter (.inl hb)).1
    · exact (isKeyOctet_of_letter (ht c hc)).1
  | dotted hb ht =>
    refine isType_of_isKeyOctet (List.cons_ne_nil _ _) (List.forall_mem_cons.2 ⟨?_, fun c hc => ?_⟩)
    · exact isKeyOctet_of_digit (.inl hb)
    · exact isKeyOctet_of_digit (ht c hc)

/-- A mark ends in a dot, and does not start with a digit. -/
theorem IsKey.dropMark {t : Octets} (h : IsKey t) : Lenient.dropMark t = t := by
  cases h with
  | @name b t hb ht =>
    have hdot : dot ∉ b :: t := by
      rintro (_ | ⟨_, hmem⟩)
      · exact (isKeyOctet_of_letter (.inl hb)).2 rfl
      · exact (isKeyOctet_of_letter (ht dot hmem)).2 rfl
    refine dropMark_of_no_mark fun r => ⟨fun he => hdot ?_, fun he => hdot ?_⟩ <;> rw [he]
    · exact List.mem_append_left r dot_mem_mark.1
    · exact List.mem_append_left r dot_mem_mark.2
  | @dotted b t hb ht =>
    refine dropMark_of_no_mark fun r => ⟨?_, ?_⟩ <;> rintro ⟨⟩
    · exact absurd hb (by decide)
    · exact absurd hb (by decide)

theorem of_not_mem_special {b : UInt8} (h : b ∉ ofString "\"+,;<>\\") :
    isSeparator b = false ∧ b ≠ backslash ∧ b ≠ quote := by
  revert h
  refine forall_octet (P := fun b => b ∉ ofString "\"+,;<>\\" →
    isSeparator b = false ∧ b ≠ backslash ∧ b ≠ quote) ?_ b
  decide +kernel

theorem of_mem_special {b : UInt8} (h : b ∈ ofString "\"+,;<> #=") :
    Lenient.isEscapable b = true ∧ b ≠ backslash := by
  revert h
  refine forall_octet (P := fun b => b ∈ ofString "\"+,;<> #=" →
    Lenient.isEscapable b = true ∧ b ≠ backslash) ?_ b
  decide +kernel

variable {ps : List Piece} {o : Octets}

theorem WritesPiece.spells {p : Piece} (h : WritesPiece p o) : SpellsPiece isSeparator p o := by
  cases h with
  | bare hb => exact .bare (of_not_mem_special hb).1 (of_not_mem_special hb).2.1
  | special hb => exact .special (of_mem_special hb).1
  | hex hx hy => exact .hex hx hy

theorem WritesPieces.spells (h : WritesPieces ps o) : SpellsPieces isSeparator ps o := by
  induction h with
  | nil => exact .nil
  | cons hp _ ih => exact .cons hp.spells ih

theorem WritesPiece.shielded {p : Piece} (h : WritesPiece p o) {separator : UInt8}
    (hs : IsCut separator) : Shielded separator o := by
  cases h with
  | bare hb =>
    obtain ⟨hsep, hne, -⟩ := of_not_mem_special hb
    refine .bare ?_ hne .nil
    rintro rfl
    rw [hs.isSeparator] at hsep
    cases hsep
  | special hb => exact .pair (of_mem_special hb).2 .nil
  | hex hx hy =>
    have hx := isHexDigit_spec (by rw [isHexDigit, hx]; rfl) hs
    have hy := isHexDigit_spec (by rw [isHexDigit, hy]; rfl) hs
    exact .pair hx.2 (.bare hy.1 hy.2 .nil)

theorem WritesPieces.shielded (h : WritesPieces ps o) {separator : UInt8} (hs : IsCut separator) :
    Shielded separator o := by
  induction h with
  | nil => exact .nil
  | cons hp _ ih => exact (hp.shielded hs).append ih

theorem WritesPiece.unescape_append {p : Piece} (h : WritesPiece p o) (r : Octets) :
    unescape (o ++ r) = (p.octet :: ·) <$> unescape r := by
  cases h with
  | bare hb => exact unescape_bare (of_not_mem_special hb).2.1 r
  | special hb => exact unescape_pair ((isEscapable_eq _).trans (of_mem_special hb).1) r
  | hex hx hy => exact unescape_hex hx hy r

theorem WritesPieces.unescape_eq (h : WritesPieces ps o) :
    unescape o = .ok (ps.map Piece.octet) := by
  induction h with
  | nil => rfl
  | cons hp _ ih =>
    rw [hp.unescape_append, ih]
    rfl

/-- A string does not open like another kind of value. -/
theorem WritesPieces.head (h : WritesPieces ps o)
    (hfirst : ∀ p ∈ ps.head?, p.escaped = false → p.octet ≠ space ∧ p.octet ≠ numberSign) :
    ∀ b ∈ o.head?, b ≠ space ∧ b ≠ numberSign ∧ b ≠ quote := by
  cases h with
  | nil => exact nofun
  | cons hp _ =>
    cases hp with
    | bare hb =>
      obtain ⟨hspace, hnumber⟩ := hfirst _ rfl rfl
      rintro b ⟨⟩
      exact ⟨hspace, hnumber, (of_not_mem_special hb).2.2⟩
    | special =>
      rintro b ⟨⟩
      decide
    | hex =>
      rintro b ⟨⟩
      decide

theorem WritesValue.spells {v : Value} (h : WritesValue v o) : SpellsValue v o := by
  cases h with
  | @hex digits hne heven hd =>
    have hvalue := SpellsValue.hex hne hd .nil
    rwa [List.append_nil] at hvalue
  | plain hp hfirst hlast =>
    rw [← Assertion.unquoted_of_last hlast]
    exact .bare hp.spells (hp.head hfirst)

theorem WritesValue.shielded {v : Value} (h : WritesValue v o) {separator : UInt8}
    (hs : IsCut separator) : Shielded separator o := by
  cases h with
  | hex hne heven hd => exact shielded_hex hd hs
  | plain hp hfirst hlast => exact hp.shielded hs

/-- The escapes of the text and those of its rendering stand for the same octets. -/
theorem WritesValue.valueOf_eq {v : Value} (h : WritesValue v o) (type : ObjectIdentifier) :
    valueOf type o = valueOf type v.render := by
  cases h with
  | hex => rfl
  | plain hp hfirst hlast =>
    have hhead : o.head? ≠ some numberSign := fun he => (hp.head hfirst numberSign he).2.1 rfl
    rw [valueOf_of_head type hhead, hp.unescape_eq, Value.render, valueOf_escape]
    rfl

theorem WritesAssignment.spells {g : Assignment} (h : WritesAssignment g o) :
    SpellsAssignment g o := by
  cases h with
  | mk ht hv => exact .compact ht.isType ht.dropMark hv.spells

theorem Writes.spells {gss : List (List Assignment)} (h : Writes gss o) : Spells gss o :=
  h.mono (fun _ => .inl) fun _ _ hgs => hgs.mono (fun _ hs => hs) fun _ _ hg => hg.spells

theorem WritesAssignment.readsAs {g : Assignment} (h : WritesAssignment g o) : ReadsAs g o := by
  have hwell := h.spells.wellFormed
  cases h with
  | mk ht hv =>
    have hbare := ht.isType.bare
    refine ⟨fun hs => uncut_append hs (fun b hb => (hbare b hb).2) (hv.shielded hs), ?_⟩
    rw [hwell.readAttribute_render, readAttribute_append fun b hb => (hbare b hb).1]
    simp only [hv.valueOf_eq]

theorem Writes.ofStrict {gss : List (List Assignment)} (h : Writes gss o) :
    ofStrict o = ofStrict (Lenient.render gss) := by
  have hrow := h.mono (fun _ hs => hs) fun _ _ hgs =>
    hgs.mono (fun _ hs => hs) fun _ _ hg => hg.readsAs
  rw [ofStrict_of_readsAs hrow, ofStrict_render h.spells.ne_nil h.spells.wellFormed]

end Name.Strict

namespace Name

open Ascii Lenient Strict

/-- Lenient reading of strict text gives the name, or the error, of strict reading. -/
theorem ofText_of_writes {gss : List (List Assignment)} {text : String}
    (h : Writes gss (Utf8.encode text.toList)) :
    ofText text = (ofStrict (Utf8.encode text.toList)).mapError .strict ∧
      readPrincipalText text =
        (ofStrict (Utf8.encode text.toList)).mapError fun e => .invalidName e.message := by
  have hread : ofText text = (ofStrict (Utf8.encode text.toList)).mapError .strict := by
    rw [ofText, Lenient.normalize, Lenient.parse_of_spells h.spells, h.ofStrict]
    rfl
  refine ⟨hread, ?_⟩
  rw [readPrincipalText, hread]
  cases ofStrict (Utf8.encode text.toList) <;> rfl

theorem ofText_of_writes_mixed :
    ∃ name, ofStrict (Utf8.encode "uid=a=é\\2C#\\ ,info=#0c0141+mail=\\#".toList) = .ok name ∧
      readPrincipalText "uid=a=é\\2C#\\ ,info=#0c0141+mail=\\#" = .ok name := by
  have hpieces : WritesPieces _ ([0x61] ++ ([0x3d] ++ ([0xc3] ++ ([0xa9] ++
      ([backslash, 0x32, 0x43] ++ ([0x23] ++ ([backslash, 0x20] ++ []))))))) :=
    .cons (.bare (by decide)) (.cons (.bare (by decide)) (.cons (.bare (by decide))
      (.cons (.bare (by decide)) (.cons (.hex rfl rfl) (.cons (.bare (by decide))
        (.cons (.special (by decide)) .nil))))))
  have hfirst : WritesAssignment _ (ofString "uid" ++ equals :: _) :=
    .mk (.name (by decide +kernel) (by decide +kernel)) (.plain hpieces (by decide) (by decide))
  have hsecond : WritesAssignment _ (ofString "info" ++ equals :: numberSign :: ofString "0c0141") :=
    .mk (.name (by decide +kernel) (by decide +kernel))
      (.hex (by decide +kernel) (by decide +kernel) (by decide +kernel))
  have hthird : WritesAssignment _ (ofString "mail" ++ equals :: ([backslash, 0x23] ++ [])) :=
    .mk (.name (by decide +kernel) (by decide +kernel))
      (.plain (.cons (.special (by decide)) .nil) (by decide) (by decide))
  have hrow : Writes _ _ :=
    .cons (.single hfirst) rfl (.single (.cons hsecond rfl (.single hthird)))
  have htext : Writes _ (Utf8.encode "uid=a=é\\2C#\\ ,info=#0c0141+mail=\\#".toList) :=
    Eq.mpr (congrArg (Writes _) (by decide +kernel)) hrow
  have hstrict : ofStrict (Utf8.encode "uid=a=é\\2C#\\ ,info=#0c0141+mail=\\#".toList) = .ok
      ⟨[⟨[⟨⟨[0x09, 0x92, 0x26, 0x89, 0x93, 0xf2, 0x2c, 0x64, 0x01, 0x03]⟩, ⟨.utf8String, [0x23]⟩⟩,
          ⟨⟨[0x09, 0x92, 0x26, 0x89, 0x93, 0xf2, 0x2c, 0x64, 0x01, 0x04]⟩, ⟨.utf8String, [0x41]⟩⟩],
          by decide⟩,
        ⟨[⟨⟨[0x09, 0x92, 0x26, 0x89, 0x93, 0xf2, 0x2c, 0x64, 0x01, 0x01]⟩,
          ⟨.utf8String, ofString "a=" ++ [0xc3, 0xa9] ++ ofString ",# "⟩⟩], by decide⟩]⟩ := by
    decide +kernel
  refine ⟨_, hstrict, ?_⟩
  rw [(ofText_of_writes htext).2, hstrict]
  rfl

/-- Both readers refuse an attribute that is given twice. -/
example : ofText "uid=a\\3db+uid=a=b" = .error (.strict .duplicateElement) ∧
    ofStrict (Utf8.encode "uid=a\\3db+uid=a=b".toList) = .error .duplicateElement := by
  decide +kernel

/-- Behind an escaped backslash, only the lenient reader sees that the comma is escaped. -/
example : ofText "uid=\\\\\\," ≠ (ofStrict (Utf8.encode "uid=\\\\\\,".toList)).mapError .strict := by
  decide +kernel

end Name

end TrustAnchors
