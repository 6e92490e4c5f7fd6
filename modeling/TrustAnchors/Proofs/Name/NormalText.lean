import TrustAnchors.Proofs.Name.Normalization

/-!
# Normalized text is normal

Strict text for an assignment is one more spelling of it, as long as its type has no mark of its own
(`SpellsAssignment.render`): what the value denotes is spelled bare, each octet of it by a piece of
its own. The types of a text that is read as a name have no second mark. So normalizing the strict
text for such a text changes nothing, and the strict text is read as the same name
(`readPrincipalText_normalized`).
-/

namespace TrustAnchors

open Ascii Der

namespace Name.Lenient

theorem of_isSpecial_eq_false {b : UInt8} (h : isSpecial b = false) :
    isSeparator b = false ∧ b ≠ quote := by
  revert h
  refine forall_octet (P := fun b => isSpecial b = false → isSeparator b = false ∧ b ≠ quote) ?_ b
  decide +kernel

/-- An escaped octet is one piece. It may be a bare one, but not of a quote. -/
theorem exists_spellsPiece_escapeOctet (b : UInt8) :
    ∃ p, SpellsPiece isSeparator p (escapeOctet b) ∧ p.octet = b ∧
      (p.escaped = false → b ≠ quote) := by
  rw [escapeOctet]
  by_cases hs : isSpecial b = true
  · have hescapable := (Strict.isEscapable_eq b).symm.trans (Strict.isSpecial_spec hs).2
    rw [if_pos hs]
    exact ⟨⟨b, true⟩, .special hescapable, rfl, fun he => by cases he⟩
  · obtain ⟨hsep, hquote⟩ := of_isSpecial_eq_false (Bool.eq_false_iff.2 hs)
    rw [if_neg hs]
    split
    · next hp =>
      simp only [Bool.and_eq_true, decide_eq_true_eq] at hp
      exact ⟨⟨b, false⟩, .bare hsep hp.2, rfl, fun _ => hquote⟩
    · obtain ⟨high, low, hh, hl, he⟩ := Strict.hexValue?_hexPair b
      exact ⟨⟨high * 16 + low, true⟩, .hex hh hl, he, fun he => by cases he⟩

/-- No bare space at the end. -/
def EndsValue (ps : List Piece) : Prop :=
  ∀ p ∈ ps.getLast?, p.escaped = false → p.octet ≠ space

theorem EndsValue.nil : EndsValue [] := nofun

theorem EndsValue.cons {p : Piece} {ps : List Piece}
    (hp : ps = [] → p.escaped = false → p.octet ≠ space) (h : EndsValue ps) :
    EndsValue (p :: ps) := by
  cases ps with
  | nil =>
    rintro _ ⟨⟩
    exact hp rfl
  | cons q qs =>
    rw [EndsValue, List.getLast?_cons_cons]
    exact h

theorem exists_spellsPieces_escapeRest (o : Octets) :
    ∃ ps, SpellsPieces isSeparator ps (escapeRest o) ∧ ps.map Piece.octet = o ∧ EndsValue ps := by
  fun_induction escapeRest o with
  | case1 => exact ⟨[], .nil, rfl, .nil⟩
  | case2 =>
    have hspace : SpellsPiece isSeparator ⟨space, true⟩ [backslash, space] := .special (by decide)
    exact ⟨_, .cons hspace .nil, rfl, EndsValue.nil.cons fun _ he => by cases he⟩
  | case3 b hb =>
    obtain ⟨p, hp, rfl, -⟩ := exists_spellsPiece_escapeOctet b
    have hps := SpellsPieces.cons hp .nil
    rw [List.append_nil] at hps
    exact ⟨_, hps, rfl, EndsValue.nil.cons fun _ _ => hb⟩
  | case4 b r hr ih =>
    obtain ⟨p, hp, rfl, -⟩ := exists_spellsPiece_escapeOctet b
    obtain ⟨ps, hps, rfl, hlast⟩ := ih
    refine ⟨p :: ps, .cons hp hps, rfl, hlast.cons fun hnil => ?_⟩
    exact absurd (by rw [hnil, List.map_nil]) hr

/-- The first piece does not open another kind of value. -/
theorem exists_spellsPiece_head (b : UInt8) :
    ∃ p, SpellsPiece isSeparator p
        (if b = space ∨ b = numberSign then [backslash, b] else escapeOctet b) ∧
      p.octet = b ∧ (p.escaped = false → Assertion.isOpening p.octet = false) := by
  by_cases hb : b = space ∨ b = numberSign
  · have hescapable : isEscapable b = true := by rcases hb with rfl | rfl <;> decide
    rw [if_pos hb]
    exact ⟨⟨b, true⟩, .special hescapable, rfl, nofun⟩
  · obtain ⟨p, hp, rfl, hquote⟩ := exists_spellsPiece_escapeOctet b
    rw [if_neg hb]
    refine ⟨p, hp, rfl, fun he => ?_⟩
    simp only [not_or] at hb
    simp [Assertion.isOpening, hb, hquote he]

theorem spellsValue_escape (o : Octets) : SpellsValue (.plain o) (escape o) := by
  cases o with
  | nil =>
    have hnil : SpellsPieces isSeparator [] [] := .nil
    exact .bare hnil nofun
  | cons b r =>
    obtain ⟨p, hp, rfl, hopening⟩ := exists_spellsPiece_head b
    obtain ⟨ps, hps, rfl, hends⟩ := exists_spellsPieces_escapeRest r
    have hlast : EndsValue (p :: ps) := by
      refine hends.cons fun _ he hspace => ?_
      have hopening := hopening he
      rw [hspace] at hopening
      cases hopening
    have hall := SpellsPieces.cons hp hps
    have hhead := Assertion.head_of_spellsPieces hall (by rintro _ ⟨⟩; exact hopening)
    have hvalue := SpellsValue.bare hall hhead
    rwa [Assertion.unquoted_of_last hlast] at hvalue

theorem SpellsValue.render {v : Value} {o : Octets} (h : SpellsValue v o) :
    SpellsValue v v.render := by
  cases h with
  | hex hne hd _ =>
    have hvalue := SpellsValue.hex hne hd .nil
    rwa [List.append_nil] at hvalue
  | quoted => exact spellsValue_escape _
  | bare => exact spellsValue_escape _

theorem SpellsAssignment.render {g : Assignment} {o : Octets} (h : SpellsAssignment g o)
    (ht : IsType g.type) (hmark : dropMark g.type = g.type) : SpellsAssignment g g.render := by
  cases h with
  | mk _ _ _ _ hv => exact .compact ht hmark hv.render

theorem Spells.exists_spells {gss : List (List Assignment)} {o : Octets} (h : Spells gss o) :
    ∀ gs ∈ gss, gs ≠ [] ∧ ∀ g ∈ gs, ∃ p, SpellsAssignment g p :=
  h.forall_mem fun _ _ hgs => ⟨hgs.ne_nil, hgs.forall_mem fun _ p hg => ⟨p, hg⟩⟩

theorem spells_render {gss : List (List Assignment)} (hne : gss ≠ [])
    (h : ∀ gs ∈ gss, gs ≠ [] ∧ ∀ g ∈ gs, SpellsAssignment g g.render) :
    Spells gss (render gss) :=
  separatedBy_render (.inl rfl) hne h

def IsAscii (o : Octets) : Prop := ∀ b ∈ o, b < 0x80

theorem isAscii_of_all {o : Octets} (h : o.all (· < 0x80) = true) : IsAscii o :=
  fun b hb => of_decide_eq_true (List.all_eq_true.1 h b hb)

theorem IsAscii.append {o p : Octets} (ho : IsAscii o) (hp : IsAscii p) : IsAscii (o ++ p) :=
  fun b hb => (List.mem_append.1 hb).elim (ho b) (hp b)

theorem IsAscii.intercalate {s : UInt8} {os : List Octets} (hs : s < 0x80)
    (h : ∀ o ∈ os, IsAscii o) : IsAscii ([s].intercalate os) := by
  induction os with
  | nil => exact nofun
  | cons o os ih =>
    have ho := h o List.mem_cons_self
    have ih := ih fun p hp => h p (List.mem_cons_of_mem o hp)
    cases os with
    | nil => rwa [List.intercalate_singleton]
    | cons p os =>
      have hsep : IsAscii [s] := by simpa [IsAscii] using hs
      rw [List.intercalate_cons_cons]
      exact (ho.append hsep).append ih

theorem isAscii_escapeOctet (b : UInt8) : IsAscii (escapeOctet b) := by
  refine isAscii_of_all (forall_octet (P := fun b => (escapeOctet b).all (· < 0x80) = true) ?_ b)
  decide +kernel

theorem isAscii_escapeRest (o : Octets) : IsAscii (escapeRest o) := by
  fun_induction escapeRest o with
  | case1 => exact isAscii_of_all rfl
  | case2 => exact isAscii_of_all (by decide)
  | case3 b hb => exact isAscii_escapeOctet b
  | case4 b r hr ih => exact (isAscii_escapeOctet b).append ih

theorem isAscii_escape (o : Octets) : IsAscii (escape o) := by
  cases o with
  | nil => exact nofun
  | cons b r =>
    rw [escape]
    refine IsAscii.append ?_ (isAscii_escapeRest r)
    split
    · next hb => rcases hb with rfl | rfl <;> exact isAscii_of_all (by decide)
    · exact isAscii_escapeOctet b

theorem isAscii_render {g : Assignment} (hg : Strict.WellFormed g) (ht : IsAscii g.type) :
    IsAscii g.render := by
  have hequals : IsAscii [equals] := isAscii_of_all (by decide)
  have hsign : IsAscii [numberSign] := isAscii_of_all (by decide)
  have hvalue : IsAscii g.value.render := by
    cases hv : g.value with
    | plain octets => exact isAscii_escape octets
    | hex digits =>
      have hdigits : IsAscii digits := fun b hb => lt_of_isHexDigit (hg.digits digits hv b hb)
      exact hsign.append hdigits
  exact ht.append (hequals.append hvalue)

end Name.Lenient

namespace Name.Strict

open Assertion Lenient

theorem rendersType_of_typeOf {key : Octets} {type : ObjectIdentifier}
    (h : typeOf key = .ok type) : RendersType type key ∧ dropMark key = key := by
  rcases of_typeOf_eq_ok h with hname | hdotted
  · exact ⟨.name hname, dropMark_name hname⟩
  · have hmark : [] ∈ [[], ofString "OID.", ofString "oid."] := List.mem_cons_self
    have hdigit := (ObjectIdentifier.ofDotted?_eq_some hdotted).1
    exact ⟨.dotted hmark hdotted, dropMark_dotted hmark hdigit⟩

/-- The type of an assignment that is read has no mark, and is ASCII. -/
theorem type_spec {g : Assignment} (hg : WellFormed g) {a : Attribute}
    (h : readAttribute g.render = .ok a) :
    IsType g.type ∧ dropMark g.type = g.type ∧ IsAscii g.type := by
  obtain ⟨hrenders, hmark⟩ := rendersType_of_typeOf ((readAttribute_eq_ok_iff hg).1 h).1
  obtain ⟨htype, -, hoctets, -⟩ := hrenders.spec
  rw [hmark] at hoctets
  exact ⟨htype, hmark, fun b hb => lt_of_isKeyOctet (hoctets b hb)⟩

end Name.Strict

open Name Lenient Strict

/-- The strict text for assignments that are read spells them again, and is ASCII. -/
theorem Name.spells_render_of_read {gss : List (List Assignment)} {ns : List RelativeName}
    {o : Octets} (h : Spells gss o)
    (hread : List.Forall₂ (fun gs n => readAssignments gs = .ok n) gss ns) :
    Spells gss (render gss) ∧ IsAscii (render gss) := by
  have hgroup : ∀ gs ∈ gss, ∀ g ∈ gs, SpellsAssignment g g.render ∧ IsAscii g.render := by
    intro gs hgs g hg
    obtain ⟨n, -, hn⟩ := exists_of_mem_forall₂ hread.flip gs hgs
    obtain ⟨as, has, -⟩ := readAssignments_eq_ok_iff.1 hn
    obtain ⟨a, -, ha⟩ := exists_of_mem_forall₂ has.flip g hg
    obtain ⟨p, hp⟩ := (h.exists_spells gs hgs).2 g hg
    obtain ⟨htype, hmark, hascii⟩ := type_spec hp.wellFormed ha
    exact ⟨hp.render htype hmark, isAscii_render hp.wellFormed hascii⟩
  have hrows : ∀ p ∈ gss.map renderRelative, IsAscii p := by
    intro p hp
    obtain ⟨gs, hgs, rfl⟩ := List.mem_map.1 hp
    refine .intercalate (by decide) fun p hp => ?_
    obtain ⟨g, hg, rfl⟩ := List.mem_map.1 hp
    exact (hgroup gs hgs g hg).2
  refine ⟨spells_render h.ne_nil fun gs hgs => ?_, .intercalate (by decide) hrows⟩
  exact ⟨(h.exists_spells gs hgs).1, fun g hg => (hgroup gs hgs g hg).1⟩

/-- Normalizing a normalized text changes nothing in it, and nothing in what it is read as. -/
theorem readPrincipalText_normalized {text : String} {name : Name}
    (h : readPrincipalText text = .ok name) :
    ∃ strict : String,
      Lenient.normalize (Utf8.encode text.toList) = .ok (Utf8.encode strict.toList) ∧
      Lenient.normalize (Utf8.encode strict.toList) = .ok (Utf8.encode strict.toList) ∧
      readPrincipalText strict = readPrincipalText text := by
  obtain ⟨gss, hspells, hall⟩ := readPrincipalText_eq_ok_iff.1 h
  obtain ⟨hrendered, hascii⟩ := Name.spells_render_of_read hspells hall
  have hstrict := Utf8.encode_chars hascii
  refine ⟨String.ofList (chars (render gss)), ?_, ?_, ?_⟩
  · rw [String.toList_ofList, hstrict, normalize_of_spells hspells]
  · rw [String.toList_ofList, hstrict, normalize_of_spells hrendered]
  · have hspelled : Spells gss (Utf8.encode (String.ofList (chars (render gss))).toList) := by
      rwa [String.toList_ofList, hstrict]
    rw [h, readPrincipalText_eq_ok_iff_of_spells hspelled]
    exact hall

theorem readPrincipalText_normalized_mixed :
    ∃ name strict,
      readPrincipalText "OID.2.5.4.3 = \"#é,\\\\ \" ; o=b\\# \\20 + dc=#0401Ff" = .ok name ∧
      Utf8.encode strict.toList = ofString "2.5.4.3=\\#\\c3\\a9\\,\\5c\\ ,o=b# \\ +dc=#0401Ff" ∧
      Lenient.normalize
          (Utf8.encode "OID.2.5.4.3 = \"#é,\\\\ \" ; o=b\\# \\20 + dc=#0401Ff".toList) =
        .ok (Utf8.encode strict.toList) ∧
      Lenient.normalize (Utf8.encode strict.toList) = .ok (Utf8.encode strict.toList) ∧
      readPrincipalText strict = .ok name := by
  have hread : readPrincipalText "OID.2.5.4.3 = \"#é,\\\\ \" ; o=b\\# \\20 + dc=#0401Ff" = .ok
      ⟨[⟨[⟨⟨[0x55, 0x04, 0x0a]⟩, ⟨.utf8String, ofString "b#  "⟩⟩,
          ⟨AttributeKey.domainComponent, ⟨.octetString, [0xff]⟩⟩], by decide⟩,
        ⟨[⟨⟨[0x55, 0x04, 0x03]⟩,
          ⟨.utf8String, [0x23, 0xc3, 0xa9, 0x2c, 0x5c, 0x20]⟩⟩], by decide⟩]⟩ := by
    decide +kernel
  have hnormal : Lenient.normalize
      (Utf8.encode "OID.2.5.4.3 = \"#é,\\\\ \" ; o=b\\# \\20 + dc=#0401Ff".toList) =
        .ok (ofString "2.5.4.3=\\#\\c3\\a9\\,\\5c\\ ,o=b# \\ +dc=#0401Ff") := by
    decide +kernel
  obtain ⟨strict, hstrict, hagain, hname⟩ := readPrincipalText_normalized hread
  have htext := Except.ok.inj (hnormal.symm.trans hstrict)
  exact ⟨_, strict, hread, htext.symm, hstrict, hagain, hname.trans hread⟩

/-- Of two marks, each normalization takes one. -/
example : Lenient.normalize (ofString "OID.OID.2.5.4.3=x") = .ok (ofString "OID.2.5.4.3=x") ∧
    Lenient.normalize (ofString "OID.2.5.4.3=x") = .ok (ofString "2.5.4.3=x") := by
  decide +kernel

end TrustAnchors
