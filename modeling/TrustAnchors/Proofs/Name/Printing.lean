import TrustAnchors.Name.Printer
import TrustAnchors.Proofs.Name.Denotation

/-!
# Printed text is lenient text

An attribute is printed as an assignment: of the content of its value, if its type has a name and
the value is a valid character string, and otherwise of the octets of the whole value under the
dotted type (`Attribute.assignment`). The printer does not escape as the reader would, but whatever
it writes is a spelling of these assignments (`Name.spells_chars`).
-/

namespace TrustAnchors

open Ascii Der Name Lenient Assertion

theorem Der.Repertoire.lt_of_allows {r : Repertoire} {b : UInt8} (h : r.allows b = true) :
    b < 0x80 := by
  cases r with
  | printable =>
    revert h
    refine forall_octet (P := fun b => Repertoire.printable.allows b = true → b < 0x80) ?_ b
    decide +kernel
  | teletex => simpa [Repertoire.allows] using h
  | ia5 => simpa [Repertoire.allows] using h

theorem Der.CharacterString.encode_of_ofOctets? {r : Repertoire} {o : Octets} {cs : List Char}
    (h : (ofOctets? r o).map (·.chars) = some cs) : Utf8.encode cs = o := by
  obtain ⟨s, hs, rfl⟩ := Option.map_eq_some_iff.1 h
  unfold ofOctets? at hs
  split at hs
  · next hall =>
    cases hs
    exact Utf8.encode_chars fun b hb => Repertoire.lt_of_allows (List.all_eq_true.1 hall b hb)
  · cases hs

/-- The characters of an element are those that its content encodes. -/
theorem Der.Element.encode_of_characters? {e : Element} {cs : List Char}
    (h : e.characters? = some cs) : Utf8.encode cs = e.content := by
  unfold characters? at h
  split at h
  · cases hd : Utf8.decode e.content with
    | error f => simp [hd, Except.toOption] at h
    | ok ds =>
      obtain rfl : ds = cs := by simpa [hd, Except.toOption] using h
      exact Utf8.encode_of_decode hd
  · exact CharacterString.encode_of_ofOctets? h
  · exact CharacterString.encode_of_ofOctets? h
  · exact CharacterString.encode_of_ofOctets? h
  · cases h

namespace Attribute

/-- What may stand bare in the text for a character. -/
def IsBareFor (c : Char) (b : UInt8) : Prop :=
  b ≠ quote ∧ (b = space → c = ' ') ∧ (b = numberSign → c = '#')

instance (c : Char) (b : UInt8) : Decidable (IsBareFor c b) :=
  inferInstanceAs (Decidable (b ≠ quote ∧ (b = space → c = ' ') ∧ (b = numberSign → c = '#')))

/-- The octets of a character that the printer leaves as it is. -/
theorem bare_spec {c : Char} (hs : isSpecial c = false) (hc : isControl c = false) :
    ∀ b ∈ String.utf8EncodeChar c, (isSeparator b = false ∧ b ≠ backslash) ∧ IsBareFor c b := by
  rcases Nat.lt_or_ge c.toNat 0x80 with hascii | hwide
  · revert hs hc
    refine Utf8.forall_ascii (P := fun c => isSpecial c = false → isControl c = false →
      ∀ b ∈ String.utf8EncodeChar c, (isSeparator b = false ∧ b ≠ backslash) ∧ IsBareFor c b) ?_
      hascii
    decide +kernel
  · intro b hb
    have hoctets : ∀ b : UInt8, 0x80 ≤ b → (isSeparator b = false ∧ b ≠ backslash) ∧
        b ≠ quote ∧ b ≠ space ∧ b ≠ numberSign := by
      refine forall_octet (P := fun b => 0x80 ≤ b → (isSeparator b = false ∧ b ≠ backslash) ∧
        b ≠ quote ∧ b ≠ space ∧ b ≠ numberSign) ?_
      decide +kernel
    obtain ⟨hbare, hquote, hspace, hnumber⟩ := hoctets b (Utf8.le_of_mem_utf8EncodeChar hwide hb)
    exact ⟨hbare, hquote, fun h => absurd h hspace, fun h => absurd h hnumber⟩

theorem special_spec {c : Char} (h : isSpecial c = true ∨ c = ' ' ∨ c = '#') :
    Utf8.encode ['\\', c] = [backslash, c.toUInt8] ∧ Lenient.isEscapable c.toUInt8 = true ∧
      String.utf8EncodeChar c = [c.toUInt8] := by
  simp only [isSpecial, decide_eq_true_eq, List.mem_cons, List.not_mem_nil, or_false] at h
  rcases h with (rfl | rfl | rfl | rfl | rfl | rfl | rfl) | rfl | rfl <;> decide +kernel

theorem control_spec {c : Char} (h : isControl c = true) :
    Utf8.encode ('\\' :: Ascii.chars (hexPair c.toUInt8)) = backslash :: hexPair c.toUInt8 ∧
      String.utf8EncodeChar c = [c.toUInt8] := by
  have hascii : c.toNat < 0x80 := by
    simp only [isControl, Bool.or_eq_true, decide_eq_true_eq] at h
    rcases h with h | rfl
    · exact Nat.lt_trans h (by decide)
    · decide
  revert h
  refine Utf8.forall_ascii (P := fun c => isControl c = true →
    Utf8.encode ('\\' :: Ascii.chars (hexPair c.toUInt8)) = backslash :: hexPair c.toUInt8 ∧
      String.utf8EncodeChar c = [c.toUInt8]) ?_ hascii
  decide +kernel

/-- The pieces that some octets of text spell, for a character. -/
structure SpellsChar (c : Char) (ps : List Piece) (o : Octets) : Prop where
  spells : SpellsPieces isSeparator ps o
  octets : ps.map Piece.octet = String.utf8EncodeChar c
  bare : ∀ p ∈ ps, p.escaped = false → IsBareFor c p.octet

theorem spellsChar_special {c : Char} (h : isSpecial c = true ∨ c = ' ' ∨ c = '#') :
    SpellsChar c [⟨c.toUInt8, true⟩] (Utf8.encode ['\\', c]) := by
  obtain ⟨htext, hescapable, hc⟩ := special_spec h
  rw [htext, ← List.append_nil [backslash, c.toUInt8]]
  exact ⟨.cons (.special hescapable) .nil, hc.symm, by simp⟩

theorem exists_spellsChar (c : Char) : ∃ ps, SpellsChar c ps (Utf8.encode (escapeChar c)) := by
  rw [escapeChar]
  split
  · next hs => exact ⟨_, spellsChar_special (.inl hs)⟩
  · next hs =>
    split
    · next hc =>
      obtain ⟨htext, hchar⟩ := control_spec hc
      obtain ⟨high, low, hh, hl, he⟩ := Strict.hexValue?_hexPair c.toUInt8
      have hpiece : SpellsPiece isSeparator ⟨c.toUInt8, true⟩ (backslash :: hexPair c.toUInt8) := by
        have h : SpellsPiece isSeparator _ _ := .hex hh hl
        rwa [he] at h
      refine ⟨[⟨c.toUInt8, true⟩], ?_, hchar.symm, by simp⟩
      rw [htext, ← List.append_nil (backslash :: _)]
      exact .cons hpiece .nil
    · next hc =>
      have hbare := bare_spec (Bool.eq_false_iff.2 hs) (Bool.eq_false_iff.2 hc)
      refine ⟨(String.utf8EncodeChar c).map (⟨·, false⟩), ?_, ?_, ?_⟩
      · rw [Utf8.encode_cons, Utf8.encode_nil, List.append_nil]
        exact spellsPieces_bare fun b hb => (hbare b hb).1
      · rw [List.map_map]
        exact List.map_id _
      · intro p hp _
        obtain ⟨b, hb, rfl⟩ := List.mem_map.1 hp
        exact (hbare b hb).2

theorem SpellsChar.ne_nil {c : Char} {ps : List Piece} {o : Octets} (h : SpellsChar c ps o) :
    ps ≠ [] := by
  rintro rfl
  exact String.utf8EncodeChar_ne_nil h.octets.symm

/-- The pieces that some octets of text spell, for characters at the end of a value. -/
structure SpellsEnd (cs : List Char) (ps : List Piece) (o : Octets) : Prop where
  spells : SpellsPieces isSeparator ps o
  octets : ps.map Piece.octet = Utf8.encode cs
  last : ∀ p ∈ ps.getLast?, p.escaped = false → p.octet ≠ space

theorem SpellsChar.last {c : Char} {ps : List Piece} {o : Octets} (h : SpellsChar c ps o)
    (hlast : c = ' ' → ∀ p ∈ ps, p.escaped = true) :
    ∀ p ∈ ps.getLast?, p.escaped = false → p.octet ≠ space := by
  intro p hp he hspace
  have hp := List.mem_of_getLast? hp
  have hc := (h.bare p hp he).2.1 hspace
  rw [hlast hc p hp] at he
  cases he

/-- A space is escaped if nothing comes after it. -/
theorem SpellsChar.append {c : Char} {cs : List Char} {ps qs : List Piece} {o q : Octets}
    (h : SpellsChar c ps o) (hlast : cs = [] → c = ' ' → ∀ p ∈ ps, p.escaped = true)
    (hrest : SpellsEnd cs qs q) : SpellsEnd (c :: cs) (ps ++ qs) (o ++ q) where
  spells := h.spells.append hrest.spells
  octets := by rw [List.map_append, h.octets, hrest.octets, Utf8.encode_cons]
  last := by
    rw [List.getLast?_append]
    cases hq : qs.getLast? with
    | some p => exact fun p' hp' => hrest.last p' (by rw [hq]; exact hp')
    | none =>
      rw [List.getLast?_eq_none_iff] at hq
      have hcs : cs = [] := by
        by_contra hne
        exact Utf8.encode_ne_nil hne (by rw [← hrest.octets, hq, List.map_nil])
      exact h.last (hlast hcs)

theorem exists_spellsEnd (cs : List Char) : ∃ ps, SpellsEnd cs ps (Utf8.encode (escapeRest cs)) := by
  have hnil : SpellsEnd [] [] [] := ⟨.nil, rfl, nofun⟩
  fun_induction escapeRest cs with
  | case1 => exact ⟨[], hnil⟩
  | case2 =>
    have hspace := spellsChar_special (c := ' ') (.inr (.inl rfl))
    exact ⟨_, hspace.append (fun _ _ => by simp) hnil⟩
  | case3 c hc =>
    obtain ⟨ps, h⟩ := exists_spellsChar c
    have hend := h.append (fun _ he => absurd he hc) hnil
    rw [List.append_nil, List.append_nil] at hend
    exact ⟨_, hend⟩
  | case4 c cs hne ih =>
    obtain ⟨ps, h⟩ := exists_spellsChar c
    obtain ⟨qs, hqs⟩ := ih
    rw [Utf8.encode_append]
    exact ⟨_, h.append (fun he => absurd he hne) hqs⟩

theorem spellsValue_escape (cs : List Char) :
    SpellsValue (.plain (Utf8.encode cs)) (Utf8.encode (escape cs)) := by
  have hvalue : ∀ {ps o}, SpellsEnd cs ps o →
      (∀ p ∈ ps.head?, p.escaped = false → isOpening p.octet = false) →
      SpellsValue (.plain (Utf8.encode cs)) o := by
    intro ps o h hhead
    rw [← h.octets, ← unquoted_of_last h.last]
    exact .bare h.spells (head_of_spellsPieces h.spells hhead)
  cases cs with
  | nil => exact hvalue ⟨.nil, rfl, nofun⟩ nofun
  | cons c cs =>
    obtain ⟨qs, hqs⟩ := exists_spellsEnd cs
    rw [escape, Utf8.encode_append]
    split
    · next hc =>
      have h := spellsChar_special (c := c) (.inr hc)
      exact hvalue (h.append (fun _ _ => by simp) hqs) (by simp)
    · next hc =>
      obtain ⟨ps, h⟩ := exists_spellsChar c
      obtain ⟨p, ps, rfl⟩ := List.exists_cons_of_ne_nil h.ne_nil
      refine hvalue (h.append (fun _ he => absurd (.inl he) hc) hqs) ?_
      rintro _ ⟨⟩ he
      obtain ⟨hquote, hspace, hnumber⟩ := h.bare p List.mem_cons_self he
      have hspace : p.octet ≠ space := fun hb => hc (.inl (hspace hb))
      have hnumber : p.octet ≠ numberSign := fun hb => hc (.inr (hnumber hb))
      simp [isOpening, hquote, hspace, hnumber]

/-- The type has a name, and the value is a valid character string. -/
def IsLegible (a : Attribute) : Prop :=
  (AttributeKey.nameOfType? a.type).isSome ∧ a.value.characters?.isSome

instance (a : Attribute) : Decidable a.IsLegible :=
  inferInstanceAs (Decidable (_ ∧ _))

/-- The assignment as which an attribute is printed. -/
def assignment (a : Attribute) : Assignment :=
  match AttributeKey.nameOfType? a.type, a.value.characters? with
  | some name, some _ => ⟨(ofString name).map toUpper, .plain a.value.content⟩
  | _, _ => ⟨Utf8.encode a.type.chars, .hex a.value.encode.hex⟩

theorem of_isLegible {a : Attribute} (h : a.IsLegible) :
    ∃ name cs, AttributeKey.nameOfType? a.type = some name ∧
      a.value.characters? = some cs ∧
      a.chars = Ascii.chars ((ofString name).map toUpper) ++ '=' :: escape cs ∧
      a.assignment = ⟨(ofString name).map toUpper, .plain a.value.content⟩ := by
  obtain ⟨name, hname⟩ := Option.isSome_iff_exists.1 h.1
  obtain ⟨cs, hcs⟩ := Option.isSome_iff_exists.1 h.2
  refine ⟨name, cs, hname, hcs, ?_, ?_⟩
  · rw [chars, hname, hcs]
  · rw [assignment, hname, hcs]

theorem of_not_isLegible {a : Attribute} (h : ¬ a.IsLegible) :
    a.chars = a.type.chars ++ '=' :: '#' :: Ascii.chars a.value.encode.hex ∧
      a.assignment = ⟨Utf8.encode a.type.chars, .hex a.value.encode.hex⟩ := by
  rw [chars, assignment]
  cases hname : AttributeKey.nameOfType? a.type with
  | none => exact ⟨rfl, rfl⟩
  | some name =>
    cases hcs : a.value.characters? with
    | none => exact ⟨rfl, rfl⟩
    | some cs => exact absurd ⟨by simp [hname], by simp [hcs]⟩ h

theorem isHexDigit_of_mem_hex {o : Octets} : ∀ b ∈ o.hex, isHexDigit b = true := by
  intro b hb
  obtain ⟨c, -, hb⟩ := List.mem_flatMap.1 hb
  obtain ⟨high, low, hh, hl, -⟩ := Strict.hexValue?_hexPair c
  simp only [hexPair, List.mem_cons, List.not_mem_nil, or_false] at hb
  rcases hb with rfl | rfl
  · simp [isHexDigit, hh]
  · simp [isHexDigit, hl]

theorem encode_chars_hex (o : Octets) : Utf8.encode (Ascii.chars o.hex) = o.hex := by
  exact Utf8.encode_chars fun b hb => lt_of_isHexDigit (isHexDigit_of_mem_hex b hb)

/-- The name of a type is a type of lenient text. -/
theorem name_spec {type : ObjectIdentifier} {name : String}
    (h : AttributeKey.nameOfType? type = some name) :
    Utf8.encode (Ascii.chars ((ofString name).map toUpper)) = (ofString name).map toUpper ∧
      IsType ((ofString name).map toUpper) ∧
      dropMark ((ofString name).map toUpper) = (ofString name).map toUpper := by
  have hname := AttributeKey.typeOfName?_toUpper h
  have hoctets := fun b hb => (AttributeKey.isKeyOctet_of_name hname b hb).1
  exact ⟨Utf8.encode_chars fun b hb => lt_of_isKeyOctet (hoctets b hb),
    isType_of_isKeyOctet (AttributeKey.ne_nil_of_name hname) hoctets, dropMark_name hname⟩

/-- So is the dotted form. -/
theorem dotted_spec {type : ObjectIdentifier} (h : type.octets ≠ []) :
    IsType (Utf8.encode type.chars) ∧
      dropMark (Utf8.encode type.chars) = Utf8.encode type.chars := by
  have hread := ObjectIdentifier.dottedNumbers_dotted (ObjectIdentifier.arcs_ne_nil h) type.arcs_lt
  have hhead := ObjectIdentifier.head_chars h
  rw [← ObjectIdentifier.chars_eq_dotted] at hread
  refine ⟨isType_of_isKeyOctet ?_ (ObjectIdentifier.isKeyOctet_of_dottedNumbers hread), ?_⟩
  · intro hnil
    rw [hnil] at hhead
    cases hhead
  · exact dropMark_dotted (List.mem_cons_self) hhead

theorem spells_chars {a : Attribute} (h : a.type.octets ≠ []) :
    SpellsAssignment a.assignment (Utf8.encode a.chars) := by
  by_cases hlegible : a.IsLegible
  · obtain ⟨name, cs, hname, hcs, hchars, he⟩ := of_isLegible hlegible
    obtain ⟨hencode, htype, hmark⟩ := name_spec hname
    have hvalue := spellsValue_escape cs
    rw [Element.encode_of_characters? hcs] at hvalue
    rw [hchars, he, Utf8.encode_append, hencode]
    exact .compact htype hmark hvalue
  · obtain ⟨hchars, he⟩ := of_not_isLegible hlegible
    obtain ⟨htype, hmark⟩ := dotted_spec h
    have hne : a.value.encode.hex ≠ [] := by
      intro hnil
      have hlength := Octets.length_hex a.value.encode
      rw [hnil, List.length_nil] at hlength
      exact a.value.encode_ne_nil (List.length_eq_zero_iff.1 (by omega))
    have hvalue := SpellsValue.hex hne isHexDigit_of_mem_hex IsSpaces.nil
    rw [List.append_nil] at hvalue
    rw [hchars, he, Utf8.encode_append, Utf8.encode_cons, Utf8.encode_cons, encode_chars_hex]
    exact .compact htype hmark hvalue

end Attribute

namespace Name

/-- Every relative name has an attribute, and every type an octet. -/
structure IsPrintable (n : Name) : Prop where
  relatives_ne_nil : n.relatives ≠ []
  attributes_ne_nil : ∀ r ∈ n.relatives, r.attributes ≠ []
  type_ne_nil : ∀ r ∈ n.relatives, ∀ a ∈ r.attributes, a.type.octets ≠ []

/-- The assignments as which a name is printed. -/
def assignments (n : Name) : List (List Assignment) :=
  n.relatives.reverse.map fun r => r.attributes.map Attribute.assignment

theorem spells_chars {n : Name} (h : n.IsPrintable) :
    Spells n.assignments (Utf8.encode n.chars) := by
  have hcomma : Utf8.encode [','] = [comma] := by decide
  have hplus : Utf8.encode ['+'] = [plus] := by decide
  rw [chars, Utf8.encode_intercalate, List.map_map, hcomma]
  refine SeparatedBy.intercalate (.inl rfl) (by simpa using h.relatives_ne_nil) fun r hr => ?_
  have hr := List.mem_reverse.1 hr
  rw [Function.comp_apply, RelativeName.chars, Utf8.encode_intercalate, List.map_map, hplus]
  refine SeparatedBy.intercalate ?_ (h.attributes_ne_nil r hr) fun a ha => ?_
  · rfl
  · exact Attribute.spells_chars (h.type_ne_nil r hr a ha)

end Name

end TrustAnchors
