import TrustAnchors.Proofs.Anchor.Outcomes
import TrustAnchors.Proofs.Name.Inversion
import TrustAnchors.Proofs.Name.Printing
import TrustAnchors.Proofs.Name.TextInversion

/-!
# The text of a name that was read from text

The text of a name spells the assignments as which the name is printed, so what it is read as can be
told attribute by attribute. A legible attribute reads back as itself. Another one does just if its
type is minimal and its value is not too long for the decoder of elements: what else is read has a
shorter type, or nothing is read. So the text of a name that was itself read from text gives the
name again just if all its attributes read back (`readPrincipalText_text_iff`).
-/

namespace TrustAnchors

open Ascii Der Name Lenient Strict

/-- The tags whose contents are shown as characters. -/
def Der.Tag.isText (t : Tag) : Bool :=
  t ∈ [.utf8String, .printableString, .ia5String, .teletexString]

namespace Attribute

/-- The type was written from text, and a value that may be shown as characters has the tag that
belongs to the type. -/
structure IsTextual (a : Attribute) : Prop where
  written : a.type.IsWritten
  tag_eq : a.value.tag.isText = true → a.value.tag = valueTag a.type

theorem isText_of_characters? {e : Element} {cs : List Char} (h : e.characters? = some cs) :
    e.tag.isText = true := by
  unfold Element.characters? at h
  split at h
  · next ht =>
    rw [ht]
    rfl
  · next ht =>
    rw [ht]
    rfl
  · next ht =>
    rw [ht]
    rfl
  · next ht =>
    rw [ht]
    rfl
  · cases h

/-- A value in the text that is printed for the attribute reads as the attribute's value. -/
def ReadsBack (a : Attribute) : Prop :=
  a.IsLegible ∨ a.type.IsMinimal ∧ a.value.encode.length ≤ maxLength

instance (a : Attribute) : Decidable a.ReadsBack :=
  inferInstanceAs (Decidable (_ ∨ _))

theorem wellFormed_assignment {a : Attribute} (h : a.type.octets ≠ []) :
    WellFormed a.assignment :=
  (spells_chars h).wellFormed

theorem readAttribute_of_isLegible {a : Attribute} (h : a.IsTextual) (hl : a.IsLegible) :
    readAttribute a.assignment.render = .ok a := by
  obtain ⟨name, cs, hname, hcs, -, hassignment⟩ := of_isLegible hl
  rw [readAttribute_eq_ok_iff (wellFormed_assignment h.written.octets_ne_nil), hassignment]
  refine ⟨typeOf_of_name (AttributeKey.typeOfName?_toUpper hname), ?_⟩
  rw [Value.render, valueOf_escape, ← h.tag_eq (isText_of_characters? hcs)]

theorem readAttribute_of_not_isLegible {a b : Attribute} (h : a.IsTextual) (hl : ¬ a.IsLegible) :
    readAttribute a.assignment.render = .ok b ↔
      ObjectIdentifier.ofDotted? (Utf8.encode a.type.chars) = some b.type ∧
        a.value.encode.length ≤ maxLength ∧ b.value = a.value := by
  have hne := h.written.octets_ne_nil
  rw [readAttribute_eq_ok_iff (wellFormed_assignment hne), (of_not_isLegible hl).2,
    typeOf_of_digit (ObjectIdentifier.head_chars hne)]
  refine and_congr_right fun _ => ?_
  constructor
  · intro hv
    change ofHex (Octets.hex a.value.encode) >>= Element.decode.decode = .ok b.value at hv
    rw [ofHex_of_spells (spellsHex_hex a.value.encode), Except.ok_bind] at hv
    obtain ⟨hle, w, hw, he⟩ := Element.takes_decode.of_decode_eq_ok hv
    exact ⟨hle, hw.symm.trans (Element.encode_injective he)⟩
  · rintro ⟨hle, hb⟩
    rw [hb]
    exact valueOf_hex b.type hle (spellsHex_hex a.value.encode)

/-- What is read for an attribute. -/
theorem readAttribute_assignment {a : Attribute} (h : a.IsTextual) :
    (a.ReadsBack → readAttribute a.assignment.render = .ok a) ∧
      ∀ b, readAttribute a.assignment.render = .ok b →
        b.type.octets.length ≤ a.type.octets.length ∧
          (¬ a.ReadsBack → b.type.octets.length < a.type.octets.length) := by
  by_cases hl : a.IsLegible
  · have hread := readAttribute_of_isLegible h hl
    refine ⟨fun _ => hread, fun b hb => ?_⟩
    cases hread.symm.trans hb
    exact ⟨Nat.le_refl _, fun hr => absurd (.inl hl) hr⟩
  · simp only [readAttribute_of_not_isLegible h hl]
    constructor
    · rintro (hlegible | ⟨hminimal, hle⟩)
      · exact absurd hlegible hl
      · exact ⟨h.written.ofDotted?_chars_iff.2 hminimal, hle, trivial⟩
    · rintro b ⟨htype, hle, -⟩
      obtain ⟨hshorter, hlt⟩ := h.written.length_le htype
      exact ⟨hshorter, fun hr => hlt fun hminimal => hr (.inr ⟨hminimal, hle⟩)⟩

end Attribute

namespace RelativeName

/-- Octets of the types of some attributes. -/
def typeLength (as : List Attribute) : Nat := (as.flatMap (·.type.octets)).length

theorem typeLength_le {as bs : List Attribute} (has : ∀ a ∈ as, a.IsTextual)
    (h : List.Forall₂ (fun a b => readAttribute (a.assignment.render) = .ok b) as bs) :
    typeLength bs ≤ typeLength as ∧
      ((∃ a ∈ as, ¬ a.ReadsBack) → typeLength bs < typeLength as) := by
  induction h with
  | nil => exact ⟨Nat.le_refl _, by simp⟩
  | @cons a b as bs hab _ ih =>
    obtain ⟨hle, hlt⟩ := (Attribute.readAttribute_assignment (has a List.mem_cons_self)).2 b hab
    obtain ⟨hles, hlts⟩ := ih fun c hc => has c (List.mem_cons_of_mem a hc)
    simp only [typeLength, List.flatMap_cons, List.length_append] at hles hlts ⊢
    refine ⟨Nat.add_le_add hle hles, ?_⟩
    rintro ⟨c, hc, hnot⟩
    rcases List.mem_cons.1 hc with rfl | hc
    · exact Nat.add_lt_add_of_lt_of_le (hlt hnot) hles
    · exact Nat.add_lt_add_of_le_of_lt hle (hlts ⟨c, hc, hnot⟩)

theorem readAssignments_assignments {n : RelativeName} (h : ∀ a ∈ n.attributes, a.IsTextual) :
    readAssignments (n.attributes.map Attribute.assignment) = .ok n ↔
      ∀ a ∈ n.attributes, a.ReadsBack := by
  rw [readAssignments_eq_ok_iff]
  simp only [List.forall₂_map_left_iff]
  constructor
  · -- The same set has as many octets in its types, so none of them has become shorter.
    rintro ⟨as, has, hn⟩ a ha
    by_contra hnot
    have hlt := (typeLength_le h has).2 ⟨a, ha, hnot⟩
    have hperm := (perm_of_ofList? hn).flatMap_right fun a : Attribute => a.type.octets
    exact absurd hperm.length_eq (Nat.ne_of_gt hlt)
  · intro hall
    refine ⟨n.attributes, ?_, ofList?_attributes n⟩
    rw [List.forall₂_same]
    exact fun a ha => (Attribute.readAttribute_assignment (h a ha)).1 (hall a ha)

end RelativeName

namespace Name

/-- What is known of a name that was read from text without strings in hexadecimal. -/
structure IsTextual (n : Name) : Prop where
  relatives_ne_nil : n.relatives ≠ []
  attributes_ne_nil : ∀ r ∈ n.relatives, r.attributes ≠ []
  attributes : ∀ r ∈ n.relatives, ∀ a ∈ r.attributes, a.IsTextual

theorem IsTextual.isPrintable {n : Name} (h : n.IsTextual) : n.IsPrintable where
  relatives_ne_nil := h.relatives_ne_nil
  attributes_ne_nil := h.attributes_ne_nil
  type_ne_nil r hr a ha := (h.attributes r hr a ha).written.octets_ne_nil

def ReadsBack (n : Name) : Prop := ∀ r ∈ n.relatives, ∀ a ∈ r.attributes, a.ReadsBack

instance (n : Name) : Decidable n.ReadsBack :=
  inferInstanceAs (Decidable (∀ r ∈ n.relatives, ∀ a ∈ r.attributes, a.ReadsBack))

theorem IsTextual.readPrincipalText_text {n : Name} (h : n.IsTextual) :
    readPrincipalText n.text = .ok n ↔ n.ReadsBack := by
  have hspells : Spells n.assignments (Utf8.encode n.text.toList) := by
    rw [text, String.toList_ofList]
    exact spells_chars h.isPrintable
  rw [readPrincipalText_eq_ok_iff_of_spells hspells, assignments, List.forall₂_map_left_iff,
    List.forall₂_same]
  simp only [List.mem_reverse]
  exact forall₂_congr fun r hr => RelativeName.readAssignments_assignments (h.attributes r hr)

end Name

/-- The element of a value in hexadecimal. -/
def Name.Lenient.Value.element? : Lenient.Value → Option Element
  | .hex digits => (ofHex digits >>= Element.decode.decode).toOption
  | .plain _ => none

/-- The elements that stand in a text in hexadecimal. -/
def Name.hexElements (text : String) : List Element :=
  match Lenient.parse (Utf8.encode text.toList) with
  | .ok gss => gss.flatten.filterMap (·.value.element?)
  | .error _ => []

theorem Attribute.isTextual_of_readAttribute {g : Assignment} (hg : WellFormed g) {a : Attribute}
    (h : readAttribute g.render = .ok a)
    (hhex : ∀ e, g.value.element? = some e → e.tag.isText = false) : a.IsTextual := by
  obtain ⟨htype, hvalue⟩ := (readAttribute_eq_ok_iff hg).1 h
  refine ⟨isWritten_of_typeOf htype, fun ht => ?_⟩
  cases hv : g.value with
  | plain octets =>
    rw [hv, Value.render, valueOf_escape] at hvalue
    rw [← Except.ok.inj hvalue]
  | hex digits =>
    rw [hv] at hvalue hhex
    change ofHex digits >>= Element.decode.decode = .ok a.value at hvalue
    have htag := hhex a.value (by rw [Value.element?, hvalue]; rfl)
    rw [ht] at htag
    cases htag

theorem RelativeName.isTextual_of_readAssignments {gs : List Assignment}
    (hgs : gs ≠ [] ∧ ∀ g ∈ gs, WellFormed g) {n : RelativeName} (h : readAssignments gs = .ok n)
    (hhex : ∀ g ∈ gs, ∀ e, g.value.element? = some e → e.tag.isText = false) :
    n.attributes ≠ [] ∧ ∀ a ∈ n.attributes, a.IsTextual := by
  obtain ⟨as, has, hn⟩ := readAssignments_eq_ok_iff.1 h
  have hperm := perm_of_ofList? hn
  constructor
  · intro hnil
    rw [hnil, List.nil_perm] at hperm
    rw [hperm, List.forall₂_nil_right_iff] at has
    exact hgs.1 has
  · intro a ha
    obtain ⟨g, hg, hread⟩ := exists_of_mem_forall₂ has a (hperm.mem_iff.1 ha)
    exact Attribute.isTextual_of_readAttribute (hgs.2 g hg) hread (hhex g hg)

theorem Name.isTextual_of_readPrincipalText {text : String} {name : Name}
    (h : readPrincipalText text = .ok name)
    (hhex : ∀ e ∈ hexElements text, e.tag.isText = false) : name.IsTextual := by
  obtain ⟨gss, hspells, hall⟩ := readPrincipalText_eq_ok_iff.1 h
  have hwell := Spells.wellFormed hspells
  have hvalues : ∀ gs ∈ gss, ∀ g ∈ gs, ∀ e, g.value.element? = some e → e.tag.isText = false := by
    intro gs hgs g hg e he
    refine hhex e ?_
    rw [hexElements, Lenient.parse_of_spells hspells]
    exact List.mem_filterMap.2 ⟨g, List.mem_flatten.2 ⟨gs, hgs, hg⟩, he⟩
  have hrelatives : ∀ r ∈ name.relatives, r.attributes ≠ [] ∧ ∀ a ∈ r.attributes, a.IsTextual := by
    intro r hr
    obtain ⟨gs, hgs, hread⟩ := exists_of_mem_forall₂ hall r (List.mem_reverse.2 hr)
    exact RelativeName.isTextual_of_readAssignments (hwell gs hgs) hread (hvalues gs hgs)
  refine ⟨?_, fun r hr => (hrelatives r hr).1, fun r hr => (hrelatives r hr).2⟩
  intro hnil
  rw [hnil, List.reverse_nil, List.forall₂_nil_right_iff] at hall
  exact hspells.ne_nil hall

namespace Anchor

variable {decoder : DecoderInForce} {constraints : Option Octets} {text : String}
  {principal : Name} {key : PublicKey}

theorem principal?_ofNameAndKey {a : Anchor} (hp : readPrincipalText text = .ok principal)
    (h : (ofNameAndKey decoder constraints text key).outcome = .ok a) :
    a.principal? = some principal ∧ a.publicKey? = some key := by
  obtain ⟨-, -, other, ho, rfl⟩ := ofNameAndKey_eq_ok_iff.1 h
  cases hp.symm.trans ho
  exact ⟨rfl, rfl⟩

/-- With acceptable constraints, a text makes an anchor of the name that it is read as. -/
theorem exists_ofNameAndKey_iff (hc : constraintsFault? decoder.decode constraints = none) :
    (∃ a, (ofNameAndKey decoder constraints text key).outcome = .ok a ∧
        a.principal? = some principal) ↔
      readPrincipalText text = .ok principal := by
  constructor
  · rintro ⟨a, ha, hprincipal⟩
    obtain ⟨-, -, other, ho, rfl⟩ := ofNameAndKey_eq_ok_iff.1 ha
    cases hprincipal
    exact ho
  · intro hp
    have hne : text ≠ "" := by
      rintro rfl
      have hempty : readPrincipalText "" =
          .error (.invalidName "missing '=' after attribute type at offset 0") := by decide +kernel
      rw [hempty] at hp
      cases hp
    exact ⟨_, ofNameAndKey_eq_ok_iff.2 ⟨hc, hne, principal, hp, rfl⟩, rfl⟩

end Anchor

namespace Name

/-- The text of a name that was read from text is read as the same name just if all its attributes
read back, and just then an anchor can be made from the text again. -/
theorem readPrincipalText_text_iff {text : String} {name : Name}
    (h : readPrincipalText text = .ok name)
    (hhex : ∀ e ∈ hexElements text, e.tag.isText = false) :
    (readPrincipalText name.text = .ok name ↔ name.ReadsBack) ∧
      ∀ {decoder : DecoderInForce} {constraints : Option Octets} {key : PublicKey} {a : Anchor},
        (Anchor.ofNameAndKey decoder constraints text key).outcome = .ok a →
          (a.principal? = some name ∧ a.publicKey? = some key) ∧
          ∀ other, constraintsFault? decoder.decode other = none →
            ∃ derived, (Anchor.ofPrincipalAndKey decoder other name key).outcome = .ok derived ∧
              derived.name? = some name.text ∧
              ((∃ again, (Anchor.ofNameAndKey decoder other name.text key).outcome = .ok again ∧
                again.principal? = a.principal?) ↔ name.ReadsBack) := by
  have hiff := (isTextual_of_readPrincipalText h hhex).readPrincipalText_text
  refine ⟨hiff, fun ha => ?_⟩
  have hparts := Anchor.principal?_ofNameAndKey h ha
  refine ⟨hparts, fun other ho => ?_⟩
  refine ⟨_, Anchor.ofPrincipalAndKey_eq_ok_iff.2 ⟨ho, rfl⟩, rfl, ?_⟩
  rw [hparts.1, Anchor.exists_ofNameAndKey_iff ho, hiff]

theorem readPrincipalText_text_mixed :
    ∃ name, readPrincipalText "o=é\\2c\\20;CN=\\fF+dc = #0401Ff" = .ok name ∧
      name.text = "O=é\\,\\ ,2.5.4.3=#0c01ff+0.9.2342.19200300.100.1.25=#0401ff" ∧
      readPrincipalText name.text = .ok name := by
  have hread : readPrincipalText "o=é\\2c\\20;CN=\\fF+dc = #0401Ff" = .ok
      ⟨[⟨[⟨⟨[0x55, 0x04, 0x03]⟩, ⟨.utf8String, [0xff]⟩⟩,
          ⟨AttributeKey.domainComponent, ⟨.octetString, [0xff]⟩⟩], by decide⟩,
        ⟨[⟨⟨[0x55, 0x04, 0x0a]⟩, ⟨.utf8String, [0xc3, 0xa9, 0x2c, 0x20]⟩⟩], by decide⟩]⟩ := by
    decide +kernel
  have hhex : ∀ e ∈ hexElements "o=é\\2c\\20;CN=\\fF+dc = #0401Ff", e.tag.isText = false := by
    decide +kernel
  exact ⟨_, hread, by decide +kernel, (readPrincipalText_text_iff hread hhex).1.2 (by decide +kernel)⟩

/-- An arc of 128 is written as a padded group, which is printed as 0. -/
theorem readPrincipalText_text_padded :
    ∃ name, readPrincipalText "1.2.128=x" = .ok name ∧ hexElements "1.2.128=x" = [] ∧
      name.text = "1.2.0=#0c0178" ∧ readPrincipalText name.text ≠ .ok name := by
  refine ⟨⟨[⟨[⟨⟨[0x2a, 0x80, 0x00]⟩, ⟨.utf8String, [0x78]⟩⟩], by decide⟩]⟩, ?_⟩
  decide +kernel

end Name

end TrustAnchors
