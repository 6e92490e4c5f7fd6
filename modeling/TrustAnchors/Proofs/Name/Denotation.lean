import Mathlib.Data.List.Forall2
import TrustAnchors.Anchor.Input
import TrustAnchors.Proofs.Name.AttributeKeys
import TrustAnchors.Proofs.Name.LenientGrammar
import TrustAnchors.Proofs.Name.RelativeNames
import TrustAnchors.Proofs.Name.StrictReading

/-!
# The name that a text denotes

An `Assertion` is what a text says of one attribute, and `RendersName` relates lists of assertions
to their lenient texts. Every such text is read as the name that it denotes: relative names in the
opposite order, each the set of the attributes that were asserted. A text that asserts an attribute
twice in one relative name denotes no name, and is refused for that.
-/

namespace TrustAnchors.Name

open Ascii Der Lenient Strict

inductive Assertion.Value where
  | octets (octets : Octets)
  | element (element : Element) (length_le : element.encode.length ≤ maxLength)

structure Assertion where
  type : ObjectIdentifier
  value : Assertion.Value

namespace Assertion

/-- The types of which the values are not UTF-8, with the kind of their character strings. -/
def otherKinds : List (ObjectIdentifier × Tag) :=
  [(AttributeKey.countryName, .printableString), (AttributeKey.serialNumber, .printableString),
    (AttributeKey.domainComponent, .ia5String)]

/-- Octets become a character string of the kind that belongs to the type. -/
def Value.toElement (type : ObjectIdentifier) : Value → Element
  | octets o => ⟨(otherKinds.lookup type).getD .utf8String, o⟩
  | element e _ => e

theorem lookup_otherKinds (type : ObjectIdentifier) :
    (otherKinds.lookup type).getD .utf8String = valueTag type := by
  by_cases hcountry : type = AttributeKey.countryName
  · rw [hcountry]
    rfl
  · by_cases hserial : type = AttributeKey.serialNumber
    · rw [hserial]
      rfl
    · by_cases hcomponent : type = AttributeKey.domainComponent
      · rw [hcomponent]
        rfl
      · rw [valueTag, if_neg (not_or.2 ⟨hcountry, hserial⟩), if_neg hcomponent, otherKinds]
        simp only [List.lookup_cons, beq_false_of_ne hcountry, beq_false_of_ne hserial,
          beq_false_of_ne hcomponent, List.lookup_nil, Option.getD_none]

def toAttribute (a : Assertion) : Attribute := ⟨a.type, a.value.toElement a.type⟩

/-- Octets for a type: one of its names, or its arcs behind an optional mark. -/
inductive RendersType : ObjectIdentifier → Octets → Prop
  | name {type : ObjectIdentifier} {key : Octets} (h : AttributeKey.typeOfName? key = some type) :
      RendersType type key
  | dotted {type : ObjectIdentifier} {mark key : Octets}
      (hm : mark ∈ [[], ofString "OID.", ofString "oid."])
      (h : ObjectIdentifier.ofDotted? key = some type) : RendersType type (mark ++ key)

/-- A bare value does not start with one of these. -/
def isOpening (b : UInt8) : Bool := b = space || b = numberSign || b = quote

inductive RendersValue : Value → Octets → Prop
  | quoted {ps : List Piece} {o : Octets} (h : SpellsPieces (· = quote) ps o) :
      RendersValue (.octets (ps.map Piece.octet)) (quote :: (o ++ [quote]))
  | bare {ps : List Piece} {o : Octets} (h : SpellsPieces isSeparator ps o)
      (hhead : ∀ p ∈ ps.head?, p.escaped = false → isOpening p.octet = false)
      (hlast : ∀ p ∈ ps.getLast?, p.escaped = false → p.octet ≠ space) :
      RendersValue (.octets (ps.map Piece.octet)) o
  | element {e : Element} {he : e.encode.length ≤ maxLength} {digits : Octets}
      (h : SpellsHex e.encode digits) : RendersValue (.element e he) (numberSign :: digits)

inductive Renders : Assertion → Octets → Prop
  | mk {a : Assertion} {s₁ t s₂ s₃ o s₄ : Octets} (h₁ : IsSpaces s₁) (ht : RendersType a.type t)
      (h₂ : IsSpaces s₂) (h₃ : IsSpaces s₃) (hv : RendersValue a.value o) (h₄ : IsSpaces s₄) :
      Renders a (s₁ ++ (t ++ (s₂ ++ equals :: (s₃ ++ (o ++ s₄)))))

end Assertion

/-- Lenient text for relative names, each given by its assertions in the order of the text. -/
abbrev RendersName : List (List Assertion) → Octets → Prop :=
  SeparatedBy (fun s => s = comma ∨ s = semicolon) (SeparatedBy (· = plus) Assertion.Renders)

/-- A relative name with just the asserted attributes. -/
def IsSetOf (as : List Assertion) (n : RelativeName) : Prop :=
  ∀ a, a ∈ n.attributes ↔ a ∈ as.map Assertion.toAttribute

/-- The last relative name of the text is the first one of the name. -/
def Denotes (relatives : List (List Assertion)) (name : Name) : Prop :=
  List.Forall₂ IsSetOf relatives name.relatives.reverse

def AllDifferent (as : List Assertion) : Prop := (as.map Assertion.toAttribute).Nodup

instance (as : List Assertion) : Decidable (AllDifferent as) :=
  inferInstanceAs (Decidable (as.map Assertion.toAttribute).Nodup)

theorem isKeyOctet_spec {b : UInt8} (h : isKeyOctet b = true) :
    b ≠ equals ∧ isSeparator b = false ∧ b ≠ space ∧ b ≠ backslash := by
  revert h
  refine forall_octet (P := fun b => isKeyOctet b = true →
    b ≠ equals ∧ isSeparator b = false ∧ b ≠ space ∧ b ≠ backslash) ?_ b
  decide +kernel

theorem isType_of_isKeyOctet {t : Octets} (hne : t ≠ []) (h : ∀ b ∈ t, isKeyOctet b = true) :
    IsType t where
  ne_nil := hne
  bare b hb := ⟨(isKeyOctet_spec (h b hb)).1, (isKeyOctet_spec (h b hb)).2.1⟩
  head he := (isKeyOctet_spec (h space (List.mem_of_head? he))).2.2.1 rfl
  last he := (isKeyOctet_spec (h space (List.mem_of_getLast? he))).2.2.1 rfl

theorem dot_mem_mark : dot ∈ ofString "OID." ∧ dot ∈ ofString "oid." := by decide +kernel

theorem isKeyOctet_of_mark {mark : Octets} (hm : mark ∈ [[], ofString "OID.", ofString "oid."]) :
    ∀ b ∈ mark, isKeyOctet b = true := by
  simp only [List.mem_cons, List.not_mem_nil, or_false] at hm
  rcases hm with rfl | rfl | rfl
  · exact nofun
  · exact List.all_eq_true.1 (by decide +kernel)
  · exact List.all_eq_true.1 (by decide +kernel)

theorem dropMark_of_no_mark {t : Octets}
    (h : ∀ r, t ≠ ofString "OID." ++ r ∧ t ≠ ofString "oid." ++ r) : dropMark t = t := by
  rw [dropMark, if_neg]
  simp only [Bool.or_eq_true, List.isPrefixOf_iff_prefix, not_or]
  exact ⟨fun ⟨r, hr⟩ => (h r).1 hr.symm, fun ⟨r, hr⟩ => (h r).2 hr.symm⟩

theorem dropMark_name {key : Octets} {type : ObjectIdentifier}
    (h : AttributeKey.typeOfName? key = some type) : dropMark key = key := by
  have hdot : dot ∉ key := fun hb => (AttributeKey.isKeyOctet_of_name h dot hb).2 rfl
  refine dropMark_of_no_mark fun r => ⟨?_, ?_⟩ <;> rintro rfl
  · exact hdot (List.mem_append_left r dot_mem_mark.1)
  · exact hdot (List.mem_append_left r dot_mem_mark.2)

theorem dropMark_dotted {mark key : Octets} (hm : mark ∈ [[], ofString "OID.", ofString "oid."])
    (hd : key.head?.any isDigit = true) : dropMark (mark ++ key) = key := by
  simp only [List.mem_cons, List.not_mem_nil, or_false] at hm
  rcases hm with rfl | rfl | rfl
  · refine dropMark_of_no_mark fun r => ⟨?_, ?_⟩ <;> rintro rfl
    · exact absurd (show isDigit 0x4f = true from hd) (by decide)
    · exact absurd (show isDigit 0x6f = true from hd) (by decide)
  · rfl
  · rfl

namespace Assertion

theorem RendersType.spec {type : ObjectIdentifier} {t : Octets} (h : RendersType type t) :
    IsType t ∧ typeOf (dropMark t) = .ok type ∧
      (∀ b ∈ dropMark t, isKeyOctet b = true) ∧ type.octets.length < 0x80 := by
  cases h with
  | name h =>
    have hoctets := fun b hb => (AttributeKey.isKeyOctet_of_name h b hb).1
    rw [dropMark_name h]
    exact ⟨isType_of_isKeyOctet (AttributeKey.ne_nil_of_name h) hoctets, typeOf_of_name h, hoctets,
      Nat.lt_of_le_of_lt (AttributeKey.length_le_of_name h) (by decide)⟩
  | @dotted mark key hm h =>
    have hoctets := ObjectIdentifier.isKeyOctet_of_dotted h
    have hd := (ObjectIdentifier.ofDotted?_eq_some h).1
    have hne : mark ++ key ≠ [] := by
      intro he
      rw [(List.append_eq_nil_iff.1 he).2] at hd
      cases hd
    rw [dropMark_dotted hm hd]
    refine ⟨isType_of_isKeyOctet hne fun b hb => ?_, typeOf_of_dotted h, hoctets,
      Nat.lt_of_le_of_lt (ObjectIdentifier.length_le_of_dotted h) (by decide)⟩
    exact (List.mem_append.1 hb).elim (isKeyOctet_of_mark hm b) (hoctets b)

/-- A spelled value that stands for the value of an assertion. -/
def Value.Means (type : ObjectIdentifier) (v : Value) (w : Lenient.Value) : Prop :=
  valueOf type w.render = .ok (v.toElement type) ∧
    ∀ digits, w = .hex digits → ∀ b ∈ digits, isHexDigit b = true

/-- An assignment that reads as the asserted attribute, also after its rendering was joined to
others and cut off again. -/
def Means (a : Assertion) (g : Assignment) : Prop :=
  readAttribute g.render = .ok a.toAttribute ∧ WellFormed g ∧ a.toAttribute.HasShortType

theorem means_plain (type : ObjectIdentifier) (o : Octets) :
    (Value.octets o).Means type (.plain o) := by
  refine ⟨?_, nofun⟩
  rw [Value.toElement, lookup_otherKinds]
  exact valueOf_escape type o

theorem isHexDigit_of_spellsHex {o digits : Octets} (h : SpellsHex o digits) :
    ∀ b ∈ digits, isHexDigit b = true := by
  induction h with
  | nil => exact nofun
  | cons hx hy _ ih =>
    intro b hb
    simp only [List.mem_cons] at hb
    rcases hb with rfl | rfl | hb
    · simp [isHexDigit, hx]
    · simp [isHexDigit, hy]
    · exact ih b hb

theorem means_hex (type : ObjectIdentifier) {e : Element} (he : e.encode.length ≤ maxLength)
    {digits : Octets} (h : SpellsHex e.encode digits) :
    (Value.element e he).Means type (.hex digits) := by
  refine ⟨valueOf_hex type he h, ?_⟩
  rintro _ ⟨⟩
  exact isHexDigit_of_spellsHex h

/-- Raw spaces behind a value are pieces, too, but do not belong to the value. -/
theorem spellsPieces_append_spaces {ps : List Piece} {o s : Octets}
    (h : SpellsPieces isSeparator ps o) (hs : IsSpaces s) :
    SpellsPieces isSeparator (ps ++ s.map (⟨·, false⟩)) (o ++ s) := by
  refine h.append (spellsPieces_bare fun b hb => ?_)
  rw [hs b hb]
  decide

theorem unquoted_append_spaces {ps : List Piece} {s : Octets} (hs : IsSpaces s)
    (hlast : ∀ p ∈ ps.getLast?, p.escaped = false → p.octet ≠ space) :
    unquoted (ps ++ s.map (⟨·, false⟩)) = ps.map Piece.octet := by
  have hspaces : ∀ p ∈ (s.map (Piece.mk · false)).reverse,
      (!p.escaped && p.octet = space) = true := by
    intro p hp
    obtain ⟨b, hb, rfl⟩ := List.mem_map.1 (List.mem_reverse.1 hp)
    simp [hs b hb]
  have hstop : ps.reverse.dropWhile (fun p => !p.escaped && p.octet = space) = ps.reverse := by
    cases hr : ps.reverse with
    | nil => rfl
    | cons p r =>
      have hp := hlast p (by rw [← List.head?_reverse, hr]; rfl)
      rw [List.dropWhile_cons_of_neg]
      simpa using hp
  rw [unquoted, List.reverse_append, List.dropWhile_append_of_pos hspaces, hstop,
    List.reverse_reverse]

theorem unquoted_of_last {ps : List Piece}
    (hlast : ∀ p ∈ ps.getLast?, p.escaped = false → p.octet ≠ space) :
    unquoted ps = ps.map Piece.octet := by
  simpa using unquoted_append_spaces .nil hlast

theorem head_of_spellsPieces {ps : List Piece} {o : Octets} (h : SpellsPieces isSeparator ps o)
    (hhead : ∀ p ∈ ps.head?, p.escaped = false → isOpening p.octet = false) :
    ∀ b ∈ o.head?, b ≠ space ∧ b ≠ numberSign ∧ b ≠ quote := by
  cases h with
  | nil => exact nofun
  | cons hp _ =>
    have hp' := hhead _ rfl
    cases hp with
    | bare =>
      rintro b ⟨⟩
      simpa [isOpening, and_assoc] using hp' rfl
    | special =>
      rintro b ⟨⟩
      decide
    | hex =>
      rintro b ⟨⟩
      decide

/-- The spaces behind a bare value are part of its spelling. With nothing between them, all spaces
stand in front of it. -/
theorem exists_spellsValue_bare {ps : List Piece} {s₃ o s₄ : Octets}
    (hp : SpellsPieces isSeparator ps o)
    (ho : ∀ b ∈ o.head?, b ≠ space ∧ b ≠ numberSign ∧ b ≠ quote)
    (hlast : ∀ p ∈ ps.getLast?, p.escaped = false → p.octet ≠ space) (h₃ : IsSpaces s₃)
    (h₄ : IsSpaces s₄) :
    ∃ s p, s₃ ++ (o ++ s₄) = s ++ p ∧ IsSpaces s ∧ SpellsValue (.plain (ps.map Piece.octet)) p := by
  cases o with
  | nil =>
    have hvalue := SpellsValue.bare hp ho
    rw [unquoted_of_last hlast] at hvalue
    exact ⟨s₃ ++ s₄, [], by simp, h₃.append h₄, hvalue⟩
  | cons b o =>
    have hvalue := SpellsValue.bare (spellsPieces_append_spaces hp h₄) ho
    rw [unquoted_append_spaces h₄ hlast] at hvalue
    exact ⟨s₃, b :: o ++ s₄, rfl, h₃, hvalue⟩

theorem RendersValue.spells {v : Value} {s₃ o s₄ : Octets} (h : RendersValue v o)
    (h₃ : IsSpaces s₃) (h₄ : IsSpaces s₄) (type : ObjectIdentifier) :
    ∃ s p w, s₃ ++ (o ++ s₄) = s ++ p ∧ IsSpaces s ∧ SpellsValue w p ∧ v.Means type w := by
  cases h with
  | @quoted ps o hp =>
    refine ⟨s₃, quote :: (o ++ quote :: s₄), _, by simp, h₃, .quoted hp h₄, means_plain type _⟩
  | @bare ps o hp hhead hlast =>
    obtain ⟨s, p, htext, hs, hvalue⟩ :=
      exists_spellsValue_bare hp (head_of_spellsPieces hp hhead) hlast h₃ h₄
    exact ⟨s, p, _, htext, hs, hvalue, means_plain type _⟩
  | @element e he digits hd =>
    refine ⟨s₃, numberSign :: (digits ++ s₄), .hex digits, by simp, h₃, ?_, means_hex type he hd⟩
    exact .hex (hd.ne_nil e.encode_ne_nil) (isHexDigit_of_spellsHex hd) h₄

theorem Renders.spells {a : Assertion} {o : Octets} (h : Renders a o) :
    ∃ g, SpellsAssignment g o ∧ a.Means g := by
  cases h with
  | @mk s₁ t s₂ s₃ o s₄ h₁ ht h₂ h₃ hv h₄ =>
    obtain ⟨htype, hof, hoctets, hshort⟩ := ht.spec
    obtain ⟨s, p, w, htext, hs, hw, hmeans⟩ := hv.spells h₃ h₄ a.type
    rw [htext]
    have hwell : WellFormed ⟨dropMark t, w⟩ :=
      ⟨fun b hb => ⟨(isKeyOctet_spec (hoctets b hb)).1, (isKeyOctet_spec (hoctets b hb)).2.1⟩,
        hmeans.2⟩
    refine ⟨⟨dropMark t, w⟩, .mk h₁ htype h₂ hs hw, ?_, hwell, hshort⟩
    rw [hwell.readAttribute_render, hof, Except.ok_bind, hmeans.1]
    rfl

end Assertion

theorem SeparatedBy.exists_forall₂ {α β : Type} {isSep : UInt8 → Prop} {S : α → Octets → Prop}
    {T : β → Octets → Prop} {R : α → β → Prop} (hR : ∀ a o, S a o → ∃ b, T b o ∧ R a b)
    {as : List α} {o : Octets} (h : SeparatedBy isSep S as o) :
    ∃ bs, SeparatedBy isSep T bs o ∧ List.Forall₂ R as bs := by
  induction h with
  | single h =>
    obtain ⟨b, hb, hab⟩ := hR _ _ h
    exact ⟨[b], .single hb, .cons hab .nil⟩
  | cons h hs _ ih =>
    obtain ⟨b, hb, hab⟩ := hR _ _ h
    obtain ⟨bs, hbs, hall⟩ := ih
    exact ⟨b :: bs, .cons hb hs hbs, .cons hab hall⟩

/-- Assertions of one relative name, and assignments that stand for them. -/
def MeansRelative (as : List Assertion) (gs : List Assignment) : Prop :=
  gs ≠ [] ∧ List.Forall₂ Assertion.Means as gs

theorem RendersName.spells {rs : List (List Assertion)} {o : Octets} (h : RendersName rs o) :
    ∃ gss, Spells gss o ∧ List.Forall₂ MeansRelative rs gss := by
  refine SeparatedBy.exists_forall₂ (fun as p has => ?_) h
  obtain ⟨gs, hgs, hall⟩ := SeparatedBy.exists_forall₂ (fun _ _ h => Assertion.Renders.spells h) has
  exact ⟨gs, hgs, hgs.ne_nil, hall⟩

end TrustAnchors.Name
