import TrustAnchors.Der.Element

/-!
# Character strings

Three string types write one character per octet and differ in the repertoire of characters. Nothing
above U+007F is in any of them.
-/

namespace TrustAnchors.Der

inductive Repertoire where
  | printable
  | teletex
  | ia5
  deriving DecidableEq, Repr

namespace Repertoire

def tag : Repertoire → Tag
  | printable => .printableString
  | teletex => .teletexString
  | ia5 => .ia5String

def isPrintable (b : UInt8) : Bool :=
  Ascii.isUpper b || Ascii.isLower b || Ascii.isDigit b || b ∈ Ascii.ofString " '()+,-./:=?"

def allows : Repertoire → UInt8 → Bool
  | printable, b => isPrintable b
  | teletex, b => b < 0x80
  | ia5, b => b < 0x80

end Repertoire

/-- A string over a repertoire, by its content octets. -/
structure CharacterString (r : Repertoire) where
  octets : Octets
  allowed : octets.all r.allows = true
  deriving DecidableEq, Repr

abbrev PrintableString := CharacterString .printable
abbrev TeletexString := CharacterString .teletex
abbrev Ia5String := CharacterString .ia5

namespace CharacterString

variable {r : Repertoire}

def chars (s : CharacterString r) : List Char := Ascii.chars s.octets

def text (s : CharacterString r) : String := String.ofList s.chars

def ofOctets? (r : Repertoire) (o : Octets) : Option (CharacterString r) :=
  if h : o.all r.allows = true then some ⟨o, h⟩ else none

/-- A fault names the string type also where another tag stands in for its own. -/
def value (r : Repertoire) (n : Nat) : Decoder (CharacterString r) := do
  Decoder.ofOption (.badValue r.tag) (ofOctets? r (← Decoder.take n))

def decode (r : Repertoire) : Decoder (CharacterString r) := do
  value r (← Decoder.expect r.tag)

def encode (s : CharacterString r) : Octets := tlv r.tag s.octets

end CharacterString

/-- Content of a UTF-8 string. -/
def utf8Value (n : Nat) : Decoder (List Char) := do
  Decoder.ofExcept ((Utf8.decode (← Decoder.take n)).mapError .utf8)

/-- The characters of an element that is a valid string of a type with known repertoire. -/
def Element.characters? (e : Element) : Option (List Char) :=
  match e.tag with
  | .utf8String => (Utf8.decode e.content).toOption
  | .printableString => (CharacterString.ofOctets? .printable e.content).map (·.chars)
  | .ia5String => (CharacterString.ofOctets? .ia5 e.content).map (·.chars)
  | .teletexString => (CharacterString.ofOctets? .teletex e.content).map (·.chars)
  | _ => none

end TrustAnchors.Der
