import TrustAnchors.Der.CharacterString
import TrustAnchors.Name.AttributeKey
import TrustAnchors.Name.Basic

/-!
# Text of a name

Strict text has `,` between relative names, last one first, and `+` between attributes. A value that
is a character string is written with escapes, so that no line break and no bare separator of a name
comes from a value; any other value is the hexadecimal form of its element.
-/

namespace TrustAnchors

open Der

namespace Attribute

/-- Characters that are written behind a backslash wherever they stand. -/
def isSpecial (c : Char) : Bool := c ∈ ['"', '+', ',', ';', '<', '>', '\\']

def isControl (c : Char) : Bool := c < ' ' || c = '\x7f'

def escapeChar (c : Char) : List Char :=
  if isSpecial c then ['\\', c]
  else if isControl c then '\\' :: Ascii.chars (Ascii.hexPair c.toUInt8)
  else [c]

/-- Escapes what follows the first character; a last space is escaped. -/
def escapeRest : List Char → List Char
  | [] => []
  | [c] => if c = ' ' then ['\\', ' '] else escapeChar c
  | c :: cs => escapeChar c ++ escapeRest cs

/-- A first space or number sign is escaped, too. -/
def escape : List Char → List Char
  | [] => []
  | c :: cs => (if c = ' ' ∨ c = '#' then ['\\', c] else escapeChar c) ++ escapeRest cs

def chars (a : Attribute) : List Char :=
  match AttributeKey.nameOfType? a.type, a.value.characters? with
  | some name, some value =>
    Ascii.chars ((Ascii.ofString name).map Ascii.toUpper) ++ '=' :: escape value
  | _, _ => a.type.chars ++ '=' :: '#' :: Ascii.chars a.value.encode.hex

end Attribute

namespace RelativeName

def chars (n : RelativeName) : List Char := ['+'].intercalate (n.attributes.map Attribute.chars)

end RelativeName

namespace Name

def chars (n : Name) : List Char := [','].intercalate (n.relatives.reverse.map RelativeName.chars)

def text (n : Name) : String := String.ofList n.chars

end Name

end TrustAnchors
