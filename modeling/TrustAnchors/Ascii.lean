/-!
# ASCII octets

Octet strings, the printing octets that the text formats give a meaning to, and hexadecimal digits.
`hexValue?_hexDigit` says that a digit written here reads back as its value.
-/

namespace TrustAnchors

abbrev Octets := List UInt8

namespace Ascii

@[match_pattern] abbrev tab : UInt8 := 0x09
@[match_pattern] abbrev lineFeed : UInt8 := 0x0a
@[match_pattern] abbrev formFeed : UInt8 := 0x0c
@[match_pattern] abbrev carriageReturn : UInt8 := 0x0d
@[match_pattern] abbrev space : UInt8 := 0x20
@[match_pattern] abbrev quote : UInt8 := 0x22
@[match_pattern] abbrev numberSign : UInt8 := 0x23
@[match_pattern] abbrev plus : UInt8 := 0x2b
@[match_pattern] abbrev comma : UInt8 := 0x2c
@[match_pattern] abbrev dash : UInt8 := 0x2d
@[match_pattern] abbrev dot : UInt8 := 0x2e
@[match_pattern] abbrev semicolon : UInt8 := 0x3b
@[match_pattern] abbrev equals : UInt8 := 0x3d
@[match_pattern] abbrev backslash : UInt8 := 0x5c

def isDigit (b : UInt8) : Bool := 0x30 ≤ b && b ≤ 0x39

def isUpper (b : UInt8) : Bool := 0x41 ≤ b && b ≤ 0x5a

def isLower (b : UInt8) : Bool := 0x61 ≤ b && b ≤ 0x7a

def toUpper (b : UInt8) : UInt8 := if isLower b then b - 0x20 else b

def toLower (b : UInt8) : UInt8 := if isUpper b then b + 0x20 else b

/-- Value of a hexadecimal digit of either case. -/
def hexValue? (b : UInt8) : Option UInt8 :=
  if isDigit b then some (b - 0x30)
  else if 0x61 ≤ b && b ≤ 0x66 then some (b - 0x57)
  else if 0x41 ≤ b && b ≤ 0x46 then some (b - 0x37)
  else none

def isHexDigit (b : UInt8) : Bool := (hexValue? b).isSome

/-- Lowercase digit of a value below sixteen. -/
def hexDigit (n : UInt8) : UInt8 := if n < 10 then n + 0x30 else n + 0x57

def hexPair (b : UInt8) : Octets := [hexDigit (b / 16), hexDigit (b % 16)]

theorem hexValue?_hexDigit {n : UInt8} (h : n < 16) : hexValue? (hexDigit n) = some n := by
  have digits : ∀ k : Fin 16, hexValue? (hexDigit (UInt8.ofNat k)) = some (UInt8.ofNat k) := by
    decide
  simpa using digits ⟨n.toNat, h⟩

/-- Octets of a text that uses ASCII characters only. -/
def ofString (s : String) : Octets := s.toList.map Char.toUInt8

/-- One character per octet, by code point. -/
def chars (o : Octets) : List Char := o.map Char.ofUInt8

end Ascii

namespace Octets

/-- Two lowercase hexadecimal digits per octet. -/
def hex (o : Octets) : Octets := o.flatMap Ascii.hexPair

def hexText (o : Octets) : String := String.ofList (Ascii.chars o.hex)

@[simp] theorem hex_nil : hex [] = [] := rfl

@[simp] theorem hex_cons (b : UInt8) (o : Octets) : hex (b :: o) = Ascii.hexPair b ++ hex o := rfl

@[simp] theorem hex_append (o p : Octets) : hex (o ++ p) = hex o ++ hex p := by
  simp [hex]

@[simp] theorem length_hex (o : Octets) : o.hex.length = 2 * o.length := by
  induction o with
  | nil => rfl
  | cons b o ih =>
    simp only [hex_cons, List.length_append, ih, List.length_cons, Ascii.hexPair, List.length_nil]
    omega

end Octets

end TrustAnchors
