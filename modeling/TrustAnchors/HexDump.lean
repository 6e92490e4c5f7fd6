import TrustAnchors.Ascii

/-!
# Hexadecimal dump

One row for each sixteen octets: an indent, the offset of the first octet and the octets.
-/

namespace TrustAnchors.HexDump

def rowLength : Nat := 16

/-- At least four hexadecimal digits. -/
def offsetText (n : Nat) : List Char := (Nat.toDigits 16 n).leftpad 4 '0'

def row (indent : List Char) (offset : Nat) (octets : Octets) : List Char :=
  indent ++ offsetText offset ++ ':' :: octets.flatMap fun b => ' ' :: Ascii.chars (Ascii.hexPair b)

/-- The rows for octets of which the first has the given offset. -/
def rowsFrom (indent : List Char) (offset : Nat) : Octets → List (List Char)
  | [] => []
  | b :: r =>
    row indent offset ((b :: r).take rowLength) ::
      rowsFrom indent (offset + rowLength) ((b :: r).drop rowLength)
termination_by o => o.length
decreasing_by
  simp only [List.length_drop, List.length_cons, rowLength]
  omega

def rows (indent : List Char) (octets : Octets) : List (List Char) := rowsFrom indent 0 octets

/-- Every row with a line feed behind it. -/
def format (indent : String) (octets : Octets) : String :=
  String.ofList ((rows indent.toList octets).flatMap (· ++ ['\n']))

end TrustAnchors.HexDump
