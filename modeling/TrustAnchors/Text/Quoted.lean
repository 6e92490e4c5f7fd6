import TrustAnchors.Text.Invisible

/-!
# Quoted text

Text between quotes in which every character is visible. A character without a visible form is
written by its number.
-/

namespace TrustAnchors.Text

/-- The characters that have an escape of their own, with the character behind the backslash. -/
def namedEscapes : List (Char × Char) :=
  [('\x00', '0'), ('\t', 't'), ('\n', 'n'), ('\r', 'r'), ('"', '"'), ('\\', '\\')]

def quoteChar (c : Char) : List Char :=
  match namedEscapes.lookup c with
  | some e => ['\\', e]
  | none =>
    if isInvisible c then ['\\', 'u', '\x7b'] ++ Nat.toDigits 16 c.toNat ++ ['\x7d'] else [c]

def quote (s : String) : String := String.ofList ('"' :: s.toList.flatMap quoteChar ++ ['"'])

end TrustAnchors.Text
