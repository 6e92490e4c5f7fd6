import TrustAnchors.Anchor.Basic
import TrustAnchors.HexDump

/-!
# Reports about an anchor

A summary for structured logs, and lines for a reader.
-/

namespace TrustAnchors

structure Summary where
  kind : Kind
  subject : String
  authorityName : Option String
  serialNumber : Option String
  publicKeyAlgorithm : String
  constraintsLength : Option Nat
  deriving DecidableEq, Repr

namespace Anchor

def summary (a : Anchor) : Summary where
  kind := a.kind
  subject := a.subject.text
  authorityName := a.name?
  serialNumber := a.certificate?.map (·.body.serial.octets.hexText)
  publicKeyAlgorithm := a.subjectKey.algorithm.algorithm.text
  constraintsLength := a.constraints.map List.length

/-- Stands before each row of the dump of constraints. -/
def dumpIndent : String := "    "

end Anchor

namespace PublicKey

def describe (k : PublicKey) : List Char :=
  "algorithm=".toList ++ k.algorithm.algorithm.chars ++ ", key=".toList ++
    (Nat.repr k.key.octets.length).toList ++ " bytes".toList

end PublicKey

namespace Certificate

def describe (c : Certificate) : List Char :=
  "subject=".toList ++ c.body.subject.chars ++ ", issuer=".toList ++ c.body.issuer.chars ++
    ", serial=".toList ++ Ascii.chars c.body.serial.octets.hex ++ ", ".toList ++
    c.body.publicKey.describe

end Certificate

namespace Anchor

variable (a : Anchor)

def identityLines : List (List Char) :=
  match a.identity with
  | .certificate certificate => ["Trusted CA certificate: ".toList ++ certificate.describe]
  | .nameAndKey _ principal key | .principalAndKey _ principal key =>
    ["Trusted CA Name: ".toList ++ principal.chars,
      "Trusted CA Public Key: ".toList ++ key.describe]

def constraintLines : List (List Char) :=
  match a.constraints with
  | none => []
  | some der => "Name Constraints:".toList :: HexDump.rows dumpIndent.toList der

def lines : List (List Char) :=
  "TrustAnchor: [".toList :: a.identityLines ++ a.constraintLines ++ ["]".toList]

/-- The lines, with a line feed between each two. -/
def render : String := String.ofList (['\n'].intercalate a.lines)

end Anchor

end TrustAnchors
