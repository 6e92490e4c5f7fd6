import TrustAnchors.Der.Decoder

/-!
# Elements

An element of any tag with uninterpreted content, and the encoding of an element from its content.
-/

namespace TrustAnchors.Der

/-- Identifier octet, length octets and content. -/
def tlv (tag : Tag) (content : Octets) : Octets :=
  tag.octet :: lengthOctets content.length ++ content

/-- Encoding of a context number that wraps a whole element. -/
def explicitly (number : Nat) (element : Octets) : Octets := tlv (.context true number) element

structure Element where
  tag : Tag
  content : Octets
  deriving DecidableEq, Repr

namespace Element

def encode (e : Element) : Octets := tlv e.tag e.content

def decode : Decoder Element := do
  let (tag, n) ← Decoder.header
  return ⟨tag, ← Decoder.take n⟩

/-- An element of any tag, if the innermost open element holds one more. -/
def decode? : Decoder (Option Element) := do
  match ← Decoder.peekTag with
  | some _ => return some (← decode)
  | none => return none

end Element

/-- The encoding of a message, which must not be longer than a decoder would accept. -/
def export? (encoding : Octets) : Except Error Octets :=
  if maxLength < encoding.length then .error .overflow else .ok encoding

end TrustAnchors.Der
