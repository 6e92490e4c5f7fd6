import TrustAnchors.Der.CharacterString
import TrustAnchors.Der.Integer
import TrustAnchors.Name.Basic

/-!
# General names

The forms that a name can have in a subtree of name constraints. The form is told by the context
number and by whether the element is constructed; the form with number 3 is not supported.
-/

namespace TrustAnchors

open Der

/-- A character string with a choice of type. -/
inductive DirectoryString where
  | printable (s : PrintableString)
  | teletex (s : TeletexString)
  | utf8 (cs : List Char)
  deriving DecidableEq, Repr

namespace DirectoryString

def encode : DirectoryString → Octets
  | printable s => s.encode
  | teletex s => s.encode
  | utf8 cs => tlv .utf8String (Utf8.encode cs)

def decode : Decoder DirectoryString := do
  match ← Decoder.choice with
  | .printableString => return printable (← CharacterString.decode .printable)
  | .teletexString => return teletex (← CharacterString.decode .teletex)
  | .utf8String => return utf8 (← utf8Value (← Decoder.expect .utf8String))
  | found => Decoder.fail (.unexpectedTag none found)

end DirectoryString

inductive GeneralName where
  | other (type : ObjectIdentifier) (value : Element)
  | rfc822 (mailbox : Ia5String)
  | dns (domain : Ia5String)
  | directory (name : Name)
  | ediParty (assigner : Option DirectoryString) (party : DirectoryString)
  | uri (uri : Ia5String)
  | ip (address : Octets)
  | registeredId (id : ObjectIdentifier)
  deriving DecidableEq, Repr

namespace GeneralName

def tag : GeneralName → Tag
  | other .. => .context true 0
  | rfc822 _ => .context false 1
  | dns _ => .context false 2
  | directory _ => .context true 4
  | ediParty .. => .context true 5
  | uri _ => .context false 6
  | ip _ => .context false 7
  | registeredId _ => .context false 8

def content : GeneralName → Octets
  | other type value => type.encode ++ explicitly 0 value.encode
  | rfc822 s | dns s | uri s => s.octets
  | directory name => name.encode
  | ediParty assigner party =>
    assigner.elim [] (explicitly 0 ·.encode) ++ explicitly 1 party.encode
  | ip address => address
  | registeredId id => id.octets

def encode (n : GeneralName) : Octets := tlv n.tag n.content

/-- Decoder for the content of the form that is told by a context number. -/
def form? (constructed : Bool) (number : Nat) : Option (Nat → Decoder GeneralName) :=
  match constructed, number with
  | true, 0 => some fun n => Decoder.nested n do
      return other (← ObjectIdentifier.decode) (← Decoder.explicit 0 Element.decode)
  | false, 1 => some fun n => return rfc822 (← CharacterString.value .ia5 n)
  | false, 2 => some fun n => return dns (← CharacterString.value .ia5 n)
  | true, 4 => some fun n => return directory (← Decoder.nested n Name.decode)
  | true, 5 => some fun n => Decoder.nested n do
      let assigner ← Decoder.explicit? 0 DirectoryString.decode
      return ediParty assigner (← Decoder.explicit 1 DirectoryString.decode)
  | false, 6 => some fun n => return uri (← CharacterString.value .ia5 n)
  | false, 7 => some fun n => return ip (← Decoder.take n)
  | false, 8 => some fun n => return registeredId (← ObjectIdentifier.value n)
  | _, _ => none

def decode : Decoder GeneralName := do
  match ← Decoder.choice with
  | .tagged .contextSpecific constructed number =>
    match form? constructed number with
    | some content => content (← Decoder.header).2
    | none => Decoder.fail (.unexpectedTag none (.tagged .contextSpecific constructed number))
  | found => Decoder.fail (.unexpectedTag none found)

end GeneralName

end TrustAnchors
