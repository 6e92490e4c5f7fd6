import TrustAnchors.Der.Tag
import TrustAnchors.Pem
import TrustAnchors.Utf8

/-!
# Reasons for which octets are not the encoding asked for
-/

namespace TrustAnchors.Der

/-- Largest length, in octets, of a message or of any part of it. -/
def maxLength : Nat := 0xfffffff

inductive Error where
  /-- The octets end at `actual`, before position `expected`. -/
  | incomplete (expected actual : Nat)
  | overflow
  | invalidTagNumber
  | unknownTag (octet : UInt8)
  | indefiniteLength
  | badLength (tag : Tag)
  | unexpectedTag (expected : Option Tag) (actual : Tag)
  /-- The value ends after `decoded` octets of its content and `remaining` are left over. -/
  | trailingData (decoded remaining : Nat)
  | badValue (tag : Tag)
  | notCanonical (tag : Tag)
  | malformedIdentifier
  | dateTime
  | duplicateElement
  | utf8 (fault : Utf8.Fault)
  /-- The textual encoding of the message is at fault, as far as it has been read. -/
  | pem (fault : Pem.Error)
  /-- An element of a stream would have to be passed over. -/
  | cannotSkip
  | failed
  deriving DecidableEq, Repr

namespace Error

def message : Error → String
  | incomplete expected actual =>
    s!"ASN.1 DER message is incomplete: expected {expected}, actual {actual}"
  | overflow => "integer overflow"
  | invalidTagNumber => "invalid tag number"
  | unknownTag octet =>
    "unknown/unsupported ASN.1 DER tag: 0x" ++ Octets.hexText [octet]
  | indefiniteLength => "indefinite length disallowed"
  | badLength tag => s!"incorrect length for {tag.name}"
  | unexpectedTag (some expected) actual =>
    s!"unexpected ASN.1 DER tag: expected {expected.name}, got {actual.name}"
  | unexpectedTag none actual => s!"unexpected ASN.1 DER tag: got {actual.name}"
  | trailingData decoded remaining =>
    s!"trailing data at end of DER message: decoded {decoded} bytes, {remaining} bytes remaining"
  | badValue tag => s!"malformed ASN.1 DER value for {tag.name}"
  | notCanonical tag => s!"ASN.1 {tag.name} not canonically encoded as DER"
  | malformedIdentifier => "malformed OID"
  | dateTime => "date/time error"
  | duplicateElement => "SET OF contains duplicate"
  | utf8 fault => fault.message
  | pem fault => fault.message
  | cannotSkip => "reader does not support the requested operation"
  | failed => "operation failed"

end Error

end TrustAnchors.Der
