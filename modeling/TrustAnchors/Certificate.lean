import TrustAnchors.Name.Basic
import TrustAnchors.PublicKey
import TrustAnchors.Time

/-!
# Certificates

The fields of an X.509 certificate, without any check of one against another.
-/

namespace TrustAnchors

open Der

/-- A signed integer by its content octets. Zero and negative numbers are serial numbers, too. -/
structure SerialNumber where
  octets : Octets
  shortest : isShortest octets = true
  length_le : octets.length ≤ 21
  deriving DecidableEq, Repr

namespace SerialNumber

def encode (s : SerialNumber) : Octets := tlv .integer s.octets

def decode : Decoder SerialNumber := do
  let n ← Decoder.expect .integer
  let octets ← Decoder.take n
  if hs : isShortest octets then
    if hl : octets.length ≤ 21 then return ⟨octets, hs, hl⟩ else Decoder.fail (.badValue .integer)
  else
    Decoder.fail (.notCanonical .integer)

end SerialNumber

inductive Version where
  | v1
  | v2
  | v3
  deriving DecidableEq, Repr

namespace Version

def number : Version → Nat
  | v1 => 0
  | v2 => 1
  | v3 => 2

def encode (v : Version) : Octets := tlv .integer (unsignedContent v.number)

def decode : Decoder Version := do
  match ← unsignedValue 1 (← Decoder.expect .integer) with
  | 0 => return v1
  | 1 => return v2
  | 2 => return v3
  | _ => Decoder.fail (.badValue .integer)

end Version

structure Extension where
  type : ObjectIdentifier
  critical : Bool
  value : Octets
  deriving DecidableEq, Repr

namespace Extension

def encode (e : Extension) : Octets :=
  tlv .sequence (e.type.encode ++ (if e.critical then encodeBoolean true else []) ++
    tlv .octetString e.value)

/-- The mark of a critical extension can be left out. -/
def decodeCritical : Decoder Bool := do
  match ← Decoder.peekTag with
  | some .boolean => booleanValue (← Decoder.expect .boolean)
  | _ => return false

def decode : Decoder Extension :=
  Decoder.sequence do return ⟨← ObjectIdentifier.decode, ← decodeCritical, ← octetString⟩

end Extension

structure Validity where
  notBefore : Time
  notAfter : Time
  deriving DecidableEq, Repr

namespace Validity

def encode (v : Validity) : Octets := tlv .sequence (v.notBefore.encode ++ v.notAfter.encode)

def decode : Decoder Validity :=
  Decoder.sequence do return ⟨← Time.decode, ← Time.decode⟩

end Validity

/-- The signed part of a certificate. -/
structure Certificate.Body where
  version : Version
  serial : SerialNumber
  signature : AlgorithmIdentifier
  issuer : Name
  validity : Validity
  subject : Name
  publicKey : PublicKey
  issuerId : Option BitString
  subjectId : Option BitString
  extensions : Option (List Extension)
  deriving DecidableEq, Repr

namespace Certificate.Body

def encodeId (number : Nat) (id : BitString) : Octets :=
  tlv (.context false number) id.content

/-- The first version is left out of an encoding. -/
def encode (b : Body) : Octets :=
  tlv .sequence <|
    (if b.version = .v1 then [] else explicitly 0 b.version.encode) ++
    b.serial.encode ++ b.signature.encode ++ b.issuer.encode ++ b.validity.encode ++
    b.subject.encode ++ b.publicKey.encode ++
    b.issuerId.elim [] (encodeId 1) ++ b.subjectId.elim [] (encodeId 2) ++
    b.extensions.elim [] fun es => explicitly 3 (tlv .sequence (es.flatMap Extension.encode))

def decode : Decoder Body :=
  Decoder.sequence do
    let version ← Decoder.explicit? 0 Version.decode
    return {
      version := version.getD .v1
      serial := ← SerialNumber.decode
      signature := ← AlgorithmIdentifier.decode
      issuer := ← Name.decode
      validity := ← Validity.decode
      subject := ← Name.decode
      publicKey := ← PublicKey.decode
      issuerId := ← Decoder.implicit? 1 false BitString.value
      subjectId := ← Decoder.implicit? 2 false BitString.value
      extensions := ← Decoder.explicit? 3 (Decoder.sequence (Decoder.many Extension.decode)) }

end Certificate.Body

structure Certificate where
  body : Certificate.Body
  signatureAlgorithm : AlgorithmIdentifier
  signature : BitString
  deriving DecidableEq, Repr

namespace Certificate

def encode (c : Certificate) : Octets :=
  tlv .sequence (c.body.encode ++ c.signatureAlgorithm.encode ++ c.signature.encode)

def decode : Decoder Certificate :=
  Decoder.sequence do return ⟨← Body.decode, ← AlgorithmIdentifier.decode, ← BitString.decode⟩

/-- The certificate of a textual encoding. -/
def ofPem (text : Octets) : Except Error Certificate := decode.decodePem "CERTIFICATE" text

def toDer (c : Certificate) : Except Error Octets := export? c.encode

end Certificate

end TrustAnchors
