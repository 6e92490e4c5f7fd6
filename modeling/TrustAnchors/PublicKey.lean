import TrustAnchors.Der.Primitive
import TrustAnchors.ObjectIdentifier

/-!
# Public keys
-/

namespace TrustAnchors

open Der

structure AlgorithmIdentifier where
  algorithm : ObjectIdentifier
  parameters : Option Element
  deriving DecidableEq, Repr

namespace AlgorithmIdentifier

def encode (a : AlgorithmIdentifier) : Octets :=
  tlv .sequence (a.algorithm.encode ++ a.parameters.elim [] Element.encode)

def decode : Decoder AlgorithmIdentifier :=
  Decoder.sequence do return ⟨← ObjectIdentifier.decode, ← Element.decode?⟩

end AlgorithmIdentifier

/-- A public key with the algorithm it is for. -/
structure PublicKey where
  algorithm : AlgorithmIdentifier
  key : BitString
  deriving DecidableEq, Repr

namespace PublicKey

def encode (k : PublicKey) : Octets := tlv .sequence (k.algorithm.encode ++ k.key.encode)

def decode : Decoder PublicKey :=
  Decoder.sequence do return ⟨← AlgorithmIdentifier.decode, ← BitString.decode⟩

def toDer (k : PublicKey) : Except Error Octets := export? k.encode

end PublicKey

end TrustAnchors
