import TrustAnchors.Der.Integer

/-!
# Booleans, octet strings and bit strings
-/

namespace TrustAnchors.Der

def booleanValue (n : Nat) : Decoder Bool := do
  if n = 1 then
    match ← Decoder.octet with
    | 0xff => return true
    | 0x00 => return false
    | _ => Decoder.fail (.notCanonical .boolean)
  else
    Decoder.fail (.badLength .boolean)

def encodeBoolean (b : Bool) : Octets := tlv .boolean [if b then 0xff else 0x00]

def octetString : Decoder Octets := do
  Decoder.take (← Decoder.expect .octetString)

/-- Whole octets of which the last one has some low bits that do not belong to the string. Those
bits may be set. -/
structure BitString where
  unused : Nat
  octets : Octets
  unused_lt : unused < 8
  unused_eq_zero : octets = [] → unused = 0
  deriving DecidableEq, Repr

namespace BitString

def content (s : BitString) : Octets := UInt8.ofNat s.unused :: s.octets

def encode (s : BitString) : Octets := tlv .bitString s.content

def value (n : Nat) : Decoder BitString := do
  if n = 0 then
    Decoder.fail .overflow
  else
    let unused ← Decoder.octet
    let octets ← Decoder.take (n - 1)
    if h : unused.toNat < 8 ∧ (octets = [] → unused.toNat = 0) then
      return ⟨unused.toNat, octets, h.1, h.2⟩
    else
      Decoder.fail (.badValue .bitString)

def decode : Decoder BitString := do
  value (← Decoder.expect .bitString)

end BitString

end TrustAnchors.Der
