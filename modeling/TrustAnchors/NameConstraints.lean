import TrustAnchors.GeneralName

/-!
# Name constraints

Two optional lists of subtrees of names: those that are permitted and those that are excluded.
-/

namespace TrustAnchors

open Der

/-- Names at a distance from a base name. A least distance of 0 is left out of an encoding. -/
structure Subtree where
  base : GeneralName
  minimum : UInt32
  maximum : Option UInt32
  deriving DecidableEq, Repr

namespace Subtree

def distance (n : Nat) : Decoder UInt32 := do
  return UInt32.ofNat (← unsignedValue 4 n)

def encodeDistance (number : Nat) (distance : UInt32) : Octets :=
  tlv (.context false number) (unsignedContent distance.toNat)

def encode (s : Subtree) : Octets :=
  tlv .sequence (s.base.encode ++ (if s.minimum = 0 then [] else encodeDistance 0 s.minimum) ++
    s.maximum.elim [] (encodeDistance 1))

def decode : Decoder Subtree :=
  Decoder.sequence do
    let base ← GeneralName.decode
    let minimum ← Decoder.implicit? 0 false distance
    let maximum ← Decoder.implicit? 1 false distance
    return ⟨base, minimum.getD 0, maximum⟩

end Subtree

structure NameConstraints where
  permitted : Option (List Subtree)
  excluded : Option (List Subtree)
  deriving DecidableEq, Repr

namespace NameConstraints

def empty : NameConstraints := ⟨none, none⟩

def encodeSubtrees (number : Nat) (subtrees : List Subtree) : Octets :=
  tlv (.context true number) (subtrees.flatMap Subtree.encode)

def encode (c : NameConstraints) : Octets :=
  tlv .sequence (c.permitted.elim [] (encodeSubtrees 0) ++ c.excluded.elim [] (encodeSubtrees 1))

def subtrees (n : Nat) : Decoder (List Subtree) := Decoder.nested n (Decoder.many Subtree.decode)

def decode : Decoder NameConstraints :=
  Decoder.sequence do
    let permitted ← Decoder.implicit? 0 true subtrees
    return ⟨permitted, ← Decoder.implicit? 1 true subtrees⟩

/-- The constraints that octets encode. -/
def ofDer (der : Octets) : Except Error NameConstraints := decode.decode der

end NameConstraints

end TrustAnchors
