import TrustAnchors.Ascii

/-!
# Base64

The standard alphabet with padding, four digits for three octets. `decode` looks closely at the last
group only: it has to be whole, padding stands nowhere else, and no bit is set that belongs to no
octet. A fault in a group before it is a matter of whoever reads that far, so that `decode` tells
from which octet on the octets are not known.
-/

namespace TrustAnchors.Base64

def alphabet : List UInt8 :=
  Ascii.ofString "ABCDEFGHIJKLMNOPQRSTUVWXYZabcdefghijklmnopqrstuvwxyz0123456789+/"

def padding : UInt8 := 0x3d

def digit (n : Nat) : UInt8 := alphabet.getD (n % 64) padding

def value? (b : UInt8) : Option Nat :=
  if Ascii.isUpper b then some (b.toNat - 0x41)
  else if Ascii.isLower b then some (b.toNat - 0x47)
  else if Ascii.isDigit b then some (b.toNat + 4)
  else if b = 0x2b then some 62
  else if b = 0x2f then some 63
  else none

structure Group where
  first : UInt8
  second : UInt8
  third : UInt8
  fourth : UInt8
  deriving DecidableEq, Repr

namespace Group

/-- The octets of four digits. -/
def full? (g : Group) : Option Octets := do
  let v ← value? g.first
  let w ← value? g.second
  let x ← value? g.third
  let y ← value? g.fourth
  return [UInt8.ofNat (v * 4 + w / 16), UInt8.ofNat (w * 16 + x / 4), UInt8.ofNat (x * 64 + y)]

/-- The octets of the last group of a text, in which padding can stand in place of digits. -/
def last? (g : Group) : Option Octets :=
  if g.fourth = padding then do
    let v ← value? g.first
    let w ← value? g.second
    if g.third = padding then
      guard (w % 16 = 0)
      return [UInt8.ofNat (v * 4 + w / 16)]
    else
      let x ← value? g.third
      guard (x % 4 = 0)
      return [UInt8.ofNat (v * 4 + w / 16), UInt8.ofNat (w * 16 + x / 4)]
  else g.full?

/-- Three octets, which are zero where they are not known. -/
def octets (g : Group) : Octets := g.full?.getD [0, 0, 0]

end Group

def groups? : Octets → Option (List Group)
  | [] => some []
  | a :: b :: c :: d :: r => (⟨a, b, c, d⟩ :: ·) <$> groups? r
  | _ => none

structure Decoded where
  octets : Octets
  /-- Index of the first octet that is not known. -/
  unknownFrom : Option Nat
  deriving DecidableEq, Repr

/-- The octets of a text that is not empty. Where the last group is not read as one (`closed`), it
has to be made of four digits like the others. -/
def decode (closed : Bool) (text : Octets) : Option Decoded := do
  let groups ← groups? text
  let last ← groups.getLast? >>= Group.last?
  let inner := if closed then groups.dropLast else groups
  return {
    octets := groups.dropLast.flatMap Group.octets ++ last
    unknownFrom := (inner.findIdx? fun g => g.full?.isNone).map (3 * ·) }

def encode : Octets → Octets
  | [] => []
  | [a] => [digit (a.toNat / 4), digit (a.toNat * 16), padding, padding]
  | [a, b] =>
    [digit (a.toNat / 4), digit (a.toNat * 16 + b.toNat / 16), digit (b.toNat * 4), padding]
  | a :: b :: c :: r =>
    digit (a.toNat / 4) :: digit (a.toNat * 16 + b.toNat / 16) ::
      digit (b.toNat * 4 + c.toNat / 64) :: digit c.toNat :: encode r

end TrustAnchors.Base64
