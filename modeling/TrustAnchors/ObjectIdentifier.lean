import TrustAnchors.Der.Element

/-!
# Object identifiers

An identifier is its content octets. Their groups are the arcs: an octet below 0x80 ends a group,
and the first octet stands for the first two arcs. Identifiers that are read from an encoding are
well formed (`isWellFormed`); those written from dotted text can be shorter, and some of them stand
for other arcs than the text has (`arcOctets`).
-/

namespace TrustAnchors

open Der

structure ObjectIdentifier where
  octets : Octets
  deriving DecidableEq, Repr

namespace ObjectIdentifier

/-- Number of the low seven bits of each octet, modulo 2^32. -/
def arcValue (group : Octets) : Nat :=
  group.foldl (fun n b => (n * 128 + (b % 128).toNat) % 0x100000000) 0

/-- Cuts octets after each one below 0x80. -/
def groups : Octets → List Octets
  | [] => []
  | b :: r =>
    if b < 0x80 then [b] :: groups r
    else
      match groups r with
      | [] => [[b]]
      | g :: gs => (b :: g) :: gs

def arcs (oid : ObjectIdentifier) : List Nat :=
  match oid.octets with
  | [] => []
  | b :: r => (b / 40).toNat :: (b % 40).toNat :: (groups r).map arcValue

def chars (oid : ObjectIdentifier) : List Char :=
  (oid.arcs.map Nat.repr |>.intersperse ".").flatMap String.toList

def text (oid : ObjectIdentifier) : String := String.ofList oid.chars

/-- The group has an end. A fifth octet is the last one and adds no more than four bits. -/
def isArc (group : Octets) : Bool :=
  group.getLast?.any (· < 0x80) && group[4]?.all (· < 0x10)

/-- At least three octets, of which the first one stands for two arcs and the others are groups. -/
def isWellFormed (o : Octets) : Bool :=
  2 < o.length && o.head?.all (· < 120) && (groups o.tail).all isArc

/-- Largest number of content octets of an encoded identifier. -/
def maxOctets : Nat := 39

def value (n : Nat) : Decoder ObjectIdentifier := do
  if maxOctets < n then
    Decoder.fail (.badLength .objectIdentifier)
  else
    let octets ← Decoder.take n
    if isWellFormed octets then return ⟨octets⟩ else Decoder.fail .malformedIdentifier

def decode : Decoder ObjectIdentifier := do
  value (← Decoder.expect .objectIdentifier)

def encode (oid : ObjectIdentifier) : Octets := tlv .objectIdentifier oid.octets

/-- Number of octets after the first one of an arc's group. -/
def arcWidth (n : Nat) : Nat :=
  if n < 0x80 then 0 else if n < 0x4000 then 1 else if n < 0x200000 then 2
  else if n < 0x20000000 then 3 else 4

/-- Writes seven bits at a time from the last octet of a group to the first, whose number may be as
large as 0x80. The continuation bit is set on all octets but the last. A number that has come down
to 0x80 ends the writing early: it goes to the front and the octets between stay zero. -/
def arcDigits (k n : Nat) (continued : UInt8) (done : Octets) : Option Octets :=
  if n ≤ 0x80 then
    some ((UInt8.ofNat n ||| continued) :: List.replicate k 0 ++ done)
  else
    match k with
    | 0 => none
    | k + 1 => arcDigits k (n / 128) 0x80 ((UInt8.ofNat (n % 128) ||| continued) :: done)

def arcOctets (n : Nat) : Option Octets := arcDigits (arcWidth n) n 0 []

/-- Numbers between full stops. No digits stand for zero, and numbers wrap at 2^32. -/
def dottedNumbers (n : Nat) : Octets → Option (List Nat)
  | [] => some [n]
  | b :: r =>
    if Ascii.isDigit b then dottedNumbers ((n * 10 + (b - 0x30).toNat) % 0x100000000) r
    else if b = Ascii.dot ∧ r ≠ [] then (n :: ·) <$> dottedNumbers 0 r
    else none

/-- Largest number of content octets of an identifier written from text. -/
def maxTextOctets : Nat := 38

def ofArcs? : List Nat → Option ObjectIdentifier
  | first :: second :: rest => do
    guard (first ≤ 2 ∧ second ≤ 39)
    let groups ← rest.mapM arcOctets
    let octets := UInt8.ofNat (first * 40 + second) :: groups.flatten
    guard (2 ≤ octets.length ∧ octets.length ≤ maxTextOctets)
    return ⟨octets⟩
  | _ => none

/-- The identifier of a dotted text, which starts with a digit. -/
def ofDotted? (text : Octets) : Option ObjectIdentifier := do
  guard (text.head?.any Ascii.isDigit)
  ofArcs? (← dottedNumbers 0 text)

end ObjectIdentifier

end TrustAnchors
