import TrustAnchors.Der.Element

/-!
# Integers

Signed integers of any size are kept as their content octets in the shortest two's complement form;
unsigned ones of a bounded width are numbers.
-/

namespace TrustAnchors.Der

/-- The first nine bits of a two's complement number are not all equal, or there are only eight. -/
def isShortest : Octets → Bool
  | [] => false
  | [_] => true
  | a :: b :: _ => !(a = 0x00 && b < 0x80) && !(a = 0xff && 0x80 ≤ b)

/-- Value of the content of a non-negative integer of at most `k` octets. -/
def unsigned (k : Nat) : Octets → Except Error Nat
  | [] => .error (.notCanonical .integer)
  | [b] => if b < 0x80 then .ok b.toNat else .error (.badValue .integer)
  | a :: b :: r =>
    if a = 0 then
      if b < 0x80 then .error (.notCanonical .integer)
      else if k < (b :: r).length then .error (.badLength .integer)
      else .ok (ofBigEndian (b :: r))
    else if 0x80 ≤ a then .error (.badValue .integer)
    else if k < (a :: b :: r).length then .error (.badLength .integer)
    else .ok (ofBigEndian (a :: b :: r))

/-- Content of a non-negative integer below 2^32. -/
def unsignedContent (n : Nat) : Octets :=
  let digits := bigEndian (width n) n
  if digits.head?.any (0x80 ≤ ·) then 0 :: digits else digits

/-- Content of a non-negative integer of at most `k` octets, of which one more may be a zero. -/
def unsignedValue (k n : Nat) : Decoder Nat := do
  if k + 1 < n then
    Decoder.fail (.notCanonical .integer)
  else
    Decoder.ofExcept (unsigned k (← Decoder.take n))

end TrustAnchors.Der
