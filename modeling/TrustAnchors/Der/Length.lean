import TrustAnchors.Der.Error

/-!
# Big-endian numbers and length octets

`ofBigEndian_bigEndian_width` says that a number reads back from as many octets as it needs.
-/

namespace TrustAnchors.Der

/-- The low `k` octets of a number, most significant first. -/
def bigEndian : Nat → Nat → Octets
  | 0, _ => []
  | k + 1, n => bigEndian k (n / 256) ++ [UInt8.ofNat n]

def ofBigEndian (o : Octets) : Nat := o.foldl (fun n b => n * 256 + b.toNat) 0

@[simp] theorem length_bigEndian (k n : Nat) : (bigEndian k n).length = k := by
  induction k generalizing n with
  | zero => rfl
  | succ k ih => simp [bigEndian, ih]

@[simp] theorem ofBigEndian_nil : ofBigEndian [] = 0 := rfl

theorem ofBigEndian_concat (o : Octets) (b : UInt8) :
    ofBigEndian (o ++ [b]) = ofBigEndian o * 256 + b.toNat := by
  simp [ofBigEndian]

/-- Octets needed for a number below 2^32. -/
def width (n : Nat) : Nat :=
  if n < 0x100 then 1 else if n < 0x10000 then 2 else if n < 0x1000000 then 3 else 4

theorem ofBigEndian_bigEndian_width {n : Nat} (h : n < 0x100000000) :
    ofBigEndian (bigEndian (width n) n) = n := by
  unfold width
  split
  · simp only [bigEndian, ofBigEndian, List.nil_append, List.foldl, UInt8.toNat_ofNat']
    omega
  · split
    · simp only [bigEndian, ofBigEndian, List.nil_append, List.cons_append, List.foldl,
        UInt8.toNat_ofNat']
      omega
    · split <;>
        simp only [bigEndian, ofBigEndian, List.nil_append, List.cons_append, List.foldl,
          UInt8.toNat_ofNat'] <;>
        omega

/-- The definite length octets of the shortest form. -/
def lengthOctets (n : Nat) : Octets :=
  if n < 0x80 then [UInt8.ofNat n] else UInt8.ofNat (0x80 + width n) :: bigEndian (width n) n

end TrustAnchors.Der
