import TrustAnchors.Ascii

/-!
# UTF-8

`encode` and `decode` between characters and octets. Decoding stops at the first octet that is not
part of a well-formed sequence and says how many octets it covers, or that the octets end early.
-/

namespace TrustAnchors.Utf8

inductive Fault where
  | invalid (length index : Nat)
  | incomplete (index : Nat)
  deriving DecidableEq, Repr

def Fault.message : Fault → String
  | invalid length index => s!"invalid utf-8 sequence of {length} bytes from index {index}"
  | incomplete index => s!"incomplete utf-8 byte sequence from index {index}"

def encode (cs : List Char) : Octets := cs.flatMap String.utf8EncodeChar

@[simp] theorem encode_nil : encode [] = [] := rfl

@[simp] theorem encode_cons (c : Char) (cs : List Char) :
    encode (c :: cs) = String.utf8EncodeChar c ++ encode cs := rfl

@[simp] theorem encode_append (cs ds : List Char) : encode (cs ++ ds) = encode cs ++ encode ds := by
  simp [encode]

def isContinuation (b : UInt8) : Bool := 0x80 ≤ b && b ≤ 0xbf

/-- Second octets that may follow the first octet `a`. Behind the octet `low` they start at `least`,
and behind the octet `high` they end at `most`. -/
def continues (low least high most a b : UInt8) : Bool :=
  if a = low then least ≤ b && b ≤ 0xbf
  else if a = high then 0x80 ≤ b && b ≤ most
  else isContinuation b

/-- In three octets there is no overlong form and no surrogate. -/
def continuesThree : UInt8 → UInt8 → Bool := continues 0xe0 0xa0 0xed 0x9f

/-- In four octets there is no overlong form and nothing above U+10FFFF. -/
def continuesFour : UInt8 → UInt8 → Bool := continues 0xf0 0x90 0xf4 0x8f

def payload (b : UInt8) : Nat := (b % 64).toNat

/-- Decodes octets of which the first has the given index in the whole string. -/
def decodeFrom (i : Nat) : Octets → Except Fault (List Char)
  | [] => .ok []
  | a :: r =>
    if a < 0x80 then (Char.ofUInt8 a :: ·) <$> decodeFrom (i + 1) r
    else if a < 0xc2 then .error (.invalid 1 i)
    else if a < 0xe0 then
      match r with
      | [] => .error (.incomplete i)
      | b :: r =>
        if isContinuation b then
          (Char.ofNat ((a % 32).toNat * 64 + payload b) :: ·) <$> decodeFrom (i + 2) r
        else .error (.invalid 1 i)
    else if a < 0xf0 then
      match r with
      | [] => .error (.incomplete i)
      | b :: r =>
        if continuesThree a b then
          match r with
          | [] => .error (.incomplete i)
          | c :: r =>
            if isContinuation c then
              (Char.ofNat (((a % 16).toNat * 64 + payload b) * 64 + payload c) :: ·)
                <$> decodeFrom (i + 3) r
            else .error (.invalid 2 i)
        else .error (.invalid 1 i)
    else if a < 0xf5 then
      match r with
      | [] => .error (.incomplete i)
      | b :: r =>
        if continuesFour a b then
          match r with
          | [] => .error (.incomplete i)
          | c :: r =>
            if isContinuation c then
              match r with
              | [] => .error (.incomplete i)
              | d :: r =>
                if isContinuation d then
                  (Char.ofNat ((((a % 8).toNat * 64 + payload b) * 64 + payload c) * 64 + payload d)
                    :: ·) <$> decodeFrom (i + 4) r
                else .error (.invalid 3 i)
            else .error (.invalid 2 i)
        else .error (.invalid 1 i)
    else .error (.invalid 1 i)

def decode (o : Octets) : Except Fault (List Char) := decodeFrom 0 o

@[simp] theorem decode_nil : decode [] = .ok [] := rfl

end TrustAnchors.Utf8
