import TrustAnchors.Der.CharacterString
import TrustAnchors.Except
import TrustAnchors.Name.AttributeKey
import TrustAnchors.Name.Basic

/-!
# Strict text of a name

The reader cuts a text at every bare `,` and then at every bare `+`, where a separator is bare
unless one backslash, and not two, stands right before it. Whatever the value of an attribute holds,
it becomes a character string of the type that belongs to the attribute, or the element that is
given in hexadecimal.
-/

namespace TrustAnchors

open Ascii Der

namespace Name.Strict

/-- Puts an octet in front of the first part. -/
def extend (b : UInt8) : List Octets → List Octets
  | [] => [[b]]
  | p :: ps => (b :: p) :: ps

/-- Cuts at bare separators; `x` and `y` are the last two octets before the rest of the text. -/
def splitAfter (separator x y : UInt8) : Octets → List Octets
  | [] => [[]]
  | b :: r =>
    if b = separator ∧ (y ≠ backslash ∨ x = backslash) then [] :: splitAfter separator y b r
    else extend b (splitAfter separator y b r)

def split (separator : UInt8) (text : Octets) : List Octets := splitAfter separator 0 0 text

/-- Octets that stand for themselves behind a backslash. -/
def isEscapable (b : UInt8) : Bool := b ∈ ofString " \"#=\\+,;<>"

/-- Undoes the escapes. One that the text ends in is left out. -/
def unescape : Octets → Except Error Octets
  | [] => .ok []
  | b :: r =>
    if b = backslash then
      match r with
      | [] => .ok []
      | x :: r =>
        if isEscapable x then (x :: ·) <$> unescape r
        else
          match hexValue? x with
          | none => .error .failed
          | some high =>
            match r with
            | [] => .ok []
            | y :: r =>
              match hexValue? y with
              | none => .error .failed
              | some low => ((high * 16 + low) :: ·) <$> unescape r
    else (b :: ·) <$> unescape r

def ofHex : Octets → Except Error Octets
  | [] => .ok []
  | x :: y :: r =>
    match hexValue? x, hexValue? y with
    | some high, some low => ((high * 16 + low) :: ·) <$> ofHex r
    | _, _ => .error .failed
  | [_] => .error .failed

/-- Tag of a plain value. -/
def valueTag (type : ObjectIdentifier) : Tag :=
  if type = AttributeKey.countryName ∨ type = AttributeKey.serialNumber then .printableString
  else if type = AttributeKey.domainComponent then .ia5String
  else .utf8String

def typeOf (key : Octets) : Except Error ObjectIdentifier :=
  match AttributeKey.typeOfName? key <|> ObjectIdentifier.ofDotted? key with
  | some type => .ok type
  | none => .error .malformedIdentifier

def valueOf (type : ObjectIdentifier) : Octets → Except Error Element
  | numberSign :: digits => do Element.decode.decode (← ofHex digits)
  | text => do return ⟨valueTag type, ← unescape text⟩

def readAttribute (text : Octets) : Except Error Attribute := do
  match text.dropWhile (· ≠ equals) with
  | [] => .error .failed
  | _ :: value =>
    let type ← typeOf (text.takeWhile (· ≠ equals))
    return ⟨type, ← valueOf type value⟩

def readRelativeName (text : Octets) : Except Error RelativeName := do
  match RelativeName.ofList? (← (split plus text).mapM readAttribute) with
  | some n => return n
  | none => .error .duplicateElement

end Name.Strict

/-- The name of a strict text. -/
def Name.ofStrict (text : Octets) : Except Error Name := do
  return ⟨(← (Strict.split comma text).mapM Strict.readRelativeName).reverse⟩

end TrustAnchors
