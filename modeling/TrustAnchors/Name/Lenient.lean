import TrustAnchors.Ascii
import TrustAnchors.Except

/-!
# Lenient text of a name

The reader accepts spaces around `=`, `,` and `+`, a semicolon in place of a comma, values in quotes
and the mark `OID.` before a dotted type. `normalize` writes what it read as strict text. The reader
works on octets, and every fault names an offset in octets.
-/

namespace TrustAnchors.Name.Lenient

open Ascii

inductive Fault where
  | unexpected (octet : UInt8) (offset : Nat)
  | missingEquals (offset : Nat)
  | emptyType (offset : Nat)
  | emptyHex (offset : Nat)
  | unterminated (offset : Nat)
  | badHexEscape (offset : Nat)
  | badEscape (offset : Nat)
  deriving DecidableEq, Repr

/-- An unexpected octet is shown as the character with its number. -/
def Fault.message : Fault → String
  | unexpected octet offset =>
    let c := Char.ofUInt8 octet
    s!"unexpected '{c}' at offset {offset}"
  | missingEquals offset => s!"missing '=' after attribute type at offset {offset}"
  | emptyType offset => s!"empty attribute type at offset {offset}"
  | emptyHex offset => s!"empty hex value at offset {offset}"
  | unterminated offset => s!"unterminated quoted value at offset {offset}"
  | badHexEscape offset => s!"bad hex escape at offset {offset}"
  | badEscape offset => s!"bad escape at offset {offset}"

inductive Value where
  /-- Hexadecimal digits as they stand in the text. -/
  | hex (digits : Octets)
  | plain (octets : Octets)
  deriving DecidableEq, Repr

structure Assignment where
  type : Octets
  value : Value
  deriving DecidableEq, Repr

structure Cursor where
  offset : Nat
  rest : Octets
  deriving DecidableEq, Repr

namespace Cursor

def advance (c : Cursor) (n : Nat) : Cursor := ⟨c.offset + n, c.rest.drop n⟩

def skipSpaces (c : Cursor) : Cursor := c.advance (c.rest.takeWhile (· = space)).length

@[simp] theorem length_rest_advance (c : Cursor) (n : Nat) :
    (c.advance n).rest.length = c.rest.length - n := by simp [advance]

theorem length_rest_skipSpaces_le (c : Cursor) : c.skipSpaces.rest.length ≤ c.rest.length := by
  simp [skipSpaces]

end Cursor

def isSeparator (b : UInt8) : Bool := b = comma || b = plus || b = semicolon

/-- Octets that stand for themselves behind a backslash. -/
def isEscapable (b : UInt8) : Bool := b ∈ Ascii.ofString ",=+<>#;\"\\ "

def trimEnd (o : Octets) : Octets := (o.reverse.dropWhile (· = space)).reverse

def dropMark (type : Octets) : Octets :=
  if (ofString "OID.").isPrefixOf type || (ofString "oid.").isPrefixOf type then type.drop 4
  else type

/-- The octets of a type and the spaces after it. -/
def typeRun (o : Octets) : Octets := o.takeWhile fun b => !(b = equals || isSeparator b)

/-- The type, up to and with the `=` after it. -/
def readType (c : Cursor) : Except Fault (Octets × Cursor) :=
  match c.rest.drop (typeRun c.rest).length with
  | equals :: r =>
    if (trimEnd (typeRun c.rest)).isEmpty then .error (.emptyType c.offset)
    else .ok (dropMark (trimEnd (typeRun c.rest)), ⟨c.offset + (typeRun c.rest).length + 1, r⟩)
  | _ => .error (.missingEquals c.offset)

/-- An octet of a value, written as it is or with an escape. -/
structure Piece where
  octet : UInt8
  escaped : Bool
  deriving DecidableEq, Repr

/-- Reads pieces of a value up to an octet that ends it, or up to the end of the text. -/
def readPieces (isEnd : UInt8 → Bool) (offset : Nat) : Octets → Except Fault (List Piece × Cursor)
  | [] => .ok ([], ⟨offset, []⟩)
  | b :: r =>
    if isEnd b then .ok ([], ⟨offset, b :: r⟩)
    else if b = backslash then
      match r with
      | [] => .error (.badEscape (offset + 1))
      | x :: r =>
        if isEscapable x then Prod.map (⟨x, true⟩ :: ·) id <$> readPieces isEnd (offset + 2) r
        else
          match hexValue? x with
          | none => .error (.badEscape (offset + 1))
          | some high =>
            match r with
            | [] => .error (.badHexEscape (offset + 1))
            | y :: r =>
              match hexValue? y with
              | none => .error (.badHexEscape (offset + 1))
              | some low =>
                Prod.map (⟨high * 16 + low, true⟩ :: ·) id <$> readPieces isEnd (offset + 3) r
    else Prod.map (⟨b, false⟩ :: ·) id <$> readPieces isEnd (offset + 1) r

theorem length_rest_readPieces_le {isEnd : UInt8 → Bool} {offset : Nat} {o : Octets}
    {ps : List Piece} {c : Cursor} (h : readPieces isEnd offset o = .ok (ps, c)) :
    c.rest.length ≤ o.length := by
  fun_induction readPieces isEnd offset o generalizing ps c <;> grind [Except.map_eq_ok_iff]

/-- A raw space at the end does not belong to the value. -/
def unquoted (ps : List Piece) : Octets :=
  ((ps.reverse.dropWhile fun p => !p.escaped && p.octet = space).reverse).map Piece.octet

/-- A value in hexadecimal, from the digits on. -/
def readHex (c : Cursor) : Except Fault (Value × Cursor) :=
  if (c.rest.takeWhile isHexDigit).isEmpty then .error (.emptyHex c.offset)
  else .ok (.hex (c.rest.takeWhile isHexDigit), c.advance (c.rest.takeWhile isHexDigit).length)

/-- A value in quotes, from behind the first quote on. -/
def readQuoted (c : Cursor) : Except Fault (Value × Cursor) := do
  let (ps, after) ← readPieces (· = quote) c.offset c.rest
  match after.rest with
  | [] => .error (.unterminated (c.offset - 1))
  | _ :: r => return (.plain (ps.map Piece.octet), ⟨after.offset + 1, r⟩)

def readUnquoted (c : Cursor) : Except Fault (Value × Cursor) := do
  let (ps, after) ← readPieces isSeparator c.offset c.rest
  return (.plain (unquoted ps), after)

def readValue (c : Cursor) : Except Fault (Value × Cursor) :=
  match c.rest with
  | numberSign :: r => readHex ⟨c.offset + 1, r⟩
  | quote :: r => readQuoted ⟨c.offset + 1, r⟩
  | _ => readUnquoted c

/-- An assignment with the spaces around its parts. -/
def readAssignment (c : Cursor) : Except Fault (Assignment × Cursor) := do
  let (type, c) ← readType c.skipSpaces
  let (value, c) ← readValue c.skipSpaces
  return (⟨type, value⟩, c.skipSpaces)

theorem length_rest_readType_lt {c c' : Cursor} {type : Octets} (h : readType c = .ok (type, c')) :
    c'.rest.length < c.rest.length := by
  unfold readType at h
  split at h
  · next hr =>
    have hl := congrArg List.length hr
    split at h
    · contradiction
    · cases h
      simp only [List.length_drop, List.length_cons] at hl ⊢
      omega
  · contradiction

theorem length_rest_readValue_le {c c' : Cursor} {value : Value}
    (h : readValue c = .ok (value, c')) : c'.rest.length ≤ c.rest.length := by
  unfold readValue at h
  split at h
  · next hr =>
    unfold readHex at h
    split at h
    · contradiction
    · cases h
      simp only [Cursor.length_rest_advance, hr, List.length_cons]
      omega
  · next hr =>
    obtain ⟨⟨ps, after⟩, hp, h⟩ := Except.bind_eq_ok_iff.1 h
    have hl := length_rest_readPieces_le hp
    rcases after with ⟨offset, _ | ⟨b, r⟩⟩
    · contradiction
    · cases h
      simp only [hr, List.length_cons] at hl ⊢
      omega
  · obtain ⟨⟨ps, after⟩, hp, h⟩ := Except.bind_eq_ok_iff.1 h
    cases h
    exact length_rest_readPieces_le hp

theorem length_rest_readAssignment_lt {c c' : Cursor} {a : Assignment}
    (h : readAssignment c = .ok (a, c')) : c'.rest.length < c.rest.length := by
  obtain ⟨⟨type, c₁⟩, h₁, h⟩ := Except.bind_eq_ok_iff.1 h
  obtain ⟨⟨value, c₂⟩, h₂, h⟩ := Except.bind_eq_ok_iff.1 h
  cases h
  calc c₂.skipSpaces.rest.length
    _ ≤ c₂.rest.length := c₂.length_rest_skipSpaces_le
    _ ≤ c₁.skipSpaces.rest.length := length_rest_readValue_le h₂
    _ ≤ c₁.rest.length := c₁.length_rest_skipSpaces_le
    _ < c.skipSpaces.rest.length := length_rest_readType_lt h₁
    _ ≤ c.rest.length := c.length_rest_skipSpaces_le

/-- Adds an assignment to the first relative name. -/
def join (a : Assignment) : List (List Assignment) → List (List Assignment)
  | [] => [[a]]
  | g :: gs => (a :: g) :: gs

/-- The assignments of each relative name, in the order of the text. -/
def readRelatives (c : Cursor) : Except Fault (List (List Assignment)) :=
  match h : readAssignment c with
  | .error e => .error e
  | .ok (a, after) =>
    match hr : after.rest with
    | [] => .ok [[a]]
    | b :: r =>
      have : r.length < c.rest.length := by
        have := length_rest_readAssignment_lt h
        simp only [hr, List.length_cons] at this
        omega
      if b = plus then join a <$> readRelatives ⟨after.offset + 1, r⟩
      else if isSeparator b then ([a] :: ·) <$> readRelatives ⟨after.offset + 1, r⟩
      else .error (.unexpected b after.offset)
termination_by c.rest.length

def parse (text : Octets) : Except Fault (List (List Assignment)) := readRelatives ⟨0, text⟩

/-- Octets that strict text writes behind a backslash wherever they stand. -/
def isSpecial (b : UInt8) : Bool := b ∈ Ascii.ofString ",+;\"<>="

/-- A backslash is written in hexadecimal, so that it never stands before a separator. -/
def escapeOctet (b : UInt8) : Octets :=
  if isSpecial b then [backslash, b]
  else if 0x20 ≤ b && b ≤ 0x7e && b ≠ backslash then [b]
  else backslash :: hexPair b

def escapeRest : Octets → Octets
  | [] => []
  | [b] => if b = space then [backslash, b] else escapeOctet b
  | b :: r => escapeOctet b ++ escapeRest r

def escape : Octets → Octets
  | [] => []
  | b :: r => (if b = space ∨ b = numberSign then [backslash, b] else escapeOctet b) ++ escapeRest r

def Value.render : Value → Octets
  | hex digits => numberSign :: digits
  | plain octets => escape octets

def Assignment.render (a : Assignment) : Octets := a.type ++ equals :: a.value.render

def render (relatives : List (List Assignment)) : Octets :=
  [comma].intercalate (relatives.map fun as => [plus].intercalate (as.map Assignment.render))

/-- Strict text for lenient text. -/
def normalize (text : Octets) : Except Fault Octets := render <$> parse text

end TrustAnchors.Name.Lenient
