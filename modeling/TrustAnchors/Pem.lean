import TrustAnchors.Base64
import TrustAnchors.Except

/-!
# Textual encoding

A message between two boundary lines with the same label. Octets before the first boundary are
passed over. `decode` reads a text, and `encode` writes one in lines of 64 digits. The content is a
stream: it is decoded a portion at a time, and a fault of a digit is found with its portion.
-/

namespace TrustAnchors.Pem

open Ascii

inductive Error where
  | preamble
  | label
  | preBoundary
  | postBoundary
  | emptyBody
  | invalidBody
  /-- The label is not the one that is wanted. -/
  | unexpectedLabel (expected : String)
  deriving DecidableEq, Repr

def Error.message : Error → String
  | preamble => "PEM error: PEM preamble contains invalid data (NUL byte)"
  | label => "PEM error: PEM type label invalid"
  | preBoundary => "PEM error: PEM error in pre-encapsulation boundary"
  | postBoundary => "PEM error: PEM error in post-encapsulation boundary"
  | emptyBody => "PEM error: PEM Base64 error: invalid Base64 length"
  | invalidBody => "PEM error: PEM Base64 error: invalid Base64 encoding"
  | unexpectedLabel expected =>
    s!"PEM error: unexpected PEM type label: expecting \"{expected}\""

/-- The content of a message, to be read in order. -/
structure Stream where
  octets : Octets
  /-- Offset of the first portion that cannot be decoded; the octets from there on are not known. -/
  breaksAt : Option Nat
  deriving DecidableEq, Repr

structure Message where
  label : Octets
  content : Stream
  deriving DecidableEq, Repr

def dashes : Octets := List.replicate 5 dash

def beginMark : Octets := dashes ++ ofString "BEGIN "

def endMark : Octets := dashes ++ ofString "END "

/-- What follows `start`, if the octets start with it. -/
def dropStart? (start o : Octets) : Option Octets :=
  if start.isPrefixOf o then some (o.drop start.length) else none

/-- What precedes `final`, if the octets end with it. -/
def dropFinal? (final o : Octets) : Option Octets :=
  if final.isSuffixOf o then some (o.take (o.length - final.length)) else none

def dropLineStart? : Octets → Option Octets
  | carriageReturn :: lineFeed :: r => some r
  | carriageReturn :: r => some r
  | lineFeed :: r => some r
  | _ => none

def dropLineEnd? (o : Octets) : Option Octets :=
  dropFinal? [carriageReturn, lineFeed] o <|> dropFinal? [lineFeed] o <|>
    dropFinal? [carriageReturn] o

/-- What follows the first beginning of a boundary at the start of a line; no null octet precedes
it. -/
def searchBegin : Octets → Except Error Octets
  | [] => .error .preamble
  | b :: r =>
    if b = 0 then .error .preamble
    else
      match if b = lineFeed then dropStart? beginMark r else none with
      | some o => .ok o
      | none => searchBegin r

def afterBegin (o : Octets) : Except Error Octets :=
  match dropStart? beginMark o with
  | some r => .ok r
  | none => searchBegin o

def isLabelOctet (b : UInt8) : Bool := 0x21 ≤ b && b ≤ 0x7e && b ≠ dash

/-- Label octets, with single spaces or tabs behind them. -/
def labelRun (afterLabelOctet : Bool) : Octets → Octets
  | [] => []
  | b :: r =>
    if isLabelOctet b then b :: labelRun true r
    else if afterLabelOctet && (b = space || b = tab) then b :: labelRun false r
    else []

/-- The label and what follows the line with it. -/
def splitLabel (o : Octets) : Except Error (Octets × Octets) :=
  match dropStart? dashes (o.drop (labelRun false o).length) >>= dropLineStart? with
  | some r => .ok (labelRun false o, r)
  | none => .error .label

/-- What precedes the last boundary. -/
def beforeEnd (label o : Octets) : Except Error Octets :=
  match dropFinal? dashes ((dropLineEnd? o).getD o) with
  | none => .error .preBoundary
  | some r =>
    match dropFinal? label r >>= dropFinal? endMark >>= dropLineEnd? with
    | none => .error .postBoundary
    | some body => .ok body

def lineLength : Nat := 64

/-- Joins lines of 64 octets, of which the last one can be shorter and can have an end of line;
tells whether a blank line follows them. The first argument bounds the number of lines. -/
def joinLines : Nat → Octets → Option (Octets × Bool)
  | 0, _ => some ([], false)
  | k + 1, o =>
    if o.length ≤ lineLength then
      let line := (dropLineEnd? o).getD o
      some (line, line.isEmpty && !o.isEmpty)
    else do
      let (lines, blank) ← joinLines k (← dropLineStart? (o.drop lineLength))
      return (o.take lineLength ++ lines, blank)

/-- Number of octets that are decoded at a time. -/
def portion : Nat := 256

/-- The lines have to be right, and so has the last group of digits. It is not known to be the last
one where a blank line follows. -/
def decodeBody (body : Octets) : Except Error Stream :=
  match joinLines body.length body with
  | none => .error .invalidBody
  | some ([], _) => .error .emptyBody
  | some (digits, blank) =>
    match Base64.decode (!blank) digits with
    | none => .error .invalidBody
    | some d => .ok ⟨d.octets, d.unknownFrom.map fun i => i / portion * portion⟩

def decode (text : Octets) : Except Error Message := do
  let (label, r) ← splitLabel (← afterBegin text)
  return ⟨label, ← decodeBody (← beforeEnd label r)⟩

/-- The content of the message with the given label. -/
def decodeLabelled (label : String) (text : Octets) : Except Error Stream := do
  let message ← decode text
  if message.label = ofString label then return message.content
  else .error (.unexpectedLabel label)

/-- Lines of 64 digits, each with an end of line. -/
def lines (lineEnd : Octets) : Octets → Octets
  | [] => []
  | b :: r =>
    (b :: r).take lineLength ++ lineEnd ++ lines lineEnd ((b :: r).drop lineLength)
termination_by digits => digits.length
decreasing_by
  simp only [List.length_drop, List.length_cons, lineLength]
  omega

def encode (lineEnd label content : Octets) : Octets :=
  beginMark ++ label ++ dashes ++ lineEnd ++ lines lineEnd (Base64.encode content) ++
    endMark ++ label ++ dashes ++ lineEnd

end TrustAnchors.Pem
