import TrustAnchors.Proofs.Name.LenientInversion
import TrustAnchors.Proofs.Utf8.Boundary

/-!
# The lenient reader as a machine

A step of the machine looks at the octet at the cursor and goes on by one octet or by none. Types
and hexadecimal digits are cut out of the text, which takes two boundaries of it in order
(`slice?`), and the offset of an unexpected octet is the one before the cursor, which takes a cursor
that is not at the start. The machine panics when it finds anything else there.
-/

namespace TrustAnchors.Name.Lexer

open Ascii Lenient

/-- What comes behind some spaces. -/
inductive Part where
  | type
  | value
  | separator
  deriving DecidableEq, Repr

/-- A value as far as it is read. Of a bare one, only the first `significant` octets count: the raw
spaces behind them may be the last octets of the value. -/
inductive Body where
  | quoted (opening : Nat) (octets : Octets)
  | bare (octets : Octets) (significant : Nat)
  deriving DecidableEq, Repr

namespace Body

def isEnd : Body → UInt8 → Bool
  | quoted _ _ => fun b => b = quote
  | bare _ _ => isSeparator

def push : Body → Piece → Body
  | quoted opening octets, p => quoted opening (octets ++ [p.octet])
  | bare octets significant, p =>
    bare (octets ++ [p.octet])
      (if !p.escaped && p.octet = space then significant else octets.length + 1)

@[simp] theorem isEnd_push (body : Body) (p : Piece) : (body.push p).isEnd = body.isEnd := by
  cases body <;> rfl

theorem isEnd_backslash (body : Body) : body.isEnd backslash = false := by
  cases body <;> rfl

end Body

inductive Mode where
  /-- In front of an assignment. -/
  | head
  | spaces (part : Part)
  | type (start : Nat)
  | takeType (start : Nat)
  | value
  | hex (start : Nat)
  | takeHex (start : Nat)
  | content (body : Body)
  | escape (body : Body)
  /-- Behind the first digit of an escape, which stands at the offset. -/
  | escapeDigit (body : Body) (offset : Nat) (high : UInt8)
  | separator
  | unexpected (octet : UInt8)
  | done (result : Except Fault Octets)
  | panicked
  deriving DecidableEq

structure State where
  mode : Mode
  pos : Nat
  out : Octets
  deriving DecidableEq

namespace State

def goto (s : State) (mode : Mode) : State := ⟨mode, s.pos, s.out⟩

def bump (s : State) (mode : Mode) : State := ⟨mode, s.pos + 1, s.out⟩

def write (s : State) (o : Octets) : State := ⟨s.mode, s.pos, s.out ++ o⟩

def fail (s : State) (fault : Fault) : State := s.goto (.done (.error fault))

end State

/-- Octets from one offset to another. -/
def slice (o : Octets) (start stop : Nat) : Octets := (o.drop start).take (stop - start)

def slice? (o : Octets) (start stop : Nat) : Option Octets :=
  if start ≤ stop ∧ Utf8.isBoundaryOf o start ∧ Utf8.isBoundaryOf o stop then
    some (slice o start stop)
  else none

def Part.mode (pos : Nat) : Part → Mode
  | type => .type pos
  | value => .value
  | separator => .separator

/-- Reads an octet that does not end the value. -/
def State.readContent (s : State) (body : Body) (b : UInt8) : State :=
  if b = backslash then s.bump (.escape body) else s.bump (.content (body.push ⟨b, false⟩))

def step (o : Octets) (s : State) : State :=
  match s.mode with
  | .head => s.goto (.spaces .type)
  | .spaces part =>
    if o[s.pos]? = some space then s.bump (.spaces part) else s.goto (part.mode s.pos)
  | .type start =>
    match o[s.pos]? with
    | none => s.fail (.missingEquals start)
    | some b =>
      if b = equals then s.goto (.takeType start)
      else if isSeparator b then s.fail (.missingEquals start)
      else s.bump (.type start)
  | .takeType start =>
    match slice? o start s.pos with
    | none => s.goto .panicked
    | some type =>
      if (trimEnd type).isEmpty then s.bump (.done (.error (.emptyType start)))
      else (s.bump (.spaces .value)).write (dropMark (trimEnd type) ++ [equals])
  | .value =>
    if o[s.pos]? = some numberSign then s.bump (.hex (s.pos + 1))
    else if o[s.pos]? = some quote then s.bump (.content (.quoted s.pos []))
    else s.goto (.content (.bare [] 0))
  | .hex start =>
    if (o[s.pos]?).any isHexDigit then s.bump (.hex start)
    else if s.pos = start then s.fail (.emptyHex start)
    else s.goto (.takeHex start)
  | .takeHex start =>
    match slice? o start s.pos with
    | none => s.goto .panicked
    | some digits => (s.goto (.spaces .separator)).write (numberSign :: digits)
  | .content (.quoted opening octets) =>
    match o[s.pos]? with
    | none => s.fail (.unterminated opening)
    | some b =>
      if b = quote then (s.bump (.spaces .separator)).write (escape octets)
      else s.readContent (.quoted opening octets) b
  | .content (.bare octets significant) =>
    match o[s.pos]? with
    | none => (s.goto (.spaces .separator)).write (escape (octets.take significant))
    | some b =>
      if isSeparator b then
        (s.goto (.spaces .separator)).write (escape (octets.take significant))
      else s.readContent (.bare octets significant) b
  | .escape body =>
    match o[s.pos]? with
    | none => s.fail (.badEscape s.pos)
    | some x =>
      if isEscapable x then s.bump (.content (body.push ⟨x, true⟩))
      else
        match hexValue? x with
        | none => s.bump (.done (.error (.badEscape s.pos)))
        | some high => s.bump (.escapeDigit body s.pos high)
  | .escapeDigit body offset high =>
    match o[s.pos]? with
    | none => s.fail (.badHexEscape offset)
    | some y =>
      match hexValue? y with
      | none => s.bump (.done (.error (.badHexEscape offset)))
      | some low => s.bump (.content (body.push ⟨high * 16 + low, true⟩))
  | .separator =>
    match o[s.pos]? with
    | none => s.goto (.done (.ok s.out))
    | some b =>
      if b = plus then (s.bump .head).write [plus]
      else if isSeparator b then (s.bump .head).write [comma]
      else s.bump (.unexpected b)
  | .unexpected b =>
    if s.pos = 0 then s.goto .panicked else s.fail (.unexpected b (s.pos - 1))
  | .done _ => s
  | .panicked => s

/-- The state after some steps over a text. -/
def run (cs : List Char) : Nat → State
  | 0 => ⟨.head, 0, []⟩
  | n + 1 => step (Utf8.encode cs) (run cs n)

end TrustAnchors.Name.Lexer
