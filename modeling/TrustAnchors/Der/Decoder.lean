import TrustAnchors.Der.Length
import TrustAnchors.Except

/-!
# Decoders

A decoder reads from a cursor strictly left to right and stops at the first fault. Every element
that is opened (`nested`) has a cursor of its own, which holds exactly the content octets that its
header claims, so nothing read inside an element depends on what follows it.
-/

namespace TrustAnchors.Der

/-- How the octets of a message come to its decoder. -/
inductive Source where
  /-- All octets are at hand. -/
  | memory
  /-- Octets come in order, and none can be passed over. Those from `breaksAt` on cannot be had,
  which shows as soon as those before it have been read. -/
  | stream (breaksAt : Option Nat)
  deriving DecidableEq, Repr

namespace Source

/-- Whether a decoder cannot read on to an offset. -/
def breaks : Source → Nat → Bool
  | memory, _ => false
  | stream breaksAt, offset => breaksAt.any (· ≤ offset)

theorem breaks_eq_false_of_le {s : Source} {m n : Nat} (h : s.breaks n = false) (hm : m ≤ n) :
    s.breaks m = false := by
  cases s with
  | memory => rfl
  | stream breaksAt =>
    cases breaksAt with
    | none => rfl
    | some k =>
      simp only [breaks, Option.any_some, decide_eq_false_iff_not] at h ⊢
      omega

end Source

structure Cursor where
  /-- Number of content octets of the innermost open element. -/
  extent : Nat
  /-- Number of octets of the whole message that have been read. -/
  offset : Nat
  rest : Octets
  source : Source
  deriving DecidableEq, Repr

namespace Cursor

def advance (c : Cursor) (n : Nat) : Cursor :=
  { c with offset := c.offset + n, rest := c.rest.drop n }

@[simp] theorem advance_zero (c : Cursor) : c.advance 0 = c := by simp [advance]

@[simp] theorem advance_advance (c : Cursor) (m n : Nat) :
    (c.advance m).advance n = c.advance (m + n) := by
  simp [advance, Nat.add_assoc]

end Cursor

abbrev Decoder := StateT Cursor (Except Error)

namespace Decoder

variable {α β : Type}

@[simp] theorem pure_apply (a : α) (c : Cursor) : (pure a : Decoder α) c = .ok (a, c) := rfl

theorem bind_eq_ok_iff {d : Decoder α} {f : α → Decoder β} {c c' : Cursor} {b : β} :
    (d >>= f) c = .ok (b, c') ↔ ∃ a c₁, d c = .ok (a, c₁) ∧ f a c₁ = .ok (b, c') := by
  constructor
  · intro h
    obtain ⟨⟨a, c₁⟩, h₁, h₂⟩ := Except.bind_eq_ok_iff.1 h
    exact ⟨a, c₁, h₁, h₂⟩
  · rintro ⟨a, c₁, h₁, h₂⟩
    exact Except.bind_eq_ok_iff.2 ⟨(a, c₁), h₁, h₂⟩

/-- Fails unless the innermost open element still has `n` octets. -/
def require (n : Nat) : Decoder Unit := fun c =>
  if maxLength < c.offset + n then .error .overflow
  else if c.rest.length < n then .error (.incomplete (c.offset + n) (c.offset + c.rest.length))
  else .ok ((), c)

/-- Reads `n` octets of which it is known that the innermost open element has them. -/
def read (n : Nat) : Decoder Octets := fun c =>
  if c.source.breaks (c.offset + n) then .error (.pem .invalidBody)
  else .ok (c.rest.take n, c.advance n)

def take (n : Nat) : Decoder Octets := do
  require n
  read n

def octet : Decoder UInt8 := fun c =>
  match c.rest with
  | [] =>
    .error (if maxLength < c.offset + 1 then .overflow else .incomplete (c.offset + 1) c.offset)
  | b :: _ =>
    if c.source.breaks (c.offset + 1) then .error (.pem .invalidBody) else .ok (b, c.advance 1)

def fail (e : Error) : Decoder α := fun _ => .error e

/-- Goes on with a result that does not depend on the cursor. -/
def ofExcept (result : Except Error α) : Decoder α := fun c => result.map (·, c)

def ofOption (e : Error) : Option α → Decoder α
  | some a => pure a
  | none => fail e

/-- Reads all of the next `n` octets with a decoder for them. -/
def nested (n : Nat) (inside : Decoder α) : Decoder α := fun c => do
  let ((), c) ← require n c
  let (a, inner) ← inside ⟨n, c.offset, c.rest.take n, c.source⟩
  if inner.rest.isEmpty then
    return (a, c.advance n)
  else
    .error (.trailingData (n - inner.rest.length) inner.rest.length)

def tagOfOctet (b : UInt8) : Decoder Tag :=
  if h : Tag.numberBits b < 31 then
    ofOption (.unknownTag b) (Tag.ofOctet? b h)
  else
    fail .invalidTagNumber

/-- Appends `k` more octets to a big-endian number. -/
def lengthDigits : Nat → Nat → Decoder Nat
  | 0, n => pure n
  | k + 1, n => do
    let b ← octet
    lengthDigits k (n * 256 + b.toNat)

/-- Length octets of an element with the given tag, in their only permitted form. -/
def lengthOf (tag : Tag) : Decoder Nat := do
  let b ← octet
  if b < 0x80 then
    return b.toNat
  else if b = 0x80 then
    fail .indefiniteLength
  else if b ≤ 0x84 then
    let n ← lengthDigits (b - 0x80).toNat 0
    if maxLength < n then
      fail .overflow
    else if (lengthOctets n).head? = some b then
      return n
    else
      fail (.badLength tag)
  else
    fail (.badLength tag)

def header : Decoder (Tag × Nat) := do
  let tag ← tagOfOctet (← octet)
  let n ← lengthOf tag
  return (tag, n)

/-- Header of an element that must have the given tag; yields its length. -/
def expect (tag : Tag) : Decoder Nat := do
  let (found, n) ← header
  if found = tag then return n else fail (.unexpectedTag (some tag) found)

/-- Tag of the next element of the innermost open element, if there is one. -/
def peekTag : Decoder (Option Tag) := fun c =>
  match c.rest with
  | [] => .ok (none, c)
  | b :: _ => do
    let (tag, _) ← tagOfOctet b c
    return (some tag, c)

/-- Tag of the next element, of which there must be one. -/
def choice : Decoder Tag := fun c => do
  match ← peekTag c with
  | (some tag, c) => return (tag, c)
  | (none, c) => .error (.incomplete (c.extent + 1) c.extent)

/-- Passes over one element. -/
def skip : Decoder Unit := do
  let (_, n) ← header
  require n
  match (← get).source with
  | .memory => modify (·.advance n)
  | .stream _ => fail .cannotSkip

def sequence (fields : Decoder α) : Decoder α := do
  nested (← expect .sequence) fields

/-- Reads elements until none is left; the first argument bounds their number. -/
def elements (element : Decoder α) : Nat → Decoder (List α)
  | 0 => pure []
  | k + 1 => do
    if (← get).rest.isEmpty then
      return []
    else
      let a ← element
      return a :: (← elements element k)

/-- Every element has two octets at least, so the number of octets bounds the number of elements. -/
def many (element : Decoder α) : Decoder (List α) := do
  elements element (← get).rest.length

/-- Whether the next element has context number `number`; elements with a smaller context number are
passed over. The first argument bounds how many. -/
def seekContext (number : Nat) : Nat → Decoder Bool
  | 0 => pure false
  | k + 1 => do
    match ← peekTag with
    | some (.tagged .contextSpecific _ found) =>
      if found = number then
        return true
      else if found < number then
        skip
        seekContext number k
      else
        return false
    | _ => return false

def atContext (number : Nat) : Decoder Bool := do
  seekContext number (← get).rest.length

/-- An optional field whose own element is wrapped in one with the context number. -/
def explicit? (number : Nat) (inside : Decoder α) : Decoder (Option α) := do
  if ← atContext number then
    match ← header with
    | (.tagged .contextSpecific true _, n) => return some (← nested n inside)
    | (found, _) => fail (.unexpectedTag none found)
  else
    return none

/-- A mandatory field whose own element is wrapped in one with the context number. -/
def explicit (number : Nat) (inside : Decoder α) : Decoder α := do
  match ← header with
  | (.tagged .contextSpecific true found, n) =>
    let a ← nested n inside
    if found = number then return a else fail (.badValue (.context false number))
  | (found, _) => fail (.unexpectedTag none found)

/-- An optional field that has the context number in place of its own tag. -/
def implicit? (number : Nat) (constructed : Bool) (content : Nat → Decoder α) :
    Decoder (Option α) := do
  if ← atContext number then
    let (found, n) ← header
    let a ← content n
    if found.isConstructed = constructed then return some a else fail (.notCanonical found)
  else
    return none

/-- Decodes a whole message, after which nothing may follow. -/
def decode (message : Decoder α) (input : Octets) : Except Error α := do
  if maxLength < input.length then .error .overflow
  let (a, c) ← message ⟨input.length, 0, input, .memory⟩
  if c.rest.isEmpty then
    return a
  else
    .error (.trailingData (input.length - c.rest.length) c.rest.length)

/-- Decodes a message at the start of a stream. What follows the message stays unread. -/
def decodeStream (message : Decoder α) (input : Pem.Stream) : Except Error α := do
  let (a, _) ← message ⟨input.octets.length, 0, input.octets, .stream input.breaksAt⟩
  return a

/-- Decodes the message with the given label in a textual encoding. -/
def decodePem (message : Decoder α) (label : String) (text : Octets) : Except Error α := do
  message.decodeStream (← (Pem.decodeLabelled label text).mapError .pem)

end Decoder

end TrustAnchors.Der
