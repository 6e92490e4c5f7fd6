import TrustAnchors.Anchor.Error
import TrustAnchors.NameConstraints

/-!
# Attempts and their journal

An attempt to build an anchor has an outcome and a journal: whose decoder of constraints was asked
about which octets, and which events were logged, in order. What an attempt does before it fails
stays in the journal. A decoder is asked by `Attempt.consult` only, which records the question with
the answer that it gets.
-/

namespace TrustAnchors

/-- How an anchor was identified when it was built. -/
inductive Kind where
  | certificate
  | nameAndKey
  | principalAndKey
  deriving DecidableEq, Repr

def Kind.text : Kind → String
  | certificate => "certificate"
  | nameAndKey => "name_and_key"
  | principalAndKey => "principal_and_key"

inductive Event where
  | constraintsDecoded (permitted excluded : Nat)
  | anchorCreated (kind : Kind) (constraintsLength : Option Nat)
  deriving DecidableEq, Repr

namespace Event

inductive Level where
  | trace
  | debug
  deriving DecidableEq, Repr

def level : Event → Level
  | constraintsDecoded .. => .trace
  | anchorCreated .. => .debug

def message : Event → String
  | constraintsDecoded .. => "name constraints decoded"
  | anchorCreated .. => "trust anchor created"

end Event

/-- A decoder of name constraints that a caller can bring. -/
abbrev ConstraintsDecoder := Octets → Except Der.Error NameConstraints

/-- Whose decoder it is. -/
inductive DecoderOrigin where
  | standard
  | caller
  deriving DecidableEq, Repr

/-- The standard decoder, or one that the caller has brought. -/
inductive DecoderInForce where
  | standard
  | brought (decode : ConstraintsDecoder)

namespace DecoderInForce

def origin : DecoderInForce → DecoderOrigin
  | standard => .standard
  | brought _ => .caller

def decode : DecoderInForce → ConstraintsDecoder
  | standard => NameConstraints.ofDer
  | brought decode => decode

/-- The standard decoder stands in for one that was not brought. -/
def ofOption : Option ConstraintsDecoder → DecoderInForce
  | none => standard
  | some decode => brought decode

instance : Coe ConstraintsDecoder DecoderInForce := ⟨brought⟩

@[simp] theorem decode_standard : standard.decode = NameConstraints.ofDer := rfl

@[simp] theorem decode_brought (d : ConstraintsDecoder) : (brought d).decode = d := rfl

@[simp] theorem origin_brought (d : ConstraintsDecoder) : (brought d).origin = .caller := rfl

theorem decode_ofOption (chosen : Option ConstraintsDecoder) :
    (ofOption chosen).decode = chosen.getD NameConstraints.ofDer := by
  cases chosen <;> rfl

end DecoderInForce

/-- A decoder of this origin was asked about the octets. -/
structure Consultation where
  origin : DecoderOrigin
  der : Octets
  deriving DecidableEq, Repr

inductive JournalEntry where
  | consulted (consultation : Consultation)
  | logged (event : Event)
  deriving DecidableEq, Repr

structure Attempt (α : Type) where
  outcome : Except AnchorError α
  journal : List JournalEntry

namespace Attempt

variable {α β : Type}

def ofExcept (outcome : Except AnchorError α) : Attempt α := ⟨outcome, []⟩

def fail (e : AnchorError) : Attempt α := ofExcept (.error e)

/-- Goes on with the value of an attempt, if it has one. -/
def andThen (x : Attempt α) (f : α → Attempt β) : Attempt β :=
  match x.outcome with
  | .ok a => ⟨(f a).outcome, x.journal ++ (f a).journal⟩
  | .error e => ⟨.error e, x.journal⟩

instance : Monad Attempt where
  pure a := ofExcept (.ok a)
  bind := andThen

def log (event : Event) : Attempt Unit := ⟨.ok (), [.logged event]⟩

/-- Asks a decoder. Its answer decides nothing yet. -/
def consult (decoder : DecoderInForce) (der : Octets) :
    Attempt (Except Der.Error NameConstraints) :=
  ⟨.ok (decoder.decode der), [.consulted ⟨decoder.origin, der⟩]⟩

/-- The logged events of an attempt. -/
def events (x : Attempt α) : List Event :=
  x.journal.filterMap fun
    | .logged event => some event
    | .consulted _ => none

/-- Which decoders were asked about which octets. -/
def consultations (x : Attempt α) : List Consultation :=
  x.journal.filterMap fun
    | .consulted consultation => some consultation
    | .logged _ => none

end Attempt

/-- Asks a decoder about the given constraints, once. -/
def checkConstraints (decoder : DecoderInForce) : Option Octets → Attempt Unit
  | none => pure ()
  | some der => do
    match ← Attempt.consult decoder der with
    | .ok c =>
      Attempt.log
        (.constraintsDecoded (c.permitted.elim 0 List.length) (c.excluded.elim 0 List.length))
    | .error e => Attempt.fail (.invalidNameConstraints e.message)

end TrustAnchors
