import TrustAnchors.Anchor.Basic
import TrustAnchors.Text.Quoted

/-!
# Building an anchor from optional inputs

A builder holds six inputs, each of which can be absent. Setting an input again replaces it.
-/

namespace TrustAnchors

/-- An input that is structured already or still encoded. -/
inductive Source (α : Type) where
  | parsed (value : α)
  | encoded (der : Octets)

def Source.resolve {α : Type} (read : Octets → Except AnchorError α) :
    Source α → Except AnchorError α
  | parsed value => .ok value
  | encoded der => read der

structure Builder where
  certificate : Option (Source Certificate)
  name : Option String
  principal : Option (Source Name)
  publicKey : Option (Source PublicKey)
  constraints : Option Octets
  decoder : Option ConstraintsDecoder

namespace Builder

def empty : Builder := ⟨none, none, none, none, none, none⟩

inductive Setting where
  | certificate (input : Source Certificate)
  | name (input : String)
  | principal (input : Source Name)
  | publicKey (input : Source PublicKey)
  | constraints (input : Octets)
  | decoder (input : ConstraintsDecoder)

def set (b : Builder) : Setting → Builder
  | .certificate input => { b with certificate := some input }
  | .name input => { b with name := some input }
  | .principal input => { b with principal := some input }
  | .publicKey input => { b with publicKey := some input }
  | .constraints input => { b with constraints := some input }
  | .decoder input => { b with decoder := some input }

def ofSettings (settings : List Setting) : Builder := settings.foldl set empty

variable (b : Builder)

def decoderInForce : DecoderInForce := .ofOption b.decoder

theorem decode_decoderInForce :
    b.decoderInForce.decode = b.decoder.getD NameConstraints.ofDer :=
  DecoderInForce.decode_ofOption b.decoder

def requiredKey : Except AnchorError (Source PublicKey) :=
  match b.publicKey with
  | some input => .ok input
  | none => .error .missingPublicKey

def build : Attempt Anchor :=
  match b.certificate, b.name, b.principal with
  | some _, some _, _ | some _, _, some _ =>
    Attempt.fail (.conflictingIdentity
      "certificate given together with an authority name or principal")
  | some certificate, none, none => do
    if b.publicKey.isSome then
      Attempt.fail (.conflictingIdentity "certificate given together with a separate public key")
    let certificate ← Attempt.ofExcept (certificate.resolve readCertificate)
    Anchor.ofCertificate b.decoderInForce b.constraints certificate
  | none, some _, some _ =>
    Attempt.fail (.conflictingIdentity
      "authority name given together with an authority principal")
  | none, none, some principal => do
    let key ← Attempt.ofExcept b.requiredKey
    let principal ← Attempt.ofExcept (principal.resolve readPrincipal)
    let key ← Attempt.ofExcept (key.resolve readPublicKey)
    Anchor.ofPrincipalAndKey b.decoderInForce b.constraints principal key
  | none, some name, none => do
    let key ← Attempt.ofExcept b.requiredKey
    let key ← Attempt.ofExcept (key.resolve readPublicKey)
    Anchor.ofNameAndKey b.decoderInForce b.constraints name key
  | none, none, none => Attempt.fail .missingIdentity

def optionText (text : Option String) : String :=
  match text with
  | none => "None"
  | some s => "Some(" ++ s ++ ")"

def flagText (flag : Bool) : String := if flag then "true" else "false"

/-- Which inputs are set; of the name the text, and of the constraints the length. -/
def describe : String :=
  let fields := [
    ("certificate", flagText b.certificate.isSome),
    ("authority_name", optionText (b.name.map Text.quote)),
    ("authority_principal", flagText b.principal.isSome),
    ("public_key", flagText b.publicKey.isSome),
    ("name_constraints_len", optionText (b.constraints.map fun der => Nat.repr der.length)),
    ("custom_decoder", flagText b.decoder.isSome)]
  "TrustAnchorBuilder \x7b " ++ ", ".intercalate (fields.map fun f => f.1 ++ ": " ++ f.2) ++ " \x7d"

end Builder

end TrustAnchors
