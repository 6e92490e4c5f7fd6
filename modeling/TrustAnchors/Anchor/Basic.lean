import TrustAnchors.Anchor.Input
import TrustAnchors.Anchor.Journal

/-!
# Trust anchors

An anchor is a certificate, or an authority with its public key, and optional name constraints. The
authority is named by text or by a structured name, and both are kept: the name that a text stands
for, or the text of a name. Constraints are kept as the octets that were given, after a decoder has
accepted them once. They are looked at before the text of a name is.
-/

namespace TrustAnchors

inductive Identity where
  | certificate (certificate : Certificate)
  /-- Text of a name, as given, and the name that it stands for. -/
  | nameAndKey (name : String) (principal : Name) (key : PublicKey)
  /-- The text of a name, and the name, as given. -/
  | principalAndKey (name : String) (principal : Name) (key : PublicKey)
  deriving DecidableEq, Repr

structure Anchor where
  identity : Identity
  constraints : Option Octets
  deriving DecidableEq, Repr

namespace Identity

def kind : Identity → Kind
  | certificate _ => .certificate
  | nameAndKey .. => .nameAndKey
  | principalAndKey .. => .principalAndKey

end Identity

namespace Anchor

def create (identity : Identity) (constraints : Option Octets) : Attempt Anchor := do
  Attempt.log (.anchorCreated identity.kind (constraints.map List.length))
  return ⟨identity, constraints⟩

def ofCertificate (decoder : DecoderInForce) (constraints : Option Octets)
    (certificate : Certificate) : Attempt Anchor := do
  checkConstraints decoder constraints
  create (.certificate certificate) constraints

def ofNameAndKey (decoder : DecoderInForce) (constraints : Option Octets) (name : String)
    (key : PublicKey) : Attempt Anchor := do
  checkConstraints decoder constraints
  if name.isEmpty then Attempt.fail .emptyName
  let principal ← Attempt.ofExcept (readPrincipalText name)
  create (.nameAndKey name principal key) constraints

def ofPrincipalAndKey (decoder : DecoderInForce) (constraints : Option Octets)
    (principal : Name) (key : PublicKey) : Attempt Anchor := do
  checkConstraints decoder constraints
  create (.principalAndKey principal.text principal key) constraints

def ofCertificateDer (constraints : Option Octets) (der : Octets) : Attempt Anchor := do
  ofCertificate .standard constraints (← Attempt.ofExcept (readCertificate der))

def ofCertificatePem (constraints : Option Octets) (text : Octets) : Attempt Anchor := do
  ofCertificate .standard constraints (← Attempt.ofExcept (readCertificatePem text))

variable (a : Anchor)

def kind : Kind := a.identity.kind

def hasConstraints : Bool := a.constraints.isSome

/-- Asks the standard decoder about the constraints, if there are some. -/
def consultStandard : Attempt (Option NameConstraints) :=
  match a.constraints with
  | none => return none
  | some der => return (← Attempt.consult .standard der).toOption

/-- The constraints, as far as the standard decoder accepts them. -/
def decodeConstraints : Option NameConstraints := a.consultStandard.outcome.toOption.join

theorem decodeConstraints_eq :
    a.decodeConstraints = a.constraints.bind fun der => (NameConstraints.ofDer der).toOption := by
  rw [decodeConstraints, consultStandard]
  cases a.constraints <;> rfl

def certificate? : Option Certificate :=
  match a.identity with
  | .certificate certificate => some certificate
  | .nameAndKey .. | .principalAndKey .. => none

def principal? : Option Name :=
  match a.identity with
  | .certificate _ => none
  | .nameAndKey _ principal _ | .principalAndKey _ principal _ => some principal

def name? : Option String :=
  match a.identity with
  | .certificate _ => none
  | .nameAndKey name _ _ | .principalAndKey name _ _ => some name

def publicKey? : Option PublicKey :=
  match a.identity with
  | .certificate _ => none
  | .nameAndKey _ _ key | .principalAndKey _ _ key => some key

/-- The name that the anchor vouches for. -/
def subject : Name :=
  match a.identity with
  | .certificate certificate => certificate.body.subject
  | .nameAndKey _ principal _ | .principalAndKey _ principal _ => principal

/-- The key that the anchor vouches with. -/
def subjectKey : PublicKey :=
  match a.identity with
  | .certificate certificate => certificate.body.publicKey
  | .nameAndKey _ _ key | .principalAndKey _ _ key => key

end Anchor

end TrustAnchors
