import TrustAnchors.Anchor.Builder
import TrustAnchors.Anchor.Report

/-!
# Handles

Anchors for callers that exchange encodings only. Every input can be absent, and absent identity
inputs are refused before anything is decoded.
-/

namespace TrustAnchors

structure Handle where
  anchor : Anchor
  deriving DecidableEq, Repr

namespace Handle

inductive Error where
  | invalidArgument (message : String)
  | encoding (message : String)
  deriving DecidableEq, Repr

namespace Error

def ofAnchorError (e : AnchorError) : Error := invalidArgument e.message

def ofDerError (e : Der.Error) : Error := encoding e.message

def message : Error → String
  | invalidArgument message => message
  | encoding message => "DER encoding failed: " ++ message

end Error

def required {α : Type} (missing : AnchorError) : Option α → Except Error α
  | some a => .ok a
  | none => .error (.ofAnchorError missing)

def ofAttempt (x : Attempt Anchor) : Except Error Handle :=
  match x.outcome with
  | .ok anchor => .ok ⟨anchor⟩
  | .error e => .error (.ofAnchorError e)

/-- Adds constraints to the settings, if there are some. -/
def withConstraints (constraints : Option Octets) (settings : List Builder.Setting) :
    List Builder.Setting :=
  settings ++ (constraints.map Builder.Setting.constraints).toList

def ofCertificateDer (certificate constraints : Option Octets) : Except Error Handle := do
  let der ← required .missingCertificate certificate
  ofAttempt (Anchor.ofCertificateDer constraints der)

def ofNameAndKey (name : Option String) (publicKey constraints : Option Octets) :
    Except Error Handle := do
  let name ← required .missingName name
  let key ← required .missingPublicKey publicKey
  ofAttempt (Builder.ofSettings (withConstraints constraints
    [.name name, .publicKey (.encoded key)])).build

def ofPrincipalDerAndKey (principal publicKey constraints : Option Octets) :
    Except Error Handle := do
  let principal ← required .missingPrincipal principal
  let key ← required .missingPublicKey publicKey
  ofAttempt (Builder.ofSettings (withConstraints constraints
    [.principal (.encoded principal), .publicKey (.encoded key)])).build

/-- An absent part stays absent; a part that is there has to have an encoding. -/
def exported {α : Type} (toDer : α → Except Der.Error Octets) :
    Option α → Except Error (Option Octets)
  | none => .ok none
  | some a => (some <$> toDer a).mapError .ofDerError

variable (h : Handle)

def kind : Kind := h.anchor.kind

def constraints : Option Octets := h.anchor.constraints

def name? : Option String := h.anchor.name?

def principalDer : Except Error (Option Octets) := exported Name.toDer h.anchor.principal?

def publicKeyDer : Except Error (Option Octets) := exported PublicKey.toDer h.anchor.publicKey?

def certificateDer : Except Error (Option Octets) :=
  exported Certificate.toDer h.anchor.certificate?

def describe : String := h.anchor.render

end Handle

end TrustAnchors
