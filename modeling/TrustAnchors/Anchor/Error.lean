/-!
# Reasons for which an anchor cannot be built
-/

namespace TrustAnchors

inductive AnchorError where
  | missingCertificate
  | missingName
  | missingPrincipal
  | missingPublicKey
  | missingIdentity
  | conflictingIdentity (detail : String)
  | emptyName
  | invalidName (detail : String)
  | invalidNameConstraints (detail : String)
  | invalidCertificate (detail : String)
  | invalidPublicKey (detail : String)
  deriving DecidableEq, Repr

def AnchorError.message : AnchorError → String
  | missingCertificate => "trusted certificate is required"
  | missingName => "authority name is required"
  | missingPrincipal => "authority principal is required"
  | missingPublicKey => "authority public key is required"
  | missingIdentity => "one of certificate, authority name or authority principal is required"
  | conflictingIdentity detail => "conflicting identity inputs: " ++ detail
  | emptyName => "authority name must not be empty"
  | invalidName detail => "invalid authority name: " ++ detail
  | invalidNameConstraints detail => "invalid name constraints: " ++ detail
  | invalidCertificate detail => "invalid certificate: " ++ detail
  | invalidPublicKey detail => "invalid public key: " ++ detail

end TrustAnchors
