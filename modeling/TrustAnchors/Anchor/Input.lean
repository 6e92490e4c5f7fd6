import TrustAnchors.Anchor.Error
import TrustAnchors.Certificate
import TrustAnchors.Name.Text

/-!
# Encoded inputs of an anchor

An empty input counts as a missing one.
-/

namespace TrustAnchors

open Der

/-- Decodes octets of which there must be some. -/
def readDer {α : Type} (decoder : Decoder α) (missing : AnchorError)
    (invalid : String → AnchorError) (der : Octets) : Except AnchorError α :=
  if der.isEmpty then .error missing else (decoder.decode der).mapError (invalid ·.message)

def readCertificate : Octets → Except AnchorError Certificate :=
  readDer Certificate.decode .missingCertificate .invalidCertificate

def readPublicKey : Octets → Except AnchorError PublicKey :=
  readDer PublicKey.decode .missingPublicKey .invalidPublicKey

def readPrincipal : Octets → Except AnchorError Name :=
  readDer Name.decode .missingPrincipal .invalidName

def readPrincipalText (text : String) : Except AnchorError Name :=
  (Name.ofText text).mapError (.invalidName ·.message)

def isBlank (b : UInt8) : Bool :=
  b ∈ [Ascii.space, Ascii.tab, Ascii.lineFeed, Ascii.formFeed, Ascii.carriageReturn]

def readCertificatePem (text : Octets) : Except AnchorError Certificate :=
  if text.all isBlank then .error .missingCertificate
  else (Certificate.ofPem text).mapError (.invalidCertificate ·.message)

end TrustAnchors
