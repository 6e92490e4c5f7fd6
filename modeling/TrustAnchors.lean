import TrustAnchors.Der.Reads
import TrustAnchors.Handle
import TrustAnchors.Proofs.Anchor.Builder
import TrustAnchors.Proofs.Anchor.Constructions
import TrustAnchors.Proofs.Anchor.Consultation
import TrustAnchors.Proofs.Anchor.Delimitation
import TrustAnchors.Proofs.Anchor.Export
import TrustAnchors.Proofs.Anchor.Independence
import TrustAnchors.Proofs.Anchor.KeyExport
import TrustAnchors.Proofs.Anchor.Logging
import TrustAnchors.Proofs.Anchor.Obtained
import TrustAnchors.Proofs.Anchor.Rendering
import TrustAnchors.Proofs.Anchor.Requests
import TrustAnchors.Proofs.Anchor.Routes
import TrustAnchors.Proofs.Anchor.TextualEncoding
import TrustAnchors.Proofs.Base64
import TrustAnchors.Proofs.Certificate.Fields
import TrustAnchors.Proofs.Certificate.Stream
import TrustAnchors.Proofs.Certificate.Written
import TrustAnchors.Proofs.Der.Delimitation
import TrustAnchors.Proofs.Der.Injectivity
import TrustAnchors.Proofs.Der.Inversion
import TrustAnchors.Proofs.Der.Primitive
import TrustAnchors.Proofs.Der.Yields
import TrustAnchors.Proofs.GeneralName
import TrustAnchors.Proofs.HexDump.Reading
import TrustAnchors.Proofs.Name.AttributeKeys
import TrustAnchors.Proofs.Name.Denotation
import TrustAnchors.Proofs.Name.Encoding
import TrustAnchors.Proofs.Name.Inversion
import TrustAnchors.Proofs.Name.LenientGrammar
import TrustAnchors.Proofs.Name.LenientInversion
import TrustAnchors.Proofs.Name.Lexer.Machine
import TrustAnchors.Proofs.Name.Lexer.Meaning
import TrustAnchors.Proofs.Name.Lexer.Run
import TrustAnchors.Proofs.Name.Lexer.Safety
import TrustAnchors.Proofs.Name.NormalText
import TrustAnchors.Proofs.Name.Normalization
import TrustAnchors.Proofs.Name.Printing
import TrustAnchors.Proofs.Name.RelativeNames
import TrustAnchors.Proofs.Name.StrictGrammar
import TrustAnchors.Proofs.Name.StrictReading
import TrustAnchors.Proofs.Name.TextReading
import TrustAnchors.Proofs.Name.TextRoundTrip
import TrustAnchors.Proofs.Name.UnexpectedOctet
import TrustAnchors.Proofs.NameConstraints
import TrustAnchors.Proofs.ObjectIdentifier
import TrustAnchors.Proofs.Pem
import TrustAnchors.Proofs.PublicKey
import TrustAnchors.Proofs.Time
import TrustAnchors.Proofs.Utf8.Boundary
