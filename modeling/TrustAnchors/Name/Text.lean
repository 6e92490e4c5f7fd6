import TrustAnchors.Name.Lenient
import TrustAnchors.Name.Printer
import TrustAnchors.Name.Strict

/-!
# Names from lenient text
-/

namespace TrustAnchors.Name

inductive TextError where
  | lenient (fault : Lenient.Fault)
  | strict (error : Der.Error)
  deriving DecidableEq, Repr

def TextError.message : TextError → String
  | lenient fault => fault.message
  | strict error => error.message

/-- The name of a lenient text, by way of the strict text for it. -/
def ofText (text : String) : Except TextError Name :=
  match Lenient.normalize (Utf8.encode text.toList) with
  | .error fault => .error (.lenient fault)
  | .ok strict => (ofStrict strict).mapError .strict

end TrustAnchors.Name
