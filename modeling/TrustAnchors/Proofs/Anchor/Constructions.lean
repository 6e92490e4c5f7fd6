import TrustAnchors.Proofs.Anchor.Consultation

/-!
# Constructions

A `Construction` is a way to ask for an anchor, with all that is given for it: a constructor, a
builder or a handle. Whatever the way is, it fails over its identity inputs before anything is asked
or logged, or it comes to constructing an anchor from decoded inputs (`Construction.cases`). What a
handle is made of, or fails with, is the outcome of such an attempt (`Construction.handle?_eq`).
-/

namespace TrustAnchors

/-- An input that must not be absent. -/
def Attempt.required {α : Type} (missing : AnchorError) : Option α → Attempt α
  | some a => pure a
  | none => fail missing

inductive Construction where
  | direct (inputs : Inputs) (constraints : Option Octets) (decoder : DecoderInForce)
  | certificateDer (der : Octets) (constraints : Option Octets)
  | certificatePem (text : Octets) (constraints : Option Octets)
  | builder (settings : List Builder.Setting)
  | certificateHandle (certificate constraints : Option Octets)
  | nameHandle (name : Option String) (key constraints : Option Octets)
  | principalHandle (principal key constraints : Option Octets)

namespace Construction

open Handle (withConstraints)

def attempt : Construction → Attempt Anchor
  | direct inputs constraints decoder => inputs.construct decoder constraints
  | certificateDer der constraints => Anchor.ofCertificateDer constraints der
  | certificatePem text constraints => Anchor.ofCertificatePem constraints text
  | builder settings => (Builder.ofSettings settings).build
  | certificateHandle certificate constraints => do
    Anchor.ofCertificateDer constraints (← Attempt.required .missingCertificate certificate)
  | nameHandle name key constraints => do
    let name ← Attempt.required .missingName name
    let key ← Attempt.required .missingPublicKey key
    (Builder.ofSettings (withConstraints constraints [.name name, .publicKey (.encoded key)])).build
  | principalHandle principal key constraints => do
    let principal ← Attempt.required .missingPrincipal principal
    let key ← Attempt.required .missingPublicKey key
    (Builder.ofSettings (withConstraints constraints
      [.principal (.encoded principal), .publicKey (.encoded key)])).build

/-- The decoder that is asked about constraints. -/
def decoder : Construction → DecoderInForce
  | direct _ _ decoder => decoder
  | builder settings => (Builder.ofSettings settings).decoderInForce
  | certificateDer .. | certificatePem .. | certificateHandle .. | nameHandle ..
  | principalHandle .. => .standard

def constraints : Construction → Option Octets
  | builder settings => (Builder.ofSettings settings).constraints
  | direct _ constraints _ | certificateDer _ constraints | certificatePem _ constraints
  | certificateHandle _ constraints | nameHandle _ _ constraints
  | principalHandle _ _ constraints => constraints

/-- What a handle constructor returns. -/
def handle? : Construction → Option (Except Handle.Error Handle)
  | direct .. | certificateDer .. | certificatePem .. | builder .. => none
  | certificateHandle certificate constraints =>
    some (Handle.ofCertificateDer certificate constraints)
  | nameHandle name key constraints => some (Handle.ofNameAndKey name key constraints)
  | principalHandle principal key constraints =>
    some (Handle.ofPrincipalDerAndKey principal key constraints)

/-- A handle holds the anchor of an attempt, or there is none for the reason of the attempt. -/
theorem handle?_eq (x : Construction) : ∀ h ∈ x.handle?, h = Handle.ofAttempt x.attempt := by
  cases x with
  | direct | certificateDer | certificatePem | builder => exact Builder.forall_mem_none
  | certificateHandle certificate constraints =>
    rintro _ ⟨⟩
    cases certificate <;> rfl
  | nameHandle name key constraints =>
    rintro _ ⟨⟩
    cases name with
    | none => rfl
    | some name => cases key <;> rfl
  | principalHandle principal key constraints =>
    rintro _ ⟨⟩
    cases principal with
    | none => rfl
    | some principal => cases key <;> rfl

/-- An attempt that fails at once, or one that constructs an anchor from decoded inputs. -/
def Cases (x : Attempt Anchor) (constraints : Option Octets) (decoder : DecoderInForce) :
    Prop :=
  (∃ e, x = Attempt.fail e) ∨ ∃ i : Inputs, x = i.construct decoder constraints

theorem Cases.bind {α : Type} {x : Except AnchorError α} {f : α → Attempt Anchor}
    {constraints : Option Octets} {decoder : DecoderInForce}
    (h : ∀ a, Cases (f a) constraints decoder) :
    Cases (Attempt.ofExcept x >>= f) constraints decoder := by
  cases x with
  | ok a => exact h a
  | error e => exact .inl ⟨e, rfl⟩

theorem Cases.required {α : Type} {missing : AnchorError} {x : Option α} {f : α → Attempt Anchor}
    {constraints : Option Octets} {decoder : DecoderInForce}
    (h : ∀ a, Cases (f a) constraints decoder) :
    Cases (Attempt.required missing x >>= f) constraints decoder := by
  cases x with
  | some a => exact h a
  | none => exact .inl ⟨missing, rfl⟩

theorem cases_build (b : Builder) : Cases b.build b.constraints b.decoderInForce := by
  rcases b.splits with ⟨-, i, hi⟩ | ⟨-, e, he⟩
  · exact .inr ⟨i, hi b.constraints b.decoder⟩
  · exact .inl ⟨e, he b.constraints b.decoder⟩

theorem cases_ofSettings {settings : List Builder.Setting} {constraints : Option Octets}
    (hc : (Builder.ofSettings settings).constraints = constraints)
    (hd : (Builder.ofSettings settings).decoderInForce = .standard) :
    Cases (Builder.ofSettings settings).build constraints .standard := by
  rw [← hc, ← hd]
  exact cases_build _

theorem cases (x : Construction) : Cases x.attempt x.constraints x.decoder := by
  cases x with
  | direct inputs constraints decoder => exact .inr ⟨inputs, rfl⟩
  | certificateDer der constraints => exact Cases.bind fun c => .inr ⟨.certificate c, rfl⟩
  | certificatePem text constraints => exact Cases.bind fun c => .inr ⟨.certificate c, rfl⟩
  | builder settings => exact cases_build _
  | certificateHandle certificate constraints =>
    exact Cases.required fun _ => Cases.bind fun c => .inr ⟨.certificate c, rfl⟩
  | nameHandle name key constraints =>
    refine Cases.required fun _ => Cases.required fun _ => ?_
    cases constraints <;> exact cases_ofSettings rfl rfl
  | principalHandle principal key constraints =>
    refine Cases.required fun _ => Cases.required fun _ => ?_
    cases constraints <;> exact cases_ofSettings rfl rfl

end Construction

end TrustAnchors
