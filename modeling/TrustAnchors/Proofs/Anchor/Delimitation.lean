import TrustAnchors.Proofs.Anchor.Constructions
import TrustAnchors.Proofs.Der.Delimitation

/-!
# Where an encoded input ends

Certificates, keys, principals and constraints are each encoded as one sequence. So of octets that
are accepted as one of them, no octet can be cut off and none can be added: the rest is not accepted
any more, and no way to an anchor leads there with it (`Encoding.delimited`).
-/

namespace TrustAnchors

open Der

/-- What the octets of an encoded input stand for. -/
inductive Encoding where
  | certificate
  | publicKey
  | principal
  | constraints
  deriving DecidableEq, Repr

namespace Encoding

/-- Whether octets are accepted; those of constraints by the standard decoder. -/
def accepts : Encoding → Octets → Bool
  | certificate, der => (readCertificate der).isOk
  | publicKey, der => (readPublicKey der).isOk
  | principal, der => (readPrincipal der).isOk
  | constraints, der => (NameConstraints.ofDer der).isOk

theorem isOk_readDer {α : Type} {fields : Decoder α} {missing : AnchorError}
    {invalid : String → AnchorError} (der : Octets) :
    (readDer (Decoder.sequence fields) missing invalid der).isOk =
      ((Decoder.sequence fields).decode der).isOk := by
  cases der with
  | nil => rfl
  | cons b r =>
    rw [readDer, if_neg (by simp)]
    cases (Decoder.sequence fields).decode (b :: r) <;> rfl

theorem exists_sequence (k : Encoding) :
    ∃ (α : Type) (fields : Decoder α), ∀ der,
      k.accepts der = ((Decoder.sequence fields).decode der).isOk := by
  cases k with
  | certificate => exact ⟨_, _, isOk_readDer⟩
  | publicKey => exact ⟨_, _, isOk_readDer⟩
  | principal => exact ⟨_, _, isOk_readDer⟩
  | constraints => exact ⟨_, _, fun _ => rfl⟩

theorem accepts_append {k : Encoding} {der more : Octets} (h : k.accepts der = true)
    (hmore : more ≠ []) : k.accepts (der ++ more) = false := by
  obtain ⟨α, fields, hfields⟩ := k.exists_sequence
  rw [hfields] at h ⊢
  cases ha : (Decoder.sequence fields).decode der with
  | error e =>
    rw [ha] at h
    cases h
  | ok a =>
    rw [Decoder.decode_sequence_append ha hmore]
    rfl

theorem accepts_cut {k : Encoding} {begun cut : Octets} (h : k.accepts (begun ++ cut) = true)
    (hcut : cut ≠ []) : k.accepts begun = false := by
  obtain ⟨α, fields, hfields⟩ := k.exists_sequence
  rw [hfields] at h ⊢
  cases ha : (Decoder.sequence fields).decode (begun ++ cut) with
  | error e =>
    rw [ha] at h
    cases h
  | ok a =>
    obtain ⟨expected, he⟩ := Decoder.decode_sequence_cut ha rfl hcut
    rw [he]
    rfl

end Encoding

open Builder in
/-- The octets are an encoded input of the construction. A builder has those that were set last, and
constraints are an encoding only for the standard decoder. -/
inductive Construction.IsGiven : Construction → Encoding → Octets → Prop
  | certificateDer (der : Octets) (constraints : Option Octets) :
      IsGiven (.certificateDer der constraints) .certificate der
  | certificateHandle (der : Octets) (constraints : Option Octets) :
      IsGiven (.certificateHandle (some der) constraints) .certificate der
  | nameHandle (name : Option String) (key : Octets) (constraints : Option Octets) :
      IsGiven (.nameHandle name (some key) constraints) .publicKey key
  | principalHandle (principal : Octets) (key constraints : Option Octets) :
      IsGiven (.principalHandle (some principal) key constraints) .principal principal
  | principalHandleKey (principal : Option Octets) (key : Octets) (constraints : Option Octets) :
      IsGiven (.principalHandle principal (some key) constraints) .publicKey key
  | builderCertificate {settings : List Setting} {der : Octets}
      (h : (lastInputs settings).certificate = some (.encoded der)) :
      IsGiven (.builder settings) .certificate der
  | builderPublicKey {settings : List Setting} {der : Octets}
      (h : (lastInputs settings).publicKey = some (.encoded der)) :
      IsGiven (.builder settings) .publicKey der
  | builderPrincipal {settings : List Setting} {der : Octets}
      (h : (lastInputs settings).principal = some (.encoded der)) :
      IsGiven (.builder settings) .principal der
  | constraints {x : Construction} {der : Octets} (h : x.constraints = some der)
      (hd : x.decoder.decode = NameConstraints.ofDer) : IsGiven x .constraints der

theorem Builder.ready_of_outcome {b : Builder} {a : Anchor} (h : b.build.outcome = .ok a) :
    b.Ready := by
  rcases b.splits with ⟨hready, -⟩ | ⟨-, e, he⟩
  · exact hready
  · have hb : b.build = Attempt.fail e := he b.constraints b.decoder
    rw [hb] at h
    cases h

namespace Encoding

variable {x : Construction} {k : Encoding} {der : Octets} {a : Anchor}

theorem isOk_of_exists {ε α : Type} {r : Except ε α} (h : ∃ v, r = .ok v) : r.isOk = true := by
  obtain ⟨v, rfl⟩ := h
  rfl

theorem accepts_of_certificateDer {constraints : Option Octets}
    (h : (Anchor.ofCertificateDer constraints der).outcome = .ok a) :
    certificate.accepts der = true := by
  obtain ⟨c, hc, -⟩ := Except.bind_eq_ok_iff.1 ((Attempt.outcome_bind _ _).symm.trans h)
  exact isOk_of_exists ⟨c, hc⟩

theorem accepts_constraints (hc : x.constraints = some der)
    (hd : x.decoder.decode = NameConstraints.ofDer) (h : x.attempt.outcome = .ok a) :
    constraints.accepts der = true := by
  rcases x.cases with ⟨e, he⟩ | ⟨i, hi⟩
  · rw [he] at h
    cases h
  · rw [hi, i.outcome_construct, Anchor.elim_error_eq_ok_iff, hd] at h
    exact isOk_of_exists (constraintsFault?_eq_none_iff.1 h.1 der hc)

/-- An anchor is made only if all encoded inputs are accepted. -/
theorem accepts_of_isGiven (hx : x.IsGiven k der) (h : x.attempt.outcome = .ok a) :
    k.accepts der = true := by
  cases hx with
  | certificateDer => exact accepts_of_certificateDer h
  | certificateHandle => exact accepts_of_certificateDer h
  | nameHandle name key constraints =>
    cases name with
    | none => cases h
    | some name =>
      have hready := Builder.ready_of_outcome h
      cases constraints <;> exact isOk_of_exists (hready.publicKey _ rfl)
  | principalHandle principal key constraints =>
    cases key with
    | none => cases h
    | some key =>
      have hready := Builder.ready_of_outcome h
      cases constraints <;> exact isOk_of_exists (hready.principal _ rfl)
  | principalHandleKey principal key constraints =>
    cases principal with
    | none => cases h
    | some principal =>
      have hready := Builder.ready_of_outcome h
      cases constraints <;> exact isOk_of_exists (hready.publicKey _ rfl)
  | @builderCertificate settings der hs =>
    rw [← Builder.ofSettings_eq_lastInputs] at hs
    exact isOk_of_exists ((Builder.ready_of_outcome h).certificate _ hs)
  | @builderPublicKey settings der hs =>
    rw [← Builder.ofSettings_eq_lastInputs] at hs
    exact isOk_of_exists ((Builder.ready_of_outcome h).publicKey _ hs)
  | @builderPrincipal settings der hs =>
    rw [← Builder.ofSettings_eq_lastInputs] at hs
    exact isOk_of_exists ((Builder.ready_of_outcome h).principal _ hs)
  | constraints hc hd => exact accepts_constraints hc hd h

/-- The octets are accepted as they are, and not with octets added or cut off at the end. -/
structure Delimited (k : Encoding) (der : Octets) : Prop where
  longer (more : Octets) : more ≠ [] → k.accepts (der ++ more) = false
  shorter (begun cut : Octets) : begun ++ cut = der → cut ≠ [] → k.accepts begun = false
  /-- No way leads to an anchor, or to a handle, with such octets. -/
  unused (x : Construction) (other : Octets) : x.IsGiven k other →
    (∃ rest, rest ≠ [] ∧ (other = der ++ rest ∨ other ++ rest = der)) →
    (∃ e, x.attempt.outcome = .error e) ∧ ∀ h ∈ x.handle?, ∃ e, h = .error e

theorem refuses_of_not_accepts (hx : x.IsGiven k der) (hk : k.accepts der = false) :
    (∃ e, x.attempt.outcome = .error e) ∧ ∀ h ∈ x.handle?, ∃ e, h = .error e := by
  cases ho : x.attempt.outcome with
  | ok a =>
    rw [accepts_of_isGiven hx ho] at hk
    cases hk
  | error e =>
    refine ⟨⟨e, rfl⟩, fun h hh => ⟨.ofAnchorError e, ?_⟩⟩
    rw [x.handle?_eq h hh, Handle.ofAttempt, ho]

theorem delimited (h : k.accepts der = true) : k.Delimited der where
  longer _ := accepts_append h
  shorter begun cut hcut := accepts_cut (hcut.symm ▸ h)
  unused x other hx := by
    rintro ⟨rest, hrest, rfl | rfl⟩
    · exact refuses_of_not_accepts hx (accepts_append h hrest)
    · exact refuses_of_not_accepts hx (accepts_cut h hrest)

/-- An Ed25519 key of no bits. -/
theorem delimited_emptyKey :
    publicKey.accepts
        [0x30, 0x0a, 0x30, 0x05, 0x06, 0x03, 0x2b, 0x65, 0x70, 0x03, 0x01, 0x00] = true ∧
      publicKey.Delimited
        [0x30, 0x0a, 0x30, 0x05, 0x06, 0x03, 0x2b, 0x65, 0x70, 0x03, 0x01, 0x00] := by
  have h : publicKey.accepts
      [0x30, 0x0a, 0x30, 0x05, 0x06, 0x03, 0x2b, 0x65, 0x70, 0x03, 0x01, 0x00] = true := by
    decide +kernel
  exact ⟨h, delimited h⟩

end Encoding

end TrustAnchors
