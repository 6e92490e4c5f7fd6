import TrustAnchors.Anchor.Basic

/-!
# Outcomes of the constructors

The outcome of an attempt does not depend on its journal. Each constructor goes on only if the
decoder accepts the constraints (`constraintsFault?`), and the anchor it makes keeps them as given.
-/

namespace TrustAnchors

namespace Attempt

variable {α β : Type}

@[simp] theorem outcome_pure (a : α) : (pure a : Attempt α).outcome = .ok a := rfl

@[simp] theorem outcome_ofExcept (x : Except AnchorError α) : (ofExcept x).outcome = x := rfl

@[simp] theorem outcome_fail (e : AnchorError) : (fail e : Attempt α).outcome = .error e := rfl

@[simp] theorem outcome_consult (decoder : DecoderInForce) (der : Octets) :
    (consult decoder der).outcome = .ok (decoder.decode der) := rfl

@[simp] theorem outcome_log (event : Event) : (log event).outcome = .ok () := rfl

@[simp] theorem outcome_bind (x : Attempt α) (f : α → Attempt β) :
    (x >>= f).outcome = x.outcome >>= fun a => (f a).outcome := by
  change (x.andThen f).outcome = _
  unfold andThen
  cases x.outcome <;> rfl

end Attempt

/-- The error of a failed result. -/
def faultOf {α : Type} : Except AnchorError α → Option AnchorError
  | .ok _ => none
  | .error e => some e

@[simp] theorem faultOf_ok {α : Type} (a : α) : faultOf (.ok a : Except AnchorError α) = none := rfl

@[simp] theorem faultOf_error {α : Type} (e : AnchorError) :
    faultOf (.error e : Except AnchorError α) = some e := rfl

/-- What a decoder has against constraints, if there are some. -/
def constraintsFault? (decoder : ConstraintsDecoder) (constraints : Option Octets) :
    Option AnchorError :=
  constraints.bind fun der =>
    faultOf ((decoder der).mapError fun e => .invalidNameConstraints e.message)

theorem constraintsFault?_eq_none_iff {decoder : ConstraintsDecoder} {constraints : Option Octets} :
    constraintsFault? decoder constraints = none ↔
      ∀ der ∈ constraints, ∃ c, decoder der = .ok c := by
  cases constraints with
  | none => exact iff_of_true rfl nofun
  | some der =>
    cases hd : decoder der <;> simp [constraintsFault?, hd]

theorem eq_invalidNameConstraints_of_constraintsFault? {decoder : ConstraintsDecoder}
    {constraints : Option Octets} {e : AnchorError}
    (h : constraintsFault? decoder constraints = some e) : ∃ m, e = .invalidNameConstraints m := by
  cases constraints with
  | none => cases h
  | some der =>
    rw [constraintsFault?, Option.bind_some] at h
    cases hd : decoder der with
    | ok c =>
      rw [hd] at h
      cases h
    | error e' =>
      rw [hd] at h
      cases h
      exact ⟨_, rfl⟩

theorem outcome_checkConstraints (decoder : DecoderInForce) (constraints : Option Octets) :
    (checkConstraints decoder constraints).outcome =
      (constraintsFault? decoder.decode constraints).elim (.ok ()) .error := by
  cases constraints with
  | none => rfl
  | some der =>
    cases hd : decoder.decode der <;> simp [checkConstraints, constraintsFault?, hd]

namespace Anchor

variable {decoder : DecoderInForce} {constraints : Option Octets} {e : AnchorError} {a : Anchor}

@[simp] theorem outcome_create (identity : Identity) (constraints : Option Octets) :
    (create identity constraints).outcome = .ok ⟨identity, constraints⟩ := rfl

/-- Faulty constraints end every construction. -/
theorem outcome_check_bind {α : Type} (f : Unit → Attempt α) :
    (checkConstraints decoder constraints >>= f).outcome =
      (constraintsFault? decoder.decode constraints).elim (f ()).outcome .error := by
  rw [Attempt.outcome_bind, outcome_checkConstraints]
  cases constraintsFault? decoder.decode constraints <;> rfl

theorem outcome_ofCertificate (certificate : Certificate) :
    (ofCertificate decoder constraints certificate).outcome =
      (constraintsFault? decoder.decode constraints).elim
        (.ok ⟨.certificate certificate, constraints⟩) .error := by
  rw [ofCertificate, outcome_check_bind, outcome_create]

theorem outcome_ofPrincipalAndKey (principal : Name) (key : PublicKey) :
    (ofPrincipalAndKey decoder constraints principal key).outcome =
      (constraintsFault? decoder.decode constraints).elim
        (.ok ⟨.principalAndKey principal.text principal key, constraints⟩) .error := by
  rw [ofPrincipalAndKey, outcome_check_bind, outcome_create]

theorem outcome_ofNameAndKey (name : String) (key : PublicKey) :
    (ofNameAndKey decoder constraints name key).outcome =
      (constraintsFault? decoder.decode constraints).elim
        (if name = "" then .error .emptyName
          else (readPrincipalText name).map fun principal =>
            ⟨.nameAndKey name principal key, constraints⟩)
        .error := by
  rw [ofNameAndKey, outcome_check_bind]
  congr 1
  by_cases hn : name = ""
  · simp [hn]
  · cases hp : readPrincipalText name <;> simp [hn, Except.map]

/-- Nothing is made with faulty constraints. -/
theorem elim_error_eq_ok_iff {fault : Option AnchorError} {x : Except AnchorError Anchor} :
    fault.elim x .error = .ok a ↔ fault = none ∧ x = .ok a := by
  cases fault <;> simp

theorem ofCertificate_eq_ok_iff {certificate : Certificate} :
    (ofCertificate decoder constraints certificate).outcome = .ok a ↔
      constraintsFault? decoder.decode constraints = none ∧
        ⟨.certificate certificate, constraints⟩ = a := by
  rw [outcome_ofCertificate, elim_error_eq_ok_iff, Except.ok.injEq]

theorem ofPrincipalAndKey_eq_ok_iff {principal : Name} {key : PublicKey} :
    (ofPrincipalAndKey decoder constraints principal key).outcome = .ok a ↔
      constraintsFault? decoder.decode constraints = none ∧
        ⟨.principalAndKey principal.text principal key, constraints⟩ = a := by
  rw [outcome_ofPrincipalAndKey, elim_error_eq_ok_iff, Except.ok.injEq]

theorem ofNameAndKey_eq_ok_iff {name : String} {key : PublicKey} :
    (ofNameAndKey decoder constraints name key).outcome = .ok a ↔
      constraintsFault? decoder.decode constraints = none ∧ name ≠ "" ∧
        ∃ principal, readPrincipalText name = .ok principal ∧
          ⟨.nameAndKey name principal key, constraints⟩ = a := by
  rw [outcome_ofNameAndKey, elim_error_eq_ok_iff]
  refine and_congr_right fun _ => ?_
  by_cases hn : name = ""
  · simp [hn]
  · rw [if_neg hn]
    refine Except.map_eq_ok_iff.trans ?_
    simp [hn]

end Anchor

/-- What a constructor is given to identify an authority. -/
inductive Inputs where
  | certificate (certificate : Certificate)
  | nameAndKey (name : String) (key : PublicKey)
  | principalAndKey (principal : Name) (key : PublicKey)

namespace Inputs

def construct (decoder : DecoderInForce) (constraints : Option Octets) :
    Inputs → Attempt Anchor
  | certificate c => Anchor.ofCertificate decoder constraints c
  | nameAndKey name key => Anchor.ofNameAndKey decoder constraints name key
  | principalAndKey principal key => Anchor.ofPrincipalAndKey decoder constraints principal key

/-- The identity for the inputs, which is the same with all constraints and decoders. -/
def identity : Inputs → Except AnchorError Identity
  | certificate c => .ok (.certificate c)
  | nameAndKey name key =>
    if name = "" then .error .emptyName
    else (readPrincipalText name).map fun principal => .nameAndKey name principal key
  | principalAndKey principal key => .ok (.principalAndKey principal.text principal key)

theorem outcome_construct (decoder : DecoderInForce) (constraints : Option Octets)
    (i : Inputs) :
    (i.construct decoder constraints).outcome =
      (constraintsFault? decoder.decode constraints).elim (i.identity.map (⟨·, constraints⟩))
        .error := by
  cases i with
  | certificate c => exact Anchor.outcome_ofCertificate c
  | principalAndKey principal key => exact Anchor.outcome_ofPrincipalAndKey principal key
  | nameAndKey name key =>
    rw [construct, Anchor.outcome_ofNameAndKey, identity]
    congr 1
    by_cases hn : name = ""
    · rw [if_pos hn, if_pos hn]
      rfl
    · rw [if_neg hn, if_neg hn]
      cases readPrincipalText name <;> rfl

end Inputs

end TrustAnchors
