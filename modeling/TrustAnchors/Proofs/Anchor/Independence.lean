import TrustAnchors.Proofs.Anchor.Builder

/-!
# Constraints and identities do not interfere

The identity that some inputs give does not depend on constraints (`Inputs.identity`), and whether
constraints are accepted does not depend on the inputs (`constraintsFault?`). An anchor comes of
both, so constraints are accepted for all identities or for none, and the parts of an anchor are
those of the anchor without constraints (`Inputs.independent`).
-/

namespace TrustAnchors

/-- Two anchors of the same identity. -/
structure Anchor.SameParts (a b : Anchor) : Prop where
  kind_eq : a.kind = b.kind
  certificate_eq : a.certificate? = b.certificate?
  name_eq : a.name? = b.name?
  principal_eq : a.principal? = b.principal?
  publicKey_eq : a.publicKey? = b.publicKey?

theorem Anchor.sameParts_mk (identity : Identity) (c c' : Option Octets) :
    SameParts ⟨identity, c⟩ ⟨identity, c'⟩ :=
  ⟨rfl, rfl, rfl, rfl, rfl⟩

namespace Inputs

/-- The builder that holds the inputs as they are. -/
def builder (constraints : Option Octets) (chosen : Option ConstraintsDecoder) : Inputs → Builder
  | certificate c => ⟨some (.parsed c), none, none, none, constraints, chosen⟩
  | nameAndKey name key => ⟨none, some name, none, some (.parsed key), constraints, chosen⟩
  | principalAndKey principal key =>
    ⟨none, none, some (.parsed principal), some (.parsed key), constraints, chosen⟩

theorem build_builder (constraints : Option Octets) (chosen : Option ConstraintsDecoder)
    (i : Inputs) :
    (i.builder constraints chosen).build = i.construct (.ofOption chosen) constraints := by
  cases i <;> rfl

variable {decoder : DecoderInForce} {der : Octets}

theorem construct_none_eq_ok_iff {i : Inputs} {a : Anchor} :
    (i.construct decoder none).outcome = .ok a ↔
      ∃ identity, i.identity = .ok identity ∧ a = ⟨identity, none⟩ := by
  have hnone : constraintsFault? decoder.decode none = none := rfl
  rw [outcome_construct, hnone, Option.elim_none]
  refine Except.map_eq_ok_iff.trans ?_
  simp only [eq_comm]

theorem construct_some_eq_ok_iff {i : Inputs} {a : Anchor} :
    (i.construct decoder (some der)).outcome = .ok a ↔
      (∃ c, decoder.decode der = .ok c) ∧
        ∃ identity, i.identity = .ok identity ∧ a = ⟨identity, some der⟩ := by
  rw [outcome_construct, Anchor.elim_error_eq_ok_iff, constraintsFault?_eq_none_iff]
  refine and_congr (by simp) (Except.map_eq_ok_iff.trans ?_)
  simp only [eq_comm]

theorem construct_of_rejected {e : Der.Error} (h : decoder.decode der = .error e) (i : Inputs) :
    (i.construct decoder (some der)).outcome = .error (.invalidNameConstraints e.message) := by
  rw [outcome_construct, constraintsFault?, Option.bind_some, h]
  rfl

/-- Each of the constraints and the identity is judged by itself. -/
structure Independent (decoder : DecoderInForce) (der : Octets) (i : Inputs) : Prop where
  succeeds_iff : (∃ a, (i.construct decoder (some der)).outcome = .ok a) ↔
    (∃ a, (i.construct decoder none).outcome = .ok a) ∧ ∃ c, decoder.decode der = .ok c
  sameParts {a b : Anchor} : (i.construct decoder (some der)).outcome = .ok a →
    (i.construct decoder none).outcome = .ok b → a.SameParts b
  accepted_iff (j : Inputs) : (∃ a, (i.construct decoder none).outcome = .ok a) →
    (∃ a, (j.construct decoder none).outcome = .ok a) →
      ((∃ a, (i.construct decoder (some der)).outcome = .ok a) ↔
        ∃ a, (j.construct decoder (some der)).outcome = .ok a)
  rejected {e : Der.Error} : decoder.decode der = .error e →
    (i.construct decoder (some der)).outcome = .error (.invalidNameConstraints e.message)
  /-- A builder that holds the inputs constructs the anchor. -/
  built {constraints : Option Octets} {chosen : Option ConstraintsDecoder}
      {settings : List Builder.Setting} : decoder = .ofOption chosen →
    Builder.lastInputs settings = i.builder constraints chosen →
      (Builder.ofSettings settings).build = i.construct decoder constraints

theorem succeeds_iff (decoder : DecoderInForce) (der : Octets) (i : Inputs) :
    (∃ a, (i.construct decoder (some der)).outcome = .ok a) ↔
      (∃ a, (i.construct decoder none).outcome = .ok a) ∧ ∃ c, decoder.decode der = .ok c := by
  simp only [construct_some_eq_ok_iff, construct_none_eq_ok_iff]
  constructor
  · rintro ⟨_, hc, identity, hi, -⟩
    exact ⟨⟨_, identity, hi, rfl⟩, hc⟩
  · rintro ⟨⟨_, identity, hi, -⟩, hc⟩
    exact ⟨_, hc, identity, hi, rfl⟩

/-- Constraints can be added to an identity just if they are accepted, and leave it as it is. -/
theorem independent (decoder : DecoderInForce) (der : Octets) (i : Inputs) :
    Independent decoder der i where
  succeeds_iff := succeeds_iff decoder der i
  sameParts ha hb := by
    obtain ⟨-, identity, hi, rfl⟩ := construct_some_eq_ok_iff.1 ha
    obtain ⟨other, ho, rfl⟩ := construct_none_eq_ok_iff.1 hb
    cases hi.symm.trans ho
    exact Anchor.sameParts_mk identity (some der) none
  accepted_iff j hi hj := by
    rw [succeeds_iff, succeeds_iff]
    exact and_congr_left fun _ => iff_of_true hi hj
  rejected h := construct_of_rejected h i
  built hd h := by
    rw [Builder.ofSettings_eq_lastInputs, h, build_builder, hd]

end Inputs

end TrustAnchors
