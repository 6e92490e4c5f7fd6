import Mathlib.Data.List.Induction
import TrustAnchors.Anchor.Builder
import TrustAnchors.Proofs.Anchor.Outcomes

/-!
# What a builder comes to

Of the settings of each input only the last one counts (`ofSettings_eq_lastInputs`). All that can be
wrong with the inputs stands in one list, `faults`, in the order of precedence: a build fails with
the first of them, and if there is none, it succeeds with the anchor of its inputs
(`build_ofSettings`).
-/

namespace TrustAnchors

/-- An input stands for itself, or for what its octets are read as. -/
inductive Source.StandsFor {α : Type} (read : Octets → Except AnchorError α) : Source α → α → Prop
  | parsed (value : α) : StandsFor read (.parsed value) value
  | encoded {der : Octets} {value : α} (h : read der = .ok value) :
      StandsFor read (.encoded der) value

theorem Source.resolve_eq_ok_iff {α : Type} {read : Octets → Except AnchorError α} {s : Source α}
    {value : α} : s.resolve read = .ok value ↔ s.StandsFor read value := by
  constructor
  · intro h
    cases s with
    | parsed a =>
      cases h
      exact .parsed value
    | encoded der => exact .encoded h
  · rintro (_ | h)
    · rfl
    · exact h

namespace Builder

namespace Setting

def certificate? : Setting → Option (Source Certificate)
  | certificate input => some input
  | _ => none

def name? : Setting → Option String
  | name input => some input
  | _ => none

def principal? : Setting → Option (Source Name)
  | principal input => some input
  | _ => none

def publicKey? : Setting → Option (Source PublicKey)
  | publicKey input => some input
  | _ => none

def constraints? : Setting → Option Octets
  | constraints input => some input
  | _ => none

def decoder? : Setting → Option ConstraintsDecoder
  | decoder input => some input
  | _ => none

end Setting

/-- Each input as it was set last. -/
def lastInputs (settings : List Setting) : Builder where
  certificate := (settings.filterMap Setting.certificate?).getLast?
  name := (settings.filterMap Setting.name?).getLast?
  principal := (settings.filterMap Setting.principal?).getLast?
  publicKey := (settings.filterMap Setting.publicKey?).getLast?
  constraints := (settings.filterMap Setting.constraints?).getLast?
  decoder := (settings.filterMap Setting.decoder?).getLast?

theorem lastInputs_concat (settings : List Setting) (s : Setting) :
    lastInputs (settings ++ [s]) = (lastInputs settings).set s := by
  cases s <;> simp [lastInputs, set, List.filterMap_append, List.filterMap_cons,
    Setting.certificate?, Setting.name?, Setting.principal?, Setting.publicKey?,
    Setting.constraints?, Setting.decoder?]

theorem ofSettings_eq_lastInputs (settings : List Setting) :
    ofSettings settings = lastInputs settings := by
  induction settings using List.reverseRecOn with
  | nil => rfl
  | append_singleton settings s ih =>
    rw [lastInputs_concat, ← ih, ofSettings, ofSettings, List.foldl_append, List.foldl_cons,
      List.foldl_nil]

variable (b : Builder)

def conflict (detail : String) (conflicting : Bool) : Option AnchorError :=
  if conflicting then some (.conflictingIdentity detail) else none

/-- What is wrong with an input, if its octets cannot be read. -/
def sourceFault? {α : Type} (read : Octets → Except AnchorError α) :
    Option (Source α) → Option AnchorError
  | none | some (.parsed _) => none
  | some (.encoded der) => faultOf (read der)

@[simp] theorem sourceFault?_none {α : Type} (read : Octets → Except AnchorError α) :
    sourceFault? read none = none := rfl

@[simp] theorem sourceFault?_some {α : Type} (read : Octets → Except AnchorError α)
    (s : Source α) : sourceFault? read (some s) = faultOf (s.resolve read) := by
  cases s <;> rfl

/-- All that can be wrong with the inputs, in order of precedence. -/
def possibleFaults : List (Option AnchorError) :=
  [conflict "certificate given together with an authority name or principal"
      (b.certificate.isSome && (b.name.isSome || b.principal.isSome)),
    conflict "certificate given together with a separate public key"
      (b.certificate.isSome && b.publicKey.isSome),
    conflict "authority name given together with an authority principal"
      (b.name.isSome && b.principal.isSome),
    if b.certificate.isNone ∧ b.name.isNone ∧ b.principal.isNone then some .missingIdentity
      else none,
    if (b.name.isSome ∨ b.principal.isSome) ∧ b.publicKey.isNone then some .missingPublicKey
      else none,
    sourceFault? readCertificate b.certificate,
    sourceFault? readPrincipal b.principal,
    sourceFault? readPublicKey b.publicKey,
    constraintsFault? (b.decoder.getD NameConstraints.ofDer) b.constraints,
    if b.name = some "" then some .emptyName else none,
    b.name.bind fun text => faultOf (readPrincipalText text)]

/-- All that is wrong with the inputs, whether or not a build gets as far. -/
def faults : List AnchorError := b.possibleFaults.flatMap Option.toList

/-- The identity that the inputs stand for. -/
inductive Identifies : Identity → Prop
  | certificate {s : Source Certificate} {certificate : Certificate} (hs : b.certificate = some s)
      (h : s.StandsFor readCertificate certificate) : Identifies (.certificate certificate)
  | nameAndKey {text : String} {principal : Name} {s : Source PublicKey} {key : PublicKey}
      (ht : b.name = some text) (h : readPrincipalText text = .ok principal)
      (hs : b.publicKey = some s) (hk : s.StandsFor readPublicKey key) :
      Identifies (.nameAndKey text principal key)
  | principalAndKey {p : Source Name} {principal : Name} {s : Source PublicKey} {key : PublicKey}
      (hp : b.principal = some p) (h : p.StandsFor readPrincipal principal)
      (hs : b.publicKey = some s) (hk : s.StandsFor readPublicKey key) :
      Identifies (.principalAndKey principal.text principal key)

/-- A build has failed with the first fault, or there is none and it has succeeded. -/
def Settled (outcome : Except AnchorError Anchor) : Prop :=
  (∃ e, b.faults.head? = some e ∧ outcome = .error e) ∨
    (b.faults = [] ∧ ∃ identity, b.Identifies identity ∧ outcome = .ok ⟨identity, b.constraints⟩)

variable {b}

theorem build_certificate {s : Source Certificate} (hc : b.certificate = some s)
    (hn : b.name = none) (hp : b.principal = none) (hk : b.publicKey = none) :
    b.build = Attempt.ofExcept (s.resolve readCertificate) >>=
      Anchor.ofCertificate b.decoderInForce b.constraints := by
  unfold build
  rw [hc, hn, hp, hk]
  rfl

theorem build_principal {p : Source Name} {s : Source PublicKey} (hc : b.certificate = none)
    (hn : b.name = none) (hp : b.principal = some p) (hk : b.publicKey = some s) :
    b.build = Attempt.ofExcept (p.resolve readPrincipal) >>= fun principal =>
      Attempt.ofExcept (s.resolve readPublicKey) >>=
        Anchor.ofPrincipalAndKey b.decoderInForce b.constraints principal := by
  unfold build requiredKey
  rw [hc, hn, hp, hk]
  rfl

theorem build_name {text : String} {s : Source PublicKey} (hc : b.certificate = none)
    (hn : b.name = some text) (hp : b.principal = none) (hk : b.publicKey = some s) :
    b.build = Attempt.ofExcept (s.resolve readPublicKey) >>=
      Anchor.ofNameAndKey b.decoderInForce b.constraints text := by
  unfold build requiredKey
  rw [hc, hn, hp, hk]
  rfl

theorem settled_certificate {s : Source Certificate} (hc : b.certificate = some s)
    (hn : b.name = none) (hp : b.principal = none) (hk : b.publicKey = none) :
    b.Settled b.build.outcome := by
  have hfaults : b.faults = [faultOf (s.resolve readCertificate),
      constraintsFault? b.decoderInForce.decode b.constraints].flatMap Option.toList := by
    simp [faults, possibleFaults, hc, hn, hp, hk, conflict, decode_decoderInForce]
  rw [build_certificate hc hn hp hk, Attempt.outcome_bind, Attempt.outcome_ofExcept, Settled,
    hfaults]
  cases hs : s.resolve readCertificate with
  | error e => exact .inl ⟨e, rfl, rfl⟩
  | ok certificate =>
    rw [Except.ok_bind, Anchor.outcome_ofCertificate]
    cases constraintsFault? b.decoderInForce.decode b.constraints with
    | some e => exact .inl ⟨e, rfl, rfl⟩
    | none => exact .inr ⟨rfl, _, .certificate hc (Source.resolve_eq_ok_iff.1 hs), rfl⟩

theorem settled_principal {p : Source Name} {s : Source PublicKey} (hc : b.certificate = none)
    (hn : b.name = none) (hp : b.principal = some p) (hk : b.publicKey = some s) :
    b.Settled b.build.outcome := by
  have hfaults : b.faults = [faultOf (p.resolve readPrincipal), faultOf (s.resolve readPublicKey),
      constraintsFault? b.decoderInForce.decode b.constraints].flatMap Option.toList := by
    simp [faults, possibleFaults, hc, hn, hp, hk, conflict, decode_decoderInForce]
  simp only [build_principal hc hn hp hk, Attempt.outcome_bind, Attempt.outcome_ofExcept, Settled,
    hfaults]
  cases hprincipal : p.resolve readPrincipal with
  | error e => exact .inl ⟨e, rfl, rfl⟩
  | ok principal =>
    cases hkey : s.resolve readPublicKey with
    | error e => exact .inl ⟨e, rfl, rfl⟩
    | ok key =>
      rw [Except.ok_bind, Except.ok_bind, Anchor.outcome_ofPrincipalAndKey]
      cases constraintsFault? b.decoderInForce.decode b.constraints with
      | some e => exact .inl ⟨e, rfl, rfl⟩
      | none =>
        exact .inr ⟨rfl, _, .principalAndKey hp (Source.resolve_eq_ok_iff.1 hprincipal) hk
          (Source.resolve_eq_ok_iff.1 hkey), rfl⟩

theorem settled_name {text : String} {s : Source PublicKey} (hc : b.certificate = none)
    (hn : b.name = some text) (hp : b.principal = none) (hk : b.publicKey = some s) :
    b.Settled b.build.outcome := by
  have hfaults : b.faults = [faultOf (s.resolve readPublicKey),
      constraintsFault? b.decoderInForce.decode b.constraints,
      if text = "" then some .emptyName else none,
      faultOf (readPrincipalText text)].flatMap Option.toList := by
    simp [faults, possibleFaults, hc, hn, hp, hk, conflict, decode_decoderInForce]
  rw [build_name hc hn hp hk, Attempt.outcome_bind, Attempt.outcome_ofExcept, Settled, hfaults]
  cases hkey : s.resolve readPublicKey with
  | error e => exact .inl ⟨e, rfl, rfl⟩
  | ok key =>
    rw [Except.ok_bind, Anchor.outcome_ofNameAndKey]
    cases constraintsFault? b.decoderInForce.decode b.constraints with
    | some e => exact .inl ⟨e, rfl, rfl⟩
    | none =>
      by_cases ht : text = ""
      · rw [if_pos ht, if_pos ht]
        exact .inl ⟨.emptyName, rfl, rfl⟩
      · rw [if_neg ht, if_neg ht]
        cases hprincipal : readPrincipalText text with
        | error e => exact .inl ⟨e, rfl, rfl⟩
        | ok principal =>
          exact .inr ⟨rfl, _, .nameAndKey hn hprincipal hk (Source.resolve_eq_ok_iff.1 hkey), rfl⟩

theorem settled_fail {e : AnchorError} (hb : b.build = Attempt.fail e)
    (hf : b.faults.head? = some e) : b.Settled b.build.outcome := by
  rw [hb]
  exact .inl ⟨e, hf, rfl⟩

variable (b)

/-- Without the three identities above, inputs are missing or in conflict. -/
theorem settled_build : b.Settled b.build.outcome := by
  cases hc : b.certificate with
  | some c =>
    cases hn : b.name with
    | some text =>
      apply settled_fail
      · simp only [build, hc, hn]
        rfl
      · simp [faults, possibleFaults, hc, hn, conflict]
    | none =>
      cases hp : b.principal with
      | some p =>
        apply settled_fail
        · simp only [build, hc, hn, hp]
          rfl
        · simp [faults, possibleFaults, hc, hn, hp, conflict]
      | none =>
        cases hk : b.publicKey with
        | some s =>
          apply settled_fail
          · simp only [build, hc, hn, hp, hk]
            rfl
          · simp [faults, possibleFaults, hc, hn, hp, hk, conflict]
        | none => exact settled_certificate hc hn hp hk
  | none =>
    cases hn : b.name with
    | some text =>
      cases hp : b.principal with
      | some p =>
        apply settled_fail
        · simp only [build, hc, hn, hp]
          rfl
        · simp [faults, possibleFaults, hc, hn, hp, conflict]
      | none =>
        cases hk : b.publicKey with
        | some s => exact settled_name hc hn hp hk
        | none =>
          apply settled_fail
          · simp only [build, hc, hn, hp, hk, requiredKey]
            rfl
          · simp [faults, possibleFaults, hc, hn, hp, hk, conflict]
    | none =>
      cases hp : b.principal with
      | some p =>
        cases hk : b.publicKey with
        | some s => exact settled_principal hc hn hp hk
        | none =>
          apply settled_fail
          · simp only [build, hc, hn, hp, hk, requiredKey]
            rfl
          · simp [faults, possibleFaults, hc, hn, hp, hk, conflict]
      | none =>
        apply settled_fail
        · simp only [build, hc, hn, hp]
          rfl
        · simp [faults, possibleFaults, hc, hn, hp, conflict]

theorem eq_none_of_faults_eq_nil (h : b.faults = []) {fault : Option AnchorError}
    (hf : fault ∈ b.possibleFaults) : fault = none :=
  Option.toList_eq_nil_iff.1 (List.flatMap_eq_nil_iff.1 h fault hf)

theorem constraintsFault?_eq_none (h : b.faults = []) :
    constraintsFault? b.decoderInForce.decode b.constraints = none := by
  rw [decode_decoderInForce]
  exact b.eq_none_of_faults_eq_nil h (by simp [possibleFaults])

theorem name_ne_of_faults_eq_nil (h : b.faults = []) {text : String} (ht : b.name = some text) :
    text ≠ "" := by
  rintro rfl
  have hempty : (if b.name = some "" then some AnchorError.emptyName else none) = none :=
    b.eq_none_of_faults_eq_nil h (by simp [possibleFaults])
  rw [if_pos ht] at hempty
  cases hempty

/-- Which settings were made before, and in which order inputs were set, makes no difference. -/
theorem build_ofSettings (settings : List Setting) :
    ofSettings settings = lastInputs settings ∧
      (lastInputs settings).Settled (ofSettings settings).build.outcome := by
  have h := ofSettings_eq_lastInputs settings
  refine ⟨h, ?_⟩
  rw [h]
  exact settled_build _

end Builder

end TrustAnchors
