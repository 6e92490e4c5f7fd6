import TrustAnchors.Handle
import TrustAnchors.Proofs.Anchor.Builder

/-!
# What every anchor satisfies

`Obtained s a` lists the ways to come by an anchor `a` from the name and the constraints in `s`, if
only the standard decoder of constraints is used. All of them establish `Sound`, which ties the
stored parts to what was given, and copying keeps it. The parts that can be asked for then agree
with each other (`Obtained.consistent`).
-/

namespace TrustAnchors

/-- The text of a name and the constraints that a caller has given. -/
structure Supply where
  name : Option String
  constraints : Option Octets

namespace Anchor

/-- A copy is made part by part. -/
def copy (a : Anchor) : Anchor where
  identity :=
    match a.identity with
    | .certificate certificate => .certificate certificate
    | .nameAndKey name principal key => .nameAndKey name principal key
    | .principalAndKey name principal key => .principalAndKey name principal key
  constraints := a.constraints

@[simp] theorem copy_eq (a : Anchor) : a.copy = a := by
  obtain ⟨identity, constraints⟩ := a
  cases identity <;> rfl

inductive Obtained : Supply → Anchor → Prop
  | ofCertificate {constraints : Option Octets} {certificate : Certificate} {a : Anchor}
      (h : (ofCertificate .standard constraints certificate).outcome = .ok a) :
      Obtained ⟨none, constraints⟩ a
  | ofCertificateDer {constraints : Option Octets} {der : Octets} {a : Anchor}
      (h : (ofCertificateDer constraints der).outcome = .ok a) : Obtained ⟨none, constraints⟩ a
  | ofCertificatePem {constraints : Option Octets} {text : Octets} {a : Anchor}
      (h : (ofCertificatePem constraints text).outcome = .ok a) : Obtained ⟨none, constraints⟩ a
  | ofNameAndKey {constraints : Option Octets} {name : String} {key : PublicKey} {a : Anchor}
      (h : (ofNameAndKey .standard constraints name key).outcome = .ok a) :
      Obtained ⟨some name, constraints⟩ a
  | ofPrincipalAndKey {constraints : Option Octets} {principal : Name} {key : PublicKey}
      {a : Anchor}
      (h : (ofPrincipalAndKey .standard constraints principal key).outcome = .ok a) :
      Obtained ⟨none, constraints⟩ a
  | build {settings : List Builder.Setting} {a : Anchor}
      (hd : (Builder.lastInputs settings).decoderInForce.decode = NameConstraints.ofDer)
      (h : (Builder.ofSettings settings).build.outcome = .ok a) :
      Obtained
        ⟨(Builder.lastInputs settings).name, (Builder.lastInputs settings).constraints⟩ a
  | handleOfCertificateDer {certificate constraints : Option Octets} {x : Handle}
      (h : Handle.ofCertificateDer certificate constraints = .ok x) :
      Obtained ⟨none, constraints⟩ x.anchor
  | handleOfNameAndKey {name : Option String} {key constraints : Option Octets} {x : Handle}
      (h : Handle.ofNameAndKey name key constraints = .ok x) :
      Obtained ⟨name, constraints⟩ x.anchor
  | handleOfPrincipalDerAndKey {principal key constraints : Option Octets} {x : Handle}
      (h : Handle.ofPrincipalDerAndKey principal key constraints = .ok x) :
      Obtained ⟨none, constraints⟩ x.anchor
  | copy {s : Supply} {a : Anchor} (h : Obtained s a) : Obtained s a.copy

/-- The stored parts are what was given, and have been checked. -/
structure Sound (s : Supply) (a : Anchor) : Prop where
  constraints_eq : a.constraints = s.constraints
  accepted : constraintsFault? NameConstraints.ofDer a.constraints = none
  named : ∀ name principal key, a.identity = .nameAndKey name principal key →
    s.name = some name ∧ name ≠ "" ∧ readPrincipalText name = .ok principal
  printed : ∀ name principal key, a.identity = .principalAndKey name principal key →
    name = principal.text

variable {constraints : Option Octets} {a : Anchor}

theorem sound_certificate {certificate : Certificate}
    (h : (ofCertificate .standard constraints certificate).outcome = .ok a) :
    Sound ⟨none, constraints⟩ a := by
  obtain ⟨hf, rfl⟩ := ofCertificate_eq_ok_iff.1 h
  exact ⟨rfl, hf, nofun, nofun⟩

theorem sound_principalAndKey {principal : Name} {key : PublicKey}
    (h : (ofPrincipalAndKey .standard constraints principal key).outcome = .ok a) :
    Sound ⟨none, constraints⟩ a := by
  obtain ⟨hf, rfl⟩ := ofPrincipalAndKey_eq_ok_iff.1 h
  refine ⟨rfl, hf, nofun, ?_⟩
  rintro _ _ _ ⟨⟩
  rfl

theorem sound_nameAndKey {name : String} {key : PublicKey}
    (h : (ofNameAndKey .standard constraints name key).outcome = .ok a) :
    Sound ⟨some name, constraints⟩ a := by
  obtain ⟨hf, hn, principal, hp, rfl⟩ := ofNameAndKey_eq_ok_iff.1 h
  refine ⟨rfl, hf, ?_, nofun⟩
  rintro _ _ _ ⟨⟩
  exact ⟨rfl, hn, hp⟩

theorem sound_build {settings : List Builder.Setting}
    (hd : (Builder.lastInputs settings).decoderInForce.decode = NameConstraints.ofDer)
    (h : (Builder.ofSettings settings).build.outcome = .ok a) :
    Sound ⟨(Builder.lastInputs settings).name, (Builder.lastInputs settings).constraints⟩ a := by
  rw [Builder.ofSettings_eq_lastInputs] at h
  generalize Builder.lastInputs settings = b at h hd ⊢
  rcases b.settled_build with ⟨e, -, he⟩ | ⟨hfaults, identity, hi, hok⟩
  · rw [h] at he
    cases he
  · rw [h] at hok
    cases hok
    -- No fault at all means none in the constraints and none in the name.
    refine ⟨rfl, ?_, ?_, ?_⟩
    · rw [← hd]
      exact b.constraintsFault?_eq_none hfaults
    · rintro name principal key rfl
      cases hi with
      | nameAndKey ht hp hs hk => exact ⟨ht, b.name_ne_of_faults_eq_nil hfaults ht, hp⟩
    · rintro name principal key rfl
      cases hi with
      | principalAndKey hp h hs hk => rfl

theorem sound_decoded {read : Except AnchorError Certificate}
    (h : (Attempt.ofExcept read >>=
      ofCertificate .standard constraints).outcome = .ok a) :
    Sound ⟨none, constraints⟩ a := by
  rw [Attempt.outcome_bind] at h
  obtain ⟨certificate, -, h⟩ := Except.bind_eq_ok_iff.1 h
  exact sound_certificate h

theorem of_ofAttempt_eq_ok {x : Attempt Anchor} {y : Handle} (h : Handle.ofAttempt x = .ok y) :
    x.outcome = .ok y.anchor := by
  unfold Handle.ofAttempt at h
  split at h
  · next ha =>
    cases h
    exact ha
  · cases h

theorem of_required_eq_ok {α : Type} {missing : AnchorError} {x : Option α} {v : α}
    (h : Handle.required missing x = .ok v) : x = some v := by
  cases x with
  | none => cases h
  | some w =>
    cases h
    rfl

theorem sound_handleOfCertificateDer {certificate : Option Octets} {x : Handle}
    (h : Handle.ofCertificateDer certificate constraints = .ok x) :
    Sound ⟨none, constraints⟩ x.anchor := by
  obtain ⟨der, -, h⟩ := Except.bind_eq_ok_iff.1 h
  exact sound_decoded (of_ofAttempt_eq_ok h)

theorem sound_handleOfNameAndKey {name : Option String} {key : Option Octets} {x : Handle}
    (h : Handle.ofNameAndKey name key constraints = .ok x) :
    Sound ⟨name, constraints⟩ x.anchor := by
  obtain ⟨text, ht, h⟩ := Except.bind_eq_ok_iff.1 h
  obtain ⟨der, -, h⟩ := Except.bind_eq_ok_iff.1 h
  rw [of_required_eq_ok ht]
  cases constraints with
  | none => exact sound_build rfl (of_ofAttempt_eq_ok h)
  | some der => exact sound_build rfl (of_ofAttempt_eq_ok h)

theorem sound_handleOfPrincipalDerAndKey {principal key : Option Octets} {x : Handle}
    (h : Handle.ofPrincipalDerAndKey principal key constraints = .ok x) :
    Sound ⟨none, constraints⟩ x.anchor := by
  obtain ⟨der, -, h⟩ := Except.bind_eq_ok_iff.1 h
  obtain ⟨keyDer, -, h⟩ := Except.bind_eq_ok_iff.1 h
  cases constraints with
  | none => exact sound_build rfl (of_ofAttempt_eq_ok h)
  | some der => exact sound_build rfl (of_ofAttempt_eq_ok h)

theorem Obtained.sound {s : Supply} {a : Anchor} (h : Obtained s a) : Sound s a := by
  induction h with
  | ofCertificate h => exact sound_certificate h
  | ofCertificateDer h => exact sound_decoded h
  | ofCertificatePem h => exact sound_decoded h
  | ofNameAndKey h => exact sound_nameAndKey h
  | ofPrincipalAndKey h => exact sound_principalAndKey h
  | build hd h => exact sound_build hd h
  | handleOfCertificateDer h => exact sound_handleOfCertificateDer h
  | handleOfNameAndKey h => exact sound_handleOfNameAndKey h
  | handleOfPrincipalDerAndKey h => exact sound_handleOfPrincipalDerAndKey h
  | copy _ ih =>
    rw [copy_eq]
    exact ih

/-- An anchor has a certificate and no authority, or an authority and no certificate. -/
def Exclusive (a : Anchor) : Prop :=
  (a.kind = .certificate ∧ a.certificate?.isSome ∧ a.principal? = none ∧ a.name? = none ∧
      a.publicKey? = none) ∨
    (a.kind ≠ .certificate ∧ a.certificate? = none ∧ a.principal?.isSome ∧ a.name?.isSome ∧
      a.publicKey?.isSome)

theorem exclusive (a : Anchor) : a.Exclusive := by
  obtain ⟨identity, constraints⟩ := a
  cases identity with
  | certificate certificate => exact .inl ⟨rfl, rfl, rfl, rfl, rfl⟩
  | nameAndKey name principal key => exact .inr ⟨nofun, rfl, rfl, rfl, rfl⟩
  | principalAndKey name principal key => exact .inr ⟨nofun, rfl, rfl, rfl, rfl⟩

/-- All that can be asked of an anchor agrees with itself and with what was given. -/
structure Consistent (s : Supply) (a : Anchor) : Prop where
  exclusive : a.Exclusive
  name_of_text : a.kind = .nameAndKey → ∃ text principal, s.name = some text ∧ text ≠ "" ∧
    readPrincipalText text = .ok principal ∧ a.name? = some text ∧ a.principal? = some principal
  name_of_principal : a.kind = .principalAndKey → a.name? = a.principal?.map (·.text)
  constraints_eq : a.constraints = s.constraints
  hasConstraints_eq : a.hasConstraints = s.constraints.isSome
  decoded : ∀ der ∈ s.constraints, ∃ c,
    NameConstraints.ofDer der = .ok c ∧ a.decodeConstraints = some c
  not_decoded : s.constraints = none → a.decodeConstraints = none
  summary_length : a.summary.constraintsLength = s.constraints.map List.length
  summary_kind : a.summary.kind = a.kind
  summary_name : a.summary.authorityName = a.name?

theorem Sound.decoded {s : Supply} (h : Sound s a) {der : Octets} (hder : der ∈ s.constraints) :
    ∃ c, NameConstraints.ofDer der = .ok c ∧ a.decodeConstraints = some c := by
  have ha : a.constraints = some der := h.constraints_eq.trans hder
  obtain ⟨c, hc⟩ := constraintsFault?_eq_none_iff.1 h.accepted der ha
  refine ⟨c, hc, ?_⟩
  simp [decodeConstraints_eq, ha, hc, Except.toOption]

theorem Sound.name_of_text {s : Supply} (h : Sound s a) (hk : a.kind = .nameAndKey) :
    ∃ text principal, s.name = some text ∧ text ≠ "" ∧
      readPrincipalText text = .ok principal ∧ a.name? = some text ∧
      a.principal? = some principal := by
  obtain ⟨identity, constraints⟩ := a
  cases identity with
  | nameAndKey name principal key =>
    obtain ⟨hs, hne, hp⟩ := h.named name principal key rfl
    exact ⟨name, principal, hs, hne, hp, rfl, rfl⟩
  | certificate certificate => cases hk
  | principalAndKey name principal key => cases hk

theorem Sound.name_of_principal {s : Supply} (h : Sound s a) (hk : a.kind = .principalAndKey) :
    a.name? = a.principal?.map (·.text) := by
  obtain ⟨identity, constraints⟩ := a
  cases identity with
  | principalAndKey name principal key => exact congrArg some (h.printed name principal key rfl)
  | certificate certificate => cases hk
  | nameAndKey name principal key => cases hk

theorem Obtained.consistent {s : Supply} {a : Anchor} (h : Obtained s a) : a.Consistent s where
  exclusive := a.exclusive
  name_of_text := h.sound.name_of_text
  name_of_principal := h.sound.name_of_principal
  constraints_eq := h.sound.constraints_eq
  hasConstraints_eq := by rw [hasConstraints, h.sound.constraints_eq]
  decoded := fun _ => h.sound.decoded
  not_decoded := fun hs => by simp [decodeConstraints_eq, h.sound.constraints_eq, hs]
  summary_length := by rw [summary, h.sound.constraints_eq]
  summary_kind := rfl
  summary_name := rfl

def acmeKey : PublicKey := ⟨⟨⟨[0x2b, 0x65, 0x70]⟩, none⟩, ⟨0, [], by decide, fun _ => rfl⟩⟩

/-- An organization with a key, and with constraints that constrain nothing. -/
def acme : Anchor where
  identity := .nameAndKey "O=Acme"
    ⟨[⟨[⟨⟨[0x55, 0x04, 0x0a]⟩, ⟨.utf8String, [0x41, 0x63, 0x6d, 0x65]⟩⟩], by decide⟩]⟩ acmeKey
  constraints := some [0x30, 0x00]

theorem consistent_copy_acme :
    Obtained ⟨some "O=Acme", some [0x30, 0x00]⟩ acme.copy ∧
      Consistent ⟨some "O=Acme", some [0x30, 0x00]⟩ acme.copy := by
  have hmade : (ofNameAndKey .standard (some [0x30, 0x00]) "O=Acme"
      acmeKey).outcome = .ok acme := by decide +kernel
  have h := (Obtained.ofNameAndKey hmade).copy
  exact ⟨h, h.consistent⟩

end Anchor

end TrustAnchors
