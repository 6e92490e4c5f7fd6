import TrustAnchors.Proofs.Anchor.Routes
import TrustAnchors.Proofs.Certificate.Written

/-!
# Export and import of certificates

A handle that was made from a certificate exports an encoding of it, which is not longer than what
it was made from. Import of that encoding with the same constraints brings the handle back, and
handles that export the same certificate and have the same constraints are equal
(`Handle.certificate_export_import`).
-/

namespace TrustAnchors

open Der

theorem Der.export?_eq_ok_iff {o d : Octets} :
    export? o = .ok d ↔ o.length ≤ maxLength ∧ o = d := by
  unfold export?
  split
  · next hl => exact iff_of_false nofun fun h => Nat.not_lt.2 h.1 hl
  · next hl => simp [Nat.not_lt.1 hl]

theorem readDer_eq_ok_iff {α : Type} {decoder : Decoder α} {missing : AnchorError}
    {invalid : String → AnchorError} {der : Octets} {a : α} :
    readDer decoder missing invalid der = .ok a ↔ der ≠ [] ∧ decoder.decode der = .ok a := by
  cases der with
  | nil => exact iff_of_false nofun fun h => h.1 rfl
  | cons b r => exact Except.mapError_eq_ok_iff.trans (by simp)

theorem readCertificate_eq_ok_iff {der : Octets} {c : Certificate} :
    readCertificate der = .ok c ↔ der ≠ [] ∧ Certificate.decode.decode der = .ok c :=
  readDer_eq_ok_iff

namespace EncodedInputs

/-- The identity that the inputs stand for. -/
inductive Identifies : EncodedInputs → Identity → Prop
  | certificate {c : Octets} {certificate : Certificate}
      (h : readCertificate c = .ok certificate) :
      Identifies (.certificate c) (.certificate certificate)
  | nameAndKey {text : String} {principal : Name} {k : Octets} {key : PublicKey}
      (ht : text ≠ "") (h : readPrincipalText text = .ok principal)
      (hk : readPublicKey k = .ok key) :
      Identifies (.nameAndKey text k) (.nameAndKey text principal key)
  | principalAndKey {p : Octets} {principal : Name} {k : Octets} {key : PublicKey}
      (h : readPrincipal p = .ok principal) (hk : readPublicKey k = .ok key) :
      Identifies (.principalAndKey p k) (.principalAndKey principal.text principal key)

theorem identifies_iff {i : EncodedInputs} {identity : Identity} :
    i.Identifies identity ↔ ∃ inputs, i.read = .ok inputs ∧ inputs.identity = .ok identity := by
  constructor
  · rintro (h | ⟨ht, h, hk⟩ | ⟨h, hk⟩)
    · exact ⟨_, Except.map_eq_ok_iff.2 ⟨_, h, rfl⟩, rfl⟩
    · refine ⟨_, Except.map_eq_ok_iff.2 ⟨_, hk, rfl⟩, ?_⟩
      rw [Inputs.identity, if_neg ht, h]
      rfl
    · next principal k key =>
      refine ⟨.principalAndKey principal key, ?_, rfl⟩
      rw [read, h, hk]
      rfl
  · rintro ⟨inputs, hread, hidentity⟩
    cases i with
    | certificate c =>
      obtain ⟨certificate, h, rfl⟩ := Except.map_eq_ok_iff.1 hread
      cases hidentity
      exact .certificate h
    | nameAndKey text k =>
      obtain ⟨key, hk, rfl⟩ := Except.map_eq_ok_iff.1 hread
      rw [Inputs.identity] at hidentity
      split at hidentity
      · cases hidentity
      · next ht =>
        obtain ⟨principal, h, rfl⟩ := Except.map_eq_ok_iff.1 hidentity
        exact .nameAndKey ht h hk
    | principalAndKey p k =>
      obtain ⟨principal, h, hread⟩ := Except.bind_eq_ok_iff.1 hread
      obtain ⟨key, hk, hread⟩ := Except.bind_eq_ok_iff.1 hread
      cases hread
      cases hidentity
      exact .principalAndKey h hk

/-- A handle is made of what the inputs identify and of constraints that are accepted. -/
theorem handle_eq_ok_iff {i : EncodedInputs} {constraints : Option Octets} {h : Handle} :
    i.handle constraints = .ok h ↔
      constraintsFault? NameConstraints.ofDer constraints = none ∧
        ∃ identity, i.Identifies identity ∧ ⟨⟨identity, constraints⟩⟩ = h := by
  obtain ⟨y, hhandle, hroute⟩ := i.exists_route_handle constraints
  have houtcome := hroute.outcome_eq
  rw [hhandle]
  constructor
  · intro hy
    rw [Anchor.of_ofAttempt_eq_ok hy] at houtcome
    obtain ⟨inputs, hread, houtcome⟩ := Except.bind_eq_ok_iff.1 houtcome.symm
    rw [Inputs.outcome_construct, Anchor.elim_error_eq_ok_iff] at houtcome
    obtain ⟨identity, hidentity, ha⟩ := Except.map_eq_ok_iff.1 houtcome.2
    exact ⟨houtcome.1, identity, identifies_iff.2 ⟨inputs, hread, hidentity⟩,
      congrArg Handle.mk ha⟩
  · rintro ⟨hfault, identity, hi, rfl⟩
    obtain ⟨inputs, hread, hidentity⟩ := identifies_iff.1 hi
    rw [hread, Except.ok_bind, Inputs.outcome_construct, DecoderInForce.decode_standard, hfault,
      hidentity] at houtcome
    rw [Handle.ofAttempt, houtcome]
    rfl

end EncodedInputs

namespace Handle

theorem exported_eq_ok_some_iff {α : Type} {toDer : α → Except Der.Error Octets} {x : Option α}
    {d : Octets} : exported toDer x = .ok (some d) ↔ ∃ a, x = some a ∧ toDer a = .ok d := by
  cases x with
  | none => exact iff_of_false nofun nofun
  | some a =>
    have hmap : some <$> toDer a = .ok (some d) ↔ toDer a = .ok d := by
      rw [Except.map_eq_ok_iff]
      simp
    rw [exported, Except.mapError_eq_ok_iff, hmap]
    simp

theorem certificateDer_eq_ok_some_iff {h : Handle} {d : Octets} :
    h.certificateDer = .ok (some d) ↔
      ∃ c, h.anchor.certificate? = some c ∧ c.encode.length ≤ maxLength ∧ c.encode = d := by
  refine exported_eq_ok_some_iff.trans ?_
  simp only [Certificate.toDer, export?_eq_ok_iff]

theorem readCertificate_encode {o : Octets} {c : Certificate} (h : readCertificate o = .ok c) :
    c.encode.length ≤ o.length ∧ c.encode.length ≤ maxLength ∧ readCertificate c.encode = .ok c := by
  obtain ⟨-, h⟩ := readCertificate_eq_ok_iff.1 h
  obtain ⟨hle, hdecode⟩ := Certificate.decode_encode h
  obtain ⟨hl, -⟩ := Certificate.Written.takesFrom_decode.takes.of_decode_eq_ok hdecode
  exact ⟨hle, hl, readCertificate_eq_ok_iff.2 ⟨tlv_ne_nil _ _, hdecode⟩⟩

/-- A handle that exports a certificate was made from one, which is read from the export. -/
theorem eq_of_certificateDer {i : EncodedInputs} {constraints : Option Octets} {h : Handle}
    (hh : i.handle constraints = .ok h) {d : Octets} (hd : h.certificateDer = .ok (some d)) :
    ∃ c, readCertificate d = .ok c ∧ h = ⟨⟨.certificate c, constraints⟩⟩ := by
  obtain ⟨-, identity, hi, rfl⟩ := EncodedInputs.handle_eq_ok_iff.1 hh
  obtain ⟨c, hc, -, rfl⟩ := certificateDer_eq_ok_some_iff.1 hd
  cases hi with
  | certificate h =>
    cases hc
    exact ⟨_, (readCertificate_encode h).2.2, rfl⟩
  | nameAndKey ht h hk => cases hc
  | principalAndKey h hk => cases hc

theorem certificate_export_import {c : Octets} {constraints : Option Octets} {h : Handle}
    (hh : ofCertificateDer (some c) constraints = .ok h) :
    ∃ d, h.certificateDer = .ok (some d) ∧ d.length ≤ c.length ∧
      (∃ g, ofCertificateDer (some d) constraints = .ok g ∧
        g.anchor.certificate? = h.anchor.certificate? ∧ g.anchor = h.anchor ∧
        g.describe = h.describe ∧ g.certificateDer = .ok (some d)) ∧
      ∀ (i : EncodedInputs) (constraints' : Option Octets) (g : Handle),
        i.handle constraints' = .ok g → g.certificateDer = .ok (some d) →
        g.constraints = h.constraints → g = h := by
  obtain ⟨hfault, identity, hi, rfl⟩ :=
    (EncodedInputs.handle_eq_ok_iff (i := .certificate c)).1 hh
  obtain @⟨_, certificate, hc⟩ := hi
  obtain ⟨hle, hl, hread⟩ := readCertificate_encode hc
  have hd : (Handle.mk ⟨.certificate certificate, constraints⟩).certificateDer =
      .ok (some certificate.encode) :=
    certificateDer_eq_ok_some_iff.2 ⟨certificate, rfl, hl, rfl⟩
  have hagain : ofCertificateDer (some certificate.encode) constraints =
      .ok ⟨⟨.certificate certificate, constraints⟩⟩ :=
    (EncodedInputs.handle_eq_ok_iff (i := .certificate certificate.encode)).2
      ⟨hfault, _, .certificate hread, rfl⟩
  refine ⟨certificate.encode, hd, hle, ⟨_, hagain, rfl, rfl, rfl, hd⟩, ?_⟩
  intro i constraints' g hg hgd hconstraints
  obtain ⟨other, hother, rfl⟩ := eq_of_certificateDer hg hgd
  cases hother.symm.trans hread
  cases hconstraints
  rfl

/-- A version and a mark that could be left out, and an element that is passed over. -/
def roundabout : Certificate.Written where
  body := {
    version := some .v1
    serial := ⟨[0x01], by decide, by decide⟩
    signature := Anchor.acmeKey.algorithm
    issuer := ⟨[]⟩
    validity := ⟨.utc ⟨2020, 1, 1, 0, 0, 0⟩ (by decide) (by decide),
      .general ⟨2050, 1, 1, 0, 0, 0⟩ (by decide)⟩
    subject := ⟨[]⟩
    publicKey := Anchor.acmeKey
    issuerId := ⟨[⟨.context false 0, []⟩], none,
      List.forall_mem_singleton.2 ⟨false, 0, rfl, by decide⟩⟩
    subjectId := .direct none
    extensions := .direct (some [⟨⟨[0x55, 0x1d, 0x13]⟩, some false, []⟩]) }
  signatureAlgorithm := Anchor.acmeKey.algorithm
  signature := Anchor.acmeKey.key

theorem readCertificate_roundabout :
    readCertificate roundabout.octets = .ok roundabout.certificate := by
  decide +kernel

theorem certificate_export_import_roundabout :
    ∃ h d, ofCertificateDer (some roundabout.octets) (some [0x30, 0x00]) = .ok h ∧
      h.certificateDer = .ok (some d) ∧ d ≠ roundabout.octets ∧
      ofCertificateDer (some d) (some [0x30, 0x00]) = .ok h := by
  have hmade : ofCertificateDer (some roundabout.octets) (some [0x30, 0x00]) =
      .ok ⟨⟨.certificate roundabout.certificate, some [0x30, 0x00]⟩⟩ :=
    (EncodedInputs.handle_eq_ok_iff (i := .certificate roundabout.octets)).2
      ⟨by decide +kernel, _, .certificate readCertificate_roundabout, rfl⟩
  have hne : roundabout.certificate.encode ≠ roundabout.octets := by decide +kernel
  obtain ⟨d, hd, -, ⟨g, hg, -, hsame, -, -⟩, -⟩ := certificate_export_import hmade
  refine ⟨_, d, hmade, hd, ?_, ?_⟩
  · obtain ⟨c, hc, -, rfl⟩ := certificateDer_eq_ok_some_iff.1 hd
    cases hc
    exact hne
  · obtain ⟨a⟩ := g
    cases hsame
    exact hg

end Handle

end TrustAnchors
