import TrustAnchors.Proofs.Anchor.Export
import TrustAnchors.Proofs.Certificate.Stream

/-!
# Certificates in text and in memory

A certificate can be given by its octets or by the text that is written for them. The two ways
differ in what they let pass: octets behind a certificate are a fault in memory only, and an element
in search of a field is a fault in a stream only. They agree exactly on octets in which neither
occurs (`Anchor.agree_iff`).
-/

namespace TrustAnchors

open Der

variable {constraints : Option Octets} {lineEnd d o r : Octets} {c : Certificate}

/-- The text of some octets. -/
def certificateText (lineEnd d : Octets) : Octets := Pem.encode lineEnd Certificate.label d

theorem readCertificatePem_text (hend : Pem.IsLineEnd lineEnd) (hd : d ≠ []) :
    readCertificatePem (certificateText lineEnd d) =
      (Certificate.decode.decodeStream ⟨d, none⟩).mapError (.invalidCertificate ·.message) := by
  have hblank : (certificateText lineEnd d).all isBlank = false := by
    have hbegin : Pem.beginMark.all isBlank = false := by decide +kernel
    simp only [certificateText, Pem.encode, List.append_assoc, List.all_append, hbegin,
      Bool.false_and]
  rw [readCertificatePem, hblank, certificateText, Certificate.ofPem_encode hend hd]
  rfl

theorem readCertificate_of_ne_nil (hd : d ≠ []) :
    readCertificate d =
      (Certificate.decode.decode d).mapError (.invalidCertificate ·.message) := by
  have hempty : d.isEmpty = false := by simpa using hd
  rw [readCertificate, readDer, hempty]
  rfl

theorem readCertificatePem_text_eq_ok_iff (hend : Pem.IsLineEnd lineEnd) (hd : d ≠ []) :
    readCertificatePem (certificateText lineEnd d) = .ok c ↔
      ∃ o r, d = o ++ r ∧ Certificate.IsPlain o c := by
  rw [readCertificatePem_text hend hd, Except.mapError_eq_ok_iff, Certificate.decodeStream_eq_ok_iff]

theorem exists_invalidCertificate {x : Except Der.Error Certificate} {e : AnchorError}
    (h : x.mapError (AnchorError.invalidCertificate ·.message) = .error e) :
    ∃ m, e = .invalidCertificate m := by
  cases x with
  | ok c => cases h
  | error e' =>
    cases h
    exact ⟨_, rfl⟩

theorem readCertificatePem_text_error (hend : Pem.IsLineEnd lineEnd) (hd : d ≠ []) {e : AnchorError}
    (h : readCertificatePem (certificateText lineEnd d) = .error e) :
    ∃ m, e = .invalidCertificate m :=
  exists_invalidCertificate (readCertificatePem_text hend hd ▸ h)

theorem readCertificate_error (hd : d ≠ []) {e : AnchorError} (h : readCertificate d = .error e) :
    ∃ m, e = .invalidCertificate m :=
  exists_invalidCertificate (readCertificate_of_ne_nil hd ▸ h)

namespace Certificate.IsPlain

theorem ne_nil (h : IsPlain o c) : o ≠ [] := by
  obtain ⟨w, rfl, -⟩ := h
  exact tlv_ne_nil _ _

theorem readCertificate_eq_ok (h : IsPlain o c) : readCertificate o = .ok c :=
  readCertificate_eq_ok_iff.2 ⟨h.ne_nil, h.decode_eq_ok⟩

/-- What follows a plain certificate counts in memory. -/
theorem readCertificate_append (h : IsPlain o c) (hr : r ≠ []) :
    ∃ m, readCertificate (o ++ r) = .error (.invalidCertificate m) := by
  obtain ⟨e, he⟩ := h.reads.decode_append h.length_le hr
  refine ⟨e.message, ?_⟩
  rw [readCertificate_of_ne_nil (List.append_ne_nil_of_left_ne_nil h.ne_nil r), he]
  rfl

end Certificate.IsPlain

/-- A certificate with an element to pass over is refused in text. -/
theorem readCertificatePem_of_not_isPlain (hend : Pem.IsLineEnd lineEnd)
    (hc : readCertificate d = .ok c) (hn : ¬ Certificate.IsPlain d c) :
    ∃ m, readCertificatePem (certificateText lineEnd d) = .error (.invalidCertificate m) := by
  have hd := (readCertificate_eq_ok_iff.1 hc).1
  cases ht : readCertificatePem (certificateText lineEnd d) with
  | error e =>
    obtain ⟨m, rfl⟩ := readCertificatePem_text_error hend hd ht
    exact ⟨m, rfl⟩
  | ok b =>
    obtain ⟨o, r, rfl, hb⟩ := (readCertificatePem_text_eq_ok_iff hend hd).1 ht
    by_cases hr : r = []
    · subst hr
      rw [List.append_nil] at hc hn
      cases hc.symm.trans hb.readCertificate_eq_ok
      exact absurd hb hn
    · obtain ⟨m, hm⟩ := hb.readCertificate_append hr
      cases hc.symm.trans hm

namespace Anchor

theorem outcome_ofCertificateDer (constraints : Option Octets) (d : Octets) :
    (ofCertificateDer constraints d).outcome = readCertificate d >>= fun c =>
      (ofCertificate .standard constraints c).outcome :=
  Attempt.outcome_bind _ _

theorem outcome_ofCertificatePem (constraints : Option Octets) (text : Octets) :
    (ofCertificatePem constraints text).outcome = readCertificatePem text >>= fun c =>
      (ofCertificate .standard constraints c).outcome :=
  Attempt.outcome_bind _ _

/-- The outcomes of two ways from the octets `d` to an anchor do not differ, unless by the message
that tells what is wrong with the certificate. -/
structure Agree (constraints : Option Octets) (d : Octets)
    (inText inMemory : Except AnchorError Anchor) : Prop where
  succeeds_iff : (∃ a, inText = .ok a) ↔ ∃ a, inMemory = .ok a
  equal {a b : Anchor} : inText = .ok a → inMemory = .ok b → a = b
  rejected {c : Certificate} : readCertificate d = .ok c →
    constraintsFault? NameConstraints.ofDer constraints ≠ none →
      ∃ m, inText = .error (.invalidNameConstraints m) ∧
        inMemory = .error (.invalidNameConstraints m)
  undecoded {e : AnchorError} : readCertificate d = .error e →
    (∃ m, inText = .error (.invalidCertificate m)) ∧ ∃ m, inMemory = .error (.invalidCertificate m)

/-- Once there is a certificate, constraints are all that can be at fault. -/
theorem ofCertificate_cases (constraints : Option Octets) (c : Certificate) :
    constraintsFault? NameConstraints.ofDer constraints = none ∧
        (ofCertificate .standard constraints c).outcome =
          .ok ⟨.certificate c, constraints⟩ ∨
      constraintsFault? NameConstraints.ofDer constraints ≠ none ∧
        ∃ m, (ofCertificate .standard constraints c).outcome =
          .error (.invalidNameConstraints m) := by
  rw [outcome_ofCertificate, DecoderInForce.decode_standard]
  cases hf : constraintsFault? NameConstraints.ofDer constraints with
  | none => exact .inl ⟨rfl, rfl⟩
  | some e =>
    obtain ⟨m, rfl⟩ := eq_invalidNameConstraints_of_constraintsFault? hf
    exact .inr ⟨nofun, m, rfl⟩

theorem agree_of_isPlain (hend : Pem.IsLineEnd lineEnd) (h : Certificate.IsPlain d c) :
    Agree constraints d (ofCertificatePem constraints (certificateText lineEnd d)).outcome
      (ofCertificateDer constraints d).outcome := by
  have hmemory := h.readCertificate_eq_ok
  have htext : readCertificatePem (certificateText lineEnd d) = .ok c :=
    (readCertificatePem_text_eq_ok_iff hend h.ne_nil).2 ⟨d, [], (List.append_nil d).symm, h⟩
  rw [outcome_ofCertificatePem, outcome_ofCertificateDer, htext, hmemory, Except.ok_bind]
  refine ⟨Iff.rfl, fun ha hb => Except.ok.inj (ha.symm.trans hb), fun _ hf => ?_, fun he => ?_⟩
  · rcases ofCertificate_cases constraints c with ⟨hnone, -⟩ | ⟨-, m, hm⟩
    · exact absurd hnone hf
    · exact ⟨m, hm, hm⟩
  · cases hmemory.symm.trans he

/-- Where neither way finds a certificate, they agree. -/
theorem agree_of_undecoded {e : AnchorError} {m m' : String} (h : readCertificate d = .error e) :
    Agree constraints d (.error (.invalidCertificate m)) (.error (.invalidCertificate m')) where
  succeeds_iff := by simp only [reduceCtorEq, exists_false]
  equal ha := by cases ha
  rejected hc := by cases h.symm.trans hc
  undecoded _ := ⟨⟨m, rfl⟩, m', rfl⟩

/-- Octets behind a plain certificate do not count in text. -/
theorem Agree.eq_nil {inMemory : Except AnchorError Anchor} (hend : Pem.IsLineEnd lineEnd)
    (hc : Certificate.IsPlain o c)
    (h : Agree constraints (o ++ r)
      (ofCertificatePem constraints (certificateText lineEnd (o ++ r))).outcome inMemory) :
    r = [] := by
  by_contra hr
  obtain ⟨m, hm⟩ := hc.readCertificate_append hr
  obtain ⟨⟨m', hm'⟩, -⟩ := h.undecoded hm
  have hne := List.append_ne_nil_of_left_ne_nil hc.ne_nil r
  have htext := (readCertificatePem_text_eq_ok_iff hend hne).2 ⟨o, r, rfl, hc⟩
  rw [outcome_ofCertificatePem, htext, Except.ok_bind] at hm'
  rcases ofCertificate_cases constraints c with ⟨-, hok⟩ | ⟨-, n, hn⟩
  · cases hm'.symm.trans hok
  · cases hm'.symm.trans hn

/-- Nothing can be passed over in text. -/
theorem Agree.isPlain (hend : Pem.IsLineEnd lineEnd) (hc : readCertificate d = .ok c)
    (h : Agree constraints d (ofCertificatePem constraints (certificateText lineEnd d)).outcome
      (ofCertificateDer constraints d).outcome) : Certificate.IsPlain d c := by
  by_contra hn
  obtain ⟨m, hm⟩ := readCertificatePem_of_not_isPlain hend hc hn
  have htext : (ofCertificatePem constraints (certificateText lineEnd d)).outcome =
      .error (.invalidCertificate m) := by
    rw [outcome_ofCertificatePem, hm, Except.error_bind]
  rcases ofCertificate_cases constraints c with ⟨-, hok⟩ | ⟨hf, -⟩
  · obtain ⟨a, ha⟩ := h.succeeds_iff.2
      ⟨_, by rw [outcome_ofCertificateDer, hc, Except.ok_bind, hok]⟩
    cases htext.symm.trans ha
  · obtain ⟨n, hn, -⟩ := h.rejected hc hf
    cases htext.symm.trans hn

/-- The ways agree exactly if no plain certificate is followed by more octets and a certificate that
is accepted in memory is plain. -/
theorem agree_iff (hend : Pem.IsLineEnd lineEnd) (hd : d ≠ []) :
    Agree constraints d (ofCertificatePem constraints (certificateText lineEnd d)).outcome
        (ofCertificateDer constraints d).outcome ↔
      (∀ o r c, d = o ++ r → Certificate.IsPlain o c → r = []) ∧
        ∀ c, readCertificate d = .ok c → Certificate.IsPlain d c := by
  constructor
  · intro h
    refine ⟨?_, fun c hc => h.isPlain hend hc⟩
    rintro o r c rfl hc
    exact h.eq_nil hend hc
  · rintro ⟨hfollow, hplain⟩
    cases hmemory : readCertificate d with
    | ok c => exact agree_of_isPlain hend (hplain c hmemory)
    | error e =>
      cases htext : readCertificatePem (certificateText lineEnd d) with
      | ok c =>
        obtain ⟨o, r, rfl, hc⟩ := (readCertificatePem_text_eq_ok_iff hend hd).1 htext
        obtain rfl := hfollow o r c rfl hc
        rw [List.append_nil] at hmemory
        cases hmemory.symm.trans hc.readCertificate_eq_ok
      | error e' =>
        obtain ⟨m, rfl⟩ := readCertificate_error hd hmemory
        obtain ⟨m', rfl⟩ := readCertificatePem_text_error hend hd htext
        rw [outcome_ofCertificatePem, outcome_ofCertificateDer, htext, hmemory, Except.error_bind,
          Except.error_bind]
        exact agree_of_undecoded hmemory

theorem agree_roundabout :
    readCertificate Handle.roundabout.certificate.encode = .ok Handle.roundabout.certificate ∧
      Agree (some [0x30, 0x00]) Handle.roundabout.certificate.encode
        (ofCertificatePem (some [0x30, 0x00])
          (certificateText [Ascii.carriageReturn, Ascii.lineFeed]
            Handle.roundabout.certificate.encode)).outcome
        (ofCertificateDer (some [0x30, 0x00]) Handle.roundabout.certificate.encode).outcome := by
  have hplain := Certificate.isPlain_encode (readCertificate_eq_ok_iff.1 Handle.readCertificate_roundabout).2
  refine ⟨hplain.readCertificate_eq_ok, (agree_iff .both hplain.ne_nil).2 ⟨?_, ?_⟩⟩
  · intro o r c ho hc
    exact (hplain.unique hc (by rw [List.append_nil, ho])).2.2.symm
  · intro c hc
    cases hplain.readCertificate_eq_ok.symm.trans hc
    exact hplain

/-- In text an octet behind the certificate does not count, but an element to pass over does. -/
theorem ofCertificatePem_differs :
    (ofCertificatePem none (certificateText [Ascii.lineFeed]
        (Handle.roundabout.certificate.encode ++ [0x00]))).outcome =
      .ok ⟨.certificate Handle.roundabout.certificate, none⟩ ∧
    (ofCertificateDer none (Handle.roundabout.certificate.encode ++ [0x00])).outcome =
      .error (.invalidCertificate
        "trailing data at end of DER message: decoded 87 bytes, 1 bytes remaining") ∧
    (ofCertificatePem none (certificateText [Ascii.lineFeed] Handle.roundabout.octets)).outcome =
      .error (.invalidCertificate "reader does not support the requested operation") ∧
    (ofCertificateDer none Handle.roundabout.octets).outcome =
      .ok ⟨.certificate Handle.roundabout.certificate, none⟩ := by
  have hread := Handle.readCertificate_roundabout
  have hplain := Certificate.isPlain_encode (readCertificate_eq_ok_iff.1 hread).2
  refine ⟨?_, ?_, ?_, ?_⟩
  · rw [outcome_ofCertificatePem, (readCertificatePem_text_eq_ok_iff .lineFeed (by simp)).2
      ⟨_, _, rfl, hplain⟩]
    rfl
  · decide +kernel
  · rw [outcome_ofCertificatePem, readCertificatePem_text .lineFeed (by decide +kernel)]
    decide +kernel
  · rw [outcome_ofCertificateDer, hread]
    rfl

end Anchor

end TrustAnchors
