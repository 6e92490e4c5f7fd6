import TrustAnchors.Proofs.Certificate.Fields

/-!
# Certificates as they are written

A written form of a certificate (`Certificate.Written`) keeps what the decoder does not tell: whether
the first version and the mark of an extension are written out, the order of the attributes of its
names, and the elements passed over in search of the three fields at the end. The decoder takes a
written form, with nothing to pass over if it reads a stream (`Certificate.Written.takesFrom_decode`).
The encoder writes a form that is not longer, and a certificate that was decoded is read from it
(`Certificate.IsReadable.reads_encode`).
-/

namespace TrustAnchors

open Der Decoder

namespace Certificate.Body

/-- The identifiers in it are such as the decoder accepts. -/
structure IsReadable (b : Body) : Prop where
  signature : b.signature.IsReadable
  issuer : b.issuer.IsReadable
  subject : b.subject.IsReadable
  publicKey : b.publicKey.IsReadable
  extensions : ∀ es ∈ b.extensions, ∀ e ∈ es, e.IsReadable

theorem yields_decode : Yields IsReadable decode := by
  refine Yields.sequence ?_
  refine yields_bind fun version => yields_bind fun serial => ?_
  refine AlgorithmIdentifier.yields_decode.bind fun signature hsignature => ?_
  refine Name.yields_decode.bind fun issuer hissuer => yields_bind fun validity => ?_
  refine Name.yields_decode.bind fun subject hsubject => ?_
  refine PublicKey.yields_decode.bind fun key hkey => ?_
  refine yields_bind fun issuerId => yields_bind fun subjectId => ?_
  refine (Extension.yields_decode.many.sequence.explicit? 3).bind fun extensions hextensions => ?_
  exact yields_pure ⟨hsignature, hissuer, hsubject, hkey, hextensions⟩

structure Written where
  version : Option Version
  serial : SerialNumber
  signature : AlgorithmIdentifier
  issuer : Name.Written
  validity : Validity
  subject : Name.Written
  publicKey : PublicKey
  issuerId : Sought 1 BitString
  subjectId : Sought 2 BitString
  extensions : Sought 3 (List Extension.Written)

namespace Written

variable (w : Written)

def body : Body where
  version := w.version.getD .v1
  serial := w.serial
  signature := w.signature
  issuer := w.issuer.name
  validity := w.validity
  subject := w.subject.name
  publicKey := w.publicKey
  issuerId := w.issuerId.field
  subjectId := w.subjectId.field
  extensions := w.extensions.field.map (·.map (·.extension))

def encodeExtensions (es : List Extension.Written) : Octets :=
  explicitly 3 (tlv .sequence (es.flatMap (·.octets)))

def octets : Octets :=
  tlv .sequence <|
    w.version.elim [] (explicitly 0 ·.encode) ++
    w.serial.encode ++ w.signature.encode ++ w.issuer.octets ++ w.validity.encode ++
    w.subject.octets ++ w.publicKey.encode ++
    w.issuerId.encode (encodeId 1) ++ w.subjectId.encode (encodeId 2) ++
    w.extensions.encode encodeExtensions

/-- No element is passed over. -/
structure PassesNothing : Prop where
  issuerId : w.issuerId.passed = []
  subjectId : w.subjectId.passed = []
  extensions : w.extensions.passed = []

theorem takesFrom_decode :
    TakesFrom (fun source w => source ≠ .memory → w.PassesNothing) octets body decode := by
  refine TakesFrom.sequence ?_
  intro c b c' h
  obtain ⟨version, c₁, hversion, h⟩ := bind_eq_ok_iff.1 h
  obtain ⟨serial, c₂, hserial, h⟩ := bind_eq_ok_iff.1 h
  obtain ⟨signature, c₃, hsignature, h⟩ := bind_eq_ok_iff.1 h
  obtain ⟨issuer, c₄, hissuer, h⟩ := bind_eq_ok_iff.1 h
  obtain ⟨validity, c₅, hvalidity, h⟩ := bind_eq_ok_iff.1 h
  obtain ⟨subject, c₆, hsubject, h⟩ := bind_eq_ok_iff.1 h
  obtain ⟨key, c₇, hkey, h⟩ := bind_eq_ok_iff.1 h
  obtain ⟨issuerId, c₈, hissuerId, h⟩ := bind_eq_ok_iff.1 h
  obtain ⟨subjectId, c₉, hsubjectId, h⟩ := bind_eq_ok_iff.1 h
  obtain ⟨extensions, c₁₀, hextensions, h⟩ := bind_eq_ok_iff.1 h
  obtain ⟨rfl, rfl⟩ := of_pure_eq_ok h
  obtain ⟨es, x, hes, rfl, hx⟩ := of_explicit?_eq_ok Version.takes_decode hversion
  rw [eq_nil_of_passed_zero hes] at hx
  obtain ⟨wi, rfl, hwi⟩ := Name.Written.takes_decode hissuer
  obtain ⟨ws, rfl, hws⟩ := Name.Written.takes_decode hsubject
  obtain ⟨si, rfl, hfromIssuer, hsi⟩ := BitString.takesContent_value.implicit? hissuerId
  obtain ⟨ss, rfl, hfromSubject, hss⟩ := BitString.takesContent_value.implicit? hsubjectId
  obtain ⟨se, rfl, hfromExtensions, hse⟩ :=
    Extension.Written.takes_decode.many.sequence.explicit? hextensions
  -- The octets of the fields in their order, each with what comes before it.
  have h₂ := hx.trans (SerialNumber.takes_decode.moves hserial)
  have h₄ := (h₂.trans (AlgorithmIdentifier.takes_decode.moves hsignature)).trans hwi
  have h₆ := (h₄.trans (Validity.takes_decode.moves hvalidity)).trans hws
  have h₇ := h₆.trans (PublicKey.takes_decode.moves hkey)
  have h₈ := h₇.trans hsi
  have h₉ := h₈.trans hss
  refine ⟨⟨x, serial, signature, wi, validity, ws, key, si, ss, se⟩, ?_, fun hs => ?_,
    h₉.trans hse⟩
  · simp only [body, Option.map_id, id]
  · exact ⟨hfromIssuer (h₇.source_eq ▸ hs), hfromSubject (h₈.source_eq ▸ hs),
      hfromExtensions (h₉.source_eq ▸ hs)⟩

/-- A form with nothing to pass over is read, whatever follows and wherever it comes from. -/
theorem reads_octets (hp : w.PassesNothing) (h : w.body.IsReadable) :
    Reads decode w.octets w.body := by
  have hversion : ReadsBefore (NoContext 0) (explicit? 0 Version.decode)
      (w.version.elim [] fun v => explicitly 0 v.encode) (w.version.map id) :=
    reads_explicit? (by decide) (fun _ h => h) fun v _ => v.reads_encode.before
  have hid {number : Nat} (hn : number < 31) (x : Option BitString) :
      ReadsBefore (NoContext number) (implicit? number false BitString.value)
        (x.elim [] (encodeId number)) (x.map id) :=
    reads_implicit? hn (fun _ h => h) fun s _ => s.reads_value
  have hextensions : ReadsBefore (NoContext 3)
      (explicit? 3 (Decoder.sequence (many Extension.decode)))
      (w.extensions.field.elim [] encodeExtensions) w.body.extensions := by
    refine reads_explicit? (by decide) (fun _ h => h) fun es hes => ?_
    refine ReadsToEnd.sequence (readsToEnd_many (fun _ => tlv_ne_nil _ _) fun e he => ?_)
    refine e.reads_octets (h.extensions (es.map (·.extension)) ?_ _ (List.mem_map_of_mem he))
    exact Option.mem_map_of_mem _ hes
  rw [Option.map_id] at hversion
  simp only [Option.map_id] at hid
  refine ReadsToEnd.sequence ?_
  rw [Sought.encode_of_passed_eq_nil hp.issuerId, Sought.encode_of_passed_eq_nil hp.subjectId,
    Sought.encode_of_passed_eq_nil hp.extensions]
  simp only [List.append_assoc]
  refine hversion.bind ?_ fun r _ => List.append_assoc _ _ r ▸ noContext_tlv _ _ nofun
  refine w.serial.reads_encode.bind (h.signature.reads_encode.bind ?_)
  refine (w.issuer.reads_octets h.issuer).bind (w.validity.reads_encode.bind ?_)
  refine (w.subject.reads_octets h.subject).bind (h.publicKey.reads_encode.bind ?_)
  -- Each of the last three fields is followed by later ones or by the end.
  refine (hid (by decide) w.issuerId.field).bind ?_ ?_
  · refine (hid (by decide) w.subjectId.field).bind ?_ ?_
    · exact (hextensions.mono fun r hr => .inl hr).bind_nil (reads_pure w.body)
    · rintro r rfl
      exact noContext_field (by decide) (by decide) true w.extensions.field (.inl rfl)
  · rintro r rfl
    rw [List.append_assoc]
    refine noContext_field (by decide) (by decide) false w.subjectId.field ?_
    exact noContext_field (by decide) (by decide) true w.extensions.field (.inl rfl)

theorem length_encode_le : w.body.encode.length ≤ w.octets.length := by
  have hversion : (if w.body.version = .v1 then [] else
      explicitly 0 w.body.version.encode).length ≤
        (w.version.elim [] (explicitly 0 ·.encode)).length := by
    obtain ⟨_ | _ | _ | _, _⟩ := w
    · exact Nat.le_refl _
    · exact Nat.zero_le _
    · exact Nat.le_refl _
    · exact Nat.le_refl _
  have hextensions : (w.body.extensions.elim [] fun es =>
      explicitly 3 (tlv .sequence (es.flatMap Extension.encode))).length ≤
        (w.extensions.encode encodeExtensions).length := by
    refine Nat.le_trans ?_ (Sought.length_field_le _ _)
    rw [body, Option.elim_map]
    refine Octets.length_elim_mono fun es _ => length_tlv_mono (length_tlv_mono ?_)
    rw [List.flatMap_map]
    exact Octets.length_flatMap_mono fun e _ => e.length_encode_le
  have hsignature := Octets.length_append_mono
    (Octets.length_append_mono hversion (Nat.le_refl w.serial.encode.length))
    (Nat.le_refl w.signature.encode.length)
  have hvalidity := Octets.length_append_mono
    (Octets.length_append_mono hsignature (Nat.le_of_eq w.issuer.length_octets))
    (Nat.le_refl w.validity.encode.length)
  have hkey := Octets.length_append_mono
    (Octets.length_append_mono hvalidity (Nat.le_of_eq w.subject.length_octets))
    (Nat.le_refl w.publicKey.encode.length)
  have hids := Octets.length_append_mono
    (Octets.length_append_mono hkey (w.issuerId.length_field_le (encodeId 1)))
    (w.subjectId.length_field_le (encodeId 2))
  exact length_tlv_mono (Octets.length_append_mono hids hextensions)

end Written

/-- The form that the encoder writes. -/
def written (b : Body) : Written where
  version := if b.version = .v1 then none else some b.version
  serial := b.serial
  signature := b.signature
  issuer := b.issuer.written
  validity := b.validity
  subject := b.subject.written
  publicKey := b.publicKey
  issuerId := .direct b.issuerId
  subjectId := .direct b.subjectId
  extensions := .direct (b.extensions.map (·.map Extension.written))

theorem passesNothing_written (b : Body) : b.written.PassesNothing := ⟨rfl, rfl, rfl⟩

@[simp] theorem body_written (b : Body) : b.written.body = b := by
  obtain ⟨version, _, _, issuer, _, subject, _, _, _, extensions⟩ := b
  cases version <;> cases extensions <;>
    simp [written, Written.body, Function.comp_def]

@[simp] theorem octets_written (b : Body) : b.written.octets = b.encode := by
  obtain ⟨version, _, _, issuer, _, subject, _, _, _, extensions⟩ := b
  cases version <;> cases extensions <;>
    simp [written, Written.octets, encode, Written.encodeExtensions, List.flatMap_map]

end Certificate.Body

namespace Certificate

structure IsReadable (c : Certificate) : Prop where
  body : c.body.IsReadable
  signatureAlgorithm : c.signatureAlgorithm.IsReadable

theorem yields_decode : Yields IsReadable decode := by
  refine Yields.sequence (Body.yields_decode.bind fun body hbody => ?_)
  refine AlgorithmIdentifier.yields_decode.bind fun algorithm halgorithm => ?_
  exact yields_bind fun _ => yields_pure ⟨hbody, halgorithm⟩

structure Written where
  body : Body.Written
  signatureAlgorithm : AlgorithmIdentifier
  signature : BitString

namespace Written

variable (w : Written)

def certificate : Certificate := ⟨w.body.body, w.signatureAlgorithm, w.signature⟩

def octets : Octets :=
  tlv .sequence (w.body.octets ++ w.signatureAlgorithm.encode ++ w.signature.encode)

theorem takesFrom_decode :
    TakesFrom (fun source w => source ≠ .memory → w.body.PassesNothing) octets certificate
      decode := by
  refine TakesFrom.sequence ?_
  intro c a c' h
  obtain ⟨body, c₁, hbody, h⟩ := bind_eq_ok_iff.1 h
  obtain ⟨algorithm, c₂, halgorithm, h⟩ := bind_eq_ok_iff.1 h
  obtain ⟨signature, c₃, hsignature, h⟩ := bind_eq_ok_iff.1 h
  obtain ⟨rfl, rfl⟩ := of_pure_eq_ok h
  obtain ⟨w, rfl, hfrom, hw⟩ := Body.Written.takesFrom_decode hbody
  exact ⟨⟨w, algorithm, signature⟩, rfl, hfrom,
    (hw.trans (AlgorithmIdentifier.takes_decode.moves halgorithm)).trans
      (BitString.takes_decode.moves hsignature)⟩

theorem reads_octets (hp : w.body.PassesNothing) (h : w.certificate.IsReadable) :
    Reads decode w.octets w.certificate := by
  refine ReadsToEnd.sequence ?_
  rw [List.append_assoc]
  refine (w.body.reads_octets hp h.body).bind (h.signatureAlgorithm.reads_encode.bind ?_)
  exact w.signature.reads_encode.before.bind_nil (reads_pure w.certificate)

theorem length_encode_le : w.certificate.encode.length ≤ w.octets.length :=
  length_tlv_mono (Octets.length_append_mono
    (Octets.length_append_mono w.body.length_encode_le (Nat.le_refl _)) (Nat.le_refl _))

end Written

/-- The form that the encoder writes. -/
def written (c : Certificate) : Written := ⟨c.body.written, c.signatureAlgorithm, c.signature⟩

@[simp] theorem certificate_written (c : Certificate) : c.written.certificate = c := by
  simp [written, Written.certificate]

@[simp] theorem octets_written (c : Certificate) : c.written.octets = c.encode := by
  simp [written, Written.octets, encode]

theorem IsReadable.reads_encode {c : Certificate} (h : c.IsReadable) :
    Reads decode c.encode c := by
  have hreads := c.written.reads_octets c.body.passesNothing_written (by rwa [certificate_written])
  rwa [certificate_written, octets_written] at hreads

/-- What is decoded has an encoding that is not longer and from which it is decoded again. -/
theorem decode_encode {o : Octets} {c : Certificate} (h : decode.decode o = .ok c) :
    c.encode.length ≤ o.length ∧ decode.decode c.encode = .ok c := by
  obtain ⟨hl, w, rfl, rfl⟩ := Written.takesFrom_decode.takes.of_decode_eq_ok h
  have hle := w.length_encode_le
  refine ⟨hle, ?_⟩
  exact (yields_decode.of_decode_eq_ok h).reads_encode.before.decode (Nat.le_trans hle hl)

end Certificate

end TrustAnchors
