import TrustAnchors.Proofs.Anchor.Export

/-!
# Export and import of principals and keys

A handle with a key exports that key octet by octet. The principal that it exports can be imported
if all types of attributes in it are such as the decoder of identifiers accepts, which is so if it
was imported itself; a principal that was made from text need not be of that kind
(`Handle.key_export_import`).
-/

namespace TrustAnchors

open Der

theorem readPrincipal_eq_ok_iff {der : Octets} {n : Name} :
    readPrincipal der = .ok n ↔ der ≠ [] ∧ Name.decode.decode der = .ok n :=
  readDer_eq_ok_iff

theorem readPublicKey_eq_ok_iff {der : Octets} {k : PublicKey} :
    readPublicKey der = .ok k ↔ der ≠ [] ∧ PublicKey.decode.decode der = .ok k :=
  readDer_eq_ok_iff

/-- The encoding of a principal can be read just if the principal is readable. -/
theorem readPrincipal_encode_eq_ok_iff {n m : Name} (hl : n.encode.length ≤ maxLength) :
    readPrincipal n.encode = .ok m ↔ n.IsReadable ∧ n = m := by
  rw [readPrincipal_eq_ok_iff, Name.decode_encode_eq_ok_iff hl]
  exact and_iff_right (tlv_ne_nil _ _)

theorem readPrincipal_encode_of_not_isReadable {n : Name} (hl : n.encode.length ≤ maxLength)
    (hn : ¬ n.IsReadable) :
    ∃ e : Der.Error, readPrincipal n.encode = .error (.invalidName e.message) := by
  have hne : n.encode.isEmpty = false := rfl
  cases hd : Name.decode.decode n.encode with
  | ok m => exact absurd ((Name.decode_encode_eq_ok_iff hl).1 hd).1 hn
  | error e =>
    refine ⟨e, ?_⟩
    rw [readPrincipal, readDer, hne, hd]
    rfl

/-- The octets `d` encode the name that the octets `p` are a form of, with the attributes of each
relative name in order. -/
def Name.IsSortingOf (d p : Octets) : Prop :=
  ∃ w : Written, w.octets = p ∧ w.name.encode = d ∧ (d = p ↔ w.Sorted) ∧
    ∀ r ∈ w.relatives,
      r.relative.attributes.Perm r.attributes ∧ Attribute.Ascending r.relative.attributes

namespace EncodedInputs

/-- The key among the inputs. -/
def key? : EncodedInputs → Option Octets
  | certificate _ => none
  | nameAndKey _ key | principalAndKey _ key => some key

theorem handle_eq_error {i : EncodedInputs} {e : AnchorError} (h : i.read = .error e)
    (constraints : Option Octets) : i.handle constraints = .error (.ofAnchorError e) := by
  obtain ⟨y, hhandle, hroute⟩ := i.exists_route_handle constraints
  have houtcome := hroute.outcome_eq
  rw [h, Except.error_bind] at houtcome
  rw [hhandle, Handle.ofAttempt, houtcome]

end EncodedInputs

namespace Handle

variable {d k : Octets}

theorem principalDer_eq_ok_some_iff {h : Handle} :
    h.principalDer = .ok (some d) ↔
      ∃ n, h.anchor.principal? = some n ∧ n.encode.length ≤ maxLength ∧ n.encode = d := by
  refine exported_eq_ok_some_iff.trans ?_
  simp only [Name.toDer, export?_eq_ok_iff]

theorem publicKeyDer_eq_ok_some_iff {h : Handle} :
    h.publicKeyDer = .ok (some k) ↔
      ∃ key, h.anchor.publicKey? = some key ∧ key.encode.length ≤ maxLength ∧ key.encode = k := by
  refine exported_eq_ok_some_iff.trans ?_
  simp only [PublicKey.toDer, export?_eq_ok_iff]

theorem publicKeyDer_of_readPublicKey {h : Handle} {key : PublicKey}
    (hkey : h.anchor.publicKey? = some key) (hk : readPublicKey k = .ok key) :
    h.publicKeyDer = .ok (some k) := by
  obtain ⟨-, hk⟩ := readPublicKey_eq_ok_iff.1 hk
  obtain ⟨rfl, -, hl⟩ := PublicKey.decode_eq_ok_iff.1 hk
  exact publicKeyDer_eq_ok_some_iff.2 ⟨key, hkey, hl, rfl⟩

theorem ofPrincipalDerAndKey_eq_ok {principal : Name} {key : PublicKey}
    {constraints : Option Octets} (hd : readPrincipal d = .ok principal)
    (hk : readPublicKey k = .ok key)
    (hc : constraintsFault? NameConstraints.ofDer constraints = none) :
    ofPrincipalDerAndKey (some d) (some k) constraints =
      .ok ⟨⟨.principalAndKey principal.text principal key, constraints⟩⟩ :=
  (EncodedInputs.handle_eq_ok_iff (i := .principalAndKey d k)).2 ⟨hc, _, .principalAndKey hd hk, rfl⟩

/-- `g` stands for the authority of `h`, by the encodings `d` and `k`, which bring it back. -/
structure SameAuthority (h g : Handle) (d k : Octets) : Prop where
  kind_eq : g.kind = .principalAndKey
  principal_eq : g.anchor.principal? = h.anchor.principal?
  publicKey_eq : g.anchor.publicKey? = h.anchor.publicKey?
  principalDer_eq : g.principalDer = .ok (some d)
  publicKeyDer_eq : g.publicKeyDer = .ok (some k)
  name_eq : g.name? = h.anchor.principal?.map (·.text)
  again : ofPrincipalDerAndKey (some d) (some k) g.constraints = .ok g

/-- What becomes of the exports of a handle that was made with the key `k`. -/
structure Exchanges (i : EncodedInputs) (h : Handle) (k : Octets) (principal : Name) : Prop where
  principal_eq : h.anchor.principal? = some principal
  publicKeyDer_eq : h.publicKeyDer = .ok (some k)
  imported {d : Octets} (hd : h.principalDer = .ok (some d)) (hn : principal.IsReadable)
    {constraints : Option Octets}
    (hc : constraintsFault? NameConstraints.ofDer constraints = none) :
    ∃ g, ofPrincipalDerAndKey (some d) (some k) constraints = .ok g ∧
      g.constraints = constraints ∧ h.SameAuthority g d k
  refused {d : Octets} (hd : h.principalDer = .ok (some d)) (hn : ¬ principal.IsReadable)
    (constraints : Option Octets) :
    ∃ e : Der.Error, ofPrincipalDerAndKey (some d) (some k) constraints =
      .error (.ofAnchorError (.invalidName e.message))
  ofPrincipal {p : Octets} (hp : i = .principalAndKey p k) :
    principal.IsReadable ∧ ∃ d, h.principalDer = .ok (some d) ∧ Name.IsSortingOf d p

theorem imported_of_isReadable {h : Handle} {principal : Name} {key : PublicKey}
    (hprincipal : h.anchor.principal? = some principal) (hkey : h.anchor.publicKey? = some key)
    (hk : readPublicKey k = .ok key) (hd : h.principalDer = .ok (some d))
    (hn : principal.IsReadable) {constraints : Option Octets}
    (hc : constraintsFault? NameConstraints.ofDer constraints = none) :
    ∃ g, ofPrincipalDerAndKey (some d) (some k) constraints = .ok g ∧
      g.constraints = constraints ∧ h.SameAuthority g d k := by
  obtain ⟨n, hn', hl, rfl⟩ := principalDer_eq_ok_some_iff.1 hd
  cases hprincipal.symm.trans hn'
  have hread := (readPrincipal_encode_eq_ok_iff hl).2 ⟨hn, rfl⟩
  have hg := ofPrincipalDerAndKey_eq_ok hread hk hc
  refine ⟨_, hg, rfl, rfl, hprincipal.symm, hkey.symm, ?_, ?_, ?_, hg⟩
  · exact principalDer_eq_ok_some_iff.2 ⟨principal, rfl, hl, rfl⟩
  · exact publicKeyDer_of_readPublicKey rfl hk
  · rw [hprincipal]
    rfl

theorem refused_of_not_isReadable {h : Handle} {principal : Name}
    (hprincipal : h.anchor.principal? = some principal) (hd : h.principalDer = .ok (some d))
    (hn : ¬ principal.IsReadable) (constraints : Option Octets) :
    ∃ e : Der.Error, ofPrincipalDerAndKey (some d) (some k) constraints =
      .error (.ofAnchorError (.invalidName e.message)) := by
  obtain ⟨n, hn', hl, rfl⟩ := principalDer_eq_ok_some_iff.1 hd
  cases hprincipal.symm.trans hn'
  obtain ⟨e, he⟩ := readPrincipal_encode_of_not_isReadable hl hn
  have hread : (EncodedInputs.principalAndKey principal.encode k).read =
      .error (.invalidName e.message) := by
    rw [EncodedInputs.read, he]
    rfl
  exact ⟨e, EncodedInputs.handle_eq_error hread constraints⟩

theorem principalDer_of_readPrincipal {h : Handle} {p : Octets} {principal : Name}
    (hprincipal : h.anchor.principal? = some principal) (hp : readPrincipal p = .ok principal) :
    principal.IsReadable ∧ ∃ d, h.principalDer = .ok (some d) ∧ Name.IsSortingOf d p := by
  obtain ⟨-, hp⟩ := readPrincipal_eq_ok_iff.1 hp
  obtain ⟨hl, w, rfl, rfl⟩ := Name.Written.takes_decode.of_decode_eq_ok hp
  refine ⟨Name.yields_decode.of_decode_eq_ok hp, w.name.encode, ?_, ?_⟩
  · exact principalDer_eq_ok_some_iff.2 ⟨w.name, hprincipal, w.length_octets ▸ hl, rfl⟩
  · refine ⟨w, rfl, rfl, w.encode_eq_iff hl, fun r _ => ?_⟩
    exact ⟨RelativeName.perm_of_ofList? r.ofList?_eq, r.relative.ascending⟩

theorem key_export_import {i : EncodedInputs} {constraints : Option Octets} {h : Handle}
    (hk : i.key? = some k) (hh : i.handle constraints = .ok h) :
    ∃ principal, Exchanges i h k principal := by
  obtain ⟨-, identity, hi, rfl⟩ := EncodedInputs.handle_eq_ok_iff.1 hh
  cases hi with
  | certificate hc => cases hk
  | @nameAndKey text principal key' key ht hp hkey =>
    cases hk
    exact ⟨principal, rfl, publicKeyDer_of_readPublicKey rfl hkey,
      imported_of_isReadable rfl rfl hkey, refused_of_not_isReadable rfl, nofun⟩
  | @principalAndKey p principal key' key hp hkey =>
    cases hk
    refine ⟨principal, rfl, publicKeyDer_of_readPublicKey rfl hkey,
      imported_of_isReadable rfl rfl hkey, refused_of_not_isReadable rfl, ?_⟩
    rintro _ ⟨⟩
    exact principalDer_of_readPrincipal rfl hp

theorem key_export_import_acme :
    ∃ h d g, ofNameAndKey (some "O=Acme") (some Anchor.acmeKey.encode) none = .ok h ∧
      h.principalDer = .ok (some d) ∧
      ofPrincipalDerAndKey (some d) (some Anchor.acmeKey.encode) (some [0x30, 0x00]) = .ok g ∧
      h.SameAuthority g d Anchor.acmeKey.encode := by
  have hmade : ofNameAndKey (some "O=Acme") (some Anchor.acmeKey.encode) none =
      .ok ⟨⟨Anchor.acme.identity, none⟩⟩ := by decide +kernel
  obtain ⟨principal, hexchanges⟩ := key_export_import
    (i := .nameAndKey "O=Acme" Anchor.acmeKey.encode) (h := ⟨⟨Anchor.acme.identity, none⟩⟩) rfl hmade
  obtain rfl := Option.some.inj hexchanges.principal_eq
  have hd : (Handle.mk ⟨Anchor.acme.identity, none⟩).principalDer =
      .ok (some [0x30, 0x0f, 0x31, 0x0d, 0x30, 0x0b, 0x06, 0x03, 0x55, 0x04, 0x0a, 0x0c, 0x04,
        0x41, 0x63, 0x6d, 0x65]) := by decide +kernel
  have hc : constraintsFault? NameConstraints.ofDer (some [0x30, 0x00]) = none := by decide +kernel
  obtain ⟨g, hg, -, hsame⟩ := hexchanges.imported hd (by decide +kernel) hc
  exact ⟨_, _, g, hmade, hd, hg, hsame⟩

/-- An identifier of two octets is written, but not read. -/
theorem import_two_octet_type :
    ∃ h d, ofNameAndKey (some "2.5.4=x") (some Anchor.acmeKey.encode) none = .ok h ∧
      h.principalDer = .ok (some d) ∧
      ofPrincipalDerAndKey (some d) (some Anchor.acmeKey.encode) none =
        .error (.invalidArgument "invalid authority name: malformed OID") := by
  refine ⟨⟨⟨.nameAndKey "2.5.4=x" ⟨[⟨[⟨⟨[0x55, 0x04]⟩, ⟨.utf8String, [0x78]⟩⟩], by decide⟩]⟩
    Anchor.acmeKey, none⟩⟩, [0x30, 0x0b, 0x31, 0x09, 0x30, 0x07, 0x06, 0x02, 0x55, 0x04, 0x0c, 0x01,
      0x78], ?_⟩
  decide +kernel

end Handle

end TrustAnchors
