import TrustAnchors.Proofs.Anchor.Obtained

/-!
# Ways to an anchor

An authority that is given by encoded inputs can be turned into an anchor by a constructor, after
the inputs were decoded, or by a builder, which takes them encoded or decoded, or by a handle. The
steps come in different orders, but each way ends as the constructor does (`Route.outcome_eq`), with
the same anchor or the same error, and the handle shows that anchor or the text of that error
(`Route.agree`).
-/

namespace TrustAnchors

/-- What identifies an authority, with certificates, principals and keys still encoded. -/
inductive EncodedInputs where
  | certificate (certificate : Octets)
  | nameAndKey (name : String) (key : Octets)
  | principalAndKey (principal key : Octets)

/-- Decodes a principal ahead of a key. -/
def EncodedInputs.read : EncodedInputs → Except AnchorError Inputs
  | certificate c => .certificate <$> readCertificate c
  | nameAndKey name key => .nameAndKey name <$> readPublicKey key
  | principalAndKey principal key => do
    let principal ← readPrincipal principal
    return .principalAndKey principal (← readPublicKey key)

/-- How an encoded input gets into a builder. -/
inductive Handing where
  | encoded
  | parsed

def Handing.source {α : Type} (read : Octets → Except AnchorError α) (der : Octets) :
    Handing → Except AnchorError (Source α)
  | encoded => .ok (.encoded der)
  | parsed => .parsed <$> read der

open Builder in
/-- The outcomes of the ways from encoded inputs and constraints to an anchor. A builder counts by
its last settings, which have no decoder among them. Where neither a principal nor a key can be
decoded, the key is not decoded ahead of a builder that gets the principal encoded. -/
inductive Route (constraints : Option Octets) : EncodedInputs → Except AnchorError Anchor → Prop
  | constructor (i : EncodedInputs) :
      Route constraints i do
        let inputs ← i.read
        (inputs.construct .standard constraints).outcome
  | certificateDer (c : Octets) :
      Route constraints (.certificate c) (Anchor.ofCertificateDer constraints c).outcome
  | certificateBuilder (c : Octets) (handing : Handing)
      (settings : Source Certificate → List Setting)
      (h : ∀ s, lastInputs (settings s) = ⟨some s, none, none, none, constraints, none⟩) :
      Route constraints (.certificate c) do
        let s ← handing.source readCertificate c
        (ofSettings (settings s)).build.outcome
  | nameBuilder (name : String) (key : Octets) (handing : Handing)
      (settings : Source PublicKey → List Setting)
      (h : ∀ k, lastInputs (settings k) = ⟨none, some name, none, some k, constraints, none⟩) :
      Route constraints (.nameAndKey name key) do
        let k ← handing.source readPublicKey key
        (ofSettings (settings k)).build.outcome
  | principalBuilder (principal key : Octets) (handing handingKey : Handing)
      (order : handing = .encoded → handingKey = .parsed →
        (∃ p, readPrincipal principal = .ok p) ∨ ∃ k, readPublicKey key = .ok k)
      (settings : Source Name → Source PublicKey → List Setting)
      (h : ∀ p k, lastInputs (settings p k) = ⟨none, none, some p, some k, constraints, none⟩) :
      Route constraints (.principalAndKey principal key) do
        let p ← handing.source readPrincipal principal
        let k ← handingKey.source readPublicKey key
        (ofSettings (settings p k)).build.outcome

namespace EncodedInputs

/-- The handle for the inputs. -/
def handle (constraints : Option Octets) : EncodedInputs → Except Handle.Error Handle
  | certificate c => Handle.ofCertificateDer (some c) constraints
  | nameAndKey name key => Handle.ofNameAndKey (some name) (some key) constraints
  | principalAndKey principal key =>
    Handle.ofPrincipalDerAndKey (some principal) (some key) constraints

end EncodedInputs

/-- A builder gets as far as if it had been given what the input decodes to. -/
theorem Handing.bind_source_resolve {α β : Type} {read : Octets → Except AnchorError α}
    {der : Octets} (handing : Handing) (f : α → Except AnchorError β) :
    (handing.source read der >>= fun s => s.resolve read >>= f) = read der >>= f := by
  cases handing with
  | encoded => rfl
  | parsed =>
    cases h : read der with
    | error e => simp [source, h]
    | ok a => simp [source, h, Source.resolve]

theorem Handing.exists_source {α : Type} {read : Octets → Except AnchorError α} {der : Octets}
    (handing : Handing) {a : α} (h : read der = .ok a) :
    ∃ s, handing.source read der = .ok s ∧ s.resolve read = .ok a := by
  cases handing with
  | encoded => exact ⟨.encoded der, rfl, h⟩
  | parsed => exact ⟨.parsed a, by rw [source, h]; rfl, rfl⟩

namespace Route

variable {constraints : Option Octets} {i : EncodedInputs} {x : Except AnchorError Anchor}

theorem outcome_eq (h : Route constraints i x) :
    x = i.read >>= fun inputs => (inputs.construct .standard constraints).outcome := by
  cases h with
  | constructor => rfl
  | certificateDer c =>
    rw [Anchor.ofCertificateDer, Attempt.outcome_bind, EncodedInputs.read, bind_map_left]
    rfl
  | certificateBuilder c handing settings h =>
    have hbuild (s : Source Certificate) : (Builder.ofSettings (settings s)).build.outcome =
        s.resolve readCertificate >>= fun certificate =>
          (Anchor.ofCertificate .standard constraints certificate).outcome := by
      rw [Builder.ofSettings_eq_lastInputs, h, Builder.build_certificate rfl rfl rfl rfl,
        Attempt.outcome_bind]
      rfl
    simp only [hbuild]
    rw [Handing.bind_source_resolve, EncodedInputs.read, bind_map_left]
    rfl
  | nameBuilder name key handing settings h =>
    have hbuild (k : Source PublicKey) : (Builder.ofSettings (settings k)).build.outcome =
        k.resolve readPublicKey >>= fun key =>
          (Anchor.ofNameAndKey .standard constraints name key).outcome := by
      rw [Builder.ofSettings_eq_lastInputs, h, Builder.build_name rfl rfl rfl rfl,
        Attempt.outcome_bind]
      rfl
    simp only [hbuild]
    rw [Handing.bind_source_resolve, EncodedInputs.read, bind_map_left]
    rfl
  | principalBuilder principal key handing handingKey order settings h =>
    have hbuild (p : Source Name) (k : Source PublicKey) :
        (Builder.ofSettings (settings p k)).build.outcome =
          p.resolve readPrincipal >>= fun principal => k.resolve readPublicKey >>= fun key =>
            (Anchor.ofPrincipalAndKey .standard constraints principal key).outcome := by
      rw [Builder.ofSettings_eq_lastInputs, h, Builder.build_principal rfl rfl rfl rfl]
      simp only [Attempt.outcome_bind]
      rfl
    simp only [hbuild]
    rw [EncodedInputs.read]
    cases hp : readPrincipal principal with
    | ok n =>
      obtain ⟨p, hsource, hresolve⟩ := handing.exists_source hp
      simp only [hsource, hresolve, Except.ok_bind, bind_assoc, pure_bind]
      exact handingKey.bind_source_resolve _
    | error e =>
      cases handing with
      | parsed => simp [Handing.source, hp]
      | encoded =>
        cases handingKey with
        | encoded => simp [Handing.source, Source.resolve, hp]
        | parsed =>
          -- A key that is decoded ahead of the principal has no fault that could come first.
          obtain ⟨n, hn⟩ | ⟨k, hk⟩ := order rfl rfl
          · cases hp.symm.trans hn
          · simp [Handing.source, Source.resolve, hp, hk]

end Route

namespace Handle

/-- Nothing for a part that is absent, and else its encoding or the reason for which it has none. -/
inductive IsExport {α : Type} (toDer : α → Except Der.Error Octets) :
    Option α → Except Error (Option Octets) → Prop
  | absent : IsExport toDer none (.ok none)
  | encoded {part : α} {der : Octets} (h : toDer part = .ok der) :
      IsExport toDer (some part) (.ok (some der))
  | failed {part : α} {e : Der.Error} (h : toDer part = .error e) :
      IsExport toDer (some part) (.error (.encoding e.message))

theorem isExport_exported {α : Type} (toDer : α → Except Der.Error Octets) (part : Option α) :
    IsExport toDer part (exported toDer part) := by
  cases part with
  | none => exact .absent
  | some part =>
    rw [exported]
    cases h : toDer part with
    | ok der => exact .encoded h
    | error e => exact .failed h

/-- A handle shows the fields of an anchor, with encodings in place of structures. -/
structure Shows (h : Handle) (a : Anchor) : Prop where
  anchor_eq : h.anchor = a
  kind_eq : h.kind = a.kind
  constraints_eq : h.constraints = a.constraints
  name_eq : h.name? = a.name?
  principalDer : IsExport Name.toDer a.principal? h.principalDer
  publicKeyDer : IsExport PublicKey.toDer a.publicKey? h.publicKeyDer
  certificateDer : IsExport Certificate.toDer a.certificate? h.certificateDer
  describe_eq : h.describe = a.render

theorem shows_anchor (h : Handle) : h.Shows h.anchor where
  anchor_eq := rfl
  kind_eq := rfl
  constraints_eq := rfl
  name_eq := rfl
  principalDer := isExport_exported _ _
  publicKeyDer := isExport_exported _ _
  certificateDer := isExport_exported _ _
  describe_eq := rfl

end Handle

namespace EncodedInputs

/-- A handle takes one of the ways, and keeps what it comes to. -/
theorem exists_route_handle (constraints : Option Octets) (i : EncodedInputs) :
    ∃ y : Attempt Anchor, i.handle constraints = Handle.ofAttempt y ∧
      Route constraints i y.outcome := by
  cases i with
  | certificate c => exact ⟨_, rfl, .certificateDer c⟩
  | nameAndKey name key =>
    refine ⟨_, rfl, .nameBuilder name key .encoded
      (fun k => Handle.withConstraints constraints [.name name, .publicKey k]) fun k => ?_⟩
    cases constraints <;> rfl
  | principalAndKey principal key =>
    refine ⟨_, rfl, .principalBuilder principal key .encoded .encoded (fun _ => nofun)
      (fun p k => Handle.withConstraints constraints [.principal p, .publicKey k]) fun p k => ?_⟩
    cases constraints <;> rfl

end EncodedInputs

namespace Route

variable {constraints : Option Octets} {i : EncodedInputs} {x : Except AnchorError Anchor}

/-- All ways come to the same anchor, which the handle shows, or to the same error, of which the
handle has the text. -/
theorem agree (h : Route constraints i x) :
    (∀ y, Route constraints i y → y = x) ∧
      ((∃ a handle, x = .ok a ∧ i.handle constraints = .ok handle ∧ handle.Shows a) ∨
        ∃ e, x = .error e ∧ i.handle constraints = .error (.invalidArgument e.message)) := by
  have hsame : ∀ y, Route constraints i y → y = x :=
    fun y hy => hy.outcome_eq.trans h.outcome_eq.symm
  refine ⟨hsame, ?_⟩
  obtain ⟨y, hhandle, hy⟩ := i.exists_route_handle constraints
  rw [hhandle, Handle.ofAttempt, hsame _ hy]
  cases x with
  | ok a => exact .inl ⟨a, ⟨a⟩, rfl, rfl, Handle.shows_anchor ⟨a⟩⟩
  | error e => exact .inr ⟨e, rfl, rfl⟩

theorem agree_acme :
    ∃ key, Route (some [0x30, 0x00]) (.nameAndKey "O=Acme" key) (.ok Anchor.acme) ∧
      ∃ handle, (EncodedInputs.nameAndKey "O=Acme" key).handle (some [0x30, 0x00]) = .ok handle ∧
        handle.Shows Anchor.acme := by
  let key : Octets := [0x30, 0x0a, 0x30, 0x05, 0x06, 0x03, 0x2b, 0x65, 0x70, 0x03, 0x01, 0x00]
  have hmade : (do
      let inputs ← (EncodedInputs.nameAndKey "O=Acme" key).read
      (inputs.construct NameConstraints.ofDer (some [0x30, 0x00])).outcome) = .ok Anchor.acme := by
    decide +kernel
  have hroute : Route (some [0x30, 0x00]) (.nameAndKey "O=Acme" key) (.ok Anchor.acme) :=
    hmade ▸ .constructor (.nameAndKey "O=Acme" key)
  refine ⟨key, hroute, ?_⟩
  rcases hroute.agree.2 with ⟨a, handle, ha, hhandle, hshows⟩ | ⟨e, he, -⟩
  · cases ha
    exact ⟨handle, hhandle, hshows⟩
  · cases he

end Route

end TrustAnchors
