import TrustAnchors.Proofs.Anchor.Requests

/-!
# Consultations of a decoder

A build either fails over its identity inputs, whatever the decoder and the constraints are, or it
constructs an anchor from decoded inputs (`Builder.splits`). Constructors ask the decoder in force
about the constraints once, before anything else. So a decoder that was brought is asked once about
the constraints of a ready builder, and not at all in any other case, and its answer counts only as
acceptance or as the text of an error. Of an anchor, decoded constraints can be requested again, but
then the standard decoder is asked (`Builder.disciplined`).
-/

namespace TrustAnchors

namespace Attempt

variable {α β : Type}

theorem ofExcept_ok_bind (a : α) (f : α → Attempt β) : ofExcept (.ok a) >>= f = f a := rfl

theorem ofExcept_error_bind (e : AnchorError) (f : α → Attempt β) :
    ofExcept (.error e) >>= f = fail e := rfl

theorem consultations_bind (x : Attempt α) (f : α → Attempt β) :
    (x >>= f).consultations =
      x.consultations ++ x.outcome.toOption.elim [] fun a => (f a).consultations := by
  unfold consultations
  rw [journal_bind, List.filterMap_append]
  cases x.outcome.toOption <;> rfl

@[simp] theorem consultations_fail (e : AnchorError) : (fail e : Attempt α).consultations = [] := rfl

@[simp] theorem consultations_consult (decoder : DecoderInForce) (der : Octets) :
    (consult decoder der).consultations = [⟨decoder.origin, der⟩] := rfl

end Attempt

@[simp] theorem Anchor.consultations_create (identity : Identity) (constraints : Option Octets) :
    (create identity constraints).consultations = [] := rfl

/-- One question about the constraints, if there are some. -/
def DecoderInForce.questions (decoder : DecoderInForce) (constraints : Option Octets) :
    List Consultation :=
  constraints.toList.map (Consultation.mk decoder.origin)

theorem DecoderInForce.origin_of_mem_questions {decoder : DecoderInForce}
    {constraints : Option Octets} {q : Consultation} (h : q ∈ decoder.questions constraints) :
    q.origin = decoder.origin := by
  obtain ⟨der, -, rfl⟩ := List.mem_map.1 h
  rfl

theorem DecoderInForce.length_questions_le (decoder : DecoderInForce)
    (constraints : Option Octets) : (decoder.questions constraints).length ≤ 1 := by
  rw [questions, List.length_map]
  exact Option.length_toList_le

theorem consultations_checkConstraints (decoder : DecoderInForce) (constraints : Option Octets) :
    (checkConstraints decoder constraints).consultations = decoder.questions constraints := by
  cases constraints with
  | none => rfl
  | some der =>
    rw [checkConstraints, Attempt.consultations_bind, Attempt.consultations_consult,
      Attempt.outcome_consult]
    cases decoder.decode der <;> rfl

/-- What comes after the check asks no decoder. -/
theorem consultations_check_bind {α : Type} {decoder : DecoderInForce}
    {constraints : Option Octets} {f : Unit → Attempt α} (h : (f ()).consultations = []) :
    (checkConstraints decoder constraints >>= f).consultations =
      decoder.questions constraints := by
  rw [Attempt.consultations_bind, consultations_checkConstraints]
  cases (checkConstraints decoder constraints).outcome with
  | ok u => rw [Except.toOption, Option.elim_some, h, List.append_nil]
  | error e => exact List.append_nil _

namespace Inputs

theorem consultations_construct (decoder : DecoderInForce) (constraints : Option Octets)
    (i : Inputs) :
    (i.construct decoder constraints).consultations = decoder.questions constraints := by
  cases i with
  | certificate c => exact consultations_check_bind (Anchor.consultations_create _ _)
  | principalAndKey principal key =>
    exact consultations_check_bind (Anchor.consultations_create _ _)
  | nameAndKey name key =>
    refine consultations_check_bind ?_
    by_cases hn : name.isEmpty = true
    · rw [if_pos hn]
      rfl
    · rw [if_neg hn]
      cases readPrincipalText name <;> rfl

/-- A decoder counts by its answer about the constraints. -/
theorem construct_congr {d d' : ConstraintsDecoder} {constraints : Option Octets}
    (h : ∀ der ∈ constraints, d' der = d der) (i : Inputs) :
    i.construct d' constraints = i.construct d constraints := by
  have hcheck : checkConstraints d' constraints = checkConstraints d constraints := by
    cases constraints with
    | none => rfl
    | some der =>
      have hconsult : Attempt.consult d' der = Attempt.consult d der := by
        rw [Attempt.consult, DecoderInForce.decode_brought, h der rfl]
        rfl
      rw [checkConstraints, checkConstraints, hconsult]
  cases i with
  | certificate c => rw [construct, construct, Anchor.ofCertificate, Anchor.ofCertificate, hcheck]
  | principalAndKey principal key =>
    rw [construct, construct, Anchor.ofPrincipalAndKey, Anchor.ofPrincipalAndKey, hcheck]
  | nameAndKey name key =>
    rw [construct, construct, Anchor.ofNameAndKey, Anchor.ofNameAndKey, hcheck]

end Inputs

namespace Builder

/-- A certificate together with another identity input, or a name together with a principal. -/
def Conflicting (b : Builder) : Prop :=
  (b.certificate.isSome ∧ (b.name.isSome ∨ b.principal.isSome ∨ b.publicKey.isSome)) ∨
    (b.name.isSome ∧ b.principal.isSome)

/-- No identity, or one of those that need a key without it. -/
def Lacking (b : Builder) : Prop :=
  (b.certificate = none ∧ b.name = none ∧ b.principal = none) ∨
    ((b.name.isSome ∨ b.principal.isSome) ∧ b.publicKey = none)

/-- The identity inputs belong together, and those that are encoded can be decoded. What the text
of a name says does not matter. -/
structure Ready (b : Builder) : Prop where
  not_conflicting : ¬ b.Conflicting
  not_lacking : ¬ b.Lacking
  certificate : ∀ s ∈ b.certificate, ∃ c, s.resolve readCertificate = .ok c
  principal : ∀ s ∈ b.principal, ∃ p, s.resolve readPrincipal = .ok p
  publicKey : ∀ s ∈ b.publicKey, ∃ k, s.resolve readPublicKey = .ok k

/-- The same identity inputs with other constraints and another choice of a decoder. -/
def withCheck (b : Builder) (constraints : Option Octets) (chosen : Option ConstraintsDecoder) :
    Builder :=
  { b with constraints := constraints, decoder := chosen }

/-- A build constructs an anchor from decoded inputs, or fails before anything is asked. -/
def Splits (b : Builder) : Prop :=
  (b.Ready ∧ ∃ i : Inputs, ∀ constraints chosen,
    (b.withCheck constraints chosen).build = i.construct (.ofOption chosen) constraints) ∨
  (¬ b.Ready ∧ ∃ e, ∀ constraints chosen,
    (b.withCheck constraints chosen).build = Attempt.fail e)

theorem forall_mem_none {α : Type} {P : α → Prop} : ∀ s ∈ (none : Option α), P s := nofun

theorem splits_certificate {s : Source Certificate} {constraints : Option Octets}
    {decoder : Option ConstraintsDecoder} :
    Splits ⟨some s, none, none, none, constraints, decoder⟩ := by
  have hbuild (constraints chosen) :=
    build_certificate (b := ⟨some s, none, none, none, constraints, chosen⟩) rfl rfl rfl rfl
  cases hs : s.resolve readCertificate with
  | error e =>
    refine .inr ⟨fun h => ?_, e, fun _ _ => ?_⟩
    · obtain ⟨c, hc⟩ := h.certificate s rfl
      cases hs.symm.trans hc
    · rw [withCheck, hbuild, hs, Attempt.ofExcept_error_bind]
  | ok c =>
    refine .inl ⟨⟨by simp [Conflicting], by simp [Lacking], ?_, forall_mem_none, forall_mem_none⟩,
      .certificate c, fun _ _ => ?_⟩
    · rintro _ ⟨⟩
      exact ⟨c, hs⟩
    · rw [withCheck, hbuild, hs, Attempt.ofExcept_ok_bind]
      rfl

theorem splits_name {text : String} {s : Source PublicKey} {constraints : Option Octets}
    {decoder : Option ConstraintsDecoder} :
    Splits ⟨none, some text, none, some s, constraints, decoder⟩ := by
  have hbuild (constraints chosen) :=
    build_name (b := ⟨none, some text, none, some s, constraints, chosen⟩) rfl rfl rfl rfl
  cases hs : s.resolve readPublicKey with
  | error e =>
    refine .inr ⟨fun h => ?_, e, fun _ _ => ?_⟩
    · obtain ⟨k, hk⟩ := h.publicKey s rfl
      cases hs.symm.trans hk
    · rw [withCheck, hbuild, hs, Attempt.ofExcept_error_bind]
  | ok k =>
    refine .inl ⟨⟨by simp [Conflicting], by simp [Lacking], forall_mem_none, forall_mem_none, ?_⟩,
      .nameAndKey text k, fun _ _ => ?_⟩
    · rintro _ ⟨⟩
      exact ⟨k, hs⟩
    · rw [withCheck, hbuild, hs, Attempt.ofExcept_ok_bind]
      rfl

theorem splits_principal {p : Source Name} {s : Source PublicKey} {constraints : Option Octets}
    {decoder : Option ConstraintsDecoder} :
    Splits ⟨none, none, some p, some s, constraints, decoder⟩ := by
  have hbuild (constraints chosen) :=
    build_principal (b := ⟨none, none, some p, some s, constraints, chosen⟩) rfl rfl rfl rfl
  cases hp : p.resolve readPrincipal with
  | error e =>
    refine .inr ⟨fun h => ?_, e, fun _ _ => ?_⟩
    · obtain ⟨n, hn⟩ := h.principal p rfl
      cases hp.symm.trans hn
    · rw [withCheck, hbuild, hp, Attempt.ofExcept_error_bind]
  | ok n =>
    cases hs : s.resolve readPublicKey with
    | error e =>
      refine .inr ⟨fun h => ?_, e, fun _ _ => ?_⟩
      · obtain ⟨k, hk⟩ := h.publicKey s rfl
        cases hs.symm.trans hk
      · rw [withCheck, hbuild, hp, Attempt.ofExcept_ok_bind, hs, Attempt.ofExcept_error_bind]
    | ok k =>
      refine .inl ⟨⟨by simp [Conflicting], by simp [Lacking], forall_mem_none, ?_, ?_⟩,
        .principalAndKey n k, fun _ _ => ?_⟩
      · rintro _ ⟨⟩
        exact ⟨n, hp⟩
      · rintro _ ⟨⟩
        exact ⟨k, hs⟩
      · rw [withCheck, hbuild, hp, Attempt.ofExcept_ok_bind, hs, Attempt.ofExcept_ok_bind]
        rfl

theorem splits_of_conflicting {b : Builder} (h : b.Conflicting) {detail : String}
    (hb : ∀ constraints chosen, (b.withCheck constraints chosen).build =
      Attempt.fail (.conflictingIdentity detail)) : b.Splits :=
  .inr ⟨fun hready => hready.not_conflicting h, _, hb⟩

theorem splits_of_lacking {b : Builder} (h : b.Lacking) {e : AnchorError}
    (hb : ∀ constraints chosen, (b.withCheck constraints chosen).build = Attempt.fail e) :
    b.Splits :=
  .inr ⟨fun hready => hready.not_lacking h, _, hb⟩

theorem splits (b : Builder) : b.Splits := by
  obtain ⟨certificate, name, principal, publicKey, constraints, decoder⟩ := b
  rcases certificate with _ | c
  · rcases name with _ | text
    · rcases principal with _ | p
      · exact splits_of_lacking (.inl ⟨rfl, rfl, rfl⟩) fun _ _ => rfl
      · rcases publicKey with _ | s
        · exact splits_of_lacking (.inr ⟨.inr rfl, rfl⟩) fun _ _ => rfl
        · exact splits_principal
    · rcases principal with _ | p
      · rcases publicKey with _ | s
        · exact splits_of_lacking (.inr ⟨.inl rfl, rfl⟩) fun _ _ => rfl
        · exact splits_name
      · exact splits_of_conflicting (.inr ⟨rfl, rfl⟩) fun _ _ => rfl
  · rcases name with _ | text
    · rcases principal with _ | p
      · rcases publicKey with _ | s
        · exact splits_certificate
        · exact splits_of_conflicting (.inl ⟨rfl, .inr (.inr rfl)⟩) fun _ _ => rfl
      · exact splits_of_conflicting (.inl ⟨rfl, .inr (.inl rfl)⟩) fun _ _ => rfl
    · exact splits_of_conflicting (.inl ⟨rfl, .inl rfl⟩) fun _ _ => rfl

/-- Builds an anchor and requests parts of it. -/
def serve (b : Builder) (requests : List Request) : Attempt (List Reply) := do
  let a ← b.build
  a.replies requests

variable {b : Builder} {d : ConstraintsDecoder}

theorem set_decoder (b : Builder) (d : ConstraintsDecoder) :
    b.set (.decoder d) = b.withCheck b.constraints (some d) := rfl

theorem consultations_build (hready : b.Ready) :
    (b.set (.decoder d)).build.consultations =
      (DecoderInForce.brought d).questions b.constraints := by
  rcases b.splits with ⟨-, i, hi⟩ | ⟨hnot, -⟩
  · rw [set_decoder, hi, i.consultations_construct]
    rfl
  · exact absurd hready hnot

theorem consultations_build_of_not_ready (hnot : ¬ b.Ready) :
    (b.set (.decoder d)).build.consultations = [] := by
  rcases b.splits with ⟨hready, -⟩ | ⟨-, e, he⟩
  · exact absurd hready hnot
  · rw [set_decoder, he, Attempt.consultations_fail]

theorem length_consultations_build_le (b : Builder) (d : ConstraintsDecoder) :
    (b.set (.decoder d)).build.consultations.length ≤ 1 := by
  by_cases hready : b.Ready
  · rw [consultations_build hready]
    exact DecoderInForce.length_questions_le _ _
  · rw [consultations_build_of_not_ready hready]
    exact Nat.zero_le 1

theorem origin_of_mem_consultations_build {q : Consultation}
    (h : q ∈ (b.set (.decoder d)).build.consultations) : q.origin = .caller := by
  by_cases hready : b.Ready
  · rw [consultations_build hready] at h
    exact DecoderInForce.origin_of_mem_questions h
  · rw [consultations_build_of_not_ready hready] at h
    cases h

theorem consultations_build_eq_singleton_iff {der : Octets} :
    (b.set (.decoder d)).build.consultations = [⟨.caller, der⟩] ↔
      b.constraints = some der ∧ b.Ready := by
  by_cases hready : b.Ready
  · rw [consultations_build hready]
    cases b.constraints <;> simp [hready, DecoderInForce.questions]
  · simp [consultations_build_of_not_ready hready, hready]

theorem build_congr_decoder {d' : ConstraintsDecoder}
    (h : ∀ q ∈ (b.set (.decoder d)).build.consultations, d' q.der = d q.der) :
    (b.set (.decoder d')).build = (b.set (.decoder d)).build := by
  rcases b.splits with ⟨hready, i, hi⟩ | ⟨-, e, he⟩
  · rw [consultations_build hready] at h
    rw [set_decoder, set_decoder, hi, hi]
    refine i.construct_congr fun der hder => h ⟨.caller, der⟩ ?_
    exact List.mem_map_of_mem (Option.mem_toList.2 hder)
  · rw [set_decoder, set_decoder, he, he]

/-- Faulty constraints are not hidden by the text of a name. -/
theorem outcome_build_of_fault (hready : b.Ready) {e : AnchorError}
    (h : constraintsFault? d b.constraints = some e) :
    (b.set (.decoder d)).build.outcome = .error e := by
  rcases b.splits with ⟨-, i, hi⟩ | ⟨hnot, -⟩
  · rw [set_decoder, hi, i.outcome_construct, DecoderInForce.decode_ofOption, Option.getD_some, h,
      Option.elim_some]
  · exact absurd hready hnot

/-- Accepted constraints are stored, and change nothing else. -/
theorem outcome_build_of_accepted (h : constraintsFault? d b.constraints = none)
    (other : Option ConstraintsDecoder) :
    (b.set (.decoder d)).build.outcome = (b.withCheck none other).build.outcome.map
      fun a : Anchor => { a with constraints := b.constraints } := by
  have hnone : constraintsFault? (DecoderInForce.ofOption other).decode none = none := rfl
  rcases b.splits with ⟨-, i, hi⟩ | ⟨-, e, he⟩
  · rw [set_decoder, hi, hi, i.outcome_construct, i.outcome_construct, hnone,
      DecoderInForce.decode_ofOption, Option.getD_some, h, Option.elim_none, Option.elim_none]
    cases i.identity <;> rfl
  · rw [set_decoder, he, he]
    rfl

theorem consultations_serve (b : Builder) (requests : List Request) :
    ∃ more, (b.serve requests).consultations = b.build.consultations ++ more ∧
      ∀ q ∈ more, q.origin = .standard := by
  rw [serve, Attempt.consultations_bind]
  cases b.build.outcome with
  | ok a => exact ⟨_, rfl, fun _ => Anchor.origin_of_mem_consultations_replies⟩
  | error e => exact ⟨[], rfl, fun _ => nofun⟩

/-- How a build treats a decoder that was brought. -/
structure Disciplined (b : Builder) (d : ConstraintsDecoder) : Prop where
  once : (b.set (.decoder d)).build.consultations.length ≤ 1
  /-- The standard decoder does not stand in for it. -/
  own : ∀ q ∈ (b.set (.decoder d)).build.consultations, q.origin = .caller
  asked_iff (der : Octets) :
    (b.set (.decoder d)).build.consultations = [⟨.caller, der⟩] ↔
      b.constraints = some der ∧ b.Ready
  /-- The decoder counts by its answers to what it was asked. -/
  determined (d' : ConstraintsDecoder) :
    (∀ q ∈ (b.set (.decoder d)).build.consultations, d' q.der = d q.der) →
      (b.set (.decoder d')).build = (b.set (.decoder d)).build
  rejected (der : Octets) (e : Der.Error) :
    (b.set (.decoder d)).build.consultations = [⟨.caller, der⟩] → d der = .error e →
      (b.set (.decoder d)).build.outcome = .error (.invalidNameConstraints e.message)
  /-- Without the constraints the build would have come to the same. -/
  accepted (der : Octets) (c : NameConstraints) : b.constraints = some der → d der = .ok c →
    (b.set (.decoder d)).build.outcome = (b.withCheck none (some d)).build.outcome.map
      fun a : Anchor => { a with constraints := some der }
  /-- Another decoder that accepts the constraints leads to the same anchor. -/
  forgotten (d' : ConstraintsDecoder) :
    (∀ der ∈ b.constraints, (∃ c, d der = .ok c) ∧ ∃ c, d' der = .ok c) →
      (b.set (.decoder d')).build.outcome = (b.set (.decoder d)).build.outcome
  /-- Requests to the anchor do not ask it again. -/
  later (requests : List Request) :
    ((b.set (.decoder d)).serve requests).consultations.filter (·.origin = .caller) =
      (b.set (.decoder d)).build.consultations

theorem filter_consultations_serve (b : Builder) (d : ConstraintsDecoder)
    (requests : List Request) :
    ((b.set (.decoder d)).serve requests).consultations.filter (·.origin = .caller) =
      (b.set (.decoder d)).build.consultations := by
  obtain ⟨more, hserve, hmore⟩ := (b.set (.decoder d)).consultations_serve requests
  have hown : (b.set (.decoder d)).build.consultations.filter (·.origin = .caller) =
      (b.set (.decoder d)).build.consultations :=
    List.filter_eq_self.2 fun q hq => decide_eq_true (origin_of_mem_consultations_build hq)
  have hnone : more.filter (·.origin = .caller) = [] := by
    refine List.filter_eq_nil_iff.2 fun q hq => ?_
    rw [hmore q hq]
    decide
  rw [hserve, List.filter_append, hown, hnone, List.append_nil]

/-- The decoder that was set last is asked about the constraints of a ready builder, once, and its
answer counts as acceptance or as the text of an error. -/
theorem disciplined (b : Builder) (d : ConstraintsDecoder) : b.Disciplined d where
  once := b.length_consultations_build_le d
  own _ := origin_of_mem_consultations_build
  asked_iff _ := consultations_build_eq_singleton_iff
  determined _ := build_congr_decoder
  rejected der e hasked he := by
    obtain ⟨hder, hready⟩ := consultations_build_eq_singleton_iff.1 hasked
    refine outcome_build_of_fault hready ?_
    rw [hder, constraintsFault?, Option.bind_some, he]
    rfl
  accepted der c hder hc := by
    rw [← hder]
    refine outcome_build_of_accepted (constraintsFault?_eq_none_iff.2 fun other hother => ?_) _
    cases hder.symm.trans hother
    exact ⟨c, hc⟩
  forgotten d' h := by
    have hd := constraintsFault?_eq_none_iff.2 fun der hder => (h der hder).1
    have hd' := constraintsFault?_eq_none_iff.2 fun der hder => (h der hder).2
    rw [outcome_build_of_accepted hd none, outcome_build_of_accepted hd' none]
  later := b.filter_consultations_serve d

end Builder

end TrustAnchors
