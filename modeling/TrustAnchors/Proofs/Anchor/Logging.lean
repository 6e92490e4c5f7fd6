import TrustAnchors.Proofs.Anchor.Constructions

/-!
# What is logged

A check of constraints asks the decoder and logs what it has accepted, and an anchor that is made is
logged last. So the journal of an attempt is determined by what the decoder was asked, what it
answers, and how the attempt ends (`Construction.journal_attempt`): its events report acceptance and
success, and nothing else (`Construction.faithful`).
-/

namespace Except

theorem toOption_eq_some_iff {ε α : Type} {x : Except ε α} {a : α} :
    x.toOption = some a ↔ x = .ok a := by
  cases x <;> simp [Except.toOption]

end Except

namespace TrustAnchors

/-- The event for accepted constraints. -/
def NameConstraints.decodedEvent (c : NameConstraints) : Event :=
  .constraintsDecoded (c.permitted.elim 0 List.length) (c.excluded.elim 0 List.length)

/-- The event for a new anchor. -/
def Anchor.createdEvent (a : Anchor) : Event :=
  .anchorCreated a.kind (a.constraints.map List.length)

/-- What is recorded of a check: the question, and the event for its acceptance. -/
def checkJournal (decoder : DecoderInForce) (q : Consultation) : List JournalEntry :=
  .consulted q :: (decoder.decode q.der).toOption.toList.map fun c => .logged c.decodedEvent

/-- What is recorded of the end of an attempt. -/
def outcomeJournal (outcome : Except AnchorError Anchor) : List JournalEntry :=
  outcome.toOption.toList.map fun a => .logged a.createdEvent

theorem journal_checkConstraints (decoder : DecoderInForce) (constraints : Option Octets) :
    (checkConstraints decoder constraints).journal =
      (decoder.questions constraints).flatMap (checkJournal decoder) := by
  cases constraints with
  | none => rfl
  | some der =>
    rw [checkConstraints, Attempt.journal_bind, Attempt.outcome_consult,
      DecoderInForce.questions, Option.toList_some, List.map_singleton, List.flatMap_singleton,
      checkJournal]
    cases decoder.decode der <;> rfl

/-- After the check, only the anchor that is made is recorded. -/
theorem journal_check_bind {decoder : DecoderInForce} {constraints : Option Octets}
    {f : Unit → Attempt Anchor} (h : (f ()).journal = outcomeJournal (f ()).outcome) :
    (checkConstraints decoder constraints >>= f).journal =
      (decoder.questions constraints).flatMap (checkJournal decoder) ++
        outcomeJournal (checkConstraints decoder constraints >>= f).outcome := by
  rw [Attempt.journal_bind, journal_checkConstraints, Attempt.outcome_bind]
  congr 1
  cases (checkConstraints decoder constraints).outcome with
  | ok u => exact h
  | error e => rfl

theorem Anchor.journal_create (identity : Identity) (constraints : Option Octets) :
    (create identity constraints).journal =
      outcomeJournal (create identity constraints).outcome := rfl

theorem Inputs.journal_construct (decoder : DecoderInForce) (constraints : Option Octets)
    (i : Inputs) :
    (i.construct decoder constraints).journal =
      (decoder.questions constraints).flatMap (checkJournal decoder) ++
        outcomeJournal (i.construct decoder constraints).outcome := by
  cases i with
  | certificate c => exact journal_check_bind (Anchor.journal_create _ _)
  | principalAndKey principal key => exact journal_check_bind (Anchor.journal_create _ _)
  | nameAndKey name key =>
    refine journal_check_bind ?_
    by_cases hn : name.isEmpty = true
    · rw [if_pos hn]
      rfl
    · rw [if_neg hn]
      cases readPrincipalText name with
      | ok principal => exact Anchor.journal_create _ _
      | error e => rfl

namespace Construction

/-- What the decoder was asked, what it answers, and how the attempt ends. -/
theorem journal_attempt (x : Construction) :
    x.attempt.journal =
      x.attempt.consultations.flatMap (checkJournal x.decoder) ++
        outcomeJournal x.attempt.outcome := by
  rcases x.cases with ⟨e, he⟩ | ⟨i, hi⟩
  · rw [he]
    rfl
  · rw [hi, i.consultations_construct, i.journal_construct]

theorem length_consultations_le (x : Construction) : x.attempt.consultations.length ≤ 1 := by
  rcases x.cases with ⟨e, he⟩ | ⟨i, hi⟩
  · rw [he]
    exact Nat.zero_le 1
  · rw [hi, i.consultations_construct]
    exact x.decoder.length_questions_le x.constraints

theorem origin_of_mem_consultations (x : Construction) {q : Consultation}
    (h : q ∈ x.attempt.consultations) : q.origin = x.decoder.origin := by
  rcases x.cases with ⟨e, he⟩ | ⟨i, hi⟩
  · rw [he] at h
    cases h
  · rw [hi, i.consultations_construct] at h
    exact DecoderInForce.origin_of_mem_questions h

theorem events_attempt (x : Construction) :
    x.attempt.events =
      (x.attempt.consultations.filterMap fun q => (x.decoder.decode q.der).toOption).map
          NameConstraints.decodedEvent ++
        x.attempt.outcome.toOption.toList.map Anchor.createdEvent := by
  have hlength := x.length_consultations_le
  rw [Attempt.events, x.journal_attempt, List.filterMap_append]
  congr 1
  · generalize x.attempt.consultations = qs at hlength ⊢
    match qs, hlength with
    | [], _ => rfl
    | [q], _ =>
      rw [List.flatMap_singleton, checkJournal]
      cases hd : x.decoder.decode q.der <;> simp [hd, Except.toOption]
  · cases x.attempt.outcome <;> rfl

theorem mem_events_iff (x : Construction) (event : Event) :
    event ∈ x.attempt.events ↔
      (∃ q ∈ x.attempt.consultations, ∃ c, x.decoder.decode q.der = .ok c ∧
          c.decodedEvent = event) ∨
        ∃ a, x.attempt.outcome = .ok a ∧ a.createdEvent = event := by
  simp only [x.events_attempt, List.mem_append, List.mem_map, List.mem_filterMap,
    Option.mem_toList, Except.toOption_eq_some_iff]
  grind

/-- At most as often as the decoder is asked, and at most once. -/
theorem sequence_events (x : Construction) :
    (x.attempt.events.map fun e => (e.level, e.message)).Sublist
      [(.trace, "name constraints decoded"), (.debug, "trust anchor created")] := by
  rw [x.events_attempt, List.map_append, List.map_map, List.map_map]
  change List.Sublist _ (List.replicate 1 _ ++ List.replicate 1 _)
  refine List.Sublist.append ?_ ?_
  · refine List.sublist_replicate_iff.2 ⟨_, ?_, List.map_eq_replicate_iff.2 fun _ _ => rfl⟩
    exact Nat.le_trans (List.length_filterMap_le _ _) x.length_consultations_le
  · refine List.sublist_replicate_iff.2 ⟨_, ?_, List.map_eq_replicate_iff.2 fun _ _ => rfl⟩
    exact Option.length_toList_le

theorem events_of_refused (x : Construction) {q : Consultation} {e : Der.Error}
    (hq : q ∈ x.attempt.consultations) (he : x.decoder.decode q.der = .error e) :
    x.attempt.events = [] := by
  rcases x.cases with ⟨e', hx⟩ | ⟨i, hi⟩
  · rw [hx]
    rfl
  · have hasked : x.attempt.consultations = x.decoder.questions x.constraints := by
      rw [hi, i.consultations_construct]
    rw [hasked] at hq
    obtain ⟨der, hder, rfl⟩ := List.mem_map.1 hq
    have hconstraints : x.constraints = some der := Option.mem_toList.1 hder
    have houtcome : x.attempt.outcome = .error (.invalidNameConstraints e.message) := by
      rw [hi, i.outcome_construct, hconstraints, constraintsFault?, Option.bind_some, he]
      rfl
    rw [x.events_attempt, hasked, hconstraints, houtcome, DecoderInForce.questions,
      Option.toList_some, List.map_singleton, List.filterMap_cons_none (by rw [he]; rfl)]
    rfl

/-- Requests parts of the anchor, if one is made. -/
def serve (x : Construction) (requests : List Request) : Attempt (List Reply) := do
  let a ← x.attempt
  a.replies requests

theorem events_serve (x : Construction) (requests : List Request) :
    (x.serve requests).events = x.attempt.events := by
  rw [serve, Attempt.events, Attempt.journal_bind, List.filterMap_append]
  cases x.attempt.outcome with
  | ok a => exact (congrArg _ (a.events_replies requests)).trans (List.append_nil _)
  | error e => exact List.append_nil _

/-- The events of an attempt say what the decoder has accepted and which anchor was made, and
nothing else. -/
structure Faithful (x : Construction) : Prop where
  /-- The decoder that is asked is the one in force. -/
  asked : ∀ q ∈ x.attempt.consultations, q.origin = x.decoder.origin
  /-- One event of each kind at most, in this order. -/
  sequence : (x.attempt.events.map fun e => (e.level, e.message)).Sublist
    [(.trace, "name constraints decoded"), (.debug, "trust anchor created")]
  decoded_iff (permitted excluded : Nat) :
    .constraintsDecoded permitted excluded ∈ x.attempt.events ↔
      ∃ q ∈ x.attempt.consultations, ∃ c, x.decoder.decode q.der = .ok c ∧
        c.permitted.elim 0 List.length = permitted ∧ c.excluded.elim 0 List.length = excluded
  created_iff (kind : Kind) (length : Option Nat) :
    .anchorCreated kind length ∈ x.attempt.events ↔
      ∃ a, x.attempt.outcome = .ok a ∧ a.kind = kind ∧ a.constraints.map List.length = length
  /-- Nothing is logged when constraints are refused. -/
  refused (q : Consultation) (e : Der.Error) : q ∈ x.attempt.consultations →
    x.decoder.decode q.der = .error e → x.attempt.events = []
  /-- Nothing is logged of requests to the anchor. -/
  later (requests : List Request) : (x.serve requests).events = x.attempt.events

theorem faithful (x : Construction) : x.Faithful where
  asked _ := x.origin_of_mem_consultations
  sequence := x.sequence_events
  decoded_iff permitted excluded := by
    simp [x.mem_events_iff, NameConstraints.decodedEvent, Anchor.createdEvent]
  created_iff kind length := by
    simp [x.mem_events_iff, NameConstraints.decodedEvent, Anchor.createdEvent]
  refused _ _ := x.events_of_refused
  later := x.events_serve

end Construction

end TrustAnchors
