import TrustAnchors.Proofs.Anchor.Obtained

/-!
# Requests to an anchor

Parts of an anchor and of its copies can be requested in any order. The answers are attempts, so
that it shows in their journals what they do: nothing is logged, and only a request for decoded
constraints asks a decoder, which is the standard one (`Anchor.mem_journal_replies`).
-/

namespace TrustAnchors

inductive Request where
  | kind
  | constraints
  | hasConstraints
  | decodeConstraints
  | certificate
  | name
  | principal
  | publicKey
  | render
  | summary
  /-- What is requested later is requested of a copy. -/
  | copy
  deriving DecidableEq, Repr

inductive Reply where
  | kind (kind : Kind)
  | octets (octets : Option Octets)
  | flag (flag : Bool)
  | constraints (constraints : Option NameConstraints)
  | certificate (certificate : Option Certificate)
  | text (text : Option String)
  | name (name : Option Name)
  | publicKey (key : Option PublicKey)
  | summary (summary : Summary)
  | copy (copy : Anchor)

/-- The anchor for later requests. -/
def Reply.next (a : Anchor) : Reply → Anchor
  | copy b => b
  | kind _ | octets _ | flag _ | constraints _ | certificate _ | text _ | name _ | publicKey _
  | summary _ => a

namespace Anchor

def reply (a : Anchor) : Request → Attempt Reply
  | .kind => return .kind a.kind
  | .constraints => return .octets a.constraints
  | .hasConstraints => return .flag a.hasConstraints
  | .decodeConstraints => return .constraints (← a.consultStandard)
  | .certificate => return .certificate a.certificate?
  | .name => return .text a.name?
  | .principal => return .name a.principal?
  | .publicKey => return .publicKey a.publicKey?
  | .render => return .text (some a.render)
  | .summary => return .summary a.summary
  | .copy => return .copy a.copy

def replies (a : Anchor) : List Request → Attempt (List Reply)
  | [] => return []
  | request :: rest => do
    let reply ← a.reply request
    return reply :: (← (reply.next a).replies rest)

end Anchor

theorem Attempt.journal_bind {α β : Type} (x : Attempt α) (f : α → Attempt β) :
    (x >>= f).journal = x.journal ++ x.outcome.toOption.elim [] fun a => (f a).journal := by
  change (x.andThen f).journal = _
  unfold andThen
  cases x.outcome with
  | ok a => rfl
  | error e => exact (List.append_nil _).symm

theorem Attempt.mem_journal_bind {α β : Type} {x : Attempt α} {f : α → Attempt β}
    {entry : JournalEntry} (h : entry ∈ (x >>= f).journal) :
    entry ∈ x.journal ∨ ∃ a, x.outcome = .ok a ∧ entry ∈ (f a).journal := by
  rw [journal_bind, List.mem_append] at h
  refine h.imp_right fun h => ?_
  cases hx : x.outcome with
  | ok a =>
    rw [hx] at h
    exact ⟨a, rfl, h⟩
  | error e =>
    rw [hx] at h
    cases h

namespace Anchor

variable {a : Anchor} {entry : JournalEntry}

theorem mem_journal_consultStandard (h : entry ∈ a.consultStandard.journal) :
    ∃ der ∈ a.constraints, entry = .consulted ⟨.standard, der⟩ := by
  rw [consultStandard] at h
  cases hc : a.constraints with
  | none =>
    rw [hc] at h
    cases h
  | some der =>
    rw [hc] at h
    exact ⟨der, rfl, List.mem_singleton.1 h⟩

theorem mem_journal_reply {request : Request} (h : entry ∈ (a.reply request).journal) :
    ∃ der ∈ a.constraints, entry = .consulted ⟨.standard, der⟩ := by
  cases request with
  | decodeConstraints =>
    rcases Attempt.mem_journal_bind h with h | ⟨_, _, h⟩
    · exact mem_journal_consultStandard h
    · cases h
  | _ => cases h

/-- A copy is equal to what it was copied from. -/
theorem next_of_reply {request : Request} {reply : Reply}
    (h : (a.reply request).outcome = .ok reply) : reply.next a = a := by
  cases request with
  | decodeConstraints =>
    obtain ⟨c, -, hc⟩ := Except.bind_eq_ok_iff.1 ((Attempt.outcome_bind _ _).symm.trans h)
    cases hc
    rfl
  | copy =>
    cases h
    exact a.copy_eq
  | _ =>
    cases h
    rfl

theorem mem_journal_replies {requests : List Request}
    (h : entry ∈ (a.replies requests).journal) :
    ∃ der ∈ a.constraints, entry = .consulted ⟨.standard, der⟩ := by
  induction requests with
  | nil => cases h
  | cons request rest ih =>
    rcases Attempt.mem_journal_bind h with h | ⟨reply, hreply, h⟩
    · exact mem_journal_reply h
    · rw [next_of_reply hreply] at h
      rcases Attempt.mem_journal_bind h with h | ⟨_, _, h⟩
      · exact ih h
      · cases h

theorem events_replies (a : Anchor) (requests : List Request) :
    (a.replies requests).events = [] := by
  refine List.filterMap_eq_nil_iff.2 fun entry h => ?_
  obtain ⟨der, -, rfl⟩ := mem_journal_replies h
  rfl

theorem origin_of_mem_consultations_replies {requests : List Request} {q : Consultation}
    (h : q ∈ (a.replies requests).consultations) : q.origin = .standard := by
  obtain ⟨entry, hentry, hq⟩ := List.mem_filterMap.1 h
  obtain ⟨der, -, rfl⟩ := mem_journal_replies hentry
  cases hq
  rfl

end Anchor

end TrustAnchors
