import TrustAnchors.Der.Reads

/-!
# What a decoder yields

`Yields p d` says that every value that the decoder `d` yields has the property `p`. It goes through
sequencing, and from an element to what is read inside it, so that a property that is checked when a
part is read holds of all such parts of a message (`Yields.of_decode_eq_ok`).
-/

namespace TrustAnchors.Der.Decoder

variable {α β : Type} {p : α → Prop} {q : β → Prop} {d : Decoder α}

def Yields (p : α → Prop) (d : Decoder α) : Prop := ∀ ⦃c a c'⦄, d c = .ok (a, c') → p a

theorem yields_any (d : Decoder α) : Yields (fun _ => True) d := fun _ _ _ _ => trivial

theorem yields_pure {a : α} (h : p a) : Yields p (pure a) := by
  intro c b c' hb
  cases hb
  exact h

theorem yields_fail (e : Error) : Yields p (fail e) := fun _ _ _ h => nomatch h

theorem yields_ofOption {e : Error} {x : Option α} (h : ∀ a ∈ x, p a) : Yields p (ofOption e x) := by
  cases x with
  | none => exact yields_fail e
  | some a => exact yields_pure (h a rfl)

theorem Yields.bind {f : α → Decoder β} (h : Yields p d) (hf : ∀ a, p a → Yields q (f a)) :
    Yields q (d >>= f) := by
  intro c b c' hb
  obtain ⟨a, c₁, ha, hb⟩ := bind_eq_ok_iff.1 hb
  exact hf a (h ha) hb

/-- What comes first does not matter. -/
theorem yields_bind {f : α → Decoder β} (hf : ∀ a, Yields q (f a)) : Yields q (d >>= f) :=
  (yields_any d).bind fun a _ => hf a

theorem Yields.nested (h : Yields p d) (n : Nat) : Yields p (nested n d) := by
  intro c a c' ha
  obtain ⟨⟨_, c₀⟩, -, ha⟩ := Except.bind_eq_ok_iff.1 ha
  obtain ⟨⟨b, inner⟩, hb, ha⟩ := Except.bind_eq_ok_iff.1 ha
  by_cases he : inner.rest.isEmpty
  · simp only [if_pos he] at ha
    cases ha
    exact h hb
  · simp only [if_neg he] at ha
    cases ha

theorem Yields.sequence (h : Yields p d) : Yields p (sequence d) := yields_bind h.nested

theorem Yields.elements (h : Yields p d) (k : Nat) : Yields (∀ a ∈ ·, p a) (elements d k) := by
  induction k with
  | zero => exact yields_pure nofun
  | succ k ih =>
    refine yields_bind fun c => ?_
    split
    · exact yields_pure nofun
    · refine h.bind fun a ha => ih.bind fun as has => yields_pure ?_
      exact List.forall_mem_cons.2 ⟨ha, has⟩

theorem Yields.many (h : Yields p d) : Yields (∀ a ∈ ·, p a) (many d) :=
  yields_bind fun _ => h.elements _

theorem Yields.explicit? (h : Yields p d) (number : Nat) :
    Yields (∀ a ∈ ·, p a) (explicit? number d) := by
  refine yields_bind fun b => ?_
  split
  · refine yields_bind fun t => ?_
    split
    · exact (h.nested _).bind fun a ha => yields_pure (by simpa using ha)
    · exact yields_fail _
  · exact yields_pure nofun

theorem Yields.of_decode_eq_ok {o : Octets} {a : α} (h : Yields p d) (ha : d.decode o = .ok a) :
    p a := by
  obtain ⟨-, c, hc, -⟩ := Decoder.of_decode_eq_ok ha
  exact h hc

end TrustAnchors.Der.Decoder
