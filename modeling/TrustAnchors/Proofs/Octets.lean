import TrustAnchors.Ascii

/-!
# Facts about octets

What holds of 256 numbers holds of every octet, so that a fact about one octet can be decided. When
each part of one string is at most as long as its part of another, the strings are equal only part
by part.
-/

namespace TrustAnchors

theorem forall_octet {P : UInt8 → Prop} (h : ∀ k : Fin 256, P (UInt8.ofNat k)) (b : UInt8) :
    P b := by
  simpa using h ⟨b.toNat, b.toNat_lt⟩

namespace Octets

variable {α : Type} {f g : α → Octets} {xs : List α}

theorem length_append_mono {o p q r : Octets} (h : o.length ≤ p.length)
    (h' : q.length ≤ r.length) : (o ++ q).length ≤ (p ++ r).length := by
  rw [List.length_append, List.length_append]
  exact Nat.add_le_add h h'

theorem append_eq_append_iff_of_length_le {o p q r : Octets} (h : o.length ≤ p.length)
    (h' : q.length ≤ r.length) : o ++ q = p ++ r ↔ o = p ∧ q = r := by
  constructor
  · intro he
    have hlength := congrArg List.length he
    rw [List.length_append, List.length_append] at hlength
    exact List.append_inj he (by omega)
  · rintro ⟨rfl, rfl⟩
    rfl

theorem length_elim_mono {x : Option α} (h : ∀ a ∈ x, (f a).length ≤ (g a).length) :
    (x.elim [] f).length ≤ (x.elim [] g).length := by
  cases x with
  | none => exact Nat.le_refl 0
  | some a => exact h a rfl

theorem length_flatMap_mono (h : ∀ x ∈ xs, (f x).length ≤ (g x).length) :
    (xs.flatMap f).length ≤ (xs.flatMap g).length := by
  induction xs with
  | nil => exact Nat.le_refl 0
  | cons x xs ih =>
    have hxs := ih fun y hy => h y (List.mem_cons_of_mem x hy)
    rw [List.flatMap_cons, List.flatMap_cons]
    exact length_append_mono (h x List.mem_cons_self) hxs

theorem flatMap_eq_flatMap_iff_of_length_le (h : ∀ x ∈ xs, (f x).length ≤ (g x).length) :
    xs.flatMap f = xs.flatMap g ↔ ∀ x ∈ xs, f x = g x := by
  induction xs with
  | nil => simp
  | cons x xs ih =>
    have hxs := fun y hy => h y (List.mem_cons_of_mem x hy)
    rw [List.flatMap_cons, List.flatMap_cons, append_eq_append_iff_of_length_le
      (h x List.mem_cons_self) (length_flatMap_mono hxs), ih hxs, List.forall_mem_cons]

theorem length_le_length_flatMap {x : α} (h : x ∈ xs) : (f x).length ≤ (xs.flatMap f).length := by
  rw [List.flatMap_def]
  exact (List.sublist_flatten_of_mem (List.mem_map_of_mem h)).length_le

end Octets

end TrustAnchors
