import Mathlib.Data.Option.Basic
import TrustAnchors.Base64

/-!
# Digits that were written

A digit stands for six bits, and each group for the octets it was written for, with no bit left
over. So octets are decoded from their digits, all of them known (`Base64.decode_encode`).
-/

namespace TrustAnchors.Base64

theorem digit_mod (n : Nat) : digit (n % 64) = digit n := by
  rw [digit, digit, Nat.mod_mod]

theorem value?_digit (n : Nat) : value? (digit n) = some (n % 64) := by
  have digits : ∀ k : Fin 64, value? (digit k.val) = some k.val := by decide +kernel
  have h := digits ⟨n % 64, Nat.mod_lt n (by decide)⟩
  rwa [digit_mod] at h

theorem digit_ne_padding (n : Nat) : digit n ≠ padding := by
  intro h
  have hvalue := value?_digit n
  rw [h] at hvalue
  cases hvalue

/-- No digit ends a line. -/
theorem digit_spec (n : Nat) : digit n ≠ Ascii.carriageReturn ∧ digit n ≠ Ascii.lineFeed := by
  constructor <;>
  · intro h
    have hvalue := value?_digit n
    rw [h] at hvalue
    cases hvalue

namespace Group

/-- The digits of three octets. -/
def ofThree (a b c : UInt8) : Group :=
  ⟨digit (a.toNat / 4), digit (a.toNat * 16 + b.toNat / 16), digit (b.toNat * 4 + c.toNat / 64),
    digit c.toNat⟩

theorem full?_ofThree (a b c : UInt8) : (ofThree a b c).full? = some [a, b, c] := by
  have ha := a.toNat_lt
  have hb := b.toNat_lt
  have hc := c.toNat_lt
  simp only [ofThree, full?, value?_digit, Option.bind_eq_bind, Option.bind_some, Option.pure_def,
    Option.some.injEq, List.cons.injEq, ← UInt8.toNat_inj, UInt8.toNat_ofNat', and_true]
  omega

theorem last?_ofThree (a b c : UInt8) : (ofThree a b c).last? = some [a, b, c] := by
  have hfourth : (ofThree a b c).fourth ≠ padding := digit_ne_padding c.toNat
  rw [last?, if_neg hfourth, full?_ofThree]

theorem last?_two (a b : UInt8) :
    last? ⟨digit (a.toNat / 4), digit (a.toNat * 16 + b.toNat / 16), digit (b.toNat * 4), padding⟩ =
      some [a, b] := by
  have ha := a.toNat_lt
  have hb := b.toNat_lt
  have hspare : b.toNat * 4 % 64 % 4 = 0 := by omega
  have hguard : (guard (b.toNat * 4 % 64 % 4 = 0) : Option Unit) = some () := if_pos hspare
  simp only [last?, value?_digit, if_pos, if_neg (digit_ne_padding (b.toNat * 4)), hguard,
    Option.bind_eq_bind, Option.bind_some, Option.pure_def]
  simp only [Option.some.injEq, List.cons.injEq, ← UInt8.toNat_inj, UInt8.toNat_ofNat', and_true]
  omega

theorem last?_one (a : UInt8) :
    last? ⟨digit (a.toNat / 4), digit (a.toNat * 16), padding, padding⟩ = some [a] := by
  have ha := a.toNat_lt
  have hspare : a.toNat * 16 % 64 % 16 = 0 := by omega
  have hguard : (guard (a.toNat * 16 % 64 % 16 = 0) : Option Unit) = some () := if_pos hspare
  simp only [last?, value?_digit, if_pos, hguard, Option.bind_eq_bind, Option.bind_some,
    Option.pure_def, Option.some.injEq, List.cons.injEq, ← UInt8.toNat_inj, UInt8.toNat_ofNat',
    and_true]
  omega

end Group

theorem mem_encode {d : Octets} {b : UInt8} (h : b ∈ encode d) :
    b = padding ∨ ∃ n, b = digit n := by
  induction d using encode.induct with
  | case1 => cases h
  | case2 a => grind [encode]
  | case3 a b => grind [encode]
  | case4 a b c r ih => grind [encode]

theorem not_lineEnd_of_mem_encode {d : Octets} {b : UInt8} (h : b ∈ encode d) :
    b ≠ Ascii.carriageReturn ∧ b ≠ Ascii.lineFeed := by
  rcases mem_encode h with rfl | ⟨n, rfl⟩
  · decide
  · exact digit_spec n

theorem encode_ne_nil {d : Octets} (h : d ≠ []) : encode d ≠ [] := by
  match d with
  | [] => exact absurd rfl h
  | [a] => exact List.cons_ne_nil _ _
  | [a, b] => exact List.cons_ne_nil _ _
  | a :: b :: c :: r => exact List.cons_ne_nil _ _

/-- Whole groups, and a last one that can stand for fewer octets. -/
theorem groups?_encode {d : Octets} (h : d ≠ []) :
    ∃ inner last tail, groups? (encode d) = some (inner ++ [last]) ∧ last.last? = some tail ∧
      (∀ g ∈ inner, g.full?.isNone = false) ∧ inner.flatMap Group.octets ++ tail = d := by
  induction d using encode.induct with
  | case1 => exact absurd rfl h
  | case2 a => exact ⟨[], _, [a], rfl, Group.last?_one a, nofun, rfl⟩
  | case3 a b => exact ⟨[], _, [a, b], rfl, Group.last?_two a b, nofun, rfl⟩
  | case4 a b c r ih =>
    by_cases hr : r = []
    · subst hr
      exact ⟨[], .ofThree a b c, [a, b, c], rfl, Group.last?_ofThree a b c, nofun, rfl⟩
    · obtain ⟨inner, last, tail, hgroups, hlast, hinner, hoctets⟩ := ih hr
      refine ⟨.ofThree a b c :: inner, last, tail, ?_, hlast, List.forall_mem_cons.2 ⟨?_, hinner⟩, ?_⟩
      · rw [encode, groups?, hgroups]
        rfl
      · rw [Group.full?_ofThree]
        rfl
      · rw [List.flatMap_cons, Group.octets, Group.full?_ofThree, List.append_assoc, hoctets]
        rfl

theorem decode_encode {d : Octets} (h : d ≠ []) : decode true (encode d) = some ⟨d, none⟩ := by
  obtain ⟨inner, last, tail, hgroups, hlast, hinner, hoctets⟩ := groups?_encode h
  have hknown : inner.findIdx? (fun g => g.full?.isNone) = none :=
    List.findIdx?_eq_none_iff.2 hinner
  simp [decode, hgroups, hlast, hknown, hoctets]

end TrustAnchors.Base64
