import Mathlib.Data.Option.Basic
import TrustAnchors.Proofs.Der.Inversion
import TrustAnchors.Proofs.Octets
import TrustAnchors.Time

/-!
# Times as they are written

Digits determine a number below 100, and a time is written in one way only: what the decoder takes
is the encoding of the time that it yields (`Time.takes_decode`), and every time is read from its
encoding (`Time.reads_encode`).
-/

namespace TrustAnchors

open Der Decoder

namespace Moment

theorem of_twoDigits?_eq_some {a b : UInt8} {n : Nat} (h : twoDigits? a b = some n) :
    twoDigits n = [a, b] ∧ n < 100 := by
  unfold twoDigits? at h
  split at h
  · next hdigits =>
    simp only [Bool.and_eq_true, Ascii.isDigit, decide_eq_true_eq, UInt8.le_iff_toNat_le,
      UInt8.reduceToNat] at hdigits
    obtain ⟨⟨ha, ha'⟩, hb, hb'⟩ := hdigits
    have hsub {c : UInt8} (hc : 0x30 ≤ c.toNat) : (c - 0x30).toNat = c.toNat - 0x30 :=
      UInt8.toNat_sub_of_le c 0x30 (UInt8.le_iff_toNat_le.2 hc)
    rw [hsub ha, hsub hb] at h
    obtain rfl := Option.some.inj h
    refine ⟨?_, by omega⟩
    simp only [twoDigits, List.cons.injEq, ← UInt8.toNat_inj, UInt8.toNat_ofNat', and_true]
    omega
  · cases h

theorem twoDigits?_digits {n : Nat} (h : n < 100) :
    twoDigits? (UInt8.ofNat (0x30 + n / 10 % 10)) (UInt8.ofNat (0x30 + n % 10)) = some n := by
  have numbers : ∀ k : Fin 100, twoDigits? (UInt8.ofNat (0x30 + k.val / 10 % 10))
      (UInt8.ofNat (0x30 + k.val % 10)) = some k.val := by decide +kernel
  exact numbers ⟨n, h⟩

theorem of_ofWithinYear?_eq_some {year : Nat} {o : Octets} {t : Moment}
    (h : ofWithinYear? year o = some t) : t.year = year ∧ t.withinYear = o := by
  unfold ofWithinYear? at h
  split at h
  · simp only [Option.bind_eq_bind, Option.bind_eq_some_iff] at h
    obtain ⟨month, hm, day, hd, hour, hh, minute, hn, second, hs, _, -, ht⟩ := h
    obtain rfl := Option.some.inj ht
    refine ⟨rfl, ?_⟩
    simp only [withinYear, List.flatMap_cons, List.flatMap_nil, (of_twoDigits?_eq_some hm).1,
      (of_twoDigits?_eq_some hd).1, (of_twoDigits?_eq_some hh).1, (of_twoDigits?_eq_some hn).1,
      (of_twoDigits?_eq_some hs).1]
    rfl
  · cases h

theorem daysInMonth_le (year month : Nat) : daysInMonth year month ≤ 31 := by
  grind [daysInMonth]

theorem Valid.ofWithinYear?_withinYear {t : Moment} (h : t.Valid) :
    ofWithinYear? t.year t.withinYear = some t := by
  have hday := daysInMonth_le t.year t.month
  have hguard : (guard t.Valid : Option Unit) = some () := if_pos h
  obtain ⟨-, hmonth, hd, hhour, hminute, hsecond⟩ := h
  simp only [withinYear, List.flatMap_cons, List.flatMap_nil, twoDigits, ofWithinYear?,
    List.cons_append, List.nil_append, twoDigits?_digits (n := t.month) (by omega),
    twoDigits?_digits (n := t.day) (by omega), twoDigits?_digits (n := t.hour) (by omega),
    twoDigits?_digits (n := t.minute) (by omega), twoDigits?_digits (n := t.second) (by omega),
    Option.bind_eq_bind, Option.bind_some]
  rw [hguard]
  rfl

end Moment

namespace Time

open Moment

theorem of_ofUtcContent?_eq_some {o : Octets} {t : Time} (h : ofUtcContent? o = some t) :
    t.content = o ∧ t.tag = .utcTime := by
  unfold ofUtcContent? at h
  split at h
  · next y₁ y₂ r =>
    simp only [Option.bind_eq_bind, Option.bind_eq_some_iff] at h
    obtain ⟨y, hy, m, hm, ht⟩ := h
    split at ht
    · next hvalid =>
      obtain rfl := Option.some.inj ht
      obtain ⟨hyear, hr⟩ := of_ofWithinYear?_eq_some hm
      obtain ⟨hdigits, hlt⟩ := of_twoDigits?_eq_some hy
      refine ⟨?_, rfl⟩
      have hmod : m.year % 100 = y := by
        rw [hyear]
        split <;> omega
      rw [content, hmod, hdigits, hr]
      rfl
    · cases ht
  · cases h

theorem ofUtcContent?_content {m : Moment} (h : m.Valid) (hle : m.year ≤ 2049) :
    ofUtcContent? (utc m h hle).content = some (utc m h hle) := by
  have hyear : (if 50 ≤ m.year % 100 then 1900 + m.year % 100 else 2000 + m.year % 100) =
      m.year := by
    have := h.year
    split <;> omega
  simp only [content, ofUtcContent?, twoDigits, List.cons_append, List.nil_append,
    twoDigits?_digits (Nat.mod_lt _ (by decide : 0 < 100)), Option.bind_eq_bind, Option.bind_some,
    hyear, h.ofWithinYear?_withinYear]
  rw [dif_pos ⟨h, hle⟩]

theorem of_ofGeneralContent_eq_ok {o : Octets} {t : Time} (h : ofGeneralContent o = .ok t) :
    t.content = o ∧ t.tag = .generalizedTime := by
  unfold ofGeneralContent at h
  split at h
  · next y₁ y₂ y₃ y₄ r =>
    split at h
    · split at h
      · cases h
      · cases h
      · next c y hc hy =>
        split at h
        · next m hm =>
          split at h
          · cases h
            obtain ⟨hyear, hr⟩ := of_ofWithinYear?_eq_some hm
            obtain ⟨hc, -⟩ := of_twoDigits?_eq_some hc
            obtain ⟨hy, hlt⟩ := of_twoDigits?_eq_some hy
            refine ⟨?_, rfl⟩
            have hdiv : m.year / 100 = c := by omega
            have hmod : m.year % 100 = y := by omega
            rw [content, hdiv, hmod, hc, hy, hr]
            rfl
          · cases h
        · cases h
    · cases h
  · cases h

theorem getLast?_withinYear (m : Moment) : m.withinYear.getLast? = some 0x5a := by
  simp [withinYear]

theorem ofGeneralContent_content {m : Moment} (h : m.Valid) :
    ofGeneralContent (general m h).content = .ok (general m h) := by
  have hyear := h.year
  have hsum : m.year / 100 * 100 + m.year % 100 = m.year := by omega
  simp only [content, ofGeneralContent, twoDigits, List.cons_append, List.nil_append,
    twoDigits?_digits (n := m.year / 100) (by omega),
    twoDigits?_digits (n := m.year % 100) (by omega), hsum, h.ofWithinYear?_withinYear]
  rw [if_pos (getLast?_withinYear m), dif_pos h]

theorem takesContent_utcValue :
    TakesContent (W := { t : Time // t.tag = .utcTime }) (·.1.content) (·.1) utcValue := by
  intro n c t c' h
  unfold utcValue at h
  split at h
  · obtain ⟨o, hs, hm, hl⟩ := of_take_ofOption_eq_ok h
    obtain ⟨rfl, htag⟩ := of_ofUtcContent?_eq_some hs
    exact ⟨⟨t, htag⟩, rfl, hm, hl⟩
  · cases h

theorem takesContent_generalValue :
    TakesContent (W := { t : Time // t.tag = .generalizedTime }) (·.1.content) (·.1)
      generalValue := by
  intro n c t c' h
  unfold generalValue at h
  split at h
  · obtain ⟨o, hs, hm, hl⟩ := of_take_ofExcept_eq_ok h
    obtain ⟨rfl, htag⟩ := of_ofGeneralContent_eq_ok hs
    exact ⟨⟨t, htag⟩, rfl, hm, hl⟩
  · cases h

theorem takes_decode : Takes encode id decode := by
  intro c t c' h
  obtain ⟨tag, c₁, ht, h⟩ := bind_eq_ok_iff.1 h
  obtain ⟨rfl, -⟩ := of_choice_eq_ok ht
  split at h
  · obtain ⟨⟨t, htag⟩, rfl, hm⟩ := takesContent_utcValue.expect h
    exact ⟨t, rfl, by rwa [encode, htag]⟩
  · obtain ⟨⟨t, htag⟩, rfl, hm⟩ := takesContent_generalValue.expect h
    exact ⟨t, rfl, by rwa [encode, htag]⟩
  · cases h

theorem reads_encode (t : Time) : Reads decode t.encode t := by
  refine (reads_choice t.tag).nil_bind ?_ fun r _ => tlv_append _ _ r
  cases t with
  | utc m h hle =>
    have hvalue : Reads (utcValue 13) (utc m h hle).content (utc m h hle) :=
      (reads_take _).bind_nil (reads_ofOption (ofUtcContent?_content h hle))
    exact hvalue.expect
  | general m h =>
    have hvalue : Reads (generalValue 15) (general m h).content (general m h) :=
      (reads_take _).bind_nil (reads_ofExcept (ofGeneralContent_content h))
    exact hvalue.expect

end Time

end TrustAnchors
