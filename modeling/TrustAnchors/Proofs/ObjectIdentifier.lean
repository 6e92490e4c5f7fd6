import Mathlib.Algebra.Ring.Nat
import Mathlib.Data.Option.Basic
import TrustAnchors.ObjectIdentifier
import TrustAnchors.Proofs.Utf8

/-!
# Dotted text of identifiers

An identifier that was written from text prints as the numbers of its groups. Most numbers come back
as they were, but one that came down to 0x80 while it was written has left an octet of zero bits at
the front of its group. The printed number is then written with fewer octets, so that the text of an
identifier reads back as the same identifier just if no group is padded in this way
(`IsWritten.ofDotted?_chars_iff`).
-/

namespace TrustAnchors.ObjectIdentifier

/-- No group of octets starts with an octet that adds nothing to the number. -/
def IsMinimal (oid : ObjectIdentifier) : Prop :=
  ∀ g ∈ groups oid.octets.tail, g.head? ≠ some 0x80

instance (oid : ObjectIdentifier) : Decidable oid.IsMinimal :=
  inferInstanceAs (Decidable (∀ g ∈ groups oid.octets.tail, g.head? ≠ some 0x80))

theorem groups_append {ds : Octets} {d : UInt8} (hds : ∀ b ∈ ds, ¬ b < 0x80) (hd : d < 0x80)
    (r : Octets) : groups (ds ++ d :: r) = (ds ++ [d]) :: groups r := by
  induction ds with
  | nil => rw [List.nil_append, groups, if_pos hd, List.nil_append]
  | cons b ds ih =>
    have ih := ih fun c hc => hds c (List.mem_cons_of_mem b hc)
    rw [List.cons_append, groups, if_neg (hds b List.mem_cons_self), ih]
    rfl

theorem exists_groups_cons (b : UInt8) (r : Octets) :
    ∃ g gs, groups (b :: r) = (b :: g) :: gs := by
  rw [groups]
  split
  · exact ⟨[], _, rfl⟩
  · split
    · exact ⟨[], [], rfl⟩
    · exact ⟨_, _, rfl⟩

theorem flatten_groups (o : Octets) : (groups o).flatten = o := by
  fun_induction groups o with
  | case1 => rfl
  | case2 b r hb ih => rw [List.flatten_cons, ih, List.singleton_append]
  | case3 b r hb hg ih =>
    rw [hg] at ih
    rw [← ih]
    rfl
  | case4 b r hb g gs hg ih =>
    rw [hg] at ih
    rw [← ih]
    rfl

theorem ne_nil_of_mem_groups {o g : Octets} (h : g ∈ groups o) : g ≠ [] := by
  fun_induction groups o with
  | case1 => cases h
  | case2 b r hb ih =>
    rcases List.mem_cons.1 h with rfl | h
    · exact List.cons_ne_nil _ _
    · exact ih h
  | case3 b r hb hg ih =>
    rw [List.mem_singleton.1 h]
    exact List.cons_ne_nil _ _
  | case4 b r hb g' gs hg ih =>
    rcases List.mem_cons.1 h with rfl | h
    · exact List.cons_ne_nil _ _
    · rw [hg] at ih
      exact ih (List.mem_cons_of_mem _ h)

theorem arcValue_concat (g : Octets) (b : UInt8) :
    arcValue (g ++ [b]) = (arcValue g * 128 + (b % 128).toNat) % 0x100000000 := by
  rw [arcValue, List.foldl_append]
  rfl

theorem arcValue_lt (g : Octets) : arcValue g < 0x100000000 := by
  rcases List.eq_nil_or_concat g with rfl | ⟨h, b, rfl⟩
  · decide
  · rw [List.concat_eq_append, arcValue_concat]
    exact Nat.mod_lt _ (by decide)

theorem foldl_arcValue_lt (n : Nat) (g : Octets) :
    g.foldl (fun n b => (n * 128 + (b % 128).toNat) % 0x100000000) n <
      (n + 1) * 128 ^ g.length := by
  induction g generalizing n with
  | nil => simp
  | cons b g ih =>
    have hb : (b % 128).toNat < 128 := Nat.mod_lt _ (by decide)
    have hstep : (n * 128 + (b % 128).toNat) % 0x100000000 + 1 ≤ (n + 1) * 128 := by
      have := Nat.mod_le (n * 128 + (b % 128).toNat) 0x100000000
      omega
    calc _ < ((n * 128 + (b % 128).toNat) % 0x100000000 + 1) * 128 ^ g.length := ih _
      _ ≤ (n + 1) * 128 * 128 ^ g.length := Nat.mul_le_mul_right _ hstep
      _ = (n + 1) * 128 ^ (b :: g).length := by rw [List.length_cons, Nat.pow_succ']; ac_rfl

theorem arcValue_lt_pow (g : Octets) : arcValue g < 128 ^ g.length := by
  have h := foldl_arcValue_lt 0 g
  rwa [Nat.zero_add, Nat.one_mul] at h

/-- The first octet of a padded group does not count. -/
theorem arcValue_padded_lt_pow (g : Octets) : arcValue (0x80 :: g) < 128 ^ g.length :=
  arcValue_lt_pow g

theorem arcWidth_lt_of_lt_pow {n k : Nat} (hk : 0 < k) (h : n < 128 ^ k) : arcWidth n < k := by
  unfold arcWidth
  by_cases hlarge : 5 ≤ k
  · grind
  · obtain rfl | rfl | rfl | rfl : k = 1 ∨ k = 2 ∨ k = 3 ∨ k = 4 := by omega
    all_goals grind

theorem pow_arcWidth_le {n : Nat} (h : 0x80 ≤ n) : 128 ^ arcWidth n ≤ n := by
  unfold arcWidth
  split
  · omega
  · split
    · omega
    · split
      · omega
      · split <;> omega

theorem length_arcDigits {k n : Nat} {c : UInt8} {done g : Octets}
    (h : arcDigits k n c done = some g) : g.length = k + 1 + done.length := by
  induction k generalizing n c done with
  | zero =>
    rw [arcDigits] at h
    split at h
    · cases h
      simp [Nat.add_comm]
    · cases h
  | succ k ih =>
    rw [arcDigits] at h
    split at h
    · cases h
      simp [Nat.add_comm, Nat.add_left_comm]
    · rw [ih h, List.length_cons]
      omega

theorem length_arcOctets {n : Nat} {g : Octets} (h : arcOctets n = some g) :
    g.length = arcWidth n + 1 :=
  length_arcDigits h

/-- The number of a group is written with no more octets, and with fewer if the group is padded. -/
theorem length_arcOctets_arcValue {g w : Octets} (hg : g.getLast?.any (· < 0x80) = true)
    (h : arcOctets (arcValue g) = some w) :
    w.length ≤ g.length ∧ (g.head? = some 0x80 → w.length < g.length) := by
  cases g with
  | nil => cases hg
  | cons b r =>
    have hwidth := arcWidth_lt_of_lt_pow (Nat.succ_pos r.length) (arcValue_lt_pow (b :: r))
    rw [length_arcOctets h]
    refine ⟨hwidth, fun hb => ?_⟩
    cases hb
    cases r with
    | nil => cases hg
    | cons c r =>
      have hpadded := arcWidth_lt_of_lt_pow (Nat.succ_pos r.length) (arcValue_padded_lt_pow (c :: r))
      exact Nat.succ_lt_succ hpadded

/-- Seven bits of a number, with a continuation bit. -/
theorem continued_spec {n : Nat} (h : n < 0x80) :
    ¬ (UInt8.ofNat n ||| 0x80) < 0x80 ∧ ((UInt8.ofNat n ||| 0x80) % 128).toNat = n := by
  have hall : ∀ k : Fin 128, ¬ (UInt8.ofNat k ||| 0x80) < 0x80 ∧
      ((UInt8.ofNat k ||| 0x80) % 128).toNat = k := by decide
  exact hall ⟨n, h⟩

theorem final_spec {n : Nat} (h : n < 0x80) :
    UInt8.ofNat n ||| 0 < 0x80 ∧ ((UInt8.ofNat n ||| 0) % 128).toNat = n := by
  have hall : ∀ k : Fin 128, UInt8.ofNat k ||| 0 < 0x80 ∧
      ((UInt8.ofNat k ||| 0) % 128).toNat = k := by decide
  exact hall ⟨n, h⟩

/-- The leading octets of a group are padded, or they hold the number. -/
theorem arcDigits_spec {k n : Nat} {done g : Octets} (hn : n < 0x100000000)
    (hk : k = 0 ∨ 128 ^ k ≤ n) (h : arcDigits k n 0x80 done = some g) :
    ∃ ds, g = ds ++ done ∧
      (ds.head? = some 0x80 ∨ (∀ b ∈ ds, ¬ b < 0x80) ∧ arcValue ds = n) := by
  induction k generalizing n done with
  | zero =>
    rw [arcDigits] at h
    split at h
    · next hle =>
      cases h
      refine ⟨[UInt8.ofNat n ||| 0x80], rfl, ?_⟩
      by_cases heq : n = 0x80
      · subst heq
        exact .inl rfl
      · obtain ⟨hb, hv⟩ := continued_spec (n := n) (by omega)
        refine .inr ⟨by simpa using hb, ?_⟩
        rw [← List.nil_append [_], arcValue_concat, hv]
        simpa [arcValue] using Nat.mod_eq_of_lt hn
    · cases h
  | succ k ih =>
    rw [arcDigits] at h
    have hk : 128 ^ (k + 1) ≤ n := hk.resolve_left (Nat.succ_ne_zero k)
    split at h
    · next hle =>
      cases h
      have hpos : 0 < 128 ^ k := Nat.pow_pos (by decide)
      rw [Nat.pow_succ] at hk
      obtain rfl : n = 0x80 := by omega
      exact ⟨0x80 :: List.replicate (k + 1) 0, rfl, .inl rfl⟩
    · have hdiv : 128 ^ k ≤ n / 128 := (Nat.le_div_iff_mul_le (by decide)).2 hk
      obtain ⟨ds, rfl, hds⟩ := ih (by omega) (.inr hdiv) h
      refine ⟨ds ++ [UInt8.ofNat (n % 128) ||| 0x80], by simp, ?_⟩
      rcases hds with hpadded | ⟨hds, hv⟩
      · exact .inl (by simp [hpadded])
      · obtain ⟨hb, hlow⟩ := continued_spec (Nat.mod_lt n (by decide : 0 < 128))
        refine .inr ⟨?_, ?_⟩
        · intro b hb'
          rcases List.mem_append.1 hb' with hb' | hb'
          · exact hds b hb'
          · rw [List.mem_singleton.1 hb']
            exact hb
        · rw [arcValue_concat, hv, hlow]
          omega

/-- What is written for a number ends a group, and is padded or the one group of the number. -/
theorem arcOctets_spec {n : Nat} {g : Octets} (hn : n < 0x100000000) (h : arcOctets n = some g) :
    ∃ ds d, g = ds ++ [d] ∧ d < 0x80 ∧
      (g.head? = some 0x80 ∨ (∀ b ∈ ds, ¬ b < 0x80) ∧ arcValue g = n) := by
  unfold arcOctets at h
  rcases Nat.lt_trichotomy n 0x80 with hlt | rfl | hgt
  · have hwidth : arcWidth n = 0 := if_pos hlt
    obtain ⟨hd, hv⟩ := final_spec hlt
    rw [hwidth, arcDigits, if_pos (Nat.le_of_lt hlt)] at h
    cases h
    refine ⟨[], _, rfl, hd, .inr ⟨nofun, ?_⟩⟩
    change arcValue ([] ++ [UInt8.ofNat n ||| 0]) = n
    rw [arcValue_concat, hv]
    simpa [arcValue] using Nat.mod_eq_of_lt hn
  · cases h
    exact ⟨[0x80], 0, rfl, by decide, .inl rfl⟩
  · have hwide : arcWidth n ≠ 0 := by grind [arcWidth]
    obtain ⟨k, hk⟩ := Nat.exists_eq_add_one.2 (Nat.pos_of_ne_zero hwide)
    have hpow := pow_arcWidth_le (Nat.le_of_lt hgt)
    rw [hk] at h hpow
    rw [arcDigits, if_neg (Nat.not_le.2 hgt)] at h
    have hdiv : 128 ^ k ≤ n / 128 := (Nat.le_div_iff_mul_le (by decide)).2 hpow
    obtain ⟨ds, rfl, hds⟩ := arcDigits_spec (by omega) (.inr hdiv) h
    obtain ⟨hd, hlow⟩ := final_spec (Nat.mod_lt n (by decide : 0 < 128))
    refine ⟨ds, _, rfl, hd, ?_⟩
    rcases hds with hpadded | ⟨hds, hv⟩
    · exact .inl (by simp [hpadded])
    · refine .inr ⟨hds, ?_⟩
      rw [arcValue_concat, hv, hlow]
      omega

/-- The text of some numbers. -/
def dotted (ns : List Nat) : List Char := (ns.map Nat.repr |>.intersperse ".").flatMap String.toList

theorem chars_eq_dotted (oid : ObjectIdentifier) : oid.chars = dotted oid.arcs := rfl

theorem dotted_singleton (n : Nat) : dotted [n] = Nat.toDigits 10 n := by
  simp [dotted, Nat.toList_repr]

theorem dotted_cons_cons (n m : Nat) (ns : List Nat) :
    dotted (n :: m :: ns) = Nat.toDigits 10 n ++ '.' :: dotted (m :: ns) := by
  simp [dotted, Nat.toList_repr]

theorem dotted_ne_nil {ns : List Nat} (h : ns ≠ []) : dotted ns ≠ [] := by
  cases ns with
  | nil => exact absurd rfl h
  | cons n ns =>
    cases ns with
    | nil =>
      rw [dotted_singleton]
      exact Nat.toDigits_ne_nil
    | cons m ns =>
      rw [dotted_cons_cons]
      simp

/-- A decimal digit is one octet, which the reader takes for the digit. -/
theorem digit_spec {c : Char} (h : c.isDigit = true) :
    String.utf8EncodeChar c = [c.toUInt8] ∧ Ascii.isDigit c.toUInt8 = true ∧
      (c.toUInt8 - 0x30).toNat = c.toNat - '0'.toNat := by
  have hascii : c.toNat < 0x80 := by
    simp only [Char.isDigit, Bool.and_eq_true, decide_eq_true_eq] at h
    exact Nat.lt_of_le_of_lt h.2 (by decide)
  revert h
  refine Utf8.forall_ascii (P := fun c => c.isDigit = true → String.utf8EncodeChar c = [c.toUInt8] ∧
    Ascii.isDigit c.toUInt8 = true ∧ (c.toUInt8 - 0x30).toNat = c.toNat - '0'.toNat) ?_ hascii
  decide +kernel

theorem dottedNumbers_digits {cs : List Char} (h : ∀ c ∈ cs, c.isDigit = true) (n : Nat)
    (r : Octets) :
    dottedNumbers (n % 0x100000000) (Utf8.encode cs ++ r) =
      dottedNumbers (Nat.ofDigitChars 10 cs n % 0x100000000) r := by
  induction cs generalizing n with
  | nil => rfl
  | cons c cs ih =>
    obtain ⟨henc, hd, hv⟩ := digit_spec (h c List.mem_cons_self)
    have ih := ih (fun d hd => h d (List.mem_cons_of_mem c hd)) (10 * n + (c.toNat - '0'.toNat))
    rw [Utf8.encode_cons, henc, List.append_assoc, List.singleton_append, dottedNumbers, if_pos hd,
      hv, Nat.ofDigitChars_cons, ← ih]
    congr 1
    omega

theorem dottedNumbers_dotted {ns : List Nat} (hne : ns ≠ []) (h : ∀ n ∈ ns, n < 0x100000000) :
    dottedNumbers 0 (Utf8.encode (dotted ns)) = some ns := by
  have hdigits (n : Nat) : ∀ c ∈ Nat.toDigits 10 n, c.isDigit = true :=
    fun c hc => Nat.isDigit_of_mem_toDigits (by decide) (by decide) hc
  induction ns with
  | nil => exact absurd rfl hne
  | cons n ns ih =>
    have hn : Nat.ofDigitChars 10 (Nat.toDigits 10 n) 0 % 0x100000000 = n := by
      rw [Nat.ofDigitChars_toDigits (by decide) (by decide)]
      exact Nat.mod_eq_of_lt (h n List.mem_cons_self)
    cases ns with
    | nil =>
      have hread := dottedNumbers_digits (hdigits n) 0 []
      rw [List.append_nil, hn] at hread
      rw [dotted_singleton]
      exact hread
    | cons m ns =>
      have hread := dottedNumbers_digits (hdigits n) 0 (Utf8.encode ('.' :: dotted (m :: ns)))
      rw [hn] at hread
      rw [dotted_cons_cons, Utf8.encode_append]
      refine hread.trans ?_
      have ih := ih (List.cons_ne_nil _ _) fun k hk => h k (List.mem_cons_of_mem n hk)
      rw [Utf8.encode_cons, show String.utf8EncodeChar '.' = [Ascii.dot] from by decide,
        List.singleton_append, dottedNumbers, if_neg (by decide), if_pos, ih]
      · rfl
      · exact ⟨rfl, Utf8.encode_ne_nil (dotted_ne_nil (List.cons_ne_nil m ns))⟩

theorem head_dotted {ns : List Nat} (h : ns ≠ []) :
    (Utf8.encode (dotted ns)).head?.any Ascii.isDigit = true := by
  obtain ⟨n, ns, rfl⟩ := List.exists_cons_of_ne_nil h
  obtain ⟨c, cs, hcs⟩ := List.exists_cons_of_ne_nil (Nat.toDigits_ne_nil (n := n) (b := 10))
  have hdigit := Nat.isDigit_of_mem_toDigits (n := n) (b := 10) (by decide) (by decide)
    (hcs ▸ List.mem_cons_self)
  have hhead : ∃ ds, dotted (n :: ns) = c :: ds := by
    cases ns with
    | nil => exact ⟨cs, by rw [dotted_singleton, hcs]⟩
    | cons m ns => exact ⟨_, by rw [dotted_cons_cons, hcs, List.cons_append]⟩
  obtain ⟨ds, hds⟩ := hhead
  rw [hds, Utf8.encode_cons, (digit_spec hdigit).1]
  exact (digit_spec hdigit).2.1

theorem ofDotted?_dotted {ns : List Nat} (hne : ns ≠ []) (h : ∀ n ∈ ns, n < 0x100000000) :
    ofDotted? (Utf8.encode (dotted ns)) = ofArcs? ns := by
  rw [ofDotted?, head_dotted hne, dottedNumbers_dotted hne h]
  rfl

theorem dottedNumbers_lt {n : Nat} {o : Octets} {ns : List Nat} (hn : n < 0x100000000)
    (h : dottedNumbers n o = some ns) : ∀ m ∈ ns, m < 0x100000000 := by
  induction o generalizing n ns with
  | nil =>
    cases h
    simpa using hn
  | cons b r ih =>
    rw [dottedNumbers] at h
    split at h
    · exact ih (Nat.mod_lt _ (by decide)) h
    · split at h
      · obtain ⟨ms, hms, rfl⟩ := Option.map_eq_some_iff.1 h
        exact List.forall_mem_cons.2 ⟨hn, ih (by decide) hms⟩
      · cases h

theorem arcs_lt (oid : ObjectIdentifier) : ∀ n ∈ oid.arcs, n < 0x100000000 := by
  intro n hn
  obtain ⟨_ | ⟨b, r⟩⟩ := oid
  · cases hn
  · have hb (c : UInt8) : c.toNat < 0x100000000 := Nat.lt_trans c.toNat_lt (by decide)
    simp only [arcs, List.mem_cons, List.mem_map] at hn
    rcases hn with rfl | rfl | ⟨g, -, rfl⟩
    · exact hb _
    · exact hb _
    · exact arcValue_lt g

theorem arcs_ne_nil {oid : ObjectIdentifier} (h : oid.octets ≠ []) : oid.arcs ≠ [] := by
  obtain ⟨_ | ⟨b, r⟩⟩ := oid
  · exact absurd rfl h
  · exact List.cons_ne_nil _ _

theorem head_chars {oid : ObjectIdentifier} (h : oid.octets ≠ []) :
    (Utf8.encode oid.chars).head?.any Ascii.isDigit = true :=
  head_dotted (arcs_ne_nil h)

theorem ofDotted?_chars {oid : ObjectIdentifier} (h : oid.octets ≠ []) :
    ofDotted? (Utf8.encode oid.chars) = ofArcs? oid.arcs := by
  rw [chars_eq_dotted, ofDotted?_dotted (arcs_ne_nil h) oid.arcs_lt]

theorem ofDotted?_eq_some {key : Octets} {oid : ObjectIdentifier} (h : ofDotted? key = some oid) :
    key.head?.any Ascii.isDigit = true ∧
      ∃ ns, dottedNumbers 0 key = some ns ∧ ofArcs? ns = some oid := by
  simp only [ofDotted?, Option.bind_eq_bind, Option.bind_eq_some_iff] at h
  obtain ⟨_, hd, ns, hns, harcs⟩ := h
  exact ⟨(Option.guard_eq_some' _).1 hd, ns, hns, harcs⟩

/-- What is known of an identifier that was written for some numbers. -/
theorem ofArcs?_eq_some {ns : List Nat} {oid : ObjectIdentifier} (h : ofArcs? ns = some oid) :
    ∃ first second rest gs, ns = first :: second :: rest ∧ first ≤ 2 ∧ second ≤ 39 ∧
      rest.mapM arcOctets = some gs ∧
      oid.octets = UInt8.ofNat (first * 40 + second) :: gs.flatten := by
  unfold ofArcs? at h
  split at h
  · next first second rest =>
    simp only [Option.bind_eq_bind, Option.bind_eq_some_iff] at h
    obtain ⟨_, hle, gs, hgs, _, _, h⟩ := h
    cases h
    obtain ⟨hfirst, hsecond⟩ := (Option.guard_eq_some' _).1 hle
    exact ⟨first, second, rest, gs, rfl, hfirst, hsecond, hgs, rfl⟩
  · cases h

/-- Written groups come back as they were, if none of them is padded. -/
theorem groups_of_mapM_arcOctets {ns : List Nat} {gs : List Octets}
    (hns : ∀ n ∈ ns, n < 0x100000000) (h : ns.mapM arcOctets = some gs)
    (hmin : ∀ g ∈ groups gs.flatten, g.head? ≠ some 0x80) :
    groups gs.flatten = gs ∧ gs.map arcValue = ns := by
  induction ns generalizing gs with
  | nil =>
    cases h
    exact ⟨rfl, rfl⟩
  | cons n ns ih =>
    rw [List.mapM_cons] at h
    obtain ⟨g, hg, h⟩ := Option.bind_eq_some_iff.1 h
    obtain ⟨gs, hgs, h⟩ := Option.bind_eq_some_iff.1 h
    cases h
    obtain ⟨ds, d, rfl, hd, hpadded | ⟨hds, hv⟩⟩ :=
      arcOctets_spec (hns n List.mem_cons_self) hg
    · -- The first octet of what is written is the first octet of a group.
      obtain ⟨b, r, hbr⟩ := List.exists_cons_of_ne_nil (List.append_ne_nil_of_right_ne_nil ds
        (List.cons_ne_nil d []))
      obtain ⟨k, ks, hks⟩ := exists_groups_cons b (r ++ gs.flatten)
      rw [hbr] at hpadded
      have hmem : b :: k ∈ groups ((ds ++ [d]) :: gs).flatten := by
        rw [List.flatten_cons, hbr, List.cons_append, hks]
        exact List.mem_cons_self
      exact absurd hpadded (hmin (b :: k) hmem)
    · have hgroups : groups ((ds ++ [d]) :: gs).flatten = (ds ++ [d]) :: groups gs.flatten := by
        rw [List.flatten_cons, List.append_assoc, List.singleton_append, groups_append hds hd]
      rw [hgroups] at hmin ⊢
      obtain ⟨hflat, hvalues⟩ := ih (fun m hm => hns m (List.mem_cons_of_mem n hm)) hgs
        fun g hg => hmin g (List.mem_cons_of_mem _ hg)
      rw [hflat, List.map_cons, hv, hvalues]
      exact ⟨rfl, rfl⟩

theorem arcs_of_ofArcs? {ns : List Nat} {oid : ObjectIdentifier} (hns : ∀ n ∈ ns, n < 0x100000000)
    (h : ofArcs? ns = some oid) (hmin : oid.IsMinimal) : oid.arcs = ns := by
  obtain ⟨first, second, rest, gs, rfl, hfirst, hsecond, hgs, hoctets⟩ := ofArcs?_eq_some h
  obtain ⟨octets⟩ := oid
  subst hoctets
  obtain ⟨hflat, hvalues⟩ := groups_of_mapM_arcOctets
    (fun n hn => hns n (List.mem_cons_of_mem _ (List.mem_cons_of_mem _ hn))) hgs hmin
  have hb : (UInt8.ofNat (first * 40 + second)).toNat = first * 40 + second :=
    UInt8.toNat_ofNat_of_lt' (show _ < 256 by omega)
  have hfirst' : (UInt8.ofNat (first * 40 + second) / 40).toNat = first := by
    rw [UInt8.toNat_div, hb]
    exact show (first * 40 + second) / 40 = first by omega
  have hsecond' : (UInt8.ofNat (first * 40 + second) % 40).toNat = second := by
    rw [UInt8.toNat_mod, hb]
    exact show (first * 40 + second) % 40 = second by omega
  rw [arcs]
  simp only [hfirst', hsecond', hflat, hvalues]

/-- An identifier that was written for some numbers. -/
def IsWritten (oid : ObjectIdentifier) : Prop :=
  ∃ ns, (∀ n ∈ ns, n < 0x100000000) ∧ ofArcs? ns = some oid

theorem isWritten_of_dotted {key : Octets} {oid : ObjectIdentifier} (h : ofDotted? key = some oid) :
    oid.IsWritten := by
  obtain ⟨-, ns, hns, harcs⟩ := ofDotted?_eq_some h
  exact ⟨ns, dottedNumbers_lt (by decide) hns, harcs⟩

/-- Groups end with an octet below 0x80, if the last octet is one. -/
theorem getLast_of_mem_groups {o g : Octets} (ho : o.getLast?.all (· < 0x80) = true)
    (h : g ∈ groups o) : g.getLast?.any (· < 0x80) = true := by
  fun_induction groups o generalizing g with
  | case1 => cases h
  | case2 b r hb ih =>
    rcases List.mem_cons.1 h with rfl | h
    · simpa using hb
    · cases r with
      | nil => cases h
      | cons c r => exact ih ho h
  | case3 b r hb hg ih =>
    have hr := flatten_groups r
    rw [hg] at hr
    subst hr
    exact absurd (by simpa using ho) hb
  | case4 b r hb g' gs hg ih =>
    have hne : g' ≠ [] := ne_nil_of_mem_groups (hg ▸ List.mem_cons_self : g' ∈ groups r)
    obtain ⟨c, k, rfl⟩ := List.exists_cons_of_ne_nil hne
    cases r with
    | nil => cases hg
    | cons d r =>
      rcases List.mem_cons.1 h with rfl | h
      · exact ih (g := c :: k) ho (hg ▸ List.mem_cons_self)
      · exact ih ho (hg ▸ List.mem_cons_of_mem _ h)

theorem getLast_flatten_of_mapM_arcOctets {ns : List Nat} {gs : List Octets}
    (hns : ∀ n ∈ ns, n < 0x100000000) (h : ns.mapM arcOctets = some gs) :
    gs.flatten.getLast?.all (· < 0x80) = true := by
  induction ns generalizing gs with
  | nil =>
    cases h
    rfl
  | cons n ns ih =>
    rw [List.mapM_cons] at h
    obtain ⟨g, hg, h⟩ := Option.bind_eq_some_iff.1 h
    obtain ⟨gs, hgs, h⟩ := Option.bind_eq_some_iff.1 h
    cases h
    have ih := ih (fun m hm => hns m (List.mem_cons_of_mem n hm)) hgs
    obtain ⟨ds, d, rfl, hd, -⟩ := arcOctets_spec (hns n List.mem_cons_self) hg
    rw [List.flatten_cons, List.getLast?_append]
    cases hlast : gs.flatten.getLast? with
    | none => simpa using hd
    | some e =>
      rw [hlast] at ih
      exact ih

/-- Groups whose numbers are written again. -/
theorem length_flatten_le {gs ws : List Octets}
    (hend : ∀ g ∈ gs, g.getLast?.any (· < 0x80) = true)
    (h : (gs.map arcValue).mapM arcOctets = some ws) :
    ws.flatten.length ≤ gs.flatten.length ∧
      ((∃ g ∈ gs, g.head? = some 0x80) → ws.flatten.length < gs.flatten.length) := by
  induction gs generalizing ws with
  | nil =>
    cases h
    exact ⟨Nat.le_refl _, by simp⟩
  | cons g gs ih =>
    rw [List.map_cons, List.mapM_cons] at h
    obtain ⟨w, hw, h⟩ := Option.bind_eq_some_iff.1 h
    obtain ⟨ws, hws, h⟩ := Option.bind_eq_some_iff.1 h
    cases h
    obtain ⟨hle, hlt⟩ := length_arcOctets_arcValue (hend g List.mem_cons_self) hw
    obtain ⟨hles, hlts⟩ := ih (fun k hk => hend k (List.mem_cons_of_mem g hk)) hws
    rw [List.flatten_cons, List.flatten_cons, List.length_append, List.length_append]
    refine ⟨Nat.add_le_add hle hles, ?_⟩
    rintro ⟨k, hk, hpadded⟩
    rcases List.mem_cons.1 hk with rfl | hk
    · exact Nat.add_lt_add_of_lt_of_le (hlt hpadded) hles
    · exact Nat.add_lt_add_of_le_of_lt hle (hlts ⟨k, hk, hpadded⟩)

namespace IsWritten

variable {oid : ObjectIdentifier}

theorem octets_ne_nil (h : oid.IsWritten) : oid.octets ≠ [] := by
  obtain ⟨ns, hns, h⟩ := h
  obtain ⟨first, second, rest, gs, -, -, -, -, hoctets⟩ := ofArcs?_eq_some h
  rw [hoctets]
  exact List.cons_ne_nil _ _

/-- The text of a written identifier is that of one which is not longer, and which is shorter if a
group is padded. -/
theorem length_le (h : oid.IsWritten) {other : ObjectIdentifier}
    (hr : ofDotted? (Utf8.encode oid.chars) = some other) :
    other.octets.length ≤ oid.octets.length ∧
      (¬ oid.IsMinimal → other.octets.length < oid.octets.length) := by
  rw [ofDotted?_chars h.octets_ne_nil] at hr
  obtain ⟨ns, hns, h⟩ := h
  obtain ⟨first, second, rest, gs, rfl, -, -, hgs, hoctets⟩ := ofArcs?_eq_some h
  have hend := getLast_flatten_of_mapM_arcOctets
    (fun n hn => hns n (List.mem_cons_of_mem _ (List.mem_cons_of_mem _ hn))) hgs
  obtain ⟨octets⟩ := oid
  subst hoctets
  obtain ⟨_, _, _, ws, harcs, -, -, hws, hoctets'⟩ := ofArcs?_eq_some hr
  cases harcs
  have hlength := length_flatten_le (fun g hg => getLast_of_mem_groups hend hg) hws
  rw [flatten_groups] at hlength
  rw [hoctets', List.length_cons, List.length_cons]
  refine ⟨Nat.succ_le_succ hlength.1, fun hpadded => Nat.succ_lt_succ (hlength.2 ?_)⟩
  simpa [IsMinimal] using hpadded

/-- The text of a written identifier reads back just if no group is padded. -/
theorem ofDotted?_chars_iff (h : oid.IsWritten) :
    ofDotted? (Utf8.encode oid.chars) = some oid ↔ oid.IsMinimal := by
  constructor
  · intro hr
    by_contra hpadded
    exact Nat.lt_irrefl _ ((h.length_le hr).2 hpadded)
  · intro hmin
    rw [ofDotted?_chars h.octets_ne_nil]
    obtain ⟨ns, hns, h⟩ := h
    rw [arcs_of_ofArcs? hns h hmin, h]

end IsWritten

end TrustAnchors.ObjectIdentifier
