import Mathlib.Order.Monotone.Basic
import TrustAnchors.Proofs.Name.Lexer.Safety

/-!
# Runs of the machine

Every run over a text ends with the result of `normalize`, after six steps for each octet and four
more at the latest (`run_done`). The cursor goes forward through the text until then, and what is
cut out of the text is whole characters, although the cursor comes into the middle of characters,
too (`run_safe`).
-/

namespace TrustAnchors.Name.Lexer

open Ascii Lenient
open Utf8 (IsBoundary)

theorem step_of_done (o : Octets) {s : State} {q : Except Fault Octets} (h : s.mode = .done q) :
    step o s = s := by
  rw [step, h]

theorem Invariant.step {cs : List Char} {r : Except Fault Octets} {s : State}
    (h : Invariant cs r s) : Invariant cs r (step (Utf8.encode cs) s) := by
  by_cases hdone : s.mode = .done r
  · rwa [step_of_done _ hdone]
  · exact (h.next hdone).invariant

theorem invariant_run (cs : List Char) (n : Nat) :
    Invariant cs (Lenient.normalize (Utf8.encode cs)) (run cs n) := by
  induction n with
  | zero => exact .head (Utf8.isBoundary_zero cs) (readNames_zero _).symm
  | succ n ih => exact ih.step

/-- Each octet of the text lets five steps follow that take none. -/
theorem run_potential (cs : List Char) (n : Nat) :
    (run cs n).mode = .done (Lenient.normalize (Utf8.encode cs)) ∨
      6 * ((Utf8.encode cs).length - (run cs n).pos) + (run cs n).mode.rank + n ≤
        6 * (Utf8.encode cs).length + 4 := by
  induction n with
  | zero => exact .inr (Nat.le_refl _)
  | succ n ih =>
    by_cases hdone : (run cs n).mode = .done (Lenient.normalize (Utf8.encode cs))
    · left
      rwa [run, step_of_done _ hdone]
    · have hle := ih.resolve_left hdone
      have hrank := (step (Utf8.encode cs) (run cs n)).mode.rank_le
      right
      rw [run]
      rcases ((invariant_run cs n).next hdone).progress with ⟨hpos, hlt⟩ | ⟨hpos, hlt⟩
      · omega
      · omega

theorem run_done {cs : List Char} {n : Nat} (h : 6 * (Utf8.encode cs).length + 4 ≤ n) :
    (run cs n).mode = .done (Lenient.normalize (Utf8.encode cs)) := by
  by_contra hdone
  have hle := (run_potential cs n).resolve_left hdone
  rcases ((invariant_run cs n).next hdone).progress with ⟨hpos, hlt⟩ | ⟨hpos, hlt⟩
  · omega
  · omega

theorem Invariant.pos_le_length {cs : List Char} {r : Except Fault Octets} {s : State}
    (h : Invariant cs r s) : s.pos ≤ (Utf8.encode cs).length := by
  cases h with
  | head hk => exact hk.le_length
  | spaces hk => exact hk.le_length
  | type _ _ hrun => exact hrun.le_length
  | takeType _ _ hrun => exact hrun.le_length
  | value hk => exact hk.le_length
  | hex _ hk => exact hk.le_length
  | takeHex _ hk => exact hk.le_length
  | content hk => exact hk
  | escape hget => exact (List.getElem?_eq_some_iff.1 hget).1
  | escapeDigit _ hx => exact (List.getElem?_eq_some_iff.1 hx).1
  | separator hk => exact hk.le_length
  | unexpected hk => exact hk
  | done hk => exact hk

theorem Invariant.pos_le_step {cs : List Char} {r : Except Fault Octets} {s : State}
    (h : Invariant cs r s) : s.pos ≤ (Lexer.step (Utf8.encode cs) s).pos := by
  by_cases hdone : s.mode = .done r
  · rw [step_of_done _ hdone]
  · rcases (h.next hdone).progress with ⟨hpos, -⟩ | ⟨hpos, -⟩
    · omega
    · omega

theorem pos_run_mono (cs : List Char) : Monotone fun n => (run cs n).pos :=
  monotone_nat_of_le_succ fun n => (invariant_run cs n).pos_le_step

/-- Text is cut at boundaries that are in order. -/
theorem Invariant.cut {cs : List Char} {r : Except Fault Octets} {s : State} {start : Nat}
    (h : Invariant cs r s) (hs : s.mode = .takeType start ∨ s.mode = .takeHex start) :
    start ≤ s.pos ∧ IsBoundary cs start ∧ IsBoundary cs s.pos := by
  cases h with
  | takeType hstart _ hrun hget =>
    obtain rfl := Mode.takeType.inj (hs.resolve_right nofun)
    exact ⟨hrun.le, hstart, (Utf8.isBoundary_of_lt hget (by decide)).1⟩
  | takeHex hstart hk hle =>
    obtain rfl := Mode.takeHex.inj (hs.resolve_left nofun)
    exact ⟨hle, hstart, hk⟩
  | _ => rcases hs with hs | hs <;> cases hs

theorem Invariant.pos_of_unexpected {cs : List Char} {r : Except Fault Octets} {s : State}
    {b : UInt8} (h : Invariant cs r s) (hs : s.mode = .unexpected b) : 1 ≤ s.pos := by
  cases h with
  | unexpected => exact Nat.le_add_left 1 _
  | _ => cases hs

theorem Invariant.not_panicked {cs : List Char} {r : Except Fault Octets} {s : State}
    (h : Invariant cs r s) : s.mode ≠ .panicked := by
  cases h <;> exact nofun

/-- An assignment is read that starts at the given offset. Up to its type, the cursor may still be
there, and where a type is missing it may stay there. -/
def InPass (k : Nat) (s : State) : Prop :=
  k < s.pos ∨ s.pos = k ∧
    (s.mode = .spaces .type ∨ s.mode = .type k ∨ s.mode = .takeType k ∨
      s.mode = .done (.error (.missingEquals k)))

theorem InPass.step {cs : List Char} {r : Except Fault Octets} {k : Nat} {s : State}
    (h : InPass k s) (hs : Invariant cs r s) : InPass k (step (Utf8.encode cs) s) := by
  rcases h with hlt | ⟨hpos, hmode⟩
  · exact .inl (Nat.lt_of_lt_of_le hlt hs.pos_le_step)
  obtain ⟨mode, j, out⟩ := s
  dsimp only at hpos hmode
  subst hpos
  rcases hmode with rfl | rfl | rfl | rfl
  · rw [Lexer.step]
    dsimp only
    split
    · exact .inl (Nat.lt_succ_self j)
    · exact .inr ⟨rfl, .inr (.inl rfl)⟩
  · rw [Lexer.step]
    dsimp only
    split
    · exact .inr ⟨rfl, .inr (.inr (.inr rfl))⟩
    · split
      · exact .inr ⟨rfl, .inr (.inr (.inl rfl))⟩
      · split
        · exact .inr ⟨rfl, .inr (.inr (.inr rfl))⟩
        · exact .inl (Nat.lt_succ_self j)
  · obtain ⟨hle, hstart, hk⟩ := hs.cut (.inl rfl)
    rw [Lexer.step]
    simp only [slice?_of_isBoundary hstart hk hle]
    split
    · exact .inl (Nat.lt_succ_self j)
    · exact .inl (Nat.lt_succ_self j)
  · exact .inr ⟨rfl, .inr (.inr (.inr rfl))⟩

theorem inPass_run {cs : List Char} {m : Nat} (hm : (run cs m).mode = .head)
    (j : Nat) : InPass (run cs m).pos (run cs (m + 1 + j)) := by
  induction j with
  | zero =>
    rw [Nat.add_zero, run, Lexer.step, hm]
    exact .inr ⟨rfl, .inl rfl⟩
  | succ j ih => exact ih.step (invariant_run cs _)

theorem run_advances {cs : List Char} {m n : Nat} (hmn : m < n)
    (hm : (run cs m).mode = .head)
    (hn : (run cs n).mode = .head ∨
      ∃ strict, (run cs n).mode = .done (.ok strict)) :
    (run cs m).pos < (run cs n).pos := by
  obtain ⟨j, rfl⟩ := Nat.exists_eq_add_of_le (Nat.succ_le_of_lt hmn)
  rcases inPass_run hm j with hlt | ⟨-, hmode⟩
  · exact hlt
  · rcases hn with hn | ⟨strict, hn⟩ <;> rw [hn] at hmode <;> simp at hmode

theorem run_advances_or_missing {cs : List Char} {m n : Nat} {fault : Fault} (hmn : m < n)
    (hm : (run cs m).mode = .head)
    (hn : (run cs n).mode = .done (.error fault)) :
    (run cs m).pos < (run cs n).pos ∨
      fault = .missingEquals (run cs m).pos := by
  obtain ⟨j, rfl⟩ := Nat.exists_eq_add_of_le (Nat.succ_le_of_lt hmn)
  rcases inPass_run hm j with hlt | ⟨-, hmode⟩
  · exact .inl hlt
  · right
    rw [hn] at hmode
    simpa using hmode

/-- A type or a value is read. -/
def Mode.IsText (m : Mode) : Prop := (∃ start, m = .type start) ∨ ∃ body, m = .content body

theorem Body.lt_of_isEnd {body : Body} {b : UInt8} (h : body.isEnd b = true) : b < 0x80 := by
  cases body with
  | quoted opening octets =>
    have hb : b = quote := of_decide_eq_true h
    rw [hb]
    decide
  | bare octets significant => exact lt_of_isSeparator h

/-- An octet of a longer character is read as it is. -/
theorem step_of_le {o : Octets} {s : State} {b : UInt8} (hs : s.mode.IsText)
    (hget : o[s.pos]? = some b) (hb : 0x80 ≤ b) :
    (step o s).mode.IsText ∧ (step o s).pos = s.pos + 1 := by
  have hne {c : UInt8} (hc : c < 0x80) : b ≠ c := by
    rintro rfl
    exact UInt8.not_le.2 hc hb
  obtain ⟨mode, k, out⟩ := s
  dsimp only at hs hget
  rcases hs with ⟨start, rfl⟩ | ⟨body, rfl⟩
  · have hsep : isSeparator b = false :=
      Bool.eq_false_iff.2 fun h => UInt8.not_le.2 (lt_of_isSeparator h) hb
    simp only [step, hget, if_neg (hne (show equals < 0x80 by decide)), hsep, Bool.false_eq_true,
      if_false]
    exact ⟨.inl ⟨start, rfl⟩, rfl⟩
  · have hend : body.isEnd b = false :=
      Bool.eq_false_iff.2 fun h => UInt8.not_le.2 (body.lt_of_isEnd h) hb
    have hstep : step o ⟨.content body, k, out⟩ =
        ⟨.content (body.push ⟨b, false⟩), k + 1, out⟩ := by
      have hbackslash : b ≠ backslash := hne (by decide)
      cases body with
      | quoted opening octets =>
        simp only [step, hget, if_neg (of_decide_eq_false hend), State.readContent,
          if_neg hbackslash]
        rfl
      | bare octets significant =>
        simp only [step, hget, show isSeparator b = false from hend, Bool.false_eq_true, if_false,
          State.readContent, if_neg hbackslash]
        rfl
    rw [hstep]
    exact ⟨.inr ⟨_, rfl⟩, rfl⟩

/-- The cursor goes through the middle of a character of a type or of a value. -/
theorem run_through {cs before after : List Char} {c : Char} {n : Nat}
    (hcs : cs = before ++ c :: after) (hc : 0x80 ≤ c.toNat)
    (hpos : (run cs n).pos = (Utf8.encode before).length)
    (hmode : (run cs n).mode.IsText) :
    (run cs (n + 1)).mode.IsText ∧
      (run cs (n + 1)).pos = (run cs n).pos + 1 ∧
      ¬ IsBoundary cs (run cs (n + 1)).pos := by
  obtain ⟨b, t, hoctets, -⟩ := Utf8.utf8EncodeChar_spec c
  have hb : 0x80 ≤ b := Utf8.le_of_mem_utf8EncodeChar hc (hoctets ▸ List.mem_cons_self)
  have hget : (Utf8.encode cs)[(run cs n).pos]? = some b := by
    rw [hpos, hcs, Utf8.encode_append, List.getElem?_append_right (Nat.le_refl _), Nat.sub_self,
      Utf8.encode_cons, hoctets]
    rfl
  obtain ⟨hmode', hpos'⟩ := step_of_le hmode hget hb
  refine ⟨hmode', hpos', ?_⟩
  rw [run, hpos', hpos, hcs]
  exact Utf8.not_isBoundary_succ hc

/-- What a run over a text keeps to. -/
structure Safe (cs : List Char) : Prop where
  /-- The run comes to an end, and its result is that of the reader. -/
  ends : ∀ n, 6 * (Utf8.encode cs).length + 4 ≤ n →
    (run cs n).mode = .done (Lenient.normalize (Utf8.encode cs))
  within : ∀ n, (run cs n).pos ≤ (Utf8.encode cs).length
  forward : ∀ m n, m ≤ n → (run cs m).pos ≤ (run cs n).pos
  /-- From in front of an assignment to in front of the next one, or to strict text for the names,
  the cursor goes on by an octet at least. -/
  advances : ∀ m n, m < n → (run cs m).mode = .head →
    ((run cs n).mode = .head ∨ ∃ strict, (run cs n).mode = .done (.ok strict)) →
    (run cs m).pos < (run cs n).pos
  /-- It also does so up to a fault, unless there is no type at all. -/
  advances_or_missing : ∀ m n fault, m < n → (run cs m).mode = .head →
    (run cs n).mode = .done (.error fault) →
    (run cs m).pos < (run cs n).pos ∨ fault = .missingEquals (run cs m).pos
  /-- Types and digits are cut out between two boundaries in order. -/
  cuts : ∀ n start, ((run cs n).mode = .takeType start ∨ (run cs n).mode = .takeHex start) →
    start ≤ (run cs n).pos ∧ IsBoundary cs start ∧ IsBoundary cs (run cs n).pos
  /-- There is an octet to go back by. -/
  backward : ∀ n b, (run cs n).mode = .unexpected b → 1 ≤ (run cs n).pos
  not_panicked : ∀ n, (run cs n).mode ≠ .panicked
  /-- In types and values, the cursor goes through the middle of every longer character. -/
  through : ∀ n before c after, cs = before ++ c :: after → 0x80 ≤ c.toNat →
    (run cs n).pos = (Utf8.encode before).length → (run cs n).mode.IsText →
    (run cs (n + 1)).mode.IsText ∧ (run cs (n + 1)).pos = (run cs n).pos + 1 ∧
      ¬ IsBoundary cs (run cs (n + 1)).pos

theorem safe (cs : List Char) : Safe cs where
  ends _ h := run_done h
  within n := (invariant_run cs n).pos_le_length
  forward _ _ h := pos_run_mono cs h
  advances _ _ hmn hm hn := run_advances hmn hm hn
  advances_or_missing _ _ _ hmn hm hn := run_advances_or_missing hmn hm hn
  cuts n _ := (invariant_run cs n).cut
  backward n _ := (invariant_run cs n).pos_of_unexpected
  not_panicked n := (invariant_run cs n).not_panicked
  through _ _ _ _ := run_through

/-- The machine reads every text safely, although the cursor comes into the middle of characters in
types and in values of both kinds. -/
theorem run_safe :
    (∀ text : String, Safe text.toList) ∧
      (∃ (text : String) (n start : Nat),
        (run text.toList n).mode = .type start ∧
          ¬ IsBoundary text.toList (run text.toList n).pos) ∧
      (∃ (text : String) (n opening : Nat) (octets : Octets),
        (run text.toList n).mode = .content (.quoted opening octets) ∧
          ¬ IsBoundary text.toList (run text.toList n).pos) ∧
      ∃ (text : String) (n significant : Nat) (octets : Octets),
        (run text.toList n).mode = .content (.bare octets significant) ∧
          ¬ IsBoundary text.toList (run text.toList n).pos := by
  refine ⟨fun text => safe text.toList, ⟨"é=", 3, 0, ?_, ?_⟩, ⟨"a=\"é", 8, 2, [0xc3], ?_, ?_⟩,
    ⟨"a=é", 8, 1, [0xc3], ?_, ?_⟩⟩
  · decide +kernel
  · exact fun h => absurd h.isBoundaryOf_encode (by decide +kernel)
  · decide +kernel
  · exact fun h => absurd h.isBoundaryOf_encode (by decide +kernel)
  · decide +kernel
  · exact fun h => absurd h.isBoundaryOf_encode (by decide +kernel)

end TrustAnchors.Name.Lexer
