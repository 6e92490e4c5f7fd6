import TrustAnchors.Proofs.HexDump

/-!
# Reading a dump back

`IsDump` says what the dump of some octets looks like, row by row. The offset of a row has as many
digits as it needs, and an indent may hold whatever the rest of a row holds, so a row is not taken
apart by its columns: `read` leaves out as many characters as the indent has, goes on to the next
colon and takes two digits behind each space. It reads every dump as the octets that were dumped,
and each string of octets has a dump (`isDump_format`).
-/

namespace TrustAnchors.HexDump

variable {indent : List Char}

/-- Digits in the order of their values. -/
def alphabet : List Char := "0123456789abcdef".toList

def numberOf (cs : List Char) : Nat := cs.foldl (fun n c => 16 * n + alphabet.idxOf c) 0

/-- Four digits, or more for a number that does not go into four. -/
structure IsOffset (n : Nat) (cs : List Char) : Prop where
  digits : ∀ c ∈ cs, c ∈ alphabet
  number : numberOf cs = n
  length : cs.length = 4 ∨ 4 < cs.length ∧ 0x10000 ≤ n ∧ cs.head? ≠ some '0'

/-- A space and two digits for each octet. -/
inductive IsCells : Octets → List Char → Prop
  | nil : IsCells [] []
  | cons {b : UInt8} {o : Octets} {x y : Char} {cs : List Char} (hx : x ∈ alphabet)
      (hy : y ∈ alphabet) (hb : numberOf [x, y] = b.toNat) (h : IsCells o cs) :
      IsCells (b :: o) (' ' :: x :: y :: cs)

def IsRow (indent : List Char) (offset : Nat) (o : Octets) (line : List Char) : Prop :=
  ∃ number cells, line = indent ++ (number ++ ':' :: cells) ∧ IsOffset offset number ∧
    IsCells o cells

/-- Lines for octets of which the first has the given offset, each with sixteen of them or with
those that are left. -/
structure IsRows (indent : List Char) (offset : Nat) (o : Octets) (lines : List (List Char)) :
    Prop where
  length : lines.length = (o.length + 15) / 16
  row : ∀ i line, lines[i]? = some line →
    IsRow indent (offset + 16 * i) ((o.drop (16 * i)).take 16) line

/-- Each line of a dump is ended by a line feed. -/
def IsDump (indent : List Char) (o : Octets) (text : List Char) : Prop :=
  ∃ lines, IsRows indent 0 o lines ∧ text = lines.flatMap (· ++ ['\n'])

/-- Octets up to a line feed, and the text behind it. -/
def readCells : List Char → Option (Octets × List Char)
  | ' ' :: x :: y :: r => Prod.map (UInt8.ofNat (numberOf [x, y]) :: ·) id <$> readCells r
  | '\n' :: r => some ([], r)
  | _ => none

theorem length_readCells_lt {cs r : List Char} {o : Octets} (h : readCells cs = some (o, r)) :
    r.length < cs.length := by
  fun_induction readCells cs generalizing o with
  | case1 x y cs ih =>
    obtain ⟨⟨p, q⟩, hp, he⟩ := Option.map_eq_some_iff.1 h
    cases he
    have hlt := ih hp
    simp only [List.length_cons]
    omega
  | case2 cs =>
    cases h
    exact Nat.lt_succ_self _
  | case3 => cases h

/-- What comes after the colon behind the indent. -/
def dropHeader (indent cs : List Char) : List Char :=
  ((cs.drop indent.length).dropWhile (· ≠ ':')).drop 1

theorem length_dropHeader_le (indent cs : List Char) :
    (dropHeader indent cs).length ≤ cs.length := by
  have hrun := (List.dropWhile_sublist (l := cs.drop indent.length) (· ≠ ':')).length_le
  simp only [dropHeader, List.length_drop] at hrun ⊢
  omega

def read (indent : List Char) (cs : List Char) : Option Octets :=
  if cs.isEmpty then some []
  else
    match h : readCells (dropHeader indent cs) with
    | none => none
    | some (o, r) =>
      have : r.length < cs.length :=
        Nat.lt_of_lt_of_le (length_readCells_lt h) (length_dropHeader_le indent cs)
      (o ++ ·) <$> read indent r
termination_by cs.length

theorem readCells_append {o : Octets} {cs : List Char} (h : IsCells o cs) (r : List Char) :
    readCells (cs ++ '\n' :: r) = some (o, r) := by
  induction h with
  | nil => rfl
  | @cons b o x y cs hx hy hb h ih =>
    simp only [List.cons_append]
    rw [readCells, ih, hb, UInt8.ofNat_toNat]
    rfl

theorem IsOffset.dropHeader_append {n : Nat} {number : List Char} (h : IsOffset n number)
    (r : List Char) : dropHeader indent (indent ++ (number ++ ':' :: r)) = r := by
  have hcolon : ':' ∉ alphabet := by decide
  have hrun : ∀ c ∈ number, decide (c ≠ ':') = true := by
    intro c hc
    refine decide_eq_true ?_
    rintro rfl
    exact hcolon (h.digits ':' hc)
  rw [dropHeader, List.drop_left, List.dropWhile_append_of_pos hrun,
    List.dropWhile_cons_of_neg (by simp), List.drop_one, List.tail_cons]

theorem read_append {offset : Nat} {o : Octets} {line : List Char}
    (h : IsRow indent offset o line) (r : List Char) :
    read indent (line ++ '\n' :: r) = (o ++ ·) <$> read indent r := by
  obtain ⟨number, cells, rfl, hnumber, hcells⟩ := h
  have hcut : readCells (dropHeader indent (indent ++ (number ++ ':' :: cells) ++ '\n' :: r)) =
      some (o, r) := by
    rw [List.append_assoc, List.append_assoc, List.cons_append, hnumber.dropHeader_append,
      readCells_append hcells]
  rw [read, if_neg (by simp)]
  split
  · next he => rw [hcut] at he; cases he
  · next p q he =>
    rw [hcut] at he
    cases he
    rfl

theorem IsRows.tail {offset : Nat} {o : Octets} {line : List Char} {lines : List (List Char)}
    (h : IsRows indent offset o (line :: lines)) :
    IsRows indent (offset + 16) (o.drop 16) lines where
  length := by
    have hlength := h.length
    rw [List.length_cons] at hlength
    rw [List.length_drop]
    omega
  row i line hline := by
    have hrow := h.row (i + 1) line hline
    rw [List.drop_drop]
    rwa [show offset + 16 + 16 * i = offset + 16 * (i + 1) by omega,
      show 16 + 16 * i = 16 * (i + 1) by omega]

theorem IsRows.read_eq {offset : Nat} {o : Octets} {lines : List (List Char)}
    (h : IsRows indent offset o lines) : read indent (lines.flatMap (· ++ ['\n'])) = some o := by
  induction lines generalizing offset o with
  | nil =>
    have hlength := h.length
    rw [List.length_nil] at hlength
    have ho : o = [] := List.length_eq_zero_iff.1 (by omega)
    rw [ho, List.flatMap_nil, read]
    rfl
  | cons line lines ih =>
    have hrow := h.row 0 line rfl
    rw [Nat.mul_zero, Nat.add_zero, List.drop_zero] at hrow
    rw [List.flatMap_cons, List.append_assoc, List.singleton_append, read_append hrow, ih h.tail]
    exact congrArg some (List.take_append_drop 16 o)

theorem IsDump.read_eq {o : Octets} {text : List Char} (h : IsDump indent o text) :
    read indent text = some o := by
  obtain ⟨lines, hlines, rfl⟩ := h
  exact hlines.read_eq

theorem isCells_flatMap_cell (o : Octets) : IsCells o (o.flatMap cell) := by
  have hcell (b : UInt8) : ∃ x y, cell b = [' ', x, y] ∧ x ∈ alphabet ∧ y ∈ alphabet ∧
      numberOf [x, y] = b.toNat := by
    refine ⟨_, _, rfl, ?_⟩
    refine forall_octet (P := fun b => Char.ofUInt8 (Ascii.hexDigit (b / 16)) ∈ alphabet ∧
      Char.ofUInt8 (Ascii.hexDigit (b % 16)) ∈ alphabet ∧
      numberOf [Char.ofUInt8 (Ascii.hexDigit (b / 16)), Char.ofUInt8 (Ascii.hexDigit (b % 16))] =
        b.toNat) ?_ b
    decide +kernel
  induction o with
  | nil => exact .nil
  | cons b o ih =>
    obtain ⟨x, y, hb, hx, hy, hnumber⟩ := hcell b
    rw [List.flatMap_cons, hb]
    exact .cons hx hy hnumber ih

theorem digitChar_spec {n : Nat} (hn : n < 16) :
    Nat.digitChar n ∈ alphabet ∧ alphabet.idxOf (Nat.digitChar n) = n ∧
      (0 < n → Nat.digitChar n ≠ '0') := by
  have hall : ∀ k : Fin 16, Nat.digitChar k.val ∈ alphabet ∧
      alphabet.idxOf (Nat.digitChar k.val) = k.val ∧ (0 < k.val → Nat.digitChar k.val ≠ '0') := by
    decide +kernel
  exact hall ⟨n, hn⟩

theorem numberOf_concat (cs : List Char) (c : Char) :
    numberOf (cs ++ [c]) = 16 * numberOf cs + alphabet.idxOf c := by
  rw [numberOf, List.foldl_append]
  rfl

theorem numberOf_zeros_append (k : Nat) (cs : List Char) :
    numberOf (List.replicate k '0' ++ cs) = numberOf cs := by
  induction k with
  | zero => rfl
  | succ k ih =>
    rw [List.replicate_succ, List.cons_append, ← ih]
    rfl

theorem toDigits_spec (n : Nat) :
    (∀ c ∈ Nat.toDigits 16 n, c ∈ alphabet) ∧ numberOf (Nat.toDigits 16 n) = n ∧
      (0 < n → (Nat.toDigits 16 n).head? ≠ some '0') := by
  -- The last digit is taken off as long as there is more than one.
  induction n using Nat.strongRecOn with
  | ind n ih =>
    rcases Nat.lt_or_ge n 16 with hlt | hge
    · obtain ⟨hmem, hindex, hne⟩ := digitChar_spec hlt
      rw [Nat.toDigits_of_lt_base hlt]
      refine ⟨by simpa using hmem, ?_, fun hpos => by simpa using hne hpos⟩
      rw [← List.nil_append [_], numberOf_concat, hindex]
      exact Nat.zero_add n
    · obtain ⟨hdigits, hnumber, hhead⟩ := ih (n / 16) (by omega)
      obtain ⟨hmem, hindex, -⟩ := digitChar_spec (Nat.mod_lt n (by decide : 0 < 16))
      rw [Nat.toDigits_of_base_le (by decide) hge]
      refine ⟨?_, ?_, fun _ => ?_⟩
      · intro c hc
        rcases List.mem_append.1 hc with hc | hc
        · exact hdigits c hc
        · rwa [List.mem_singleton.1 hc]
      · rw [numberOf_concat, hnumber, hindex]
        omega
      · have hne := Nat.toDigits_ne_nil (n := n / 16) (b := 16)
        obtain ⟨c, cs, hcs⟩ := List.exists_cons_of_ne_nil hne
        rw [hcs] at hhead ⊢
        exact hhead (by omega)

theorem isOffset_offsetText (n : Nat) : IsOffset n (offsetText n) := by
  obtain ⟨hdigits, hnumber, hhead⟩ := toDigits_spec n
  have hlength := Nat.length_toDigits_le_iff (b := 16) (n := n) (k := 4) (by decide) (by decide)
  refine ⟨fun c hc => ?_, ?_, ?_⟩
  · rcases List.mem_append.1 hc with hzero | hdigit
    · rw [(List.mem_replicate.1 hzero).2]
      decide
    · exact hdigits c hdigit
  · rw [offsetText, List.leftpad, numberOf_zeros_append, hnumber]
  · rw [offsetText, List.length_leftpad]
    by_cases hle : (Nat.toDigits 16 n).length ≤ 4
    · exact .inl (by omega)
    · have hn : 0x10000 ≤ n := by omega
      rw [List.leftpad, Nat.sub_eq_zero_of_le (by omega), List.replicate_zero, List.nil_append]
      exact .inr ⟨by omega, hn, hhead (by omega)⟩

theorem isRow_row (indent : List Char) (offset : Nat) (o : Octets) :
    IsRow indent offset o (row indent offset o) := by
  refine ⟨offsetText offset, o.flatMap cell, ?_, isOffset_offsetText offset, isCells_flatMap_cell o⟩
  rw [row_eq, List.append_assoc]

theorem isRows_rowsFrom (indent : List Char) (offset : Nat) (o : Octets) :
    IsRows indent offset o (rowsFrom indent offset o) := by
  refine ⟨length_rowsFrom indent offset o, ?_⟩
  induction offset, o using rowsFrom.induct with
  | case1 offset =>
    rw [rowsFrom]
    intro i line hline
    cases hline
  | case2 offset b r ih =>
    rw [rowsFrom]
    rintro (_ | i) line hline
    · cases hline
      exact isRow_row indent offset _
    · have hrow := ih i line hline
      rw [rowLength, List.drop_drop] at hrow
      rwa [show offset + 16 * (i + 1) = offset + 16 + 16 * i by omega,
        show 16 * (i + 1) = 16 + 16 * i by omega]

/-- A dump has the form that it should have, and tells the octets that were dumped. -/
theorem isDump_format (indent : String) (o : Octets) :
    IsDump indent.toList o (format indent o).toList ∧
      read indent.toList (format indent o).toList = some o ∧
      ∀ p, format indent p = format indent o ↔ p = o := by
  have hdump (p : Octets) : IsDump indent.toList p (format indent p).toList := by
    rw [format, String.toList_ofList]
    exact ⟨rows indent.toList p, isRows_rowsFrom indent.toList 0 p, rfl⟩
  refine ⟨hdump o, (hdump o).read_eq, fun p => ⟨fun he => ?_, fun he => he ▸ rfl⟩⟩
  have hread := (hdump p).read_eq
  rw [he, (hdump o).read_eq] at hread
  exact (Option.some.inj hread).symm

end TrustAnchors.HexDump
