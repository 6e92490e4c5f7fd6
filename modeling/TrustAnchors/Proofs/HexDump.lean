import TrustAnchors.HexDump
import TrustAnchors.Proofs.Octets

/-!
# What a dump tells

A dump has one row for each sixteen octets or part of them (`length_rows`), and the rows determine
the octets, whatever the indent is (`rows_injective`). No row has a line feed of its own.
-/

namespace TrustAnchors

open Ascii

theorem Ascii.ofUInt8_injective {a b : UInt8} (h : Char.ofUInt8 a = Char.ofUInt8 b) : a = b := by
  have hval := congrArg (fun c => c.val.toNat) h
  exact UInt8.toNat_inj.1 hval

theorem Ascii.hexDigit_injective {m n : UInt8} (hm : m < 16) (hn : n < 16)
    (h : hexDigit m = hexDigit n) : m = n := by
  have hvalue := hexValue?_hexDigit hm
  rw [h, hexValue?_hexDigit hn] at hvalue
  exact (Option.some.inj hvalue).symm

theorem Ascii.hexPair_injective {a b : UInt8} (h : hexPair a = hexPair b) : a = b := by
  have hdiv (c : UInt8) : c / 16 < 16 := by
    rw [UInt8.lt_iff_toNat_lt, UInt8.toNat_div]
    exact Nat.div_lt_of_lt_mul c.toNat_lt
  have hmod (c : UInt8) : c % 16 < 16 := by
    rw [UInt8.lt_iff_toNat_lt, UInt8.toNat_mod]
    exact Nat.mod_lt _ (by decide)
  simp only [hexPair, List.cons.injEq, and_true] at h
  have hhigh := congrArg UInt8.toNat (hexDigit_injective (hdiv a) (hdiv b) h.1)
  have hlow := congrArg UInt8.toNat (hexDigit_injective (hmod a) (hmod b) h.2)
  simp only [UInt8.toNat_div, UInt8.toNat_mod, UInt8.reduceToNat] at hhigh hlow
  exact UInt8.toNat_inj.1 (by omega)

theorem Ascii.chars_injective {o p : Octets} (h : chars o = chars p) : o = p :=
  (List.map_inj_right fun _ _ => ofUInt8_injective).1 h

theorem Ascii.lineFeed_not_mem_chars {o : Octets} (h : lineFeed ∉ o) : '\n' ∉ chars o := by
  intro hc
  obtain ⟨b, hb, he⟩ := List.mem_map.1 hc
  exact h ((ofUInt8_injective he : b = lineFeed) ▸ hb)

theorem Ascii.lineFeed_not_mem_hexPair (b : UInt8) : lineFeed ∉ hexPair b := by
  refine forall_octet (P := fun b => lineFeed ∉ hexPair b) ?_ b
  decide +kernel

namespace HexDump

variable {indent : List Char}

/-- An octet within a row. -/
def cell (b : UInt8) : List Char := ' ' :: chars (hexPair b)

theorem row_eq (indent : List Char) (offset : Nat) (o : Octets) :
    row indent offset o = indent ++ offsetText offset ++ ':' :: o.flatMap cell := rfl

theorem flatMap_cell_injective {o p : Octets} (h : o.flatMap cell = p.flatMap cell) : o = p := by
  induction o generalizing p with
  | nil =>
    cases p with
    | nil => rfl
    | cons c p => cases h
  | cons b o ih =>
    cases p with
    | nil => cases h
    | cons c p =>
      rw [List.flatMap_cons, List.flatMap_cons] at h
      obtain ⟨hcell, hrest⟩ := List.append_inj h rfl
      rw [hexPair_injective (chars_injective (List.cons.inj hcell).2), ih hrest]

/-- The octets of a row are what it tells, as the rest does not depend on them. -/
theorem row_injective {offset : Nat} {o p : Octets} (h : row indent offset o = row indent offset p) :
    o = p := by
  rw [row_eq, row_eq] at h
  exact flatMap_cell_injective (List.cons.inj (List.append_cancel_left h)).2

theorem rowsFrom_injective {offset : Nat} {o p : Octets}
    (h : rowsFrom indent offset o = rowsFrom indent offset p) : o = p := by
  induction offset, o using rowsFrom.induct generalizing p with
  | case1 offset =>
    cases p with
    | nil => rfl
    | cons c p =>
      rw [rowsFrom, rowsFrom] at h
      cases h
  | case2 offset b r ih =>
    cases p with
    | nil =>
      rw [rowsFrom, rowsFrom] at h
      cases h
    | cons c p =>
      rw [rowsFrom, rowsFrom] at h
      obtain ⟨hrow, hrows⟩ := List.cons.inj h
      rw [← List.take_append_drop rowLength (b :: r), row_injective hrow, ih hrows,
        List.take_append_drop]

theorem rows_injective {o p : Octets} (h : rows indent o = rows indent p) : o = p :=
  rowsFrom_injective h

theorem length_rowsFrom (indent : List Char) (offset : Nat) (o : Octets) :
    (rowsFrom indent offset o).length = (o.length + (rowLength - 1)) / rowLength := by
  induction offset, o using rowsFrom.induct with
  | case1 offset =>
    rw [rowsFrom]
    rfl
  | case2 offset b r ih =>
    rw [rowsFrom, List.length_cons, ih, List.length_drop, List.length_cons]
    simp only [rowLength]
    omega

theorem length_rows (indent : List Char) (o : Octets) :
    (rows indent o).length = (o.length + (rowLength - 1)) / rowLength :=
  length_rowsFrom indent 0 o

theorem lineFeed_not_mem_toDigits (n : Nat) : '\n' ∉ Nat.toDigits 16 n := by
  have hdigit : ∀ d : Fin 16, '\n' ≠ Nat.digitChar d.val := by decide
  induction n using Nat.strongRecOn with
  | ind n ih =>
    rcases Nat.lt_or_ge n 16 with hlt | hge
    · rw [Nat.toDigits_of_lt_base hlt, List.mem_singleton]
      exact hdigit ⟨n, hlt⟩
    · rw [Nat.toDigits_of_base_le (by decide) hge, List.mem_append, List.mem_singleton, not_or]
      exact ⟨ih _ (by omega), hdigit ⟨n % 16, Nat.mod_lt n (by decide)⟩⟩

theorem lineFeed_not_mem_row (hindent : '\n' ∉ indent) (offset : Nat) (o : Octets) :
    '\n' ∉ row indent offset o := by
  have hoffset : '\n' ∉ offsetText offset := by
    simp [offsetText, List.leftpad, List.mem_replicate, lineFeed_not_mem_toDigits]
  have hcell : '\n' ∉ o.flatMap cell := by
    intro h
    obtain ⟨b, -, hb⟩ := List.mem_flatMap.1 h
    exact lineFeed_not_mem_chars (lineFeed_not_mem_hexPair b)
      ((List.mem_cons.1 hb).resolve_left (by decide))
  rw [row_eq]
  simp [hindent, hoffset, hcell]

theorem lineFeed_not_mem_rows (hindent : '\n' ∉ indent) (o : Octets) :
    ∀ line ∈ rows indent o, '\n' ∉ line := by
  have hrows (offset : Nat) (o : Octets) : ∀ line ∈ rowsFrom indent offset o, '\n' ∉ line := by
    induction offset, o using rowsFrom.induct with
    | case1 offset =>
      rw [rowsFrom]
      exact nofun
    | case2 offset b r ih =>
      rw [rowsFrom]
      exact List.forall_mem_cons.2 ⟨lineFeed_not_mem_row hindent offset _, ih⟩
  exact hrows 0 o

end HexDump

end TrustAnchors
