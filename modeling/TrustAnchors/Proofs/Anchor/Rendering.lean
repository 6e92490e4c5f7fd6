import TrustAnchors.Anchor.Report
import TrustAnchors.Proofs.HexDump
import TrustAnchors.Proofs.Name.Printing

/-!
# What the rendering of an anchor tells

No text in a rendering holds a line feed, as the printer of names writes one as a pair of
hexadecimal digits, so the lines of a rendering are those that the layout has
(`Anchor.splitOn_render`). They show whether an anchor has a certificate, and what its constraints are
(`Anchor.render_unforgeable`).
-/

namespace TrustAnchors

open Ascii

theorem not_mem_intercalate {c : Char} {separator : List Char} {parts : List (List Char)}
    (hs : c ∉ separator) (hp : ∀ p ∈ parts, c ∉ p) : c ∉ separator.intercalate parts := by
  induction parts with
  | nil => exact List.not_mem_nil
  | cons p parts ih =>
    obtain ⟨hfirst, hparts⟩ := List.forall_mem_cons.1 hp
    cases parts with
    | nil => simpa [List.intercalate] using hfirst
    | cons q parts =>
      rw [List.intercalate_cons_cons]
      simp only [List.mem_append, not_or]
      exact ⟨⟨hfirst, hs⟩, ih hparts⟩

theorem count_intercalate {c : Char} {parts : List (List Char)} (hp : ∀ p ∈ parts, c ∉ p) :
    ([c].intercalate parts).count c = parts.length - 1 := by
  induction parts with
  | nil => rfl
  | cons p parts ih =>
    obtain ⟨hfirst, hparts⟩ := List.forall_mem_cons.1 hp
    cases parts with
    | nil => simpa [List.intercalate] using List.count_eq_zero_of_not_mem hfirst
    | cons q parts =>
      rw [List.intercalate_cons_cons, List.count_append, List.count_append, ih hparts,
        List.count_eq_zero_of_not_mem hfirst]
      simp [Nat.add_comm]

theorem lineFeed_not_mem_repr (n : Nat) : '\n' ∉ (Nat.repr n).toList := by
  rw [Nat.toList_repr]
  intro h
  exact absurd (Nat.isDigit_of_mem_toDigits (by decide) (by decide) h) (by decide)

theorem ObjectIdentifier.lineFeed_not_mem_chars (oid : ObjectIdentifier) : '\n' ∉ oid.chars := by
  rw [chars_eq_dotted]
  induction oid.arcs with
  | nil => exact List.not_mem_nil
  | cons n ns ih =>
    have hn : '\n' ∉ Nat.toDigits 10 n := Nat.toList_repr ▸ lineFeed_not_mem_repr n
    cases ns with
    | nil => rwa [dotted_singleton]
    | cons m ns =>
      rw [dotted_cons_cons]
      simp only [List.mem_append, List.mem_cons, not_or]
      exact ⟨hn, by decide, ih⟩

theorem lineFeed_not_mem_hex (o : Octets) : '\n' ∉ Ascii.chars o.hex := by
  refine Ascii.lineFeed_not_mem_chars fun h => ?_
  obtain ⟨b, -, hb⟩ := List.mem_flatMap.1 h
  exact lineFeed_not_mem_hexPair b hb

namespace Attribute

theorem lineFeed_not_mem_escapeChar (c : Char) : '\n' ∉ escapeChar c := by
  unfold escapeChar
  split
  · next hs =>
    have hc : '\n' ≠ c := by
      rintro rfl
      revert hs
      decide
    simp [hc]
  · split
    · simp [Ascii.lineFeed_not_mem_chars (lineFeed_not_mem_hexPair _)]
    · next hc =>
      have hc : '\n' ≠ c := by
        rintro rfl
        revert hc
        decide
      simp [hc]

theorem lineFeed_not_mem_escapeRest (cs : List Char) : '\n' ∉ escapeRest cs := by
  induction cs using escapeRest.induct with
  | case1 => exact List.not_mem_nil
  | case2 => decide
  | case3 c hc =>
    rw [escapeRest, if_neg hc]
    exact lineFeed_not_mem_escapeChar c
  | case4 c cs hcs ih =>
    rw [escapeRest.eq_3 c cs hcs, List.mem_append, not_or]
    exact ⟨lineFeed_not_mem_escapeChar c, ih⟩

theorem lineFeed_not_mem_escape (cs : List Char) : '\n' ∉ escape cs := by
  cases cs with
  | nil => exact List.not_mem_nil
  | cons c cs =>
    rw [escape, List.mem_append, not_or]
    refine ⟨?_, lineFeed_not_mem_escapeRest cs⟩
    split
    · next hc => rcases hc with rfl | rfl <;> decide
    · exact lineFeed_not_mem_escapeChar c

theorem lineFeed_not_mem_name {type : ObjectIdentifier} {name : String}
    (h : AttributeKey.nameOfType? type = some name) :
    '\n' ∉ Ascii.chars ((ofString name).map toUpper) := by
  have hname := AttributeKey.typeOfName?_toUpper h
  refine Ascii.lineFeed_not_mem_chars fun hb => ?_
  exact absurd (AttributeKey.isKeyOctet_of_name hname _ hb).1 (by decide)

theorem lineFeed_not_mem_chars (a : Attribute) : '\n' ∉ a.chars := by
  by_cases h : a.IsLegible
  · obtain ⟨name, cs, hname, -, hchars, -⟩ := of_isLegible h
    rw [hchars]
    simp only [List.mem_append, List.mem_cons, not_or]
    exact ⟨lineFeed_not_mem_name hname, by decide, lineFeed_not_mem_escape cs⟩
  · rw [(of_not_isLegible h).1]
    simp only [List.mem_append, List.mem_cons, not_or]
    exact ⟨a.type.lineFeed_not_mem_chars, by decide, by decide, lineFeed_not_mem_hex _⟩

end Attribute

theorem Name.lineFeed_not_mem_chars (n : Name) : '\n' ∉ n.chars := by
  refine not_mem_intercalate (by decide) fun r hr => ?_
  obtain ⟨r, -, rfl⟩ := List.mem_map.1 hr
  refine not_mem_intercalate (by decide) fun a ha => ?_
  obtain ⟨a, -, rfl⟩ := List.mem_map.1 ha
  exact a.lineFeed_not_mem_chars

theorem PublicKey.lineFeed_not_mem_describe (k : PublicKey) : '\n' ∉ k.describe := by
  unfold describe
  simp only [List.mem_append, not_or]
  exact ⟨⟨⟨⟨by decide +kernel, k.algorithm.algorithm.lineFeed_not_mem_chars⟩, by decide +kernel⟩,
    lineFeed_not_mem_repr _⟩, by decide +kernel⟩

theorem Certificate.lineFeed_not_mem_describe (c : Certificate) : '\n' ∉ c.describe := by
  unfold describe
  simp only [List.mem_append, not_or]
  exact ⟨⟨⟨⟨⟨⟨⟨by decide +kernel, c.body.subject.lineFeed_not_mem_chars⟩, by decide +kernel⟩,
    c.body.issuer.lineFeed_not_mem_chars⟩, by decide +kernel⟩, lineFeed_not_mem_hex _⟩, by decide +kernel⟩,
    c.body.publicKey.lineFeed_not_mem_describe⟩

namespace Kind

/-- The lines for an identity of the kind: one for a certificate, and one each for a name and for its
key. -/
inductive HasLines : Kind → List (List Char) → Prop
  | certificate (t : List Char) : HasLines certificate ["Trusted CA certificate: ".toList ++ t]
  | authority {k : Kind} (hk : k ≠ .certificate) (s t : List Char) :
      HasLines k ["Trusted CA Name: ".toList ++ s, "Trusted CA Public Key: ".toList ++ t]

theorem certificate_line_ne_name_line (s t : List Char) :
    "Trusted CA certificate: ".toList ++ s ≠ "Trusted CA Name: ".toList ++ t := by
  intro h
  have h := congrArg (List.take 12) h
  rw [List.take_append_of_le_length (by decide +kernel),
    List.take_append_of_le_length (by decide +kernel)] at h
  revert h
  decide +kernel

variable {k l : Kind} {xs ys ms ns : List (List Char)}

/-- The first line tells whether there is a certificate, and so how many lines there are. -/
theorem HasLines.append_inj (hx : k.HasLines xs) (hy : l.HasLines ys) (h : xs ++ ms = ys ++ ns) :
    (k = .certificate ↔ l = .certificate) ∧ ms = ns := by
  cases hx with
  | certificate s =>
    cases hy with
    | certificate t => exact ⟨Iff.rfl, (List.cons.inj h).2⟩
    | authority hl t u => exact absurd (List.cons.inj h).1 (certificate_line_ne_name_line s t)
  | authority hk s t =>
    cases hy with
    | certificate u => exact absurd (List.cons.inj h).1.symm (certificate_line_ne_name_line u s)
    | authority hl u v => exact ⟨iff_of_false hk hl, (List.cons.inj (List.cons.inj h).2).2⟩

theorem HasLines.length_eq (hx : k.HasLines xs) :
    xs.length = if k = .certificate then 1 else 2 := by
  cases hx with
  | certificate s => rfl
  | authority hk s t =>
    rw [if_neg hk]
    rfl

end Kind

namespace Anchor

theorem lineFeed_not_mem_lines (a : Anchor) : ∀ line ∈ a.lines, '\n' ∉ line := by
  have hidentity : ∀ line ∈ a.identityLines, '\n' ∉ line := by
    unfold identityLines
    split
    · next c _ => simp [c.lineFeed_not_mem_describe]
    · next principal key _ =>
      simp [principal.lineFeed_not_mem_chars, key.lineFeed_not_mem_describe]
    · next principal key _ =>
      simp [principal.lineFeed_not_mem_chars, key.lineFeed_not_mem_describe]
  have hconstraints : ∀ line ∈ a.constraintLines, '\n' ∉ line := by
    unfold constraintLines
    split
    · exact nofun
    · exact List.forall_mem_cons.2 ⟨by decide, HexDump.lineFeed_not_mem_rows (by decide) _⟩
  intro line hline
  simp only [lines, List.cons_append, List.mem_cons, List.mem_append, List.not_mem_nil,
    or_false] at hline
  rcases hline with rfl | (hline | hline) | rfl
  · decide
  · exact hidentity line hline
  · exact hconstraints line hline
  · decide

/-- The lines of the text are those of the layout. -/
theorem splitOn_render (a : Anchor) : a.render.toList.splitOn '\n' = a.lines := by
  rw [render, String.toList_ofList]
  exact List.splitOn_intercalate _ a.lineFeed_not_mem_lines nofun

theorem hasLines_identityLines (a : Anchor) : a.kind.HasLines a.identityLines := by
  obtain ⟨identity, constraints⟩ := a
  cases identity with
  | certificate c => exact .certificate _
  | nameAndKey name principal key => exact .authority (k := .nameAndKey) nofun _ _
  | principalAndKey name principal key => exact .authority (k := .principalAndKey) nofun _ _

theorem length_constraintLines (a : Anchor) :
    a.constraintLines.length = a.constraints.elim 0 fun der => 1 + (der.length + 15) / 16 := by
  unfold constraintLines
  cases a.constraints with
  | none => rfl
  | some der =>
    rw [Option.elim_some, List.length_cons, HexDump.length_rows, Nat.add_comm]
    rfl

theorem constraints_eq_of_constraintLines_eq {a b : Anchor}
    (h : a.constraintLines = b.constraintLines) : a.constraints = b.constraints := by
  unfold constraintLines at h
  split at h
  · next ha =>
    split at h
    · next hb => rw [ha, hb]
    · cases h
  · next ha =>
    split at h
    · cases h
    · next hb => rw [ha, hb, HexDump.rows_injective (List.cons.inj h).2]

theorem count_lineFeed_render (a : Anchor) :
    a.render.toList.count '\n' = (if a.kind = .certificate then 2 else 3) +
      a.constraints.elim 0 fun der => 1 + (der.length + 15) / 16 := by
  rw [render, String.toList_ofList, count_intercalate a.lineFeed_not_mem_lines,
    ← length_constraintLines]
  have hidentity := a.hasLines_identityLines.length_eq
  simp only [lines, List.length_append, List.length_cons, List.length_nil, hidentity]
  split <;> omega

theorem eq_of_render_eq {a b : Anchor} (h : a.render = b.render) :
    (a.kind = .certificate ↔ b.kind = .certificate) ∧ a.constraints = b.constraints := by
  have hlines : a.lines = b.lines := by rw [← splitOn_render, h, splitOn_render]
  simp only [lines, List.cons_append, List.append_assoc, List.cons.injEq, true_and] at hlines
  obtain ⟨hkind, hrest⟩ :=
    a.hasLines_identityLines.append_inj b.hasLines_identityLines hlines
  exact ⟨hkind, constraints_eq_of_constraintLines_eq (List.append_cancel_right hrest)⟩

/-- The lines come in a fixed order, with a row of the dump for each sixteen octets of constraints.
The text shows whether there is a certificate, and what the constraints are. -/
theorem render_unforgeable (a : Anchor) :
    a.render.toList.count '\n' = (if a.kind = .certificate then 2 else 3) +
        (a.constraints.elim 0 fun der => 1 + (der.length + 15) / 16) ∧
      (a.kind.HasLines a.identityLines ∧
        a.constraintLines = (a.constraints.elim [] fun der =>
          "Name Constraints:".toList :: HexDump.rows dumpIndent.toList der) ∧
        a.render.toList.splitOn '\n' =
          "TrustAnchor: [".toList :: a.identityLines ++ a.constraintLines ++ ["]".toList]) ∧
      ∀ b : Anchor, a.render = b.render →
        (a.kind = .certificate ↔ b.kind = .certificate) ∧ a.constraints = b.constraints := by
  refine ⟨a.count_lineFeed_render, ⟨a.hasLines_identityLines, ?_, a.splitOn_render⟩,
    fun b h => eq_of_render_eq h⟩
  unfold constraintLines
  cases a.constraints <;> rfl

/-- An organization with a line feed and a bracket in its name. -/
def forger : Name :=
  ⟨[⟨[⟨⟨[0x55, 0x04, 0x0a]⟩, ⟨.utf8String, [0x41, 0x0a, 0x5d]⟩⟩], by decide⟩]⟩

theorem render_unforgeable_forger :
    let key : PublicKey := ⟨⟨⟨[0x2b, 0x65, 0x70]⟩, none⟩, ⟨0, [], by decide, fun _ => rfl⟩⟩
    let a : Anchor := ⟨.principalAndKey forger.text forger key, some [0x30, 0x00]⟩
    let b : Anchor := ⟨.nameAndKey "O=A\\0a]" forger key, some [0x30, 0x00]⟩
    forger.text = "O=A\\0a]" ∧ a.render.toList.count '\n' = 5 ∧ a.render = b.render ∧
      (a.kind = .certificate ↔ b.kind = .certificate) ∧ a.constraints = b.constraints := by
  intro key a b
  have htext : forger.text = "O=A\\0a]" := by decide +kernel
  have hrender : a.render = b.render := rfl
  obtain ⟨hcount, -, hsame⟩ := a.render_unforgeable
  exact ⟨htext, hcount, hrender, hsame b hrender⟩

end Anchor

end TrustAnchors
