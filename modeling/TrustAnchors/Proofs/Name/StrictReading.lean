import TrustAnchors.Der.Reads
import TrustAnchors.Name.Strict
import TrustAnchors.Proofs.Name.LenientGrammar
import TrustAnchors.Proofs.Octets

/-!
# Rendered assignments read back

The strict reader looks for separators only two octets back, and the rendering of lenient text keeps
every backslash and every separator of a value in a pair (`Shielded`). So text is cut exactly where
it was joined (`split_intercalate`), and a rendered value reads back as its octets
(`unescape_escape`). Any text with this property can stand for a rendering that reads alike
(`ofStrict_of_readsAs`).
-/

namespace TrustAnchors.Name.Strict

open Ascii Der Lenient

/-- Each backslash, and each separator, is in a pair of a backslash and another octet. -/
inductive Shielded (separator : UInt8) : Octets → Prop
  | nil : Shielded separator []
  | bare {b : UInt8} {o : Octets} (hs : b ≠ separator) (hb : b ≠ backslash)
      (h : Shielded separator o) : Shielded separator (b :: o)
  | pair {b : UInt8} {o : Octets} (hb : b ≠ backslash) (h : Shielded separator o) :
      Shielded separator (backslash :: b :: o)

namespace Shielded

variable {separator : UInt8} {o p : Octets}

theorem append (ho : Shielded separator o) (hp : Shielded separator p) :
    Shielded separator (o ++ p) := by
  induction ho with
  | nil => exact hp
  | bare hs hb _ ih => exact .bare hs hb ih
  | pair hb _ ih => exact .pair hb ih

theorem of_bare (h : ∀ b ∈ o, b ≠ separator ∧ b ≠ backslash) : Shielded separator o := by
  induction o with
  | nil => exact .nil
  | cons b o ih =>
    have hb := h b List.mem_cons_self
    exact .bare hb.1 hb.2 (ih fun c hc => h c (List.mem_cons_of_mem b hc))

end Shielded

theorem foldr_extend_cons (o p : Octets) (ps : List Octets) :
    o.foldr extend (p :: ps) = (o ++ p) :: ps := by
  induction o with
  | nil => rfl
  | cons b o ih => rw [List.foldr_cons, ih, extend, List.cons_append]

/-- Octets in which nothing is cut, and after which no backslash hides a separator, wherever they
stand behind an octet other than a backslash. -/
def Uncut (separator : UInt8) (o : Octets) : Prop :=
  ∀ x y, y ≠ backslash → ∃ x' y', y' ≠ backslash ∧ ∀ r,
    splitAfter separator x y (o ++ r) = o.foldr extend (splitAfter separator x' y' r)

namespace Uncut

variable {separator : UInt8} {o p : Octets}

theorem append (ho : Uncut separator o) (hp : Uncut separator p) : Uncut separator (o ++ p) := by
  intro x y hy
  obtain ⟨x₁, y₁, hy₁, ho⟩ := ho x y hy
  obtain ⟨x₂, y₂, hy₂, hp⟩ := hp x₁ y₁ hy₁
  refine ⟨x₂, y₂, hy₂, fun r => ?_⟩
  rw [List.append_assoc, ho, hp, List.foldr_append]

/-- Whatever comes before it, an octet that is neither a separator nor a backslash hides nothing. -/
theorem concat {b : UInt8} (ho : ∀ c ∈ o, c ≠ separator) (hb : b ≠ separator)
    (hne : b ≠ backslash) : Uncut separator (o ++ [b]) := by
  have hbare : ∀ x y, ∃ x' y', y' ≠ backslash ∧ ∀ r,
      splitAfter separator x y (o ++ [b] ++ r) =
        (o ++ [b]).foldr extend (splitAfter separator x' y' r) := by
    induction o with
    | nil =>
      intro x y
      refine ⟨y, b, hne, fun r => ?_⟩
      have hcut : ¬ (b = separator ∧ (y ≠ backslash ∨ x = backslash)) := fun h => hb h.1
      rw [List.nil_append, List.singleton_append, splitAfter, if_neg hcut]
      rfl
    | cons c o ih =>
      intro x y
      obtain ⟨x', y', hy', ih⟩ := ih (fun d hd => ho d (List.mem_cons_of_mem c hd)) y c
      refine ⟨x', y', hy', fun r => ?_⟩
      have hcut : ¬ (c = separator ∧ (y ≠ backslash ∨ x = backslash)) :=
        fun h => ho c List.mem_cons_self h.1
      rw [List.cons_append, List.cons_append, splitAfter, if_neg hcut, ih, List.foldr_cons]
  exact fun x y _ => hbare x y

theorem nil : Uncut separator [] := fun x y hy => ⟨x, y, hy, fun _ => rfl⟩

theorem intercalate {s : UInt8} {ps : List Octets} (hs : s ≠ separator) (hb : s ≠ backslash)
    (h : ∀ p ∈ ps, Uncut separator p) : Uncut separator ([s].intercalate ps) := by
  induction ps with
  | nil => exact .nil
  | cons p ps ih =>
    have hp := h p List.mem_cons_self
    have ih := ih fun q hq => h q (List.mem_cons_of_mem p hq)
    cases ps with
    | nil => simpa using hp
    | cons q qs =>
      have hs : Uncut separator [s] := concat (o := []) nofun hs hb
      rw [List.intercalate_cons_cons]
      exact (hp.append hs).append ih

end Uncut

theorem Shielded.uncut {separator : UInt8} (hsep : separator ≠ backslash) {o : Octets}
    (h : Shielded separator o) : Uncut separator o := by
  intro x y hy
  induction h generalizing x y with
  | nil => exact ⟨x, y, hy, fun _ => rfl⟩
  | @bare b o hs hb _ ih =>
    obtain ⟨x', y', hy', ih⟩ := ih y b hb
    refine ⟨x', y', hy', fun r => ?_⟩
    rw [List.cons_append, splitAfter, if_neg (fun h => hs h.1), ih, List.foldr_cons]
  | @pair b o hb _ ih =>
    obtain ⟨x', y', hy', ih⟩ := ih backslash b hb
    refine ⟨x', y', hy', fun r => ?_⟩
    have hhidden : ¬ (b = separator ∧ (backslash ≠ backslash ∨ y = backslash)) := by
      rintro ⟨_, h | h⟩
      · exact h rfl
      · exact hy h
    rw [List.cons_append, List.cons_append, splitAfter, if_neg (fun h => hsep h.1.symm), splitAfter,
      if_neg hhidden, ih, List.foldr_cons, List.foldr_cons]

theorem splitAfter_intercalate {separator : UInt8} {o : Octets} {ps : List Octets}
    (h : ∀ p ∈ o :: ps, Uncut separator p) (hsep : separator ≠ backslash) {x y : UInt8}
    (hy : y ≠ backslash) :
    splitAfter separator x y ([separator].intercalate (o :: ps)) = o :: ps := by
  induction ps generalizing o x y with
  | nil =>
    obtain ⟨x', y', _, hsplit⟩ := h o List.mem_cons_self x y hy
    rw [List.intercalate_singleton, ← List.append_nil o, hsplit, splitAfter, foldr_extend_cons]
  | cons p ps ih =>
    obtain ⟨x', y', hy', hsplit⟩ := h o List.mem_cons_self x y hy
    have ih := ih (fun q hq => h q (List.mem_cons_of_mem o hq)) hsep (x := y')
    rw [List.intercalate_cons_cons, List.append_assoc, hsplit, List.singleton_append, splitAfter,
      if_pos ⟨rfl, .inl hy'⟩, ih, foldr_extend_cons, List.append_nil]

/-- A text is cut where it was joined. -/
theorem split_intercalate {separator : UInt8} (hsep : separator ≠ backslash) {ps : List Octets}
    (hne : ps ≠ []) (h : ∀ p ∈ ps, Uncut separator p) :
    split separator ([separator].intercalate ps) = ps := by
  obtain ⟨o, ps, rfl⟩ := List.exists_cons_of_ne_nil hne
  exact splitAfter_intercalate h hsep (by decide)

/-- The separators of strict text. -/
def IsCut (separator : UInt8) : Prop := separator = comma ∨ separator = plus

theorem IsCut.isSeparator {separator : UInt8} (h : IsCut separator) :
    isSeparator separator = true := by
  rcases h with rfl | rfl <;> decide

theorem hexDigit_ne_cut {n : UInt8} (hn : n.toNat < 16) :
    hexDigit n ≠ comma ∧ hexDigit n ≠ plus ∧ hexDigit n ≠ backslash := by
  have hdigits : ∀ k : Fin 16, hexDigit (UInt8.ofNat k) ≠ comma ∧ hexDigit (UInt8.ofNat k) ≠ plus ∧
      hexDigit (UInt8.ofNat k) ≠ backslash := by
    decide +kernel
  simpa using hdigits ⟨n.toNat, hn⟩

theorem hexPair_ne_cut (b : UInt8) : ∀ c ∈ hexPair b, c ≠ comma ∧ c ≠ plus ∧ c ≠ backslash := by
  intro c hc
  have hb := b.toNat_lt
  rw [hexPair, List.mem_cons, List.mem_singleton] at hc
  rcases hc with rfl | rfl
  · apply hexDigit_ne_cut
    have hdiv : (b / 16).toNat = b.toNat / 16 := rfl
    omega
  · apply hexDigit_ne_cut
    have hmod : (b % 16).toNat = b.toNat % 16 := rfl
    omega

theorem hexValue?_hexPair (b : UInt8) :
    ∃ high low, hexValue? (hexDigit (b / 16)) = some high ∧
      hexValue? (hexDigit (b % 16)) = some low ∧ high * 16 + low = b := by
  refine ⟨b / 16, b % 16, ?_⟩
  refine forall_octet (P := fun b => hexValue? (hexDigit (b / 16)) = some (b / 16) ∧
    hexValue? (hexDigit (b % 16)) = some (b % 16) ∧ b / 16 * 16 + b % 16 = b) ?_ b
  decide +kernel

theorem isSpecial_spec {b : UInt8} (h : isSpecial b = true) :
    b ≠ backslash ∧ isEscapable b = true := by
  revert h
  refine forall_octet (P := fun b => isSpecial b = true → b ≠ backslash ∧ isEscapable b = true) ?_ b
  decide +kernel

theorem ne_cut_of_not_isSpecial {b : UInt8} (h : isSpecial b = false) {separator : UInt8}
    (hs : IsCut separator) : b ≠ separator := by
  rintro rfl
  rcases hs with rfl | rfl <;> exact absurd h (by decide)

theorem shielded_escapeOctet {separator : UInt8} (hs : IsCut separator) (b : UInt8) :
    Shielded separator (escapeOctet b) := by
  rw [escapeOctet]
  split
  · next h => exact .pair (isSpecial_spec h).1 .nil
  · next h =>
    split
    · next hp =>
      simp only [Bool.and_eq_true, decide_eq_true_eq] at hp
      exact .bare (ne_cut_of_not_isSpecial (by simpa using h) hs) hp.2 .nil
    · have hd := hexPair_ne_cut b
      refine .pair (hd _ (by simp [hexPair])).2.2 (.of_bare fun c hc => ?_)
      have hc := hd c (List.mem_cons_of_mem _ hc)
      rcases hs with rfl | rfl
      · exact ⟨hc.1, hc.2.2⟩
      · exact hc.2

theorem shielded_escapeRest {separator : UInt8} (hs : IsCut separator) (o : Octets) :
    Shielded separator (escapeRest o) := by
  fun_induction escapeRest o with
  | case1 => exact .nil
  | case2 => exact .pair (by decide) .nil
  | case3 b hb => exact shielded_escapeOctet hs b
  | case4 b r _ ih => exact (shielded_escapeOctet hs b).append ih

theorem shielded_escape {separator : UInt8} (hs : IsCut separator) (o : Octets) :
    Shielded separator (escape o) := by
  cases o with
  | nil => exact .nil
  | cons b r =>
    rw [escape]
    refine Shielded.append ?_ (shielded_escapeRest hs r)
    split
    · next hb => exact .pair (by rcases hb with rfl | rfl <;> decide) .nil
    · exact shielded_escapeOctet hs b

theorem unescape_bare {b : UInt8} (hb : b ≠ backslash) (r : Octets) :
    unescape (b :: r) = (b :: ·) <$> unescape r := by
  rw [unescape.eq_def]
  exact if_neg hb

theorem unescape_pair {b : UInt8} (hb : isEscapable b = true) (r : Octets) :
    unescape (backslash :: b :: r) = (b :: ·) <$> unescape r := by
  rw [unescape.eq_def]
  simp only [if_pos, hb]

/-- Both readers let the same octets stand for themselves behind a backslash. -/
theorem isEscapable_eq (b : UInt8) : isEscapable b = Lenient.isEscapable b := by
  refine forall_octet (P := fun b => isEscapable b = Lenient.isEscapable b) ?_ b
  decide +kernel

theorem unescape_hex {x y high low : UInt8} (hx : hexValue? x = some high)
    (hy : hexValue? y = some low) (r : Octets) :
    unescape (backslash :: x :: y :: r) = ((high * 16 + low) :: ·) <$> unescape r := by
  have hesc : isEscapable x = false := (isEscapable_eq x).trans (isEscapable_of_hexValue? hx)
  rw [unescape.eq_def]
  simp only [if_pos, hesc, hx, hy, Bool.false_eq_true, if_false]

theorem unescape_hexPair (b : UInt8) (r : Octets) :
    unescape (backslash :: (hexPair b ++ r)) = (b :: ·) <$> unescape r := by
  obtain ⟨high, low, hh, hl, he⟩ := hexValue?_hexPair b
  have hread := unescape_hex hh hl r
  rwa [he] at hread

theorem unescape_escapeOctet (b : UInt8) (r : Octets) :
    unescape (escapeOctet b ++ r) = (b :: ·) <$> unescape r := by
  rw [escapeOctet]
  split
  · next h => exact unescape_pair (isSpecial_spec h).2 r
  · split
    · next hp =>
      simp only [Bool.and_eq_true, decide_eq_true_eq] at hp
      exact unescape_bare hp.2 r
    · exact unescape_hexPair b r

theorem unescape_escapeRest (o : Octets) : unescape (escapeRest o) = .ok o := by
  fun_induction escapeRest o with
  | case1 => rfl
  | case2 =>
    rw [unescape_pair (by decide)]
    rfl
  | case3 b hb =>
    rw [← List.append_nil (escapeOctet b), unescape_escapeOctet]
    rfl
  | case4 b r _ ih =>
    rw [unescape_escapeOctet, ih]
    rfl

theorem unescape_escape (o : Octets) : unescape (escape o) = .ok o := by
  cases o with
  | nil => rfl
  | cons b r =>
    rw [escape]
    split
    · next hb =>
      rw [List.cons_append, List.cons_append, List.nil_append,
        unescape_pair (by rcases hb with rfl | rfl <;> decide), unescape_escapeRest]
      rfl
    · rw [unescape_escapeOctet, unescape_escapeRest]
      rfl

/-- A rendered value never looks like one in hexadecimal. -/
theorem head_escape_ne_numberSign (o : Octets) : (escape o).head? ≠ some numberSign := by
  cases o with
  | nil => exact nofun
  | cons b r =>
    rw [escape]
    split
    · exact fun h => absurd (Option.some.inj h) (by decide)
    · next hb =>
      rw [escapeOctet]
      split
      · exact fun h => absurd (Option.some.inj h) (by decide)
      · split
        · exact fun h => hb (.inr (Option.some.inj h))
        · exact fun h => absurd (Option.some.inj h) (by decide)

theorem valueOf_of_head (type : ObjectIdentifier) {o : Octets} (h : o.head? ≠ some numberSign) :
    valueOf type o = do return ⟨valueTag type, ← unescape o⟩ := by
  rw [valueOf.eq_def]
  split
  · exact absurd rfl h
  · rfl

theorem valueOf_escape (type : ObjectIdentifier) (o : Octets) :
    valueOf type (escape o) = .ok ⟨valueTag type, o⟩ := by
  rw [valueOf_of_head type (head_escape_ne_numberSign o), unescape_escape]
  rfl

/-- Hexadecimal digits, of either case, of the given octets. -/
inductive SpellsHex : Octets → Octets → Prop
  | nil : SpellsHex [] []
  | cons {x y high low : UInt8} {o digits : Octets} (hx : hexValue? x = some high)
      (hy : hexValue? y = some low) (h : SpellsHex o digits) :
      SpellsHex ((high * 16 + low) :: o) (x :: y :: digits)

theorem spellsHex_hex (o : Octets) : SpellsHex o (Octets.hex o) := by
  induction o with
  | nil => exact .nil
  | cons b o ih =>
    obtain ⟨high, low, hh, hl, he⟩ := hexValue?_hexPair b
    have h : SpellsHex ((high * 16 + low) :: o) (hexPair b ++ Octets.hex o) := .cons hh hl ih
    rwa [he] at h

theorem SpellsHex.ne_nil {o digits : Octets} (h : SpellsHex o digits) (ho : o ≠ []) :
    digits ≠ [] := by
  cases h with
  | nil => exact absurd rfl ho
  | cons => exact List.cons_ne_nil _ _

theorem ofHex_of_spells {o digits : Octets} (h : SpellsHex o digits) : ofHex digits = .ok o := by
  induction h with
  | nil => rfl
  | cons hx hy _ ih =>
    rw [ofHex]
    simp only [hx, hy, ih]
    rfl

theorem spellsHex_of_ofHex {o digits : Octets} (h : ofHex digits = .ok o) :
    SpellsHex o digits := by
  fun_induction ofHex digits generalizing o with
  | case1 =>
    cases h
    exact .nil
  | case2 x y r high low hx hy ih =>
    obtain ⟨p, hp, rfl⟩ := Except.map_eq_ok_iff.1 h
    exact .cons hy hx (ih hp)
  | case3 => contradiction
  | case4 => contradiction

theorem valueOf_hex (type : ObjectIdentifier) {e : Element} (he : e.encode.length ≤ maxLength)
    {digits : Octets} (h : SpellsHex e.encode digits) :
    valueOf type (numberSign :: digits) = .ok e := by
  change ofHex digits >>= Element.decode.decode = .ok e
  rw [ofHex_of_spells h, Except.ok_bind]
  exact Decoder.ReadsBefore.decode (Decoder.Reads.before e.reads_encode) he

theorem isHexDigit_spec {b : UInt8} (h : isHexDigit b = true) {separator : UInt8}
    (hs : IsCut separator) : b ≠ separator ∧ b ≠ backslash := by
  constructor
  · rintro rfl
    rcases hs with rfl | rfl <;> exact absurd h (by decide)
  · rintro rfl
    exact absurd h (by decide)

theorem shielded_hex {digits : Octets} (hd : ∀ b ∈ digits, isHexDigit b = true)
    {separator : UInt8} (hs : IsCut separator) : Shielded separator (numberSign :: digits) := by
  refine .bare ?_ (by decide) (.of_bare fun b hb => isHexDigit_spec (hd b hb) hs)
  rcases hs with rfl | rfl <;> decide

/-- Nothing is cut in a type and a value of which no separator is bare. -/
theorem uncut_append {type value : Octets} {separator : UInt8} (hs : IsCut separator)
    (htype : ∀ b ∈ type, isSeparator b = false) (hvalue : Shielded separator value) :
    Uncut separator (type ++ equals :: value) := by
  have hsep : separator ≠ backslash := by rcases hs with rfl | rfl <;> decide
  have hequals : equals ≠ separator := by rcases hs with rfl | rfl <;> decide
  have hbare : ∀ b ∈ type, b ≠ separator := by
    rintro b hb rfl
    exact absurd hs.isSeparator (by simp [htype b hb])
  have huncut := (Uncut.concat hbare hequals (by decide)).append (hvalue.uncut hsep)
  rwa [List.append_assoc] at huncut

/-- The type ends at the first `=`. -/
theorem readAttribute_append {type value : Octets} (h : ∀ b ∈ type, b ≠ equals) :
    readAttribute (type ++ equals :: value) = do
      let type ← typeOf type
      return ⟨type, ← valueOf type value⟩ := by
  have hbare : ∀ b ∈ type, decide (b ≠ equals) = true := fun b hb => by simpa using h b hb
  have hdrop : (type ++ equals :: value).dropWhile (· ≠ equals) = equals :: value := by
    rw [List.dropWhile_append_of_pos hbare]
    rfl
  have htake : (type ++ equals :: value).takeWhile (· ≠ equals) = type := by
    rw [List.takeWhile_append_of_pos hbare, List.takeWhile_cons_of_neg (by simp), List.append_nil]
  simp only [readAttribute, hdrop, htake]

/-- A type without `=` and without separators, and digits only where digits are meant. -/
structure WellFormed (g : Assignment) : Prop where
  bare : ∀ b ∈ g.type, b ≠ equals ∧ isSeparator b = false
  digits : ∀ digits, g.value = .hex digits → ∀ b ∈ digits, isHexDigit b = true

namespace WellFormed

variable {g : Assignment}

theorem shielded_value (h : WellFormed g) {separator : UInt8} (hs : IsCut separator) :
    Shielded separator g.value.render := by
  cases hv : g.value with
  | plain octets => exact shielded_escape hs octets
  | hex digits => exact shielded_hex (h.digits digits hv) hs

theorem uncut (h : WellFormed g) {separator : UInt8} (hs : IsCut separator) :
    Uncut separator g.render :=
  uncut_append hs (fun b hb => (h.bare b hb).2) (h.shielded_value hs)

theorem readAttribute_render (h : WellFormed g) :
    readAttribute g.render = do
      let type ← typeOf g.type
      return ⟨type, ← valueOf type g.value.render⟩ :=
  readAttribute_append fun b hb => (h.bare b hb).1

end WellFormed

/-- Octets that are never cut, and that are read as the rendering of an assignment is. -/
structure ReadsAs (g : Assignment) (o : Octets) : Prop where
  uncut {separator : UInt8} (hs : IsCut separator) : Uncut separator o
  readAttribute_eq : readAttribute o = readAttribute g.render

/-- Assignments of one relative name, read one after the other. -/
def readAssignments (gs : List Assignment) : Except Error RelativeName := do
  match RelativeName.ofList? (← gs.mapM (readAttribute ·.render)) with
  | some n => return n
  | none => .error .duplicateElement

/-- Parts in which nothing is cut are got back from their row. -/
theorem forall₂_split {α : Type} {separator : UInt8} (hsep : separator ≠ backslash)
    {S : α → Octets → Prop} (hS : ∀ a o, S a o → Uncut separator o) {as : List α} {o : Octets}
    (h : SeparatedBy (· = separator) S as o) : List.Forall₂ S as (split separator o) := by
  obtain ⟨os, hne, rfl, hall⟩ := h.exists_intercalate
  rwa [split_intercalate hsep hne fun p hp => ?_]
  obtain ⟨a, -, ha⟩ := exists_of_mem_forall₂ hall p hp
  exact hS a p ha

theorem Uncut.separatedBy {α : Type} {separator s : UInt8} (hs : s ≠ separator)
    (hb : s ≠ backslash) {S : α → Octets → Prop} (hS : ∀ a o, S a o → Uncut separator o)
    {as : List α} {o : Octets} (h : SeparatedBy (· = s) S as o) : Uncut separator o := by
  obtain ⟨os, -, rfl, hall⟩ := h.exists_intercalate
  refine .intercalate hs hb fun p hp => ?_
  obtain ⟨a, -, ha⟩ := exists_of_mem_forall₂ hall p hp
  exact hS a p ha

theorem mapM_eq_mapM {α β γ ε : Type} {f : α → Except ε γ} {g : β → Except ε γ} {as : List α}
    {bs : List β} (h : List.Forall₂ (fun a b => g b = f a) as bs) : bs.mapM g = as.mapM f := by
  induction h with
  | nil => rfl
  | cons hab _ ih => rw [List.mapM_cons, List.mapM_cons, hab, ih]

theorem readRelativeName_of_readsAs {gs : List Assignment} {o : Octets}
    (h : SeparatedBy (· = plus) ReadsAs gs o) : readRelativeName o = readAssignments gs := by
  have hparts := forall₂_split (by decide) (fun _ _ hg => hg.uncut (.inr rfl)) h
  have hread := mapM_eq_mapM (hparts.imp fun _ _ hg => hg.readAttribute_eq)
  rw [readRelativeName, hread]
  rfl

/-- A row of rows of such octets is read one relative name after the other. -/
theorem ofStrict_of_readsAs {gss : List (List Assignment)} {o : Octets}
    (h : SeparatedBy (· = comma) (SeparatedBy (· = plus) ReadsAs) gss o) :
    ofStrict o = do return ⟨(← gss.mapM readAssignments).reverse⟩ := by
  have hparts := forall₂_split (by decide)
    (fun _ _ hgs => .separatedBy (by decide) (by decide) (fun _ _ hg => hg.uncut (.inl rfl)) hgs) h
  rw [ofStrict, mapM_eq_mapM (hparts.imp fun _ _ hgs => readRelativeName_of_readsAs hgs)]

theorem WellFormed.readsAs {g : Assignment} (h : WellFormed g) : ReadsAs g g.render :=
  ⟨h.uncut, rfl⟩

theorem ofStrict_render {gss : List (List Assignment)} (hne : gss ≠ [])
    (h : ∀ gs ∈ gss, gs ≠ [] ∧ ∀ g ∈ gs, WellFormed g) :
    ofStrict (render gss) = do return ⟨(← gss.mapM readAssignments).reverse⟩ := by
  have hrow : SeparatedBy (· = comma) (SeparatedBy (· = plus) ReadsAs) gss (render gss) :=
    separatedBy_render (by rfl) hne fun gs hgs =>
      ⟨(h gs hgs).1, fun g hg => ((h gs hgs).2 g hg).readsAs⟩
  exact ofStrict_of_readsAs hrow

end TrustAnchors.Name.Strict
