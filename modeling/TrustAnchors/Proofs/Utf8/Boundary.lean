import TrustAnchors.Proofs.Utf8

/-!
# Boundaries of characters

An offset into the octets of a text is a boundary if the octets before it are those of some first
characters of the text (`IsBoundary`). Whether it is one can be seen from the octet behind it alone:
only the first octet of a character is no continuation (`isBoundaryOf_encode_iff`). There is a
boundary on either side of an octet of ASCII.
-/

namespace TrustAnchors.Utf8

/-- Octets of some first characters come before the offset. -/
def IsBoundary (cs : List Char) (k : Nat) : Prop :=
  ∃ ds es, cs = ds ++ es ∧ (encode ds).length = k

/-- No character goes on at the offset, as far as the octets tell. -/
def isBoundaryOf (o : Octets) (k : Nat) : Bool :=
  k = 0 || match o[k]? with
    | none => k = o.length
    | some b => !isContinuation b

theorem utf8EncodeChar_spec (c : Char) :
    ∃ a r, String.utf8EncodeChar c = a :: r ∧ isContinuation a = false ∧
      ∀ b ∈ r, isContinuation b = true := by
  have hmax : c.val.toNat < 0x110000 := by
    rcases c.valid with h | h
    · exact Nat.lt_trans h (by decide)
    · exact h.2
  unfold String.utf8EncodeChar
  simp only [← Bool.not_eq_true, isContinuation_iff]
  split
  · refine ⟨_, _, rfl, ?_, by simp⟩
    simp only [UInt8.toNat_ofNat']
    omega
  · split
    · refine ⟨_, _, rfl, ?_, ?_⟩
      · simp only [UInt8.toNat_ofNat']
        omega
      · simp only [List.forall_mem_cons, UInt8.toNat_ofNat']
        refine ⟨by omega, by simp⟩
    · split
      · refine ⟨_, _, rfl, ?_, ?_⟩
        · simp only [UInt8.toNat_ofNat']
          omega
        · simp only [List.forall_mem_cons, UInt8.toNat_ofNat']
          refine ⟨by omega, by omega, by simp⟩
      · refine ⟨_, _, rfl, ?_, ?_⟩
        · simp only [UInt8.toNat_ofNat']
          omega
        · simp only [List.forall_mem_cons, UInt8.toNat_ofNat']
          refine ⟨by omega, by omega, by omega, by simp⟩

/-- Only a character of ASCII has an octet of ASCII. -/
theorem utf8EncodeChar_of_lt {c : Char} {a : UInt8} {r : Octets}
    (h : String.utf8EncodeChar c = a :: r) (ha : a < 0x80) : r = [] := by
  have hc : c.val.toNat < 0x80 := by
    refine Nat.lt_of_not_le fun hge => ?_
    have hle := le_of_mem_utf8EncodeChar hge (h ▸ List.mem_cons_self)
    exact UInt8.not_lt.2 hle ha
  unfold String.utf8EncodeChar at h
  simp only [if_pos (show c.val.toNat ≤ 0x7f by omega), List.cons.injEq] at h
  exact h.2.symm

theorem isBoundary_zero (cs : List Char) : IsBoundary cs 0 := ⟨[], cs, rfl, rfl⟩

theorem isBoundary_length (cs : List Char) : IsBoundary cs (encode cs).length :=
  ⟨cs, [], (List.append_nil cs).symm, rfl⟩

theorem IsBoundary.le_length {cs : List Char} {k : Nat} (h : IsBoundary cs k) :
    k ≤ (encode cs).length := by
  obtain ⟨ds, es, rfl, rfl⟩ := h
  rw [encode_append, List.length_append]
  exact Nat.le_add_right _ _

theorem IsBoundary.cons {cs : List Char} {k : Nat} (h : IsBoundary cs k) (c : Char) :
    IsBoundary (c :: cs) ((String.utf8EncodeChar c).length + k) := by
  obtain ⟨ds, es, rfl, rfl⟩ := h
  exact ⟨c :: ds, es, rfl, by rw [encode_cons, List.length_append]⟩

theorem IsBoundary.isBoundaryOf_encode {cs : List Char} {k : Nat} (h : IsBoundary cs k) :
    isBoundaryOf (encode cs) k = true := by
  obtain ⟨ds, es, rfl, rfl⟩ := h
  rw [encode_append, isBoundaryOf, List.getElem?_append_right (Nat.le_refl _), Nat.sub_self]
  cases es with
  | nil => simp
  | cons c es =>
    obtain ⟨a, r, hc, ha, -⟩ := utf8EncodeChar_spec c
    simp [hc, ha]

theorem isBoundary_of_isBoundaryOf {cs : List Char} {k : Nat}
    (h : isBoundaryOf (encode cs) k = true) : IsBoundary cs k := by
  induction cs generalizing k with
  | nil =>
    rcases k with _ | j
    · exact isBoundary_zero []
    · simp [isBoundaryOf] at h
  | cons c cs ih =>
    obtain ⟨a, r, hc, -, hr⟩ := utf8EncodeChar_spec c
    have hlength : (String.utf8EncodeChar c).length = r.length + 1 := by rw [hc, List.length_cons]
    rcases k with _ | j
    · exact isBoundary_zero _
    rcases Nat.lt_or_ge j r.length with hlt | hge
    · -- Inside the first character there are continuations only.
      have hcont := hr r[j] (List.getElem_mem hlt)
      simp [isBoundaryOf, hc, List.getElem?_append_left hlt, List.getElem?_eq_getElem hlt,
        hcont] at h
    · obtain ⟨i, rfl⟩ := Nat.exists_eq_add_of_le hge
      have hrest : isBoundaryOf (encode cs) i = true := by
        rw [isBoundaryOf, encode_cons, hc, List.cons_append, List.getElem?_cons_succ,
          List.getElem?_append_right hge, Nat.add_sub_cancel_left, List.length_cons,
          List.length_append] at h
        rw [isBoundaryOf]
        cases hget : (encode cs)[i]? with
        | none =>
          simp only [hget, Bool.or_eq_true, decide_eq_true_eq] at h ⊢
          omega
        | some b =>
          simp only [hget, Bool.or_eq_true, decide_eq_true_eq] at h ⊢
          exact .inr (h.resolve_left (Nat.succ_ne_zero _))
      have hall := (ih hrest).cons c
      rwa [hlength, show r.length + 1 + i = r.length + i + 1 by omega] at hall

theorem isBoundaryOf_encode_iff {cs : List Char} {k : Nat} :
    isBoundaryOf (encode cs) k = true ↔ IsBoundary cs k :=
  ⟨isBoundary_of_isBoundaryOf, IsBoundary.isBoundaryOf_encode⟩

/-- The character that starts at an octet which is no continuation. -/
theorem exists_char_of_getElem? {cs : List Char} {k : Nat} {b : UInt8}
    (h : (encode cs)[k]? = some b) (hb : isContinuation b = false) :
    ∃ ds c es, cs = ds ++ c :: es ∧ (encode ds).length = k ∧
      ∃ r, String.utf8EncodeChar c = b :: r := by
  have hboundary : isBoundaryOf (encode cs) k = true := by simp [isBoundaryOf, h, hb]
  obtain ⟨ds, es, rfl, rfl⟩ := isBoundary_of_isBoundaryOf hboundary
  rw [encode_append, List.getElem?_append_right (Nat.le_refl _), Nat.sub_self] at h
  cases es with
  | nil => cases h
  | cons c es =>
    obtain ⟨a, r, hc, -, -⟩ := utf8EncodeChar_spec c
    rw [encode_cons, hc] at h
    cases h
    exact ⟨ds, c, es, rfl, rfl, r, hc⟩

theorem isContinuation_of_lt {b : UInt8} (h : b < 0x80) : isContinuation b = false := by
  rw [← Bool.not_eq_true, isContinuation_iff]
  have hb := UInt8.lt_iff_toNat_lt.1 h
  have h80 : (0x80 : UInt8).toNat = 0x80 := rfl
  omega

theorem isBoundary_of_lt {cs : List Char} {k : Nat} {b : UInt8} (h : (encode cs)[k]? = some b)
    (hb : b < 0x80) : IsBoundary cs k ∧ IsBoundary cs (k + 1) := by
  obtain ⟨ds, c, es, rfl, rfl, r, hc⟩ := exists_char_of_getElem? h (isContinuation_of_lt hb)
  refine ⟨⟨ds, c :: es, rfl, rfl⟩, ⟨ds ++ [c], es, by simp, ?_⟩⟩
  rw [encode_append, encode_cons, hc, utf8EncodeChar_of_lt hc hb]
  simp

/-- Behind the first octet of a longer character there is no boundary. -/
theorem not_isBoundary_succ {ds es : List Char} {c : Char} (hc : 0x80 ≤ c.toNat) :
    ¬ IsBoundary (ds ++ c :: es) ((encode ds).length + 1) := by
  intro h
  have hoctets := h.isBoundaryOf_encode
  obtain ⟨a, r, he, -, hr⟩ := utf8EncodeChar_spec c
  have hne : r ≠ [] := by
    rintro rfl
    have hsize := String.length_utf8EncodeChar c
    rw [he, List.length_singleton, eq_comm, Char.utf8Size_eq_one_iff,
      UInt32.le_iff_toNat_le] at hsize
    exact absurd hc (Nat.not_le.2 (Nat.lt_succ_of_le hsize))
  obtain ⟨b, r, rfl⟩ := List.exists_cons_of_ne_nil hne
  have hb := hr b List.mem_cons_self
  rw [isBoundaryOf, encode_append, List.getElem?_append_right (Nat.le_add_right _ _),
    Nat.add_sub_cancel_left, encode_cons, he] at hoctets
  simp [hb] at hoctets

end TrustAnchors.Utf8
