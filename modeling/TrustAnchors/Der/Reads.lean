import TrustAnchors.Der.Element

/-!
# Reading what was written

`ReadsBefore P d o a` says that the decoder `d` takes exactly the octets `o` and yields `a`,
provided that `P` holds of the octets after them. It is kept by sequencing and by opening an
element, so that a decoder reads an encoding as soon as its parts do. Fields that can be absent need
to know what follows; `many` needs nothing to follow. A message that is read is decoded
(`ReadsBefore.decode`), also at the start of a stream (`Reads.decodeStream`).
-/

namespace TrustAnchors.Der

/-- The next `n` octets can be had from the source, and their end is not too far. -/
def Cursor.Delivers (c : Cursor) (n : Nat) : Prop :=
  c.offset + n ≤ maxLength ∧ c.source.breaks (c.offset + n) = false

theorem Cursor.Delivers.mono {c : Cursor} {m n : Nat} (h : c.Delivers n) (hm : m ≤ n) :
    c.Delivers m :=
  ⟨Nat.le_trans (Nat.add_le_add_left hm _) h.1,
    Source.breaks_eq_false_of_le h.2 (Nat.add_le_add_left hm _)⟩

theorem Cursor.Delivers.advance {c : Cursor} {m n : Nat} (h : c.Delivers (m + n)) :
    (c.advance m).Delivers n := by
  simpa [Cursor.Delivers, Cursor.advance, Nat.add_assoc] using h

namespace Decoder

variable {α β : Type} {P Q : Octets → Prop}

def ReadsBefore (P : Octets → Prop) (d : Decoder α) (o : Octets) (a : α) : Prop :=
  ∀ (c : Cursor) (r : Octets), c.rest = o ++ r → P r → c.Delivers o.length →
    d c = .ok (a, c.advance o.length)

/-- Whatever follows. -/
abbrev Reads (d : Decoder α) (o : Octets) (a : α) : Prop := ReadsBefore (fun _ => True) d o a

/-- If nothing follows. -/
abbrev ReadsToEnd (d : Decoder α) (o : Octets) (a : α) : Prop := ReadsBefore (· = []) d o a

theorem ReadsBefore.mono {d : Decoder α} {o : Octets} {a : α} (h : ReadsBefore Q d o a)
    (hp : ∀ r, P r → Q r) : ReadsBefore P d o a :=
  fun c r hc hr hm => h c r hc (hp r hr) hm

theorem Reads.before {d : Decoder α} {o : Octets} {a : α} (h : Reads d o a) :
    ReadsBefore P d o a :=
  h.mono fun _ _ => trivial

theorem reads_pure (a : α) : ReadsBefore P (pure a : Decoder α) [] a := by
  intro c r _ _ _
  simp

theorem ReadsBefore.bind {d : Decoder α} {f : α → Decoder β} {o p : Octets} {a : α} {b : β}
    (hd : ReadsBefore Q d o a) (hf : ReadsBefore P (f a) p b) (hp : ∀ r, P r → Q (p ++ r)) :
    ReadsBefore P (d >>= f) (o ++ p) b := by
  intro c r hc hr hm
  rw [List.length_append] at hm
  have hd := hd c (p ++ r) (by rw [hc, List.append_assoc]) (hp r hr)
    (hm.mono (Nat.le_add_right _ _))
  have hf := hf (c.advance o.length) r (by simp [Cursor.advance, hc]) hr hm.advance
  refine bind_eq_ok_iff.2 ⟨a, _, hd, ?_⟩
  rw [hf, Cursor.advance_advance, List.length_append]

theorem Reads.bind {d : Decoder α} {f : α → Decoder β} {o p : Octets} {a : α} {b : β}
    (hd : Reads d o a) (hf : ReadsBefore P (f a) p b) : ReadsBefore P (d >>= f) (o ++ p) b :=
  ReadsBefore.bind hd hf fun _ _ => trivial

/-- What follows the first decoder takes no octets. -/
theorem ReadsBefore.bind_nil {d : Decoder α} {f : α → Decoder β} {o : Octets} {a : α} {b : β}
    (hd : ReadsBefore P d o a) (hf : ReadsBefore P (f a) [] b) : ReadsBefore P (d >>= f) o b := by
  rw [← List.append_nil o]
  exact hd.bind hf fun r hr => by simpa using hr

/-- The first decoder takes no octets. -/
theorem ReadsBefore.nil_bind {d : Decoder α} {f : α → Decoder β} {o : Octets} {a : α} {b : β}
    (hd : ReadsBefore Q d [] a) (hf : ReadsBefore P (f a) o b) (hp : ∀ r, P r → Q (o ++ r)) :
    ReadsBefore P (d >>= f) o b := by
  rw [← List.nil_append o]
  exact hd.bind hf hp

theorem reads_octet (b : UInt8) : Reads octet [b] b := by
  intro c r hc _ hm
  have hb : c.source.breaks (c.offset + 1) = false := hm.2
  simp [octet, hc, hb]

theorem require_eq_ok {c : Cursor} {n : Nat} (hm : c.Delivers n) (hn : n ≤ c.rest.length) :
    require n c = .ok ((), c) := by
  simp only [require, if_neg (Nat.not_lt.2 hm.1), if_neg (Nat.not_lt.2 hn)]

theorem reads_take (o : Octets) : Reads (take o.length) o o := by
  intro c r hc _ hm
  refine bind_eq_ok_iff.2 ⟨(), c, require_eq_ok hm (by simp [hc]), ?_⟩
  simp [read, hm.2, hc]

theorem reads_ofOption {e : Error} {x : Option α} {a : α} (h : x = some a) :
    ReadsBefore P (ofOption e x) [] a := by
  rw [h]
  exact reads_pure a

theorem reads_ofExcept {x : Except Error α} {a : α} (h : x = .ok a) :
    ReadsBefore P (ofExcept x) [] a := by
  intro c r _ _ _
  simp [ofExcept, h, Except.map]

theorem reads_tagOfOctet (t : Tag) : ReadsBefore P (tagOfOctet t.octet) [] t := by
  unfold tagOfOctet
  rw [dif_pos t.numberBits_octet_lt]
  exact reads_ofOption t.ofOctet?_octet

theorem reads_lengthDigits (o : Octets) (n : Nat) :
    Reads (lengthDigits o.length n) o (o.foldl (fun n b => n * 256 + b.toNat) n) := by
  induction o generalizing n with
  | nil => exact reads_pure n
  | cons b r ih => exact (reads_octet b).bind (ih _)

/-- The first of several length octets tells how many follow. -/
theorem longForm_spec (n : Nat) :
    ¬ UInt8.ofNat (0x80 + width n) < 0x80 ∧ UInt8.ofNat (0x80 + width n) ≠ 0x80 ∧
      UInt8.ofNat (0x80 + width n) ≤ 0x84 ∧
      (UInt8.ofNat (0x80 + width n) - 0x80).toNat = (bigEndian (width n) n).length := by
  have hw : 1 ≤ width n ∧ width n ≤ 4 := by grind [width]
  have hb : (UInt8.ofNat (0x80 + width n)).toNat = 0x80 + width n := by
    rw [UInt8.toNat_ofNat']
    omega
  have hnlt : ¬ UInt8.ofNat (0x80 + width n) < 0x80 := by
    rw [UInt8.lt_iff_toNat_lt, hb]
    exact Nat.not_lt.2 (Nat.le_add_right _ _)
  refine ⟨hnlt, ?_, ?_, ?_⟩
  · intro he
    have he : 0x80 + width n = 0x80 := hb.symm.trans (congrArg UInt8.toNat he)
    omega
  · rw [UInt8.le_iff_toNat_le, hb]
    exact Nat.add_le_add_left hw.2 0x80
  · rw [UInt8.toNat_sub_of_le _ _ (UInt8.not_lt.1 hnlt), hb, length_bigEndian]
    exact Nat.add_sub_cancel_left 0x80 (width n)

theorem reads_lengthOf (tag : Tag) {n : Nat} (h : n ≤ maxLength) :
    Reads (lengthOf tag) (lengthOctets n) n := by
  have hn : n ≤ 0xfffffff := h
  by_cases hs : n < 0x80
  · have hb : (UInt8.ofNat n).toNat = n := by
      rw [UInt8.toNat_ofNat']
      omega
    have hlt : UInt8.ofNat n < 0x80 := by
      rw [UInt8.lt_iff_toNat_lt, hb]
      exact hs
    rw [lengthOctets, if_pos hs]
    refine (reads_octet _).bind_nil ?_
    rw [if_pos hlt, hb]
    exact reads_pure n
  · obtain ⟨hnlt, hne, hle, hd⟩ := longForm_spec n
    have hdigits :
        Reads (lengthDigits (bigEndian (width n) n).length 0) (bigEndian (width n) n) n := by
      have hf := reads_lengthDigits (bigEndian (width n) n) 0
      rwa [← ofBigEndian, ofBigEndian_bigEndian_width (by omega)] at hf
    have hhead : (lengthOctets n).head? = some (UInt8.ofNat (0x80 + width n)) := by
      rw [lengthOctets, if_neg hs]
      rfl
    rw [lengthOctets, if_neg hs, ← List.singleton_append]
    refine (reads_octet _).bind ?_
    rw [if_neg hnlt, if_neg hne, if_pos hle, hd]
    refine hdigits.bind_nil ?_
    rw [if_neg (Nat.not_lt.2 h), if_pos hhead]
    exact reads_pure n

theorem reads_header (tag : Tag) {n : Nat} (h : n ≤ maxLength) :
    Reads header (tag.octet :: lengthOctets n) (tag, n) := by
  rw [← List.singleton_append]
  refine (reads_octet _).bind ?_
  refine (reads_tagOfOctet (P := fun _ => True) tag).nil_bind ?_ fun _ _ => trivial
  exact (reads_lengthOf tag h).bind_nil (reads_pure (tag, n))

theorem reads_expect (tag : Tag) {n : Nat} (h : n ≤ maxLength) :
    Reads (expect tag) (tag.octet :: lengthOctets n) n := by
  refine (reads_header tag h).bind_nil ?_
  simp only [if_pos]
  exact reads_pure n

theorem length_le_of_tlv {c : Cursor} {tag : Tag} {content : Octets}
    (h : c.Delivers (tlv tag content).length) : content.length ≤ maxLength := by
  have h := h.1
  simp only [tlv, List.length_append, List.length_cons] at h
  omega

/-- A header, and then the content by a decoder that is told both parts of the header. -/
theorem ReadsBefore.header {tag : Tag} {content : Octets} {f : Tag × Nat → Decoder α} {a : α}
    (h : ReadsBefore P (f (tag, content.length)) content a) :
    ReadsBefore P (header >>= f) (tlv tag content) a :=
  fun c r hc hr hm => (reads_header tag (length_le_of_tlv hm)).bind h c r hc hr hm

theorem ReadsBefore.expect {tag : Tag} {content : Octets} {f : Nat → Decoder α} {a : α}
    (h : ReadsBefore P (f content.length) content a) :
    ReadsBefore P (expect tag >>= f) (tlv tag content) a :=
  fun c r hc hr hm => (reads_expect tag (length_le_of_tlv hm)).bind h c r hc hr hm

/-- What is read at the end of a cursor of its own is read by opening it. -/
theorem ReadsToEnd.nested {d : Decoder α} {o : Octets} {a : α} (h : ReadsToEnd d o a) :
    ReadsBefore P (nested o.length d) o a := by
  intro c r hc _ hm
  have hn := require_eq_ok hm (by simp [hc])
  have hi := h ⟨o.length, c.offset, o, c.source⟩ [] (by simp) rfl hm
  have ht : c.rest.take o.length = o := by simp [hc]
  simp only [Decoder.nested, hn, ht, hi, Except.ok_bind, Cursor.advance, List.drop_length]
  rfl

theorem ReadsToEnd.sequence {d : Decoder α} {o : Octets} {a : α} (h : ReadsToEnd d o a) :
    ReadsBefore P (sequence d) (tlv .sequence o) a :=
  h.nested.expect

section Forms

variable {W : Type} {octets : W → Octets} {value : W → α} {d : Decoder α}

theorem readsToEnd_elements (hne : ∀ w, octets w ≠ []) {ws : List W}
    (h : ∀ w ∈ ws, Reads d (octets w) (value w)) (k : Nat) (hk : (ws.flatMap octets).length ≤ k) :
    ReadsToEnd (elements d k) (ws.flatMap octets) (ws.map value) := by
  induction ws generalizing k with
  | nil =>
    intro c r hc hr _
    have hc : c.rest = [] := by simpa [hr] using hc
    cases k with
    | zero => simp [elements]
    | succ k => exact bind_eq_ok_iff.2 ⟨c, c, rfl, by simp [hc]⟩
  | cons w ws ih =>
    obtain ⟨b, o, ho⟩ := List.exists_cons_of_ne_nil (hne w)
    cases k with
    | zero => simp [ho] at hk
    | succ k =>
      intro c r hc hr hm
      have hk : (ws.flatMap octets).length ≤ k := by
        rw [List.flatMap_cons, ho, List.length_append, List.length_cons] at hk
        omega
      have hfirst : c.rest.isEmpty = false := by simp [hc, ho]
      refine bind_eq_ok_iff.2 ⟨c, c, rfl, ?_⟩
      rw [hfirst]
      have hws := ReadsBefore.bind_nil (f := fun xs => pure (value w :: xs))
        (ih (fun v hv => h v (List.mem_cons_of_mem w hv)) k hk) (reads_pure (value w :: _))
      exact (h w List.mem_cons_self).bind hws c r hc hr hm

/-- A list of forms that are not empty is read to its end. -/
theorem readsToEnd_many (hne : ∀ w, octets w ≠ []) {ws : List W}
    (h : ∀ w ∈ ws, Reads d (octets w) (value w)) :
    ReadsToEnd (many d) (ws.flatMap octets) (ws.map value) := by
  intro c r hc hr hm
  refine bind_eq_ok_iff.2 ⟨c, c, rfl, ?_⟩
  exact readsToEnd_elements hne h _ (by simp [hc]) c r hc hr hm

/-- A list of values that have one form each. -/
theorem readsToEnd_many_id {encode : α → Octets} (hne : ∀ a, encode a ≠ []) {as : List α}
    (h : ∀ a ∈ as, Reads d (encode a) a) : ReadsToEnd (many d) (as.flatMap encode) as := by
  have hmany : ReadsToEnd (many d) (as.flatMap encode) (as.map id) := readsToEnd_many hne h
  rwa [List.map_id] at hmany

end Forms

/-- Nothing follows, or an element that is no field with a context number up to `number`. -/
def NoContext (number : Nat) (r : Octets) : Prop :=
  r = [] ∨ ∃ (t : Tag) (s : Octets), r = t.octet :: s ∧
    ∀ constructed found, t = .tagged .contextSpecific constructed found → number < found.val

theorem reads_peekTag_nil : ReadsBefore (· = []) peekTag [] none := by
  intro c r hc hr _
  have hc : c.rest = [] := by simpa [hr] using hc
  simp [peekTag, hc]

theorem reads_peekTag (t : Tag) :
    ReadsBefore (fun r => ∃ s, r = t.octet :: s) peekTag [] (some t) := by
  rintro c _ hc ⟨s, rfl⟩ hm
  have ht := reads_tagOfOctet (P := fun _ => True) t c c.rest (by simp) trivial hm
  simp only [List.nil_append] at hc
  simp only [peekTag, hc, ht, Except.ok_bind, List.length_nil, Cursor.advance_zero]
  rfl

theorem reads_choice (t : Tag) : ReadsBefore (fun r => ∃ s, r = t.octet :: s) choice [] t := by
  intro c r hc hr hm
  have hp := reads_peekTag t c r hc hr hm
  simp only [choice, hp, Except.ok_bind]
  rfl

theorem reads_atContext_of_noContext (number : Nat) :
    ReadsBefore (NoContext number) (atContext number) [] false := by
  intro c r hc hr hm
  refine bind_eq_ok_iff.2 ⟨c, c, rfl, ?_⟩
  simp only [List.nil_append] at hc
  subst hc
  rcases hr with hr | ⟨t, s, hr, ht⟩
  · simp [hr, seekContext]
  · rw [hr, List.length_cons, seekContext]
    have hp := reads_peekTag t c _ (by simpa using hr) ⟨s, rfl⟩ hm
    refine bind_eq_ok_iff.2 ⟨some t, c, by simpa using hp, ?_⟩
    cases t with
    | tagged tagClass constructed found =>
      cases tagClass with
      | contextSpecific =>
        have hlt := ht constructed found rfl
        simp only [if_neg (Nat.ne_of_gt hlt), if_neg (Nat.lt_asymm hlt)]
        rfl
      | _ => rfl
    | _ => rfl

theorem reads_atContext {number : Nat} (hn : number < 31) (constructed : Bool) :
    ReadsBefore (fun r => ∃ s, r = (Tag.context constructed number).octet :: s)
      (atContext number) [] true := by
  rintro c _ hc ⟨s, rfl⟩ hm
  simp only [List.nil_append] at hc
  refine bind_eq_ok_iff.2 ⟨c, c, rfl, ?_⟩
  rw [hc, List.length_cons, seekContext]
  have hp := reads_peekTag (.context constructed number) c _ (by simpa using hc) ⟨s, rfl⟩ hm
  refine bind_eq_ok_iff.2 ⟨some (.context constructed number), c, by simpa using hp, ?_⟩
  simp [Tag.context, Nat.mod_eq_of_lt hn]

theorem tlv_append (tag : Tag) (content r : Octets) :
    ∃ s, tlv tag content ++ r = tag.octet :: s :=
  ⟨lengthOctets content.length ++ content ++ r, by simp [tlv]⟩

theorem noContext_tlv {t : Tag} {number : Nat} (content r : Octets)
    (ht : ∀ constructed found, t = .tagged .contextSpecific constructed found →
      number < found.val) : NoContext number (tlv t content ++ r) := by
  obtain ⟨s, hs⟩ := tlv_append t content r
  exact .inr ⟨t, s, hs, ht⟩

section OptionalForms

variable {W : Type} {octets : W → Octets} {value : W → α} {number : Nat} {x : Option W}

/-- A field with a greater context number follows, or what follows that field. -/
theorem noContext_field {later : Nat} (hlt : number < later) (hlater : later < 31)
    (constructed : Bool) (x : Option W) {r : Octets} (hr : NoContext number r) :
    NoContext number (x.elim [] (fun w => tlv (.context constructed later) (octets w)) ++ r) := by
  cases x with
  | none => exact hr
  | some w =>
    refine noContext_tlv _ _ fun c found he => ?_
    cases he
    rwa [Fin.val_ofNat, Nat.mod_eq_of_lt hlater]

/-- An optional field with a context number in place of its own tag. -/
theorem reads_implicit? (hn : number < 31) {constructed : Bool} {d : Nat → Decoder α}
    (hp : ∀ r, P r → NoContext number r)
    (h : ∀ w ∈ x, Reads (d (octets w).length) (octets w) (value w)) :
    ReadsBefore P (implicit? number constructed d)
      (x.elim [] fun w => tlv (.context constructed number) (octets w)) (x.map value) := by
  cases x with
  | none => exact ((reads_atContext_of_noContext number).mono hp).bind_nil (reads_pure none)
  | some w =>
    refine (reads_atContext hn constructed).nil_bind ?_ fun r _ => tlv_append _ _ r
    refine ReadsBefore.header ?_
    refine (h w rfl).before.bind_nil ?_
    simp only [Tag.context, Tag.isConstructed, if_pos]
    exact reads_pure (some (value w))

/-- An optional field that is wrapped in an element with a context number. -/
theorem reads_explicit? (hn : number < 31) {d : Decoder α} (hp : ∀ r, P r → NoContext number r)
    (h : ∀ w ∈ x, ReadsToEnd d (octets w) (value w)) :
    ReadsBefore P (explicit? number d) (x.elim [] fun w => explicitly number (octets w))
      (x.map value) := by
  cases x with
  | none => exact ((reads_atContext_of_noContext number).mono hp).bind_nil (reads_pure none)
  | some w =>
    refine (reads_atContext hn true).nil_bind ?_ fun r _ => tlv_append _ _ r
    refine ReadsBefore.header ?_
    exact (ReadsToEnd.nested (h w rfl)).bind_nil (reads_pure (some (value w)))

end OptionalForms

theorem ReadsBefore.decode {d : Decoder α} {o : Octets} {a : α} (h : ReadsToEnd d o a)
    (hm : o.length ≤ maxLength) : d.decode o = .ok a := by
  have hd := h ⟨o.length, 0, o, .memory⟩ [] (by simp) rfl ⟨by simpa using hm, rfl⟩
  simp only [Decoder.decode, if_neg (Nat.not_lt.2 hm), hd, Cursor.advance, List.drop_length]
  rfl

/-- A message that is decoded is read to its end. -/
theorem of_decode_eq_ok {d : Decoder α} {o : Octets} {a : α} (h : d.decode o = .ok a) :
    o.length ≤ maxLength ∧ ∃ c, d ⟨o.length, 0, o, .memory⟩ = .ok (a, c) ∧ c.rest = [] := by
  unfold Decoder.decode at h
  split at h
  · cases h
  · next hm =>
    obtain ⟨⟨b, c⟩, hb, h⟩ := Except.bind_eq_ok_iff.1 h
    by_cases hr : c.rest = []
    · simp only [hr, List.isEmpty_nil, if_true] at h
      cases h
      exact ⟨Nat.not_lt.1 hm, c, hb, hr⟩
    · simp only [List.isEmpty_iff, if_neg hr] at h
      cases h

/-- Octets behind a message are a fault. -/
theorem Reads.decode_append {d : Decoder α} {o r : Octets} {a : α} (h : Reads d o a)
    (hm : o.length ≤ maxLength) (hr : r ≠ []) : ∃ e, d.decode (o ++ r) = .error e := by
  unfold Decoder.decode
  split
  · exact ⟨.overflow, rfl⟩
  · have hd := h ⟨(o ++ r).length, 0, o ++ r, .memory⟩ r rfl trivial ⟨by simpa using hm, rfl⟩
    have hrest : (Cursor.advance ⟨(o ++ r).length, 0, o ++ r, .memory⟩ o.length).rest = r := by
      simp [Cursor.advance]
    simp only [hd, Except.ok_bind, hrest, List.isEmpty_iff, if_neg hr]
    exact ⟨_, rfl⟩

/-- What follows a message in a stream does no harm, nor does a fault behind it. -/
theorem Reads.decodeStream {d : Decoder α} {o r : Octets} {a : α} {breaksAt : Option Nat}
    (h : Reads d o a) (hm : o.length ≤ maxLength)
    (hb : (Source.stream breaksAt).breaks o.length = false) :
    d.decodeStream ⟨o ++ r, breaksAt⟩ = .ok a := by
  have hd := h ⟨(o ++ r).length, 0, o ++ r, .stream breaksAt⟩ r rfl trivial
    ⟨by simpa using hm, by simpa using hb⟩
  simp only [Decoder.decodeStream, hd]
  rfl

end Decoder

namespace Element

theorem encode_ne_nil (e : Element) : e.encode ≠ [] := by simp [encode, tlv]

theorem reads_encode (e : Element) : Decoder.Reads decode e.encode e :=
  Decoder.ReadsBefore.header ((Decoder.reads_take e.content).bind_nil (Decoder.reads_pure e))

end Element

end TrustAnchors.Der
