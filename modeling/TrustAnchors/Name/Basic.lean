import TrustAnchors.ObjectIdentifier

/-!
# Distinguished names

A name is a list of relative names, each a set of attributes. The encoding lists a set in ascending
order of the encodings of its elements and holds no element twice, so a relative name is a strictly
ascending list. `RelativeName.ofList?` sorts any list of different attributes.
-/

namespace TrustAnchors

open Der

structure Attribute where
  type : ObjectIdentifier
  value : Element
  deriving DecidableEq, Repr

namespace Attribute

def encode (a : Attribute) : Octets := tlv .sequence (a.type.encode ++ a.value.encode)

def decode : Decoder Attribute :=
  Decoder.sequence do return ⟨← ObjectIdentifier.decode, ← Element.decode⟩

/-- Puts an attribute into its place; none if the list has it already. -/
def insert? (a : Attribute) : List Attribute → Option (List Attribute)
  | [] => some [a]
  | b :: r =>
    if a.encode < b.encode then some (a :: b :: r)
    else if a.encode = b.encode then none
    else (b :: ·) <$> insert? a r

def Ascending (as : List Attribute) : Prop := as.Pairwise (·.encode < ·.encode)

instance (as : List Attribute) : Decidable (Ascending as) :=
  inferInstanceAs (Decidable (as.Pairwise (·.encode < ·.encode)))

theorem mem_insert? {a b : Attribute} {as bs : List Attribute} (h : insert? a as = some bs) :
    b ∈ bs ↔ b = a ∨ b ∈ as := by
  induction as generalizing bs with
  | nil => simp_all [insert?, eq_comm]
  | cons c r ih =>
    rw [insert?] at h
    split at h
    · simp [← Option.some.inj h]
    · split at h
      · contradiction
      · obtain ⟨ds, hd, rfl⟩ := Option.map_eq_some_iff.1 h
        simp only [List.mem_cons, ih hd]
        grind

theorem Ascending.insert? {a : Attribute} {as bs : List Attribute} (h : Ascending as)
    (hi : insert? a as = some bs) : Ascending bs := by
  induction as generalizing bs with
  | nil => simp_all [Attribute.insert?, Ascending, ← Option.some.inj hi]
  | cons c r ih =>
    rw [Attribute.insert?] at hi
    obtain ⟨hc, hr⟩ := List.pairwise_cons.1 h
    split at hi
    · next hlt =>
      rw [← Option.some.inj hi]
      refine List.pairwise_cons.2 ⟨fun d hd => ?_, h⟩
      rcases List.mem_cons.1 hd with rfl | hd
      · exact hlt
      · exact List.lt_trans hlt (hc d hd)
    · next hnlt =>
      split at hi
      · contradiction
      · next hne =>
        obtain ⟨ds, hds, rfl⟩ := Option.map_eq_some_iff.1 hi
        refine List.pairwise_cons.2 ⟨fun d hd => ?_, ih hr hds⟩
        rcases (mem_insert? hds).1 hd with rfl | hd
        · have hle : c.encode ≤ d.encode := List.not_lt.1 hnlt
          exact Std.lt_of_le_of_ne hle (Ne.symm hne)
        · exact hc d hd

end Attribute

structure RelativeName where
  attributes : List Attribute
  ascending : Attribute.Ascending attributes
  deriving DecidableEq, Repr

namespace RelativeName

def empty : RelativeName := ⟨[], List.Pairwise.nil⟩

def insert? (n : RelativeName) (a : Attribute) : Option RelativeName :=
  match h : a.insert? n.attributes with
  | some as => some ⟨as, n.ascending.insert? h⟩
  | none => none

/-- The set of the attributes of a list; none if two of them are equal. -/
def ofList? (as : List Attribute) : Option RelativeName := as.foldlM insert? empty

def encode (n : RelativeName) : Octets := tlv .set (n.attributes.flatMap Attribute.encode)

/-- Any order is read and put right. -/
def decode : Decoder RelativeName := do
  Decoder.nested (← Decoder.expect .set) do
    Decoder.ofOption .duplicateElement (ofList? (← Decoder.many Attribute.decode))

end RelativeName

/-- Relative names in the order of the encoding, in which the text lists them from right to left. -/
structure Name where
  relatives : List RelativeName
  deriving DecidableEq, Repr

namespace Name

def encode (n : Name) : Octets := tlv .sequence (n.relatives.flatMap RelativeName.encode)

def decode : Decoder Name :=
  Decoder.sequence do return ⟨← Decoder.many RelativeName.decode⟩

def toDer (n : Name) : Except Error Octets := export? n.encode

end Name

end TrustAnchors
