import Mathlib.Data.List.Nodup
import Mathlib.Data.List.Pairwise
import TrustAnchors.Name.Strict
import TrustAnchors.Proofs.ObjectIdentifier
import TrustAnchors.Proofs.Octets

/-!
# Octets of attribute keys

A key that has a type, by name or in dotted form, is not empty and holds letters, digits, hyphens
and full stops only. A name has no full stop and does not start with a digit, so no key is both a
name and a dotted identifier (`typeOf_of_name`, `typeOf_of_dotted`), and the types of keys have few
octets.
-/

namespace TrustAnchors

open Ascii

def Ascii.isKeyOctet (b : UInt8) : Bool :=
  isUpper b || isLower b || isDigit b || b = dash || b = dot

theorem Ascii.lt_of_isKeyOctet {b : UInt8} (h : isKeyOctet b = true) : b < 0x80 := by
  revert h
  refine forall_octet (P := fun b => isKeyOctet b = true → b < 0x80) ?_ b
  decide +kernel

theorem Ascii.lt_of_isHexDigit {b : UInt8} (h : isHexDigit b = true) : b < 0x80 := by
  revert h
  refine forall_octet (P := fun b => isHexDigit b = true → b < 0x80) ?_ b
  decide +kernel

namespace AttributeKey

/-- Small letters, digits and hyphens, of which the first is a letter. -/
def isName (o : Octets) : Bool :=
  o.head?.any isLower && o.all fun b => isLower b || isDigit b || b = dash

/-- The names of a type in small letters. -/
def lowerNames (k : AttributeKey) : List Octets := k.names.map fun s => (ofString s).map toLower

theorem names_table :
    (∀ o ∈ table.flatMap lowerNames, isName o = true) ∧ (table.flatMap lowerNames).Nodup := by
  simp only [table, pilot, directory, mail, lowerNames, List.flatMap_cons, List.flatMap_nil,
    List.map_cons, List.map_nil, ofString, String.reduceToList, List.cons_append, List.nil_append]
  decide +kernel

theorem mem_lowerNames {k : AttributeKey} {s : String} (hs : s ∈ k.names) :
    (ofString s).map toLower ∈ k.lowerNames :=
  List.mem_map_of_mem hs

theorem isKeyOctet_of_toLower {b : UInt8}
    (h : isLower (toLower b) = true ∨ isDigit (toLower b) = true ∨ toLower b = dash) :
    isKeyOctet b = true ∧ b ≠ dot := by
  revert h
  refine forall_octet (P := fun b => isLower (toLower b) = true ∨ isDigit (toLower b) = true ∨
    toLower b = dash → isKeyOctet b = true ∧ b ≠ dot) ?_ b
  decide +kernel

theorem isDigit_eq_false_of_toLower {b : UInt8} (h : isLower (toLower b) = true) :
    isDigit b = false := by
  revert h
  refine forall_octet (P := fun b => isLower (toLower b) = true → isDigit b = false) ?_ b
  decide +kernel

theorem exists_name {key : Octets} {type : ObjectIdentifier} (h : typeOfName? key = some type) :
    ∃ k ∈ table, k.type = type ∧ ∃ s ∈ k.names, (ofString s).map toLower = key.map toLower := by
  obtain ⟨k, hk, rfl⟩ := Option.map_eq_some_iff.1 h
  have hname := List.find?_some hk
  simp only [isNamed, List.any_eq_true, decide_eq_true_eq] at hname
  obtain ⟨s, hs, he⟩ := hname
  exact ⟨k, List.mem_of_find?_eq_some hk, rfl, s, hs, he⟩

theorem isName_of_name {key : Octets} {type : ObjectIdentifier}
    (h : typeOfName? key = some type) : isName (key.map toLower) = true := by
  obtain ⟨k, hk, _, s, hs, he⟩ := exists_name h
  rw [← he]
  exact names_table.1 _ (List.mem_flatMap.2 ⟨k, hk, mem_lowerNames hs⟩)

theorem isKeyOctet_of_name {key : Octets} {type : ObjectIdentifier}
    (h : typeOfName? key = some type) : ∀ b ∈ key, isKeyOctet b = true ∧ b ≠ dot := by
  have hname := isName_of_name h
  rw [isName, Bool.and_eq_true] at hname
  intro b hb
  have hb := List.all_eq_true.1 hname.2 _ (List.mem_map_of_mem hb)
  simp only [Bool.or_eq_true, decide_eq_true_eq, or_assoc] at hb
  exact isKeyOctet_of_toLower hb

theorem ne_nil_of_name {key : Octets} {type : ObjectIdentifier}
    (h : typeOfName? key = some type) : key ≠ [] := by
  rintro rfl
  cases isName_of_name h

theorem head_of_name {key : Octets} {type : ObjectIdentifier} (h : typeOfName? key = some type) :
    key.head?.any isDigit = false := by
  have hname := isName_of_name h
  rw [isName, Bool.and_eq_true] at hname
  cases key with
  | nil => rfl
  | cons b r => exact isDigit_eq_false_of_toLower hname.1

theorem length_le_of_name {key : Octets} {type : ObjectIdentifier}
    (h : typeOfName? key = some type) : type.octets.length ≤ ObjectIdentifier.maxTextOctets := by
  have htable : ∀ k ∈ table, k.type.octets.length ≤ ObjectIdentifier.maxTextOctets := by decide
  obtain ⟨k, hk, rfl, _⟩ := exists_name h
  exact htable k hk

/-- A name belongs to one type only. -/
theorem eq_of_mem_names {j k : AttributeKey} (hj : j ∈ table) (hk : k ∈ table) {s t : String}
    (hs : s ∈ j.names) (ht : t ∈ k.names)
    (h : (ofString s).map toLower = (ofString t).map toLower) : j = k := by
  by_contra hne
  have hpairwise := (List.nodup_flatMap.1 names_table.2).2
  have : Std.Symm (Function.onFun List.Disjoint lowerNames) := ⟨fun _ _ h _ ha hb => h hb ha⟩
  exact hpairwise.forall hj hk hne (mem_lowerNames hs) (h ▸ mem_lowerNames ht)

theorem mem_of_shortest {names : List String} {s : String} (h : shortest names = some s) :
    s ∈ names := by
  induction names generalizing s with
  | nil => cases h
  | cons t rest ih =>
    rw [shortest] at h
    split at h
    · next u hu =>
      split at h
      · cases h
        exact List.mem_cons_of_mem t (ih hu)
      · cases h
        exact List.mem_cons_self
    · cases h
      exact List.mem_cons_self

theorem map_toLower_toUpper (o : Octets) : (o.map toUpper).map toLower = o.map toLower := by
  have hoctet : ∀ b, toLower (toUpper b) = toLower b := by
    refine forall_octet (P := fun b => toLower (toUpper b) = toLower b) ?_
    decide +kernel
  rw [List.map_map]
  exact List.map_congr_left fun b _ => hoctet b

/-- The name under which a type is printed is one of that type, in either case. -/
theorem typeOfName?_toUpper {type : ObjectIdentifier} {name : String}
    (h : nameOfType? type = some name) :
    typeOfName? ((ofString name).map toUpper) = some type := by
  obtain ⟨k, hk, hname⟩ := Option.bind_eq_some_iff.1 h
  have hmem := List.mem_of_find?_eq_some hk
  have htype : k.type = type := by simpa using List.find?_some hk
  have hnamed : k.isNamed ((ofString name).map toUpper) = true := by
    rw [isNamed, List.any_eq_true]
    exact ⟨name, mem_of_shortest hname, decide_eq_true (map_toLower_toUpper _).symm⟩
  cases hfind : table.find? (·.isNamed ((ofString name).map toUpper)) with
  | none => exact absurd hnamed (List.find?_eq_none.1 hfind k hmem)
  | some j =>
    have hj := List.find?_some hfind
    simp only [isNamed, List.any_eq_true, decide_eq_true_eq, map_toLower_toUpper] at hj
    obtain ⟨s, hs, he⟩ := hj
    have hjk := eq_of_mem_names (List.mem_of_find?_eq_some hfind) hmem hs (mem_of_shortest hname) he
    rw [typeOfName?, hfind, Option.map_some, hjk, htype]

/-- The types in the table can be written in dotted form. -/
theorem isMinimal_of_name {key : Octets} {type : ObjectIdentifier}
    (h : typeOfName? key = some type) : type.IsWritten ∧ type.IsMinimal := by
  have htable : ∀ k ∈ table, ObjectIdentifier.ofArcs? k.type.arcs = some k.type ∧
      k.type.IsMinimal := by decide +kernel
  obtain ⟨k, hk, rfl, -⟩ := exists_name h
  exact ⟨⟨k.type.arcs, k.type.arcs_lt, (htable k hk).1⟩, (htable k hk).2⟩

end AttributeKey

namespace ObjectIdentifier

theorem isKeyOctet_of_dottedNumbers {n : Nat} {o : Octets} {ns : List Nat}
    (h : dottedNumbers n o = some ns) : ∀ b ∈ o, isKeyOctet b = true := by
  induction o generalizing n ns with
  | nil => exact nofun
  | cons b r ih =>
    rw [dottedNumbers] at h
    intro c hc
    split at h
    · next hb =>
      rcases List.mem_cons.1 hc with rfl | hc
      · simp [isKeyOctet, hb]
      · exact ih h c hc
    · split at h
      · next hb =>
        obtain ⟨ms, hms, _⟩ := Option.map_eq_some_iff.1 h
        rcases List.mem_cons.1 hc with rfl | hc
        · simp [isKeyOctet, hb.1]
        · exact ih hms c hc
      · contradiction

theorem length_le_of_ofArcs? {ns : List Nat} {type : ObjectIdentifier}
    (h : ofArcs? ns = some type) : type.octets.length ≤ maxTextOctets := by
  unfold ofArcs? at h
  split at h
  · simp only [Option.bind_eq_bind, Option.bind_eq_some_iff] at h
    obtain ⟨_, _, groups, _, _, hl, h⟩ := h
    cases h
    exact ((Option.guard_eq_some' _).1 hl).2
  · contradiction

theorem isKeyOctet_of_dotted {key : Octets} {type : ObjectIdentifier}
    (h : ofDotted? key = some type) : ∀ b ∈ key, isKeyOctet b = true := by
  obtain ⟨_, ns, hns, _⟩ := ofDotted?_eq_some h
  exact isKeyOctet_of_dottedNumbers hns

theorem length_le_of_dotted {key : Octets} {type : ObjectIdentifier}
    (h : ofDotted? key = some type) : type.octets.length ≤ maxTextOctets := by
  obtain ⟨_, ns, _, harcs⟩ := ofDotted?_eq_some h
  exact length_le_of_ofArcs? harcs

end ObjectIdentifier

namespace Name.Strict

open AttributeKey ObjectIdentifier

theorem typeOf_of_name {key : Octets} {type : ObjectIdentifier}
    (h : typeOfName? key = some type) : typeOf key = .ok type := by
  rw [typeOf, h]
  rfl

theorem typeOf_of_digit {key : Octets} (hd : key.head?.any isDigit = true)
    {type : ObjectIdentifier} : typeOf key = .ok type ↔ ofDotted? key = some type := by
  have hname : typeOfName? key = none := by
    cases hn : typeOfName? key with
    | none => rfl
    | some other =>
      rw [head_of_name hn] at hd
      contradiction
  rw [typeOf, hname, Option.orElse_eq_orElse, Option.orElse_eq_or, Option.none_or]
  cases ofDotted? key <;> simp

theorem typeOf_of_dotted {key : Octets} {type : ObjectIdentifier}
    (h : ofDotted? key = some type) : typeOf key = .ok type :=
  (typeOf_of_digit (ofDotted?_eq_some h).1).2 h

theorem of_typeOf_eq_ok {key : Octets} {type : ObjectIdentifier} (h : typeOf key = .ok type) :
    typeOfName? key = some type ∨ ofDotted? key = some type := by
  unfold typeOf at h
  cases hname : typeOfName? key with
  | some other =>
    simp only [hname] at h
    cases h
    exact .inl rfl
  | none =>
    cases hdotted : ofDotted? key with
    | some other =>
      simp only [hname, hdotted] at h
      cases h
      exact .inr rfl
    | none =>
      simp only [hname, hdotted] at h
      cases h

theorem isWritten_of_typeOf {key : Octets} {type : ObjectIdentifier} (h : typeOf key = .ok type) :
    type.IsWritten := by
  rcases of_typeOf_eq_ok h with hname | hdotted
  · exact (isMinimal_of_name hname).1
  · exact isWritten_of_dotted hdotted

end Name.Strict

end TrustAnchors
