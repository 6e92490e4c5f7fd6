import TrustAnchors.Anchor.Basic
import TrustAnchors.Proofs.GeneralName

/-!
# What a decoder of name constraints leaves out

The decoder passes over an element with context number 0 that stands before a field with number 1 or
in its place, takes the attributes of a name in any order, and does not tell a least distance that
is written as 0 from one that is absent. `Written` keeps all of this. The constraints that were read
have the encoding that they were read from exactly if nothing of it occurs in that encoding
(`encode_eq_iff_of_ofDer`).
-/

namespace TrustAnchors

open Der Decoder

namespace Subtree

theorem takesContent_distance :
    TakesContent (fun d : UInt32 => unsignedContent d.toNat) id distance := by
  intro n c d c' h
  obtain ⟨m, c₁, hm, h⟩ := bind_eq_ok_iff.1 h
  obtain ⟨rfl, rfl⟩ := of_pure_eq_ok h
  obtain ⟨k, rfl, hc, hn⟩ := takesContent_unsignedValue hm
  have hk : (UInt32.ofNat k.val).toNat = k.val := by
    rw [UInt32.toNat_ofNat', Nat.mod_eq_of_lt k.isLt]
  refine ⟨UInt32.ofNat k.val, rfl, ?_, ?_⟩ <;> dsimp only <;> rw [hk]
  · exact hc
  · exact hn

structure Written where
  base : GeneralName.Written
  minimum : Option UInt32
  /-- Elements that are passed over in search of the greatest distance. -/
  passed : List Element
  maximum : Option UInt32
  passed_one : ∀ e ∈ passed, Passed 1 e

namespace Written

variable (w : Written)

def subtree : Subtree := ⟨w.base.name, w.minimum.getD 0, w.maximum⟩

def octets : Octets :=
  tlv .sequence (w.base.octets ++ w.minimum.elim [] (encodeDistance 0) ++
    (w.passed.flatMap Element.encode ++ w.maximum.elim [] (encodeDistance 1)))

structure IsPlain : Prop where
  sorted : w.base.Sorted
  minimum_ne : w.minimum ≠ some 0
  passed_eq : w.passed = []

theorem takes_decode : Takes octets subtree decode := by
  refine Takes.sequence ?_
  intro c s c' h
  obtain ⟨base, c₁, hbase, h⟩ := bind_eq_ok_iff.1 h
  obtain ⟨minimum, c₂, hmin, h⟩ := bind_eq_ok_iff.1 h
  obtain ⟨maximum, c₃, hmax, h⟩ := bind_eq_ok_iff.1 h
  obtain ⟨rfl, rfl⟩ := of_pure_eq_ok h
  obtain ⟨w, rfl, hw⟩ := GeneralName.takes_decode hbase
  obtain ⟨es, x, hes, rfl, hx⟩ := of_implicit?_eq_ok takesContent_distance hmin
  obtain ⟨fs, y, hfs, rfl, hy⟩ := of_implicit?_eq_ok takesContent_distance hmax
  rw [eq_nil_of_passed_zero hes] at hx
  refine ⟨⟨w, x, fs, y, hfs⟩, ?_, (hw.trans hx).trans hy⟩
  rw [Option.map_id]
  rfl

def leastOctets (d : UInt32) : Octets := if d = 0 then [] else encodeDistance 0 d

theorem encode_subtree : w.subtree.encode =
    tlv .sequence (w.base.name.encode ++ leastOctets (w.minimum.getD 0) ++
      w.maximum.elim [] (encodeDistance 1)) := rfl

theorem encodeDistance_ne_nil (number : Nat) (d : UInt32) : encodeDistance number d ≠ [] := by
  simp [encodeDistance, tlv]

theorem length_leastOctets_le (x : Option UInt32) :
    (leastOctets (x.getD 0)).length ≤ (x.elim [] (encodeDistance 0)).length := by
  cases x with
  | none => exact Nat.le_refl 0
  | some d =>
    rw [leastOctets]
    split
    · exact Nat.zero_le _
    · exact Nat.le_refl _

theorem leastOctets_eq_iff (x : Option UInt32) :
    leastOctets (x.getD 0) = x.elim [] (encodeDistance 0) ↔ x ≠ some 0 := by
  cases x with
  | none => exact iff_of_true rfl nofun
  | some d =>
    by_cases hd : d = 0
    · subst hd
      refine iff_of_false ?_ fun h => h rfl
      exact fun h => encodeDistance_ne_nil 0 0 h.symm
    · refine iff_of_true ?_ fun h => hd (Option.some.inj h)
      exact if_neg hd

theorem length_base_le : (w.base.name.encode ++ leastOctets (w.minimum.getD 0)).length ≤
    (w.base.octets ++ w.minimum.elim [] (encodeDistance 0)).length :=
  Octets.length_append_mono (Nat.le_of_eq w.base.length_octets) (length_leastOctets_le w.minimum)

theorem length_maximum_le : (w.maximum.elim [] (encodeDistance 1)).length ≤
    (w.passed.flatMap Element.encode ++ w.maximum.elim [] (encodeDistance 1)).length := by
  rw [List.length_append]
  exact Nat.le_add_left _ _

theorem length_octets_le : w.subtree.encode.length ≤ w.octets.length :=
  length_tlv_mono (Octets.length_append_mono w.length_base_le w.length_maximum_le)

theorem encode_eq_iff (h : w.octets.length ≤ maxLength) :
    w.subtree.encode = w.octets ↔ w.IsPlain := by
  have hbase : w.base.octets.length ≤ maxLength := by
    refine Nat.le_trans ?_ h
    refine Nat.le_trans ?_ (length_le_tlv _ _)
    rw [List.append_assoc, List.length_append]
    exact Nat.le_add_right _ _
  have hpassed : w.maximum.elim [] (encodeDistance 1) =
      w.passed.flatMap Element.encode ++ w.maximum.elim [] (encodeDistance 1) ↔
        w.passed = [] := by
    rw [List.self_eq_append_left, Element.flatMap_encode_eq_nil]
  -- No part of the encoding is longer than what it was read from, so equality is part by part.
  rw [encode_subtree, octets, tlv_inj,
    Octets.append_eq_append_iff_of_length_le w.length_base_le w.length_maximum_le,
    Octets.append_eq_append_iff_of_length_le (Nat.le_of_eq w.base.length_octets)
      (length_leastOctets_le w.minimum),
    w.base.encode_eq_iff hbase, leastOctets_eq_iff, hpassed]
  exact ⟨fun ⟨⟨hb, hm⟩, hp⟩ => ⟨hb, hm, hp⟩, fun ⟨hb, hm, hp⟩ => ⟨⟨hb, hm⟩, hp⟩⟩

end Written

end Subtree

namespace NameConstraints

structure Written where
  permitted : Option (List Subtree.Written)
  /-- Elements that are passed over in search of the excluded subtrees. -/
  passed : List Element
  excluded : Option (List Subtree.Written)
  passed_one : ∀ e ∈ passed, Passed 1 e

namespace Written

variable (w : Written)

def subtreesOf (x : Option (List Subtree.Written)) : Option (List Subtree) :=
  x.map (·.map (·.subtree))

def constraints : NameConstraints := ⟨subtreesOf w.permitted, subtreesOf w.excluded⟩

def listOctets (number : Nat) (ws : List Subtree.Written) : Octets :=
  tlv (.context true number) (ws.flatMap (·.octets))

def octets : Octets :=
  tlv .sequence (w.permitted.elim [] (listOctets 0) ++
    (w.passed.flatMap Element.encode ++ w.excluded.elim [] (listOctets 1)))

structure IsPlain : Prop where
  permitted_plain : ∀ ws ∈ w.permitted, ∀ s ∈ ws, s.IsPlain
  passed_eq : w.passed = []
  excluded_plain : ∀ ws ∈ w.excluded, ∀ s ∈ ws, s.IsPlain

theorem takes_decode : Takes octets constraints decode := by
  refine Takes.sequence ?_
  intro c n c' h
  have hlist : TakesContent (fun ws : List Subtree.Written => ws.flatMap (·.octets))
      (·.map (·.subtree)) subtrees := Subtree.Written.takes_decode.many.nested
  obtain ⟨permitted, c₁, hpermitted, h⟩ := bind_eq_ok_iff.1 h
  obtain ⟨excluded, c₂, hexcluded, h⟩ := bind_eq_ok_iff.1 h
  obtain ⟨rfl, rfl⟩ := of_pure_eq_ok h
  obtain ⟨es, x, hes, rfl, hx⟩ := of_implicit?_eq_ok hlist hpermitted
  obtain ⟨fs, y, hfs, rfl, hy⟩ := of_implicit?_eq_ok hlist hexcluded
  rw [eq_nil_of_passed_zero hes] at hx
  exact ⟨⟨x, fs, y, hfs⟩, rfl, hx.trans hy⟩

theorem encodeSubtrees_map (number : Nat) (ws : List Subtree.Written) :
    encodeSubtrees number (ws.map (·.subtree)) =
      tlv (.context true number) (ws.flatMap (·.subtree.encode)) := by
  rw [encodeSubtrees, List.flatMap_map]

theorem length_encodeSubtrees_le (number : Nat) (x : Option (List Subtree.Written)) :
    ((subtreesOf x).elim [] (encodeSubtrees number)).length ≤
      (x.elim [] (listOctets number)).length := by
  cases x with
  | none => exact Nat.le_refl 0
  | some ws =>
    rw [subtreesOf, Option.map_some, Option.elim_some, Option.elim_some, encodeSubtrees_map]
    exact length_tlv_mono (Octets.length_flatMap_mono fun w _ => w.length_octets_le)

theorem encodeSubtrees_eq_iff {number : Nat} {x : Option (List Subtree.Written)}
    (h : (x.elim [] (listOctets number)).length ≤ maxLength) :
    (subtreesOf x).elim [] (encodeSubtrees number) = x.elim [] (listOctets number) ↔
      ∀ ws ∈ x, ∀ s ∈ ws, s.IsPlain := by
  cases x with
  | none => exact iff_of_true rfl nofun
  | some ws =>
    have hle : ∀ s ∈ ws, s.octets.length ≤ maxLength := fun s hs =>
      Nat.le_trans (Octets.length_le_length_flatMap hs) (Nat.le_trans (length_le_tlv _ _) h)
    rw [subtreesOf, Option.map_some, Option.elim_some, Option.elim_some, encodeSubtrees_map,
      listOctets, tlv_inj, Octets.flatMap_eq_flatMap_iff_of_length_le fun s _ => s.length_octets_le]
    simp only [Option.mem_some, forall_eq']
    exact forall₂_congr fun s hs => s.encode_eq_iff (hle s hs)

theorem length_excluded_le : ((subtreesOf w.excluded).elim [] (encodeSubtrees 1)).length ≤
    (w.passed.flatMap Element.encode ++ w.excluded.elim [] (listOctets 1)).length := by
  rw [List.length_append]
  exact Nat.le_trans (length_encodeSubtrees_le 1 w.excluded) (Nat.le_add_left _ _)

theorem excluded_eq_iff (h : (w.excluded.elim [] (listOctets 1)).length ≤ maxLength) :
    (subtreesOf w.excluded).elim [] (encodeSubtrees 1) =
        w.passed.flatMap Element.encode ++ w.excluded.elim [] (listOctets 1) ↔
      w.passed = [] ∧ ∀ ws ∈ w.excluded, ∀ s ∈ ws, s.IsPlain := by
  rw [← encodeSubtrees_eq_iff h, ← Element.flatMap_encode_eq_nil]
  have hnil : ([] : Octets).length ≤ (w.passed.flatMap Element.encode).length := Nat.zero_le _
  have hparts :=
    Octets.append_eq_append_iff_of_length_le hnil (length_encodeSubtrees_le 1 w.excluded)
  rw [List.nil_append] at hparts
  rw [hparts, eq_comm]

theorem encode_eq_iff (h : w.octets.length ≤ maxLength) :
    w.constraints.encode = w.octets ↔ w.IsPlain := by
  have hle := Nat.le_trans (length_le_tlv _ _) h
  rw [List.length_append, List.length_append] at hle
  have hencode : w.constraints.encode =
      tlv .sequence ((subtreesOf w.permitted).elim [] (encodeSubtrees 0) ++
        (subtreesOf w.excluded).elim [] (encodeSubtrees 1)) := rfl
  rw [hencode, octets, tlv_inj, Octets.append_eq_append_iff_of_length_le
    (length_encodeSubtrees_le 0 w.permitted) w.length_excluded_le,
    encodeSubtrees_eq_iff (by omega), w.excluded_eq_iff (by omega)]
  exact ⟨fun ⟨h₁, h₂, h₃⟩ => ⟨h₁, h₂, h₃⟩, fun ⟨h₁, h₂, h₃⟩ => ⟨h₁, h₂, h₃⟩⟩

end Written

/-- Octets that are accepted are written constraints, and an anchor that holds them yields these
constraints. Their encoding is what was accepted, unless something was left out or put in order. -/
theorem encode_eq_iff_of_ofDer {der : Octets} {c : NameConstraints} (h : ofDer der = .ok c) :
    (∃ w : Written, w.octets = der ∧ w.constraints = c) ∧
    (∀ w : Written, w.octets = der → w.constraints = c → (c.encode = der ↔ w.IsPlain)) ∧
    ∀ identity, (Anchor.mk identity (some der)).decodeConstraints = some c := by
  obtain ⟨hle, w, hw, ho⟩ := Written.takes_decode.of_decode_eq_ok h
  refine ⟨⟨w, ho, hw⟩, ?_, fun identity => ?_⟩
  · rintro v rfl rfl
    exact v.encode_eq_iff hle
  · simp [Anchor.decodeConstraints_eq, h, Except.toOption]

/-- Two lists of permitted subtrees, one after the other. -/
def repeatedPermitted : Octets :=
  [0x30, 0x12, 0xa0, 0x07, 0x30, 0x05, 0x82, 0x03, 0x61, 0x2e, 0x62,
    0xa0, 0x07, 0x30, 0x05, 0x82, 0x03, 0x63, 0x2e, 0x64]

/-- The first of the two lists. -/
def firstPermitted : NameConstraints :=
  ⟨some [⟨.dns ⟨[0x61, 0x2e, 0x62], by decide⟩, 0, none⟩], none⟩

theorem ofDer_repeatedPermitted :
    ofDer repeatedPermitted = .ok firstPermitted ∧ firstPermitted.encode ≠ repeatedPermitted := by
  decide +kernel

theorem exists_not_isPlain : ofDer repeatedPermitted = .ok firstPermitted ∧
    ∃ w : Written, w.octets = repeatedPermitted ∧ w.constraints = firstPermitted ∧
      ¬ w.IsPlain := by
  have h : ofDer repeatedPermitted = .ok firstPermitted := by decide +kernel
  obtain ⟨⟨w, ho, hw⟩, hiff, -⟩ := encode_eq_iff_of_ofDer h
  refine ⟨h, w, ho, hw, fun hp => ?_⟩
  exact absurd ((hiff w ho hw).2 hp) (by decide +kernel)

end NameConstraints

end TrustAnchors
