import Mathlib.Data.List.Forall2
import TrustAnchors.Anchor.Input
import TrustAnchors.Proofs.Name.LenientInversion
import TrustAnchors.Proofs.Name.StrictReading

/-!
# What text is read as

The lenient reader finds assignments that the text spells, and the strict reader reads them back one
by one, since their types and their hexadecimal digits have no separators in them
(`Spells.wellFormed`). So a text is read as a name just if it spells assignments that give the
relative names of it (`readPrincipalText_eq_ok_iff`).
-/

namespace Except

variable {ε α β : Type}

theorem mapM_eq_ok_iff {f : α → Except ε β} {as : List α} {bs : List β} :
    as.mapM f = .ok bs ↔ List.Forall₂ (fun a b => f a = .ok b) as bs := by
  induction as generalizing bs with
  | nil =>
    rw [List.mapM_nil, List.forall₂_nil_left_iff]
    exact ⟨fun h => by cases h; rfl, fun h => by rw [h]; rfl⟩
  | cons a as ih =>
    rw [List.mapM_cons, bind_eq_ok_iff, List.forall₂_cons_left_iff]
    refine exists_congr fun b => ?_
    constructor
    · rintro ⟨hb, h⟩
      obtain ⟨cs, hcs, h⟩ := bind_eq_ok_iff.1 h
      cases h
      exact ⟨cs, hb, ih.1 hcs, rfl⟩
    · rintro ⟨cs, hb, hcs, rfl⟩
      rw [ih.2 hcs]
      exact ⟨hb, rfl⟩

end Except

namespace TrustAnchors

open Ascii Der Name Lenient Strict

namespace Name.Lenient

theorem SeparatedBy.forall_mem {α : Type} {isSep : UInt8 → Prop} {S : α → Octets → Prop}
    {P : α → Prop} (hP : ∀ a o, S a o → P a) {as : List α} {o : Octets}
    (h : SeparatedBy isSep S as o) : ∀ a ∈ as, P a := by
  induction h with
  | single h => simpa using hP _ _ h
  | cons h _ _ ih => exact List.forall_mem_cons.2 ⟨hP _ _ h, ih⟩

theorem mem_of_mem_dropMark {t : Octets} {b : UInt8} (h : b ∈ dropMark t) : b ∈ t := by
  unfold dropMark at h
  split at h
  · exact List.mem_of_mem_drop h
  · exact h

theorem SpellsAssignment.wellFormed {g : Assignment} {o : Octets} (h : SpellsAssignment g o) :
    WellFormed g := by
  cases h with
  | mk h₁ ht h₂ h₃ hv =>
    refine ⟨fun b hb => ht.bare b (mem_of_mem_dropMark hb), ?_⟩
    rintro digits rfl
    cases hv with
    | hex hne hd hs => exact hd

theorem Spells.wellFormed {gss : List (List Assignment)} {o : Octets} (h : Spells gss o) :
    ∀ gs ∈ gss, gs ≠ [] ∧ ∀ g ∈ gs, WellFormed g :=
  SeparatedBy.forall_mem
    (fun _ _ hgs => ⟨hgs.ne_nil, hgs.forall_mem fun _ _ hg => hg.wellFormed⟩) h

end Name.Lenient

namespace Name.Strict

theorem readAttribute_eq_ok_iff {g : Assignment} (hg : WellFormed g) {a : Attribute} :
    readAttribute g.render = .ok a ↔
      typeOf g.type = .ok a.type ∧ valueOf a.type g.value.render = .ok a.value := by
  rw [hg.readAttribute_render]
  constructor
  · intro h
    obtain ⟨type, ht, h⟩ := Except.bind_eq_ok_iff.1 h
    obtain ⟨value, hv, h⟩ := Except.bind_eq_ok_iff.1 h
    cases h
    exact ⟨ht, hv⟩
  · rintro ⟨ht, hv⟩
    rw [ht, Except.ok_bind, hv]
    rfl

theorem readAssignments_eq_ok_iff {gs : List Assignment} {n : RelativeName} :
    readAssignments gs = .ok n ↔
      ∃ as, List.Forall₂ (fun g a => readAttribute g.render = .ok a) gs as ∧
        RelativeName.ofList? as = some n := by
  rw [readAssignments, Except.bind_eq_ok_iff]
  simp only [Except.mapM_eq_ok_iff]
  refine exists_congr fun as => and_congr_right fun _ => ?_
  cases RelativeName.ofList? as with
  | none => exact ⟨nofun, nofun⟩
  | some m =>
    constructor
    · intro h
      cases h
      rfl
    · intro h
      cases h
      rfl

end Name.Strict

/-- A text that spells some assignments is read as the name that they give. -/
theorem readPrincipalText_eq_ok_iff_of_spells {gss : List (List Assignment)} {text : String}
    (h : Spells gss (Utf8.encode text.toList)) {name : Name} :
    readPrincipalText text = .ok name ↔
      List.Forall₂ (fun gs n => readAssignments gs = .ok n) gss name.relatives.reverse := by
  have hread : readPrincipalText text =
      ((ofStrict (Lenient.render gss)).mapError TextError.strict).mapError
        fun e => .invalidName e.message := by
    rw [readPrincipalText, ofText, Lenient.normalize, Lenient.parse_of_spells h]
    rfl
  rw [hread, Except.mapError_eq_ok_iff, Except.mapError_eq_ok_iff,
    Strict.ofStrict_render h.ne_nil (Spells.wellFormed h), Except.bind_eq_ok_iff]
  simp only [Except.mapM_eq_ok_iff]
  constructor
  · rintro ⟨ns, hns, he⟩
    cases he
    rwa [List.reverse_reverse]
  · intro hns
    refine ⟨name.relatives.reverse, hns, ?_⟩
    rw [List.reverse_reverse]
    rfl

theorem readPrincipalText_eq_ok_iff {text : String} {name : Name} :
    readPrincipalText text = .ok name ↔
      ∃ gss, Spells gss (Utf8.encode text.toList) ∧
        List.Forall₂ (fun gs n => readAssignments gs = .ok n) gss name.relatives.reverse := by
  constructor
  · intro h
    cases hp : Lenient.parse (Utf8.encode text.toList) with
    | error fault =>
      have hfail : readPrincipalText text = .error (.invalidName fault.message) := by
        rw [readPrincipalText, ofText, Lenient.normalize, hp]
        rfl
      rw [hfail] at h
      cases h
    | ok gss =>
      have hspells := spells_of_parse hp
      exact ⟨gss, hspells, (readPrincipalText_eq_ok_iff_of_spells hspells).1 h⟩
  · rintro ⟨gss, hspells, h⟩
    exact (readPrincipalText_eq_ok_iff_of_spells hspells).2 h

end TrustAnchors
