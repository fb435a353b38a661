import Mathlib.Data.List.Forall2
import UsageTypes.Proofs.Reference

/-! The order of the evidence shows only in the order of fields and of intersection members, as long
as no conflicting type is preferred. -/

namespace UsageTypes

/-- Types that differ only in the order of the fields of shapes and of the members of intersections.
Nothing is reordered inside an array or a callable. -/
inductive Ty.Reordered : Ty → Ty → Prop
  | refl (t : Ty) : Reordered t t
  | shape {fs gs hs : List (String × Ty)} : fs.Perm gs → gs.map Prod.fst = hs.map Prod.fst →
    List.Forall₂ Reordered (gs.map Prod.snd) (hs.map Prod.snd) → Reordered (.shape fs) (.shape hs)
  | inter {ts us vs : List Ty} : ts.Perm us → List.Forall₂ Reordered us vs →
    Reordered (.inter ts) (.inter vs)

theorem eraseDups_perm {α : Type} [BEq α] [LawfulBEq α] {xs ys : List α} (h : xs.Perm ys) :
    xs.eraseDups.Perm ys.eraseDups := by
  rw [List.perm_ext_iff_of_nodup (nodup_eraseDups xs) (nodup_eraseDups ys)]
  intro x
  rw [List.mem_eraseDups, List.mem_eraseDups, h.mem_iff]

namespace Ty

theorem reordered_meet {ts us vs : List Ty} (hp : ts.Perm us) (hr : List.Forall₂ Reordered us vs) :
    Reordered (meet ts) (meet vs) := by
  have hl : ts.length = vs.length := hp.length_eq.trans hr.length_eq
  match ts, vs with
  | [t], [v] =>
    obtain rfl := List.perm_singleton.mp hp.symm
    cases hr with
    | cons h _ => exact h
  | [], [] => exact .refl _
  | _ :: _ :: _, _ :: _ :: _ => exact .inter hp hr
  | [], _ :: _ => simp at hl
  | _ :: _, [] => simp at hl
  | [_], _ :: _ :: _ => simp at hl
  | _ :: _ :: _, [_] => simp at hl

theorem reordered_shape {segments segments' : List String} (hp : segments.Perm segments')
    {type type' : String → Ty} (ht : ∀ s ∈ segments, Reordered (type s) (type' s)) :
    Reordered (.shape (segments.map fun s => (s, type s)))
      (.shape (segments'.map fun s => (s, type' s))) := by
  refine .shape (hp.map _) (by simp) ?_
  simp only [List.map_map, List.forall₂_map_left_iff, List.forall₂_map_right_iff,
    Function.comp_apply, List.forall₂_same]
  exact fun s hs => ht s (hp.mem_iff.mpr hs)

end Ty

section

variable {members : MemberTable} {leaves leaves' : List Leaf} {segments segments' : List String}
  {type type' : String → Ty}

theorem namesOf_perm (h : leaves.Perm leaves') : (namesOf leaves).Perm (namesOf leaves') :=
  eraseDups_perm (h.filterMap _)

theorem claimsOf_eq_nil_of_perm (h : leaves.Perm leaves') (hc : claimsOf leaves = []) :
    claimsOf leaves' = [] := by
  have hf := h.filterMap Leaf.concrete?
  rw [mergeClaims_eq_nil_iff.mp hc] at hf
  exact mergeClaims_eq_nil_iff.mpr hf.symm.eq_nil

theorem claimsOf_eq_singleton_of_perm (h : leaves.Perm leaves') {claim : Ty}
    (hc : claimsOf leaves = [claim]) : claimsOf leaves' = [claim] :=
  mergeClaims_eq_singleton_of_perm (h.filterMap _) hc

theorem namesOf_eq_nil_of_perm (h : leaves.Perm leaves') (hn : namesOf leaves = []) :
    namesOf leaves' = [] := by
  have hp := namesOf_perm h
  rw [hn] at hp
  exact hp.symm.eq_nil

theorem conflicting_of_perm (h : leaves.Perm leaves')
    (hc : (Mark.ofLeaves leaves).conflicting = true) :
    (Mark.ofLeaves leaves').conflicting = true := by
  rw [conflicting_ofLeaves_iff] at hc ⊢
  refine ⟨fun he => hc.1 (claimsOf_eq_nil_of_perm h.symm he), fun claim he hn => ?_⟩
  exact hc.2 claim (claimsOf_eq_singleton_of_perm h.symm he) (namesOf_eq_nil_of_perm h.symm hn)

theorem leftoverShape_reordered {names names' : List String} (hn : names.Perm names')
    (hs : segments.Perm segments') (ht : ∀ s ∈ segments, Ty.Reordered (type s) (type' s)) :
    List.Forall₂ Ty.Reordered
      (leftoverShape members names (segments.map fun s => (s, type s)))
      (leftoverShape members names' (segments'.map fun s => (s, type' s))) := by
  have hcov : ∀ s, Covered members names s ↔ Covered members names' s := by
    intro s
    simp only [Covered, hn.mem_iff]
  have hleft : (segments.filter fun s => ¬ Covered members names s).Perm
      (segments'.filter fun s => ¬ Covered members names' s) := by
    simp only [hcov]
    exact hs.filter _
  simp only [leftoverShape, leftover_map, List.map_eq_nil_iff]
  by_cases he : (segments.filter fun s => ¬ Covered members names s) = []
  · have he' : (segments'.filter fun s => ¬ Covered members names' s) = [] := by
      rw [he] at hleft
      exact hleft.symm.eq_nil
    rw [if_pos he, if_pos he']
    exact .nil
  · have he' : (segments'.filter fun s => ¬ Covered members names' s) ≠ [] := by
      intro h
      rw [h] at hleft
      exact he hleft.eq_nil
    rw [if_neg he, if_neg he']
    exact .cons (Ty.reordered_shape hleft fun s h => ht s (List.mem_filter.mp h).1) .nil

theorem unclaimed_reordered (h : leaves.Perm leaves') (hs : segments.Perm segments')
    (ht : ∀ s ∈ segments, Ty.Reordered (type s) (type' s)) :
    Ty.Reordered (unclaimed members leaves (segments.map fun s => (s, type s)))
      (unclaimed members leaves' (segments'.map fun s => (s, type' s))) := by
  have hp := namesOf_perm h
  by_cases hn : namesOf leaves = []
  · have hn' := namesOf_eq_nil_of_perm h hn
    have hf : (segments.map (fun s => (s, type s)) ≠ [] ∨ .emptyShape ∈ leaves) ↔
        (segments'.map (fun s => (s, type' s)) ≠ [] ∨ .emptyShape ∈ leaves') := by
      rw [h.mem_iff, ← List.length_pos_iff, ← List.length_pos_iff, List.length_map,
        List.length_map, hs.length_eq]
    by_cases he : segments.map (fun s => (s, type s)) ≠ [] ∨ .emptyShape ∈ leaves
    · rw [unclaimed_of_shape hn he, unclaimed_of_shape hn' (hf.mp he)]
      exact Ty.reordered_shape hs ht
    · rw [unclaimed_of_nothing hn he, unclaimed_of_nothing hn' (mt hf.mpr he)]
      exact .refl _
  · have hn' : namesOf leaves' ≠ [] := fun he => hn (namesOf_eq_nil_of_perm h.symm he)
    rw [unclaimed_of_names hn, unclaimed_of_names hn']
    refine Ty.reordered_meet ((hp.map _).append_right _) ?_
    refine List.rel_append ?_ (leftoverShape_reordered hp hs ht)
    exact List.forall₂_same.mpr fun t _ => .refl t

theorem outcome_reordered (h : leaves.Perm leaves') (hs : segments.Perm segments')
    (ht : ∀ s ∈ segments, Ty.Reordered (type s) (type' s)) :
    Ty.Reordered (outcome members .unresolved leaves (segments.map fun s => (s, type s)))
      (outcome members .unresolved leaves' (segments'.map fun s => (s, type' s))) := by
  rcases outcome_unresolved_cases members leaves (segments.map fun s => (s, type s)) with
    ⟨hc, he⟩ | ⟨claim, hc, hn, he⟩ | ⟨hconf, he⟩
  · have hc' := claimsOf_eq_nil_of_perm h hc
    rw [he, outcome_of_claims_eq_nil hc']
    exact unclaimed_reordered h hs ht
  · have hc' := claimsOf_eq_singleton_of_perm h hc
    rw [he, outcome_of_claims_eq_singleton hc' (namesOf_eq_nil_of_perm h hn)]
    exact .refl claim
  · rw [he, outcome_of_conflicting (conflicting_of_perm h hconf)]
    exact .refl _

end

theorem reference_reordered (members : MemberTable) {atoms atoms' : List Atom}
    (h : atoms.Perm atoms') (p : Path) :
    Ty.Reordered (reference members .unresolved atoms p)
      (reference members .unresolved atoms' p) := by
  induction p using reference.induct atoms with
  | case1 p ih =>
    rw [reference_eq, reference_eq]
    exact outcome_reordered (h.filterMap _) (eraseDups_perm (h.filterMap _)) fun s hs => ih ⟨s, hs⟩

theorem atomsOf_perm (strategy : Strategy) {evidence evidence' : List Evidence}
    (h : evidence.Perm evidence') : (atomsOf strategy evidence).Perm (atomsOf strategy evidence') :=
  ((h.filter _).flatMap_right _).append ((h.filter _).flatMap_right _)

/-- Evidence in another order gives the same type but for the order of fields and members. -/
theorem synthesize_perm (members : MemberTable) (strategy : Strategy)
    {evidence evidence' : List Evidence} (h : evidence.Perm evidence') :
    Ty.Reordered (synthesize members strategy .unresolved evidence)
      (synthesize members strategy .unresolved evidence') := by
  rw [synthesize, synthesize, Trie.resolve_ofEvidence, Trie.resolve_ofEvidence]
  exact reference_reordered members (atomsOf_perm strategy h) .root

theorem synthesize_perm_appends :
    let evidence : List Evidence :=
      [.access ["a"], .method ["b"] "push" [.dynamic], .argument ["b"] (.array .number)]
    evidence.Perm evidence.reverse ∧
      synthesize (fun _ => none) (.refined ["push"]) .unresolved evidence =
        .shape [("a", .dynamic), ("b", .array .number)] ∧
      synthesize (fun _ => none) (.refined ["push"]) .unresolved evidence.reverse =
        .shape [("b", .array .number), ("a", .dynamic)] ∧
      Ty.Reordered (synthesize (fun _ => none) (.refined ["push"]) .unresolved evidence)
        (synthesize (fun _ => none) (.refined ["push"]) .unresolved evidence.reverse) :=
  ⟨by decide, by decide, by decide, synthesize_perm _ _ (by decide)⟩

end UsageTypes
