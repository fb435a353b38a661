import Mathlib.Data.List.Induction
import UsageTypes.Proofs.Refinement

/-! Merging concrete types one by one into claims. The first fit is greedy and refines claims in
place, yet claims stay apart, so at most one claim is left exactly when all types have a common
refinement, and that claim is the least one whatever the order was. -/

namespace UsageTypes

def Ty.isConcrete : Ty → Bool
  | .primitive _ | .array _ | .function _ _ => true
  | _ => false

theorem Ty.Refines.isConcrete {t u : Ty} (h : t.Refines u) (ht : t.isConcrete = true) :
    u.isConcrete = true := by
  cases h with
  | dynamic => simp [Ty.isConcrete] at ht
  | refl => exact ht
  | array => rfl
  | function => rfl

def mergeClaims (ts : List Ty) : List Ty :=
  ts.foldl (fun claims t => addClaim t claims) []

theorem mergeClaims_append_singleton (ts : List Ty) (t : Ty) :
    mergeClaims (ts ++ [t]) = addClaim t (mergeClaims ts) := by
  simp [mergeClaims]

theorem addClaim_cases (t : Ty) (claims : List Ty) :
    (∃ pre c u post, claims = pre ++ c :: post ∧ unify c t = some u ∧
      addClaim t claims = pre ++ u :: post) ∨
    ((∀ c ∈ claims, unify c t = none) ∧ addClaim t claims = claims ++ [t]) := by
  induction claims with
  | nil => simp [addClaim]
  | cons c cs ih =>
    cases hu : unify c t with
    | some u => exact .inl ⟨[], c, u, cs, rfl, hu, by simp [addClaim, hu]⟩
    | none =>
      rcases ih with ⟨pre, d, u, post, rfl, hd, he⟩ | ⟨hnone, he⟩
      · exact .inl ⟨c :: pre, d, u, post, rfl, hd, by simp [addClaim, hu, he]⟩
      · refine .inr ⟨?_, by simp [addClaim, hu, he]⟩
        intro d hd
        rcases List.mem_cons.mp hd with rfl | hd
        · exact hu
        · exact hnone d hd

/-- What claims are to the types that they were merged from: no two of them have a common
refinement, every type refines to one of them, and they fill in no more than the types force. -/
structure Represents (seen claims : List Ty) : Prop where
  apart : claims.Pairwise fun c d => unify c d = none
  refined : ∀ t ∈ seen, ∃ c ∈ claims, t.Refines c
  least : ∀ c ∈ claims, ∀ u, (∀ t ∈ seen, t.Refines u) → c.Refines u
  founded : claims ≠ [] → seen ≠ []

-- A refined claim stays apart from the others: what refines it refines the claim that it replaces.
theorem pairwise_apart_refine {pre post : List Ty} {c u : Ty} (hcu : c.Refines u)
    (h : (pre ++ c :: post).Pairwise fun c d => unify c d = none) :
    (pre ++ u :: post).Pairwise fun c d => unify c d = none := by
  obtain ⟨hpre, hpost, hcross⟩ := List.pairwise_append.mp h
  obtain ⟨hc, hpost⟩ := List.pairwise_cons.mp hpost
  refine List.pairwise_append.mpr ⟨hpre, List.pairwise_cons.mpr ⟨?_, hpost⟩, ?_⟩
  · intro d hd
    exact unify_eq_none_of_refines (hc d hd) hcu (.refl d)
  · intro d hd e he
    rcases List.mem_cons.mp he with rfl | he
    · exact unify_eq_none_of_refines (hcross d hd c (by simp)) (.refl d) hcu
    · exact hcross d hd e (by simp [he])

theorem Represents.refine {seen pre post : List Ty} {c t u : Ty}
    (h : Represents seen (pre ++ c :: post)) (hu : unify c t = some u) :
    Represents (seen ++ [t]) (pre ++ u :: post) := by
  obtain ⟨hcu, htu⟩ := refines_of_unify hu
  constructor
  · exact pairwise_apart_refine hcu h.apart
  · intro s hs
    rcases List.mem_append.mp hs with hs | hs
    · obtain ⟨d, hd, hsd⟩ := h.refined s hs
      rcases List.mem_append.mp hd with hd | hd
      · exact ⟨d, by simp [hd], hsd⟩
      · rcases List.mem_cons.mp hd with rfl | hd
        · exact ⟨u, by simp, hsd.trans hcu⟩
        · exact ⟨d, by simp [hd], hsd⟩
    · obtain rfl := List.mem_singleton.mp hs
      exact ⟨u, by simp, htu⟩
  · intro d hd v hv
    have hseen : ∀ s ∈ seen, s.Refines v := fun s hs => hv s (by simp [hs])
    rcases List.mem_append.mp hd with hd | hd
    · exact h.least d (by simp [hd]) v hseen
    · rcases List.mem_cons.mp hd with rfl | hd
      · exact unify_refines hu (h.least c (by simp) v hseen) (hv t (by simp))
      · exact h.least d (by simp [hd]) v hseen
  · simp

theorem Represents.append {seen claims : List Ty} {t : Ty} (h : Represents seen claims)
    (hnone : ∀ c ∈ claims, unify c t = none) : Represents (seen ++ [t]) (claims ++ [t]) := by
  constructor
  · refine List.pairwise_append.mpr ⟨h.apart, List.pairwise_singleton _ _, ?_⟩
    intro c hc d hd
    obtain rfl := List.mem_singleton.mp hd
    exact hnone c hc
  · intro s hs
    rcases List.mem_append.mp hs with hs | hs
    · obtain ⟨d, hd, hsd⟩ := h.refined s hs
      exact ⟨d, by simp [hd], hsd⟩
    · exact ⟨s, List.mem_append_right _ hs, .refl s⟩
  · intro d hd v hv
    rcases List.mem_append.mp hd with hd | hd
    · exact h.least d hd v fun s hs => hv s (by simp [hs])
    · exact hv d (List.mem_append_right _ hd)
  · simp

theorem Represents.addClaim {seen claims : List Ty} (h : Represents seen claims) (t : Ty) :
    Represents (seen ++ [t]) (addClaim t claims) := by
  rcases addClaim_cases t claims with ⟨pre, c, u, post, rfl, hu, he⟩ | ⟨hnone, he⟩
  · rw [he]
    exact h.refine hu
  · rw [he]
    exact h.append hnone

theorem mergeClaims_represents (ts : List Ty) : Represents ts (mergeClaims ts) := by
  induction ts using List.reverseRecOn with
  | nil => exact ⟨.nil, by simp, by simp [mergeClaims], by simp [mergeClaims]⟩
  | append_singleton ts t ih =>
    rw [mergeClaims_append_singleton]
    exact ih.addClaim t

theorem mergeClaims_eq_nil_iff {ts : List Ty} : mergeClaims ts = [] ↔ ts = [] := by
  constructor
  · intro h
    cases ts with
    | nil => rfl
    | cons t ts =>
      obtain ⟨c, hc, _⟩ := (mergeClaims_represents (t :: ts)).refined t (by simp)
      simp [h] at hc
  · rintro rfl
    rfl

section

variable {P : Ty → Prop}

theorem forall_mem_addClaim (hunify : ∀ a b c, P a → P b → unify a b = some c → P c) {t : Ty}
    (ht : P t) {claims : List Ty} (hc : ∀ c ∈ claims, P c) : ∀ c ∈ addClaim t claims, P c := by
  induction claims with
  | nil => simpa [addClaim] using ht
  | cons c cs ih =>
    obtain ⟨hc, hcs⟩ := List.forall_mem_cons.mp hc
    rw [addClaim]
    split
    · rename_i u hu
      exact List.forall_mem_cons.mpr ⟨hunify c t u hc ht hu, hcs⟩
    · exact List.forall_mem_cons.mpr ⟨hc, ih hcs⟩

/-- What unification keeps holds of all claims if it holds of the types that they come from. -/
theorem forall_mem_mergeClaims (hunify : ∀ a b c, P a → P b → unify a b = some c → P c)
    {ts : List Ty} (h : ∀ t ∈ ts, P t) : ∀ c ∈ mergeClaims ts, P c := by
  refine List.foldlRecOn ts _ (motive := fun claims => ∀ c ∈ claims, P c) (by simp) ?_
  exact fun claims hc t ht => forall_mem_addClaim hunify (h t ht) hc

end

theorem mergeClaims_isConcrete {ts : List Ty} (h : ∀ t ∈ ts, t.isConcrete = true) :
    ∀ c ∈ mergeClaims ts, c.isConcrete = true := by
  refine forall_mem_mergeClaims (fun a b c ha _ hu => ?_) h
  exact (refines_of_unify hu).1.isConcrete ha

/-- One claim is left exactly for types with a common refinement, and it is the least one. -/
theorem mergeClaims_eq_singleton_iff {ts : List Ty} {c : Ty} :
    mergeClaims ts = [c] ↔ ts ≠ [] ∧ (∀ t ∈ ts, t.Refines c) ∧
      ∀ u, (∀ t ∈ ts, t.Refines u) → c.Refines u := by
  have hr := mergeClaims_represents ts
  constructor
  · intro h
    rw [h] at hr
    refine ⟨hr.founded (by simp), fun t ht => ?_, fun u hu => hr.least c (by simp) u hu⟩
    obtain ⟨d, hd, htd⟩ := hr.refined t ht
    obtain rfl := List.mem_singleton.mp hd
    exact htd
  · rintro ⟨hne, hbound, hleast⟩
    cases hm : mergeClaims ts with
    | nil => exact absurd (mergeClaims_eq_nil_iff.mp hm) hne
    | cons d ds =>
      rw [hm] at hr
      have hdc : d.Refines c := hr.least d (by simp) c hbound
      cases ds with
      | nil =>
        have hcd : c.Refines d := by
          apply hleast
          intro t ht
          obtain ⟨e, he, hte⟩ := hr.refined t ht
          obtain rfl := List.mem_singleton.mp he
          exact hte
        rw [hdc.antisymm hcd]
      | cons e es =>
        have hec : e.Refines c := hr.least e (by simp) c hbound
        have hnone := (List.pairwise_cons.mp hr.apart).1 e (by simp)
        exact absurd hec (unify_eq_none_iff.mp hnone c hdc)

theorem mergeClaims_eq_singleton_of_perm {ts us : List Ty} (h : ts.Perm us) {c : Ty}
    (hc : mergeClaims ts = [c]) : mergeClaims us = [c] := by
  rw [mergeClaims_eq_singleton_iff] at hc ⊢
  obtain ⟨hne, hbound, hleast⟩ := hc
  refine ⟨fun he => hne ?_, fun t ht => hbound t (h.mem_iff.mpr ht), fun u hu => ?_⟩
  · rw [he] at h
    exact h.eq_nil
  · exact hleast u fun t ht => hu t (h.mem_iff.mp ht)

end UsageTypes
