import Mathlib.Order.Bounds.Basic
import UsageTypes.Proofs.Refinement

/-! Refinement as an order, and unification as its partial join: two types unify to their least upper
bound, and to nothing exactly when they have no upper bound. Neither the order of two types nor the
grouping of three makes a difference. -/

namespace UsageTypes

instance : PartialOrder Ty where
  le := Ty.Refines
  le_refl := .refl
  le_trans _ _ _ := .trans
  le_antisymm _ _ := Ty.Refines.antisymm

section

variable {a b c d u : Ty}

theorem bounds_unify_iff : a ≤ u ∧ b ≤ u ↔ ∃ c, unify a b = some c ∧ c ≤ u :=
  refines_unify_iff a b u

theorem mem_upperBounds_pair : u ∈ upperBounds {a, b} ↔ a ≤ u ∧ b ≤ u := by
  simp [upperBounds_insert]

theorem isLUB_pair_iff_unify : IsLUB {a, b} c ↔ unify a b = some c := by
  constructor
  · intro h
    obtain ⟨d, hd, hdc⟩ := bounds_unify_iff.mp (mem_upperBounds_pair.mp h.1)
    have hcd : c ≤ d := h.2 (mem_upperBounds_pair.mpr (refines_of_unify hd))
    rw [hd, le_antisymm hcd hdc]
  · intro h
    refine ⟨mem_upperBounds_pair.mpr (refines_of_unify h), fun u hu => ?_⟩
    obtain ⟨ha, hb⟩ := mem_upperBounds_pair.mp hu
    exact unify_refines h ha hb

theorem bddAbove_pair_iff_unify : BddAbove {a, b} ↔ (unify a b).isSome = true := by
  rw [Option.isSome_iff_exists]
  constructor
  · rintro ⟨u, hu⟩
    obtain ⟨c, hc, -⟩ := bounds_unify_iff.mp (mem_upperBounds_pair.mp hu)
    exact ⟨c, hc⟩
  · rintro ⟨c, hc⟩
    exact ⟨c, (isLUB_pair_iff_unify.mpr hc).1⟩

/-- A type or its absence is known by the types above it. -/
theorem eq_of_bounds {o o' : Option Ty}
    (h : ∀ u, (∃ c, o = some c ∧ c ≤ u) ↔ ∃ c, o' = some c ∧ c ≤ u) : o = o' := by
  cases o with
  | none =>
    cases o' with
    | none => rfl
    | some d =>
      obtain ⟨c, hc, -⟩ := (h d).mpr ⟨d, rfl, le_refl d⟩
      cases hc
  | some c =>
    obtain ⟨d, hd, hdc⟩ := (h c).mp ⟨c, rfl, le_refl c⟩
    obtain ⟨e, he, hed⟩ := (h d).mpr ⟨d, hd, le_refl d⟩
    obtain rfl := Option.some.inj he
    rw [hd, le_antisymm hed hdc]

theorem unify_comm (a b : Ty) : unify a b = unify b a := by
  apply eq_of_bounds
  intro u
  rw [← bounds_unify_iff, ← bounds_unify_iff, and_comm]

theorem bounds_unify_unify_iff :
    (a ≤ u ∧ b ≤ u) ∧ d ≤ u ↔ ∃ c, (unify a b).bind (unify · d) = some c ∧ c ≤ u := by
  rw [bounds_unify_iff]
  constructor
  · rintro ⟨⟨e, he, heu⟩, hd⟩
    rw [he, Option.bind_some]
    exact bounds_unify_iff.mp ⟨heu, hd⟩
  · rintro ⟨c, hc, hcu⟩
    obtain ⟨e, he, hec⟩ := Option.bind_eq_some_iff.mp hc
    obtain ⟨heu, hd⟩ := bounds_unify_iff.mpr ⟨c, hec, hcu⟩
    exact ⟨⟨e, he, heu⟩, hd⟩

theorem unify_assoc (a b c : Ty) : (unify a b).bind (unify · c) = (unify b c).bind (unify a) := by
  have hright : (unify b c).bind (unify a) = (unify b c).bind (unify · a) :=
    congrArg _ (funext fun t => unify_comm a t)
  rw [hright]
  apply eq_of_bounds
  intro u
  rw [← bounds_unify_unify_iff, ← bounds_unify_unify_iff, and_assoc, and_comm]

end

/-- Unification is the partial join of refinement: it computes least upper bounds and fails exactly
where there is no upper bound at all. Hence it is commutative, idempotent and associative; where one
grouping of three types is defined, so is the other. -/
theorem unify_is_join (a b : Ty) :
    (∀ c, unify a b = some c ↔ IsLUB {a, b} c) ∧ (unify a b = none ↔ ¬ BddAbove {a, b}) ∧
      unify a b = unify b a ∧ unify a a = some a ∧
      ∀ c, (unify a b).bind (unify · c) = (unify b c).bind (unify a) := by
  refine ⟨fun c => isLUB_pair_iff_unify.symm, ?_, unify_comm a b, unify_of_refines (.refl a),
    unify_assoc a b⟩
  rw [bddAbove_pair_iff_unify]
  simp

-- Each array fills in what the other leaves open; one that refines the first alone is too much for both.
example :
    let second : Ty := .array (.function [.dynamic, .string] .dynamic)
    let first : Ty := .array (.function [.number, .dynamic] .dynamic)
    let both : Ty := .array (.function [.number, .string] .dynamic)
    let other : Ty := .array (.function [.string, .string] .number)
    unify second first = some both ∧ unify second other = some other ∧ unify both other = none := by
  decide

end UsageTypes
