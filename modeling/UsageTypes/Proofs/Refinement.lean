import Mathlib.Data.List.Forall2
import UsageTypes.Trie

/-! Refinement of types: open positions inside arrays and callables are filled in. Unification is
the least common refinement of two types, and fails exactly when they have none. -/

namespace UsageTypes

/-- The order in which the open type is least. Arrays refine by their elements and callables by
their parameters and result; shapes, references and intersections only refine to themselves. -/
inductive Ty.Refines : Ty → Ty → Prop
  | dynamic (t : Ty) : Refines .dynamic t
  | refl (t : Ty) : Refines t t
  | array {x y : Ty} : Refines x y → Refines (.array x) (.array y)
  | function {ps qs : List Ty} {r s : Ty} :
    List.Forall₂ Refines ps qs → Refines r s → Refines (.function ps r) (.function qs s)

namespace Ty

theorem array_refines_iff {x u : Ty} :
    (Ty.array x).Refines u ↔ ∃ y, u = .array y ∧ x.Refines y := by
  constructor
  · intro h
    cases h with
    | refl => exact ⟨x, rfl, .refl x⟩
    | array h => exact ⟨_, rfl, h⟩
  · rintro ⟨y, rfl, h⟩
    exact .array h

theorem forall₂_refines_refl (ts : List Ty) : List.Forall₂ Refines ts ts := by
  induction ts with
  | nil => exact .nil
  | cons t ts ih => exact .cons (.refl t) ih

theorem function_refines_iff {ps : List Ty} {r u : Ty} :
    (Ty.function ps r).Refines u ↔
      ∃ qs s, u = .function qs s ∧ List.Forall₂ Refines ps qs ∧ r.Refines s := by
  constructor
  · intro h
    cases h with
    | refl => exact ⟨ps, r, rfl, forall₂_refines_refl ps, .refl r⟩
    | function hp hr => exact ⟨_, _, rfl, hp, hr⟩
  · rintro ⟨qs, s, rfl, hp, hr⟩
    exact .function hp hr

mutual

theorem Refines.trans {a b c : Ty} (hab : a.Refines b) (hbc : b.Refines c) : a.Refines c := by
  cases hab with
  | dynamic => exact .dynamic c
  | refl => exact hbc
  | array h =>
    obtain ⟨z, rfl, hz⟩ := array_refines_iff.mp hbc
    exact .array (h.trans hz)
  | function hp hr =>
    obtain ⟨qs, s, rfl, hq, hs⟩ := function_refines_iff.mp hbc
    exact .function (forall₂_refines_trans hp hq) (hr.trans hs)

theorem forall₂_refines_trans {as bs cs : List Ty} (hab : List.Forall₂ Refines as bs)
    (hbc : List.Forall₂ Refines bs cs) : List.Forall₂ Refines as cs := by
  cases hab with
  | nil => exact hbc
  | cons h hs =>
    cases hbc with
    | cons h' hs' => exact .cons (h.trans h') (forall₂_refines_trans hs hs')

end

mutual

theorem Refines.antisymm {a b : Ty} (hab : a.Refines b) (hba : b.Refines a) : a = b := by
  cases hab with
  | dynamic => cases hba <;> rfl
  | refl => rfl
  | array h =>
    obtain ⟨z, hz, h'⟩ := array_refines_iff.mp hba
    obtain rfl := Ty.array.inj hz
    rw [h.antisymm h']
  | function hp hr =>
    obtain ⟨qs, s, he, hq, hs⟩ := function_refines_iff.mp hba
    obtain ⟨rfl, rfl⟩ := Ty.function.inj he
    rw [forall₂_refines_antisymm hp hq, hr.antisymm hs]

theorem forall₂_refines_antisymm {as bs : List Ty} (hab : List.Forall₂ Refines as bs)
    (hba : List.Forall₂ Refines bs as) : as = bs := by
  cases hab with
  | nil => rfl
  | cons h hs =>
    cases hba with
    | cons h' hs' => rw [h.antisymm h', forall₂_refines_antisymm hs hs']

end

theorem eq_of_common_refinement {a b u : Ty} (ha : a.Refines u) (hb : b.Refines u)
    (hda : a ≠ .dynamic) (hdb : b ≠ .dynamic)
    (harray : ∀ x y, a = .array x → b ≠ .array y)
    (hfunction : ∀ ps r qs s, a = .function ps r → b ≠ .function qs s) : a = b := by
  cases ha with
  | dynamic => exact absurd rfl hda
  | refl =>
    cases hb with
    | dynamic => exact absurd rfl hdb
    | refl => rfl
    | array => exact absurd rfl (harray _ _ rfl)
    | function => exact absurd rfl (hfunction _ _ _ _ rfl)
  | array h =>
    cases hb with
    | dynamic => exact absurd rfl hdb
    | refl => exact absurd rfl (harray _ _ rfl)
    | array => exact absurd rfl (harray _ _ rfl)
  | function hp hr =>
    cases hb with
    | dynamic => exact absurd rfl hdb
    | refl => exact absurd rfl (hfunction _ _ _ _ rfl)
    | function => exact absurd rfl (hfunction _ _ _ _ rfl)

end Ty

mutual

/-- The common refinements of two types are the refinements of what they unify to. -/
theorem refines_unify_iff (a b u : Ty) :
    a.Refines u ∧ b.Refines u ↔ ∃ c, unify a b = some c ∧ c.Refines u := by
  rw [unify.eq_def]
  by_cases he : a = b
  · simp [he]
  · rw [if_neg he]
    split
    · simp [Ty.Refines.dynamic]
    · simp [Ty.Refines.dynamic]
    · rename_i x y
      have ih := refines_unify_iff x y
      constructor
      · rintro ⟨hx, hy⟩
        obtain ⟨z, rfl, hxz⟩ := Ty.array_refines_iff.mp hx
        obtain ⟨_, hz, hyz⟩ := Ty.array_refines_iff.mp hy
        obtain rfl := Ty.array.inj hz
        obtain ⟨c, hc, hcz⟩ := (ih z).mp ⟨hxz, hyz⟩
        exact ⟨.array c, by simp [hc], .array hcz⟩
      · rintro ⟨c, hc, hcu⟩
        obtain ⟨d, hd, rfl⟩ := Option.map_eq_some_iff.mp hc
        obtain ⟨z, rfl, hdz⟩ := Ty.array_refines_iff.mp hcu
        obtain ⟨hx, hy⟩ := (ih z).mpr ⟨d, hd, hdz⟩
        exact ⟨.array hx, .array hy⟩
    · rename_i ps r qs s
      have ihp := forall₂_unifyAll_iff ps qs
      have ihr := refines_unify_iff r s
      constructor
      · rintro ⟨hp, hq⟩
        obtain ⟨us, v, rfl, hpu, hr⟩ := Ty.function_refines_iff.mp hp
        obtain ⟨_, _, hu, hqu, hs⟩ := Ty.function_refines_iff.mp hq
        obtain ⟨rfl, rfl⟩ := Ty.function.inj hu
        obtain ⟨cs, hcs, hcsu⟩ := (ihp us).mp ⟨hpu, hqu⟩
        obtain ⟨c, hc, hcv⟩ := (ihr v).mp ⟨hr, hs⟩
        exact ⟨.function cs c, by simp [hcs, hc], .function hcsu hcv⟩
      · rintro ⟨c, hc, hcu⟩
        split at hc
        · rename_i cs d hcs hd
          obtain rfl := Option.some.inj hc
          obtain ⟨us, v, rfl, hcsu, hdv⟩ := Ty.function_refines_iff.mp hcu
          obtain ⟨hp, hq⟩ := (ihp us).mpr ⟨cs, hcs, hcsu⟩
          obtain ⟨hr, hs⟩ := (ihr v).mpr ⟨d, hd, hdv⟩
          exact ⟨.function hp hr, .function hq hs⟩
        · cases hc
    · rename_i hda hdb harray hfunction
      simp only [reduceCtorEq, false_and, exists_false, iff_false]
      rintro ⟨ha, hb⟩
      exact he (Ty.eq_of_common_refinement ha hb hda hdb
        (fun x y hx hy => harray x y hx hy) (fun ps r qs s hp hq => hfunction ps r qs s hp hq))
termination_by sizeOf a

theorem forall₂_unifyAll_iff (xs ys us : List Ty) :
    List.Forall₂ Ty.Refines xs us ∧ List.Forall₂ Ty.Refines ys us ↔
      ∃ zs, unifyAll xs ys = some zs ∧ List.Forall₂ Ty.Refines zs us := by
  cases xs with
  | nil => cases ys <;> cases us <;> simp [unifyAll]
  | cons x xs =>
    cases ys with
    | nil => cases us <;> simp [unifyAll]
    | cons y ys =>
      have ih := refines_unify_iff x y
      have ihs := forall₂_unifyAll_iff xs ys
      constructor
      · rintro ⟨hx, hy⟩
        cases hx with
        | cons hx hxs =>
          cases hy with
          | cons hy hys =>
            obtain ⟨z, hz, hzu⟩ := (ih _).mp ⟨hx, hy⟩
            obtain ⟨zs, hzs, hzsu⟩ := (ihs _).mp ⟨hxs, hys⟩
            exact ⟨z :: zs, by simp [unifyAll, hz, hzs], .cons hzu hzsu⟩
      · rintro ⟨zs, hzs, hu⟩
        rw [unifyAll] at hzs
        split at hzs
        · rename_i z zs hz hzs'
          obtain rfl := Option.some.inj hzs
          cases hu with
          | cons hzu hzsu =>
            obtain ⟨hx, hy⟩ := (ih _).mpr ⟨z, hz, hzu⟩
            obtain ⟨hxs, hys⟩ := (ihs _).mpr ⟨zs, hzs', hzsu⟩
            exact ⟨.cons hx hxs, .cons hy hys⟩
        · cases hzs
termination_by sizeOf xs

end

theorem refines_of_unify {a b c : Ty} (h : unify a b = some c) : a.Refines c ∧ b.Refines c :=
  (refines_unify_iff a b c).mpr ⟨c, h, .refl c⟩

theorem unify_refines {a b c u : Ty} (h : unify a b = some c) (ha : a.Refines u)
    (hb : b.Refines u) : c.Refines u := by
  obtain ⟨d, hd, hdu⟩ := (refines_unify_iff a b u).mp ⟨ha, hb⟩
  obtain rfl := Option.some.inj (h.symm.trans hd)
  exact hdu

theorem unify_eq_none_iff {a b : Ty} :
    unify a b = none ↔ ∀ u, a.Refines u → ¬ b.Refines u := by
  constructor
  · intro h u ha hb
    obtain ⟨c, hc, _⟩ := (refines_unify_iff a b u).mp ⟨ha, hb⟩
    simp [h] at hc
  · intro h
    cases hc : unify a b with
    | none => rfl
    | some c => exact absurd (refines_of_unify hc).2 (h c (refines_of_unify hc).1)

theorem unify_of_refines {a b : Ty} (h : b.Refines a) : unify a b = some a := by
  obtain ⟨c, hc, hca⟩ := (refines_unify_iff a b a).mp ⟨.refl a, h⟩
  rw [hc, hca.antisymm (refines_of_unify hc).1]

/-- Types that do not unify stay apart however they are refined. -/
theorem unify_eq_none_of_refines {a b c d : Ty} (h : unify a b = none) (hac : a.Refines c)
    (hbd : b.Refines d) : unify c d = none := by
  rw [unify_eq_none_iff] at h ⊢
  intro u hcu hdu
  exact h u (hac.trans hcu) (hbd.trans hdu)

end UsageTypes
