import UsageTypes.Proofs.Accounting

/-! The two ways to settle conflicts give the same type but for values that are open because the
evidence about them clashes: two concrete types that do not unify, or a reference beside one. What
claims were merged before does not matter for this. -/

namespace UsageTypes

namespace Ty

/-- Two types that one type refines. -/
def Compatible (a b : Ty) : Prop :=
  ∃ u, a.Refines u ∧ b.Refines u

def CompatibleAll (as bs : List Ty) : Prop :=
  ∃ us, List.Forall₂ Refines as us ∧ List.Forall₂ Refines bs us

theorem compatible_iff {a b : Ty} : a.Compatible b ↔ unify a b ≠ none := by
  rw [ne_eq, unify_eq_none_iff]
  simp [Compatible]

theorem Compatible.symm {a b : Ty} (h : a.Compatible b) : b.Compatible a := by
  obtain ⟨u, ha, hb⟩ := h
  exact ⟨u, hb, ha⟩

theorem array_compatible_iff {x b : Ty} :
    (Ty.array x).Compatible b ↔ b = .dynamic ∨ ∃ y, b = .array y ∧ x.Compatible y := by
  constructor
  · rintro ⟨u, hxu, hbu⟩
    obtain ⟨z, rfl, hxz⟩ := array_refines_iff.mp hxu
    cases hbu with
    | dynamic => exact .inl rfl
    | refl => exact .inr ⟨z, rfl, z, hxz, .refl z⟩
    | array hyz => exact .inr ⟨_, rfl, z, hxz, hyz⟩
  · rintro (rfl | ⟨y, rfl, z, hx, hy⟩)
    · exact ⟨_, .refl _, .dynamic _⟩
    · exact ⟨.array z, .array hx, .array hy⟩

theorem function_compatible_iff {ps : List Ty} {r b : Ty} :
    (Ty.function ps r).Compatible b ↔
      b = .dynamic ∨ ∃ qs s, b = .function qs s ∧ CompatibleAll ps qs ∧ r.Compatible s := by
  constructor
  · rintro ⟨u, hpu, hbu⟩
    obtain ⟨us, v, rfl, hp, hr⟩ := function_refines_iff.mp hpu
    cases hbu with
    | dynamic => exact .inl rfl
    | refl => exact .inr ⟨us, v, rfl, ⟨us, hp, forall₂_refines_refl us⟩, v, hr, .refl v⟩
    | function hq hs => exact .inr ⟨_, _, rfl, ⟨us, hp, hq⟩, v, hr, hs⟩
  · rintro (rfl | ⟨qs, s, rfl, ⟨us, hp, hq⟩, v, hr, hs⟩)
    · exact ⟨_, .refl _, .dynamic _⟩
    · exact ⟨.function us v, .function hp hr, .function hq hs⟩

theorem cons_compatibleAll_iff {x : Ty} {xs ys : List Ty} :
    CompatibleAll (x :: xs) ys ↔ ∃ y zs, ys = y :: zs ∧ x.Compatible y ∧ CompatibleAll xs zs := by
  constructor
  · rintro ⟨_, hx, hy⟩
    obtain _ | ⟨hx, hxs⟩ := hx
    obtain _ | ⟨hy, hys⟩ := hy
    exact ⟨_, _, rfl, ⟨_, hx, hy⟩, _, hxs, hys⟩
  · rintro ⟨y, zs, rfl, ⟨u, hx, hy⟩, us, hxs, hys⟩
    exact ⟨u :: us, .cons hx hxs, .cons hy hys⟩

theorem nil_compatibleAll_iff {ys : List Ty} : CompatibleAll [] ys ↔ ys = [] := by
  simp [CompatibleAll]

mutual

/-- Three types that are compatible two by two have one common refinement. -/
theorem exists_common_refinement {a b c : Ty} (hab : a.Compatible b) (hac : a.Compatible c)
    (hbc : b.Compatible c) : ∃ u, a.Refines u ∧ b.Refines u ∧ c.Refines u := by
  -- An open type yields to the other two; otherwise all three are built alike.
  by_cases ha : a = .dynamic
  · obtain ⟨u, hb, hc⟩ := hbc
    exact ⟨u, ha ▸ .dynamic u, hb, hc⟩
  by_cases hb : b = .dynamic
  · obtain ⟨u, ha, hc⟩ := hac
    exact ⟨u, ha, hb ▸ .dynamic u, hc⟩
  by_cases hc : c = .dynamic
  · obtain ⟨u, ha, hb⟩ := hab
    exact ⟨u, ha, hb, hc ▸ .dynamic u⟩
  cases a with
  | array x =>
    obtain ⟨y, rfl, hxy⟩ := (array_compatible_iff.mp hab).resolve_left hb
    obtain ⟨z, rfl, hxz⟩ := (array_compatible_iff.mp hac).resolve_left hc
    have hyz : y.Compatible z := by simpa [array_compatible_iff] using hbc
    obtain ⟨u, hx, hy, hz⟩ := exists_common_refinement hxy hxz hyz
    exact ⟨.array u, .array hx, .array hy, .array hz⟩
  | function ps r =>
    obtain ⟨qs, s, rfl, hpq, hrs⟩ := (function_compatible_iff.mp hab).resolve_left hb
    obtain ⟨ws, t, rfl, hpw, hrt⟩ := (function_compatible_iff.mp hac).resolve_left hc
    have hfunctions : CompatibleAll qs ws ∧ s.Compatible t := by
      simpa [function_compatible_iff] using hbc
    obtain ⟨us, hp, hq, hw⟩ := exists_common_refinements hpq hpw hfunctions.1
    obtain ⟨u, hr, hs, ht⟩ := exists_common_refinement hrs hrt hfunctions.2
    exact ⟨.function us u, .function hp hr, .function hq hs, .function hw ht⟩
  | _ =>
    obtain ⟨u, hau, hbu⟩ := hab
    obtain ⟨v, hav, hcv⟩ := hac
    obtain rfl := eq_of_common_refinement hau hbu ha hb nofun nofun
    obtain rfl := eq_of_common_refinement hav hcv ha hc nofun nofun
    exact ⟨_, .refl _, .refl _, .refl _⟩

theorem exists_common_refinements {as bs cs : List Ty} (hab : CompatibleAll as bs)
    (hac : CompatibleAll as cs) (hbc : CompatibleAll bs cs) :
    ∃ us, List.Forall₂ Refines as us ∧ List.Forall₂ Refines bs us ∧ List.Forall₂ Refines cs us := by
  cases as with
  | nil =>
    obtain rfl := nil_compatibleAll_iff.mp hab
    obtain rfl := nil_compatibleAll_iff.mp hac
    exact ⟨[], .nil, .nil, .nil⟩
  | cons a as =>
    obtain ⟨b, bs, rfl, hab, habs⟩ := cons_compatibleAll_iff.mp hab
    obtain ⟨c, cs, rfl, hac, hacs⟩ := cons_compatibleAll_iff.mp hac
    have hcons : b.Compatible c ∧ CompatibleAll bs cs := by
      simpa [cons_compatibleAll_iff] using hbc
    obtain ⟨u, ha, hb, hc⟩ := exists_common_refinement hab hac hcons.1
    obtain ⟨us, has, hbs, hcs⟩ := exists_common_refinements habs hacs hcons.2
    exact ⟨u :: us, .cons ha has, .cons hb hbs, .cons hc hcs⟩

end

theorem compatible_of_unify {a b c t : Ty} (hab : unify a b = some c) (ha : a.Compatible t)
    (hb : b.Compatible t) : c.Compatible t := by
  obtain ⟨u, hau, hbu, htu⟩ := exists_common_refinement ⟨c, refines_of_unify hab⟩ ha hb
  exact ⟨u, unify_refines hab hau hbu, htu⟩

end Ty

/-- What is compatible with all types is compatible with what they are merged to. -/
theorem mergeClaims_compatible {ts : List Ty} {t : Ty} (h : ∀ s ∈ ts, s.Compatible t) :
    ∀ c ∈ mergeClaims ts, c.Compatible t := by
  refine forall_mem_mergeClaims (fun a b c ha hb hu => ?_) h
  exact Ty.compatible_of_unify hu ha hb

/-- Several claims are left exactly if two of the types do not unify. -/
theorem one_lt_length_mergeClaims_iff {ts : List Ty} :
    1 < (mergeClaims ts).length ↔ ∃ s ∈ ts, ∃ t ∈ ts, unify s t = none := by
  constructor
  · intro hlen
    by_contra hnone
    have hpairs : ∀ s ∈ ts, ∀ t ∈ ts, s.Compatible t := by
      intro s hs t ht
      rw [Ty.compatible_iff]
      exact fun h => hnone ⟨s, hs, t, ht, h⟩
    have hclaims : ∀ c ∈ mergeClaims ts, ∀ d ∈ mergeClaims ts, c.Compatible d := by
      intro c hc d hd
      refine mergeClaims_compatible (fun s hs => ?_) c hc
      exact (mergeClaims_compatible (fun t ht => hpairs t ht s hs) d hd).symm
    have hapart := (mergeClaims_represents ts).apart
    rcases hm : mergeClaims ts with - | ⟨c, - | ⟨d, rest⟩⟩
    · simp [hm] at hlen
    · simp [hm] at hlen
    · rw [hm] at hapart hclaims
      exact Ty.compatible_iff.mp (hclaims c (by simp) d (by simp))
        ((List.pairwise_cons.mp hapart).1 d (by simp))
  · rintro ⟨s, hs, t, ht, hnone⟩
    rcases hm : mergeClaims ts with - | ⟨c, - | ⟨d, rest⟩⟩
    · simp [mergeClaims_eq_nil_iff.mp hm] at hs
    · have hbound := (mergeClaims_eq_singleton_iff.mp hm).2.1
      exact absurd (hbound t ht) (unify_eq_none_iff.mp hnone c (hbound s hs))
    · simp

/-- The leaves at a path clash: two concrete types do not unify, or a concrete type stands beside a
reference. -/
def Clash (leaves : List Leaf) : Prop :=
  (∃ c d, .concrete c ∈ leaves ∧ .concrete d ∈ leaves ∧ unify c d = none) ∨
    ∃ c text, .concrete c ∈ leaves ∧ .name text ∈ leaves

theorem conflicting_iff_clash {leaves : List Leaf} :
    (Mark.ofLeaves leaves).conflicting = true ↔ Clash leaves := by
  have hclaims : claimsOf leaves ≠ [] ↔ ∃ c, .concrete c ∈ leaves := by
    simp [claimsOf_eq_nil_iff]
  have hnames : namesOf leaves ≠ [] ↔ ∃ text, .name text ∈ leaves := by
    simp [namesOf_eq_nil_iff]
  have hseveral : 1 < (claimsOf leaves).length ↔
      ∃ c d, .concrete c ∈ leaves ∧ .concrete d ∈ leaves ∧ unify c d = none := by
    rw [claimsOf, one_lt_length_mergeClaims_iff]
    simp only [mem_concretes_iff]
    constructor
    · rintro ⟨c, hc, d, hd, h⟩
      exact ⟨c, d, hc, hd, h⟩
    · rintro ⟨c, d, hc, hd, h⟩
      exact ⟨c, hc, d, hd, h⟩
  have hmark : (Mark.ofLeaves leaves).conflicting = true ↔
      1 < (claimsOf leaves).length ∨ claimsOf leaves ≠ [] ∧ namesOf leaves ≠ [] := by
    rw [ofLeaves_eq]
    simp [Mark.conflicting]
  rw [hmark, hseveral, hclaims, hnames, Clash, exists_and_exists_comm]

mutual

/-- `Opened clash p t u`: if `t` is the type of the value at `p`, then `u` is `t` with the values at
clashing paths open. They are reached through the fields of shapes, also of those at the end of
intersections, and nothing else differs. -/
inductive Ty.Opened (clash : Path → Prop) : Path → Ty → Ty → Prop
  | opened {p : Path} (t : Ty) : clash p → Opened clash p t .dynamic
  | same {p : Path} {t : Ty} : ¬ clash p → t.fields = [] → Opened clash p t t
  | shape {p : Path} {fields fields' : List (String × Ty)} : ¬ clash p →
    OpenedFields clash p fields fields' → Opened clash p (.shape fields) (.shape fields')
  | trailing {p : Path} (ts : List Ty) {fields fields' : List (String × Ty)} : ¬ clash p →
    OpenedFields clash p fields fields' →
    Opened clash p (.inter (ts ++ [.shape fields])) (.inter (ts ++ [.shape fields']))

inductive Ty.OpenedFields (clash : Path → Prop) :
    Path → List (String × Ty) → List (String × Ty) → Prop
  | nil (p : Path) : OpenedFields clash p [] []
  | cons {p : Path} {name : String} {t u : Ty} {fields fields' : List (String × Ty)} :
    Opened clash (p.child name) t u → OpenedFields clash p fields fields' →
    OpenedFields clash p ((name, t) :: fields) ((name, u) :: fields')

end

section

variable {clash : Path → Prop}

theorem Ty.Opened.eq_of_no_clash {p : Path} {t u : Ty} (h : Ty.Opened clash p t u)
    (hno : ∀ q, ¬ clash q) : t = u := by
  induction h using @Ty.Opened.rec clash _ fun _ fields fields' _ => fields = fields' with
  | opened _ hclash => exact absurd hclash (hno _)
  | same => rfl
  | shape _ _ ih => rw [ih]
  | trailing _ _ _ ih => rw [ih]
  | nil => rfl
  | cons _ _ iht ih => rw [iht, ih]

variable {p : Path} {segments : List String} {type type' : String → Ty}

theorem openedFields_map (h : ∀ s ∈ segments, Ty.Opened clash (p.child s) (type s) (type' s)) :
    Ty.OpenedFields clash p (segments.map fun s => (s, type s))
      (segments.map fun s => (s, type' s)) := by
  induction segments with
  | nil => exact .nil p
  | cons s segments ih =>
    exact .cons (h s (by simp)) (ih fun r hr => h r (by simp [hr]))

-- Which fields references leave over depends on names only, so both sides leave the same ones.
theorem opened_unclaimed (members : MemberTable) (leaves : List Leaf) (hp : ¬ clash p)
    (h : ∀ s ∈ segments, Ty.Opened clash (p.child s) (type s) (type' s)) :
    Ty.Opened clash p (unclaimed members leaves (segments.map fun s => (s, type s)))
      (unclaimed members leaves (segments.map fun s => (s, type' s))) := by
  by_cases hn : namesOf leaves = []
  · by_cases hf : segments ≠ [] ∨ .emptyShape ∈ leaves
    · rw [unclaimed_of_shape hn (by simpa using hf), unclaimed_of_shape hn (by simpa using hf)]
      exact .shape hp (openedFields_map h)
    · rw [unclaimed_of_nothing hn (by simpa using hf), unclaimed_of_nothing hn (by simpa using hf)]
      exact .same hp rfl
  · have hnames : (namesOf leaves).map Ty.named ≠ [] := by simpa using hn
    have hfields := @Ty.fields_meet_leftoverShape members _ hn (segments.map fun s => (s, type s))
    rw [unclaimed_of_names hn, unclaimed_of_names hn]
    simp only [leftoverShape, leftover_map, List.map_eq_nil_iff] at hfields ⊢
    split
    · rename_i hleft
      rw [if_pos hleft, hleft] at hfields
      exact .same hp hfields
    · rw [Ty.meet_concat hnames, Ty.meet_concat hnames]
      exact .trailing _ hp (openedFields_map fun s hs => h s (List.mem_filter.mp hs).1)

end

theorem opened_reference (members : MemberTable) {atoms : List Atom}
    (hconcrete : ∀ q, ∀ c ∈ claimsOf (leavesAt q atoms), c.isConcrete = true) (p : Path) :
    Ty.Opened (fun q => Clash (leavesAt q atoms)) p (reference members .keepFirst atoms p)
      (reference members .unresolved atoms p) := by
  induction p using reference.induct atoms with
  | case1 p ih =>
    rw [reference_eq, reference_eq members .unresolved]
    by_cases hp : Clash (leavesAt p atoms)
    · rw [outcome_of_conflicting (conflicting_iff_clash.mpr hp)]
      exact .opened _ hp
    · rcases outcome_unresolved_cases members (leavesAt p atoms) ((segmentsBelow p atoms).map
        fun s => (s, reference members .unresolved atoms (p.child s))) with
        ⟨hc, he⟩ | ⟨claim, hc, hn, he⟩ | ⟨hconf, _⟩
      · rw [he, outcome_of_claims_eq_nil hc]
        exact opened_unclaimed members _ hp fun s hs => ih ⟨s, hs⟩
      · rw [he, outcome_of_claims_eq_singleton hc hn]
        exact .same hp (Ty.fields_of_isConcrete (hconcrete p claim (by simp [hc])))
      · exact absurd (conflicting_iff_clash.mp hconf) hp

theorem clash_iff_find? (strategy : Strategy) (evidence : List Evidence) (p : Path) :
    Clash (leavesAt p (atomsOf strategy evidence)) ↔
      ∃ node, (Trie.ofEvidence strategy evidence).find? p = some node ∧
        node.mark.conflicting = true := by
  have hmark : (Trie.ofAtoms (below p (atomsOf strategy evidence))).mark =
      .ofLeaves (leavesAt p (atomsOf strategy evidence)) := by
    rw [Trie.ofAtoms_eq_node, Trie.mark, leavesAt_below]
  rw [Trie.ofEvidence_eq_ofAtoms]
  constructor
  · intro h
    obtain ⟨leaf, hleaf⟩ : ∃ leaf, ⟨p ++ [], leaf⟩ ∈ atomsOf strategy evidence := by
      rw [List.append_nil]
      rcases h with ⟨c, _, hc, _⟩ | ⟨c, _, hc, _⟩ <;> exact ⟨_, mem_leavesAt_iff.mp hc⟩
    refine ⟨_, find?_ofAtoms hleaf, ?_⟩
    rw [hmark]
    exact conflicting_iff_clash.mpr h
  · rintro ⟨node, hnode, hconf⟩
    rw [(find?_ofAtoms_eq_some_iff.mp hnode).2, hmark] at hconf
    exact conflicting_iff_clash.mp hconf

/-- Without a preference between conflicting types the type is the one with a preference for the
first, but for the values that are open because the evidence about them clashes. It clashes at the
paths of the nodes that conflict; if it clashes nowhere, both types are the same. -/
theorem synthesize_unresolved_opened (members : MemberTable) (strategy : Strategy)
    (evidence : List Evidence) :
    let clash (p : Path) : Prop := Clash (leavesAt p (atomsOf strategy evidence))
    Ty.Opened clash .root (synthesize members strategy .keepFirst evidence)
        (synthesize members strategy .unresolved evidence) ∧
      (∀ p, clash p ↔ ∃ node, (Trie.ofEvidence strategy evidence).find? p = some node ∧
        node.mark.conflicting = true) ∧
      ((∀ p, ¬ clash p) → synthesize members strategy .unresolved evidence =
        synthesize members strategy .keepFirst evidence) := by
  intro clash
  have hopened : Ty.Opened clash .root (synthesize members strategy .keepFirst evidence)
      (synthesize members strategy .unresolved evidence) := by
    rw [synthesize, synthesize, Trie.resolve_ofEvidence, Trie.resolve_ofEvidence]
    exact opened_reference members (claimsOf_leavesAt_isConcrete strategy evidence) .root
  exact ⟨hopened, clash_iff_find? strategy evidence, fun hno => (hopened.eq_of_no_clash hno).symm⟩

/-- A conflict behind a reference opens a field of the shape that the reference leaves over, and one
at a reference opens the value with everything below it. -/
theorem synthesize_unresolved_opened_behind_reference :
    let members : MemberTable := fun name => if name = "K" then some ["k"] else none
    let evidence : List Evidence := [.numeric ["a", "b"], .numeric ["a", "k"], .textual ["a", "k"],
      .textual ["a", "b"], .argument ["a"] (.named "K"), .textual ["c"], .access ["c", "d"],
      .argument ["c"] (.named "K"), .invoke ["e"] [.dynamic]]
    let quiet : List Evidence := [.invoke ["e"] [.dynamic], .invoke ["e"] [.number]]
    let clash (p : Path) : Prop := Clash (leavesAt p (atomsOf .baseline evidence))
    synthesize members .baseline .keepFirst evidence =
        .shape [("a", .inter [.named "K", .shape [("b", .number)]]), ("c", .string),
          ("e", .function [.dynamic] .dynamic)] ∧
      synthesize members .baseline .unresolved evidence =
        .shape [("a", .inter [.named "K", .shape [("b", .dynamic)]]), ("c", .dynamic),
          ("e", .function [.dynamic] .dynamic)] ∧
      Ty.Opened clash .root (synthesize members .baseline .keepFirst evidence)
        (synthesize members .baseline .unresolved evidence) ∧
      (∀ p, ¬ Clash (leavesAt p (atomsOf .baseline quiet))) ∧
      synthesize members .baseline .unresolved quiet =
        synthesize members .baseline .keepFirst quiet := by
  intro members evidence quiet clash
  have hquiet : ∀ p, ¬ Clash (leavesAt p (atomsOf .baseline quiet)) := by
    have hatoms : atomsOf .baseline quiet = [⟨["e"], .touch⟩,
      ⟨["e"], .concrete (.function [.dynamic] .dynamic)⟩, ⟨["e"], .touch⟩,
      ⟨["e"], .concrete (.function [.number] .dynamic)⟩] := by decide
    rintro p (⟨c, d, hc, hd, hu⟩ | ⟨c, text, hc, hn⟩)
    · simp only [mem_leavesAt_iff, hatoms, List.mem_cons, Atom.mk.injEq, reduceCtorEq, and_false,
        Leaf.concrete.injEq, false_or, List.not_mem_nil, or_false] at hc hd
      rcases hc with ⟨-, rfl⟩ | ⟨-, rfl⟩ <;> rcases hd with ⟨-, rfl⟩ | ⟨-, rfl⟩ <;>
        exact absurd hu (by decide)
    · simp [mem_leavesAt_iff, hatoms] at hn
  exact ⟨by decide, by decide, (synthesize_unresolved_opened members .baseline evidence).1, hquiet,
    (synthesize_unresolved_opened members .baseline quiet).2.2 hquiet⟩

end UsageTypes
