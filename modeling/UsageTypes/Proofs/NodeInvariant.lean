import UsageTypes.Proofs.LeastRefinement
import UsageTypes.Proofs.Reference

/-! What holds at every node of the tree of evidence after any insertions, own-body evidence ahead of
call arguments or not, read by one strategy or by several. Claims are updated in place and not compared
again, yet they stay apart, and a single one is the least upper bound of all that came to the node. -/

namespace UsageTypes

/-- The concrete types among the leaves that insertions bring to a path. -/
def concretesAt (p : Path) (steps : List (Strategy × Evidence)) : Set Ty :=
  {c | ∃ step ∈ steps, ⟨p, .concrete c⟩ ∈ step.2.atoms step.1}

namespace Trie

/-- The nodes of a tree with the names that lead to them. -/
inductive HasNode : Trie → Path → Trie → Prop
  | root (t : Trie) : HasNode t [] t
  | child {t u node : Trie} {s : String} {p : Path} :
    (s, u) ∈ t.children → HasNode u p node → HasNode t (s :: p) node

def insertAll (steps : List (Strategy × Evidence)) : Trie :=
  steps.foldl (fun root step => root.insert step.1 step.2) empty

/-- What a node is like to which the given concrete types were brought, with whatever else. -/
structure Tidy (absorbed : Set Ty) (node : Trie) : Prop where
  nodup_children : (node.children.map Prod.fst).Nodup
  isConcrete : ∀ c ∈ node.mark.claims, c.isConcrete = true
  apart : node.mark.claims.Pairwise fun c d => unify c d = none
  nodup_names : node.mark.names.Nodup
  named : node.mark.nameFirst = true → node.mark.names ≠ []
  length_claims_le_one_iff : node.mark.claims.length ≤ 1 ↔ BddAbove absorbed
  claims_ne_nil_iff : node.mark.claims ≠ [] ↔ absorbed.Nonempty
  isLUB_claim : BddAbove absorbed → ∀ c ∈ node.mark.claims, IsLUB absorbed c

end Trie

section Claims

variable {ts : List Ty} {c : Ty}

theorem mergeClaims_eq_singleton_iff_isLUB :
    mergeClaims ts = [c] ↔ ts ≠ [] ∧ IsLUB {t | t ∈ ts} c :=
  mergeClaims_eq_singleton_iff

theorem claim_le_of_mem_upperBounds (h : c ∈ mergeClaims ts) {u : Ty}
    (hu : u ∈ upperBounds {t | t ∈ ts}) : c ≤ u :=
  (mergeClaims_represents ts).least c h u fun _ ht => hu ht

theorem length_mergeClaims_le_one_iff : (mergeClaims ts).length ≤ 1 ↔ BddAbove {t | t ∈ ts} := by
  constructor
  · intro hlen
    cases hm : mergeClaims ts with
    | nil =>
      rw [mergeClaims_eq_nil_iff.mp hm]
      exact ⟨.dynamic, fun _ ht => by cases ht⟩
    | cons d ds =>
      obtain rfl : ds = [] := by simpa [hm] using hlen
      exact ⟨d, (mergeClaims_eq_singleton_iff_isLUB.mp hm).2.1⟩
  · rintro ⟨u, hu⟩
    have hbound : ∀ d ∈ mergeClaims ts, d ≤ u := fun d hd => claim_le_of_mem_upperBounds hd hu
    have hapart := (mergeClaims_represents ts).apart
    -- two claims under one bound would unify
    rcases hm : mergeClaims ts with - | ⟨d, - | ⟨e, es⟩⟩
    · exact Nat.zero_le 1
    · exact Nat.le_refl 1
    · rw [hm] at hapart hbound
      have hnone := (List.pairwise_cons.mp hapart).1 e (by simp)
      exact absurd (hbound e (by simp)) (unify_eq_none_iff.mp hnone u (hbound d (by simp)))

theorem isLUB_of_mem_mergeClaims (h : c ∈ mergeClaims ts) (hb : BddAbove {t | t ∈ ts}) :
    IsLUB {t | t ∈ ts} c := by
  have hlen := length_mergeClaims_le_one_iff.mpr hb
  cases hm : mergeClaims ts with
  | nil => simp [hm] at h
  | cons d ds =>
    obtain rfl : ds = [] := by simpa [hm] using hlen
    obtain rfl : c = d := by simpa [hm] using h
    exact (mergeClaims_eq_singleton_iff_isLUB.mp hm).2

end Claims

theorem namesOf_ne_nil_of_nameFirst {leaves : List Leaf} (h : nameFirst leaves = true) :
    namesOf leaves ≠ [] := by
  induction leaves with
  | nil => cases h
  | cons leaf leaves ih =>
    cases leaf with
    | name text => exact List.ne_nil_of_mem (mem_namesOf_iff.mpr List.mem_cons_self)
    | concrete t => cases h
    | touch => exact ih h
    | emptyShape => exact ih h

namespace Trie

theorem insertAll_eq_ofAtoms (steps : List (Strategy × Evidence)) :
    insertAll steps = ofAtoms (steps.flatMap fun step => step.2.atoms step.1) := by
  rw [insertAll, ofAtoms, List.foldl_flatMap]
  congr 1
  funext root step
  exact insert_eq_foldl step.1 root step.2

/-- The node at a path holds exactly what was brought to the path or below it. -/
theorem eq_ofAtoms_of_hasNode {atoms : List Atom} {p : Path} {node : Trie}
    (h : (ofAtoms atoms).HasNode p node) : node = ofAtoms (below p atoms) := by
  induction p generalizing atoms with
  | nil =>
    cases h with
    | root => simp [below, List.isPrefixOf?]
  | cons s p ih =>
    cases h with
    | child hs hnode =>
      rw [ofAtoms_eq_node, children] at hs
      obtain ⟨r, -, he⟩ := List.mem_map.mp hs
      obtain ⟨rfl, rfl⟩ := Prod.mk.inj he
      rw [ih hnode, ← below_append]
      rfl

theorem nodup_children_ofAtoms (atoms : List Atom) : ((ofAtoms atoms).children.map Prod.fst).Nodup := by
  rw [ofAtoms_eq_node, children, List.map_map]
  exact (List.map_id _).symm ▸ nodup_segmentsBelow [] atoms

/-- A node is tidy with regard to the concrete leaves at its path. -/
theorem tidy_ofAtoms_below {atoms : List Atom}
    (hconcrete : ∀ q c, ⟨q, .concrete c⟩ ∈ atoms → c.isConcrete = true) (p : Path) :
    (ofAtoms (below p atoms)).Tidy {c | ⟨p, .concrete c⟩ ∈ atoms} := by
  have hmark : (ofAtoms (below p atoms)).mark = .ofLeaves (leavesAt p atoms) := by
    rw [ofAtoms_eq_node, mark, leavesAt_below]
  have hset : {c | ⟨p, .concrete c⟩ ∈ atoms} = {c | c ∈ (leavesAt p atoms).filterMap Leaf.concrete?} := by
    ext c
    rw [Set.mem_ofPred_eq, Set.mem_ofPred_eq, mem_concretes_iff, mem_leavesAt_iff]
  have hleaves : ∀ c ∈ (leavesAt p atoms).filterMap Leaf.concrete?, c.isConcrete = true := by
    intro c hc
    exact hconcrete p c (mem_leavesAt_iff.mp (mem_concretes_iff.mp hc))
  have hclaims : (ofAtoms (below p atoms)).mark.claims =
      mergeClaims ((leavesAt p atoms).filterMap Leaf.concrete?) := by
    rw [hmark, ofLeaves_eq, claimsOf]
  have hnames : (ofAtoms (below p atoms)).mark.names = namesOf (leavesAt p atoms) := by
    rw [hmark, ofLeaves_eq]
  have hfirst : (ofAtoms (below p atoms)).mark.nameFirst = nameFirst (leavesAt p atoms) := by
    rw [hmark, ofLeaves_eq]
  rw [hset]
  constructor
  · exact nodup_children_ofAtoms _
  · rw [hclaims]
    exact mergeClaims_isConcrete hleaves
  · rw [hclaims]
    exact (mergeClaims_represents _).apart
  · rw [hnames]
    exact nodup_eraseDups _
  · rw [hnames, hfirst]
    exact namesOf_ne_nil_of_nameFirst
  · rw [hclaims]
    exact length_mergeClaims_le_one_iff
  · rw [hclaims, ne_eq, mergeClaims_eq_nil_iff]
    constructor
    · exact List.exists_mem_of_ne_nil _
    · intro hne
      obtain ⟨c, hc⟩ := hne
      exact List.ne_nil_of_mem hc
  · rw [hclaims]
    exact fun hb c hc => isLUB_of_mem_mergeClaims hc hb

end Trie

/-- Every node of a tree that came about by insertions, in any order and under any strategies, is tidy
with regard to the concrete types that were brought to its path. -/
theorem tidy_of_hasNode_insertAll (steps : List (Strategy × Evidence)) {p : Path} {node : Trie}
    (h : (Trie.insertAll steps).HasNode p node) : node.Tidy (concretesAt p steps) := by
  rw [Trie.insertAll_eq_ofAtoms] at h
  rw [Trie.eq_ofAtoms_of_hasNode h]
  have hset : concretesAt p steps =
      {c | ⟨p, .concrete c⟩ ∈ steps.flatMap fun step => step.2.atoms step.1} := by
    ext c
    rw [concretesAt, Set.mem_ofPred_eq, Set.mem_ofPred_eq, List.mem_flatMap]
  rw [hset]
  refine Trie.tidy_ofAtoms_below (fun q c hc => ?_) p
  obtain ⟨step, -, hstep⟩ := List.mem_flatMap.mp hc
  exact Evidence.isConcrete_of_mem_atoms hstep

/-- What comes under another strategy fills in the element of the array that a method call found. At
the root a callable refuses the number, and a reference came before both. -/
theorem tidy_of_hasNode_appended_field :
    let steps : List (Strategy × Evidence) :=
      [(.refined ["push"], .argument [] (.named "K")), (.refined ["push"], .method ["a"] "push" []),
        (.baseline, .invoke [] [.string]), (.baseline, .argument ["a"] (.array .number)), (.baseline, .numeric [])]
    let field : Trie := .node { claims := [.array .number] } []
    (Trie.insertAll steps).HasNode ["a"] field ∧
      (Trie.insertAll steps).mark =
        { claims := [.function [.string] .dynamic, .number], names := ["K"], nameFirst := true } ∧
      field.Tidy (concretesAt ["a"] steps) := by
  intro steps field
  have hfield : (Trie.insertAll steps).HasNode ["a"] field := .child (List.mem_singleton_self _) (.root _)
  exact ⟨hfield, by decide, tidy_of_hasNode_insertAll steps hfield⟩

end UsageTypes
