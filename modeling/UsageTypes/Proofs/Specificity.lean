import UsageTypes.Proofs.FirstDiscovery

/-! How much an inferred type says. With conflicts settled in favour of what was discovered first,
more evidence may change a type altogether, but it never makes the type say less. -/

namespace UsageTypes

namespace Ty

mutual

/-- How much a type says: nothing (0), that the value has fields (1), that one of them is of rank 3
(2), or what the value is apart from its fields (3). -/
def rank : Ty → Nat
  | .primitive _ | .array _ | .function _ _ | .named _ | .inter _ => 3
  | .shape fields => if 3 ∈ ranks fields then 2 else 1
  | .dynamic => 0

def ranks : List (String × Ty) → List Nat
  | [] => []
  | (_, t) :: fields => t.rank :: ranks fields

end

theorem ranks_eq_map (fields : List (String × Ty)) : ranks fields = fields.map (·.2.rank) := by
  induction fields with
  | nil => rfl
  | cons f fields ih => rw [ranks, ih, List.map_cons]

theorem rank_shape (fields : List (String × Ty)) :
    rank (.shape fields) = if ∃ f ∈ fields, f.2.rank = 3 then 2 else 1 := by
  simp only [rank, ranks_eq_map, List.mem_map]

theorem rank_le (t : Ty) : t.rank ≤ 3 := by
  cases t with
  | shape fields =>
    rw [rank]
    split <;> omega
  | dynamic => exact Nat.zero_le 3
  | _ => exact Nat.le_refl 3

theorem rank_shape_le {fields fields' : List (String × Ty)}
    (h : ∀ f ∈ fields, f.2.rank = 3 → ∃ g ∈ fields', g.2.rank = 3) :
    rank (.shape fields) ≤ rank (.shape fields') := by
  rw [rank_shape, rank_shape]
  by_cases hthree : ∃ f ∈ fields, f.2.rank = 3
  · obtain ⟨f, hf, hrank⟩ := hthree
    rw [if_pos (h f hf hrank)]
    split <;> omega
  · rw [if_neg hthree]
    split <;> omega

theorem rank_of_isConcrete {t : Ty} (h : t.isConcrete = true) : t.rank = 3 := by
  cases t with
  | primitive kind => rfl
  | array element => rfl
  | function params returns => rfl
  | _ => cases h

end Ty

section

variable {leaves : List Leaf}

theorem rank_outcome_of_isType (members : MemberTable)
    (hconcrete : ∀ c ∈ claimsOf leaves, c.isConcrete = true) {leaf : Leaf} (h : leaf ∈ leaves)
    (htype : leaf.isType = true) (fields : List (String × Ty)) :
    (outcome members .keepFirst leaves fields).rank = 3 := by
  cases hfirst : leaves.find? Leaf.isType with
  | none => exact absurd htype (List.find?_eq_none.mp hfirst leaf h)
  | some first =>
    have hf : first.isType = true := List.find?_some hfirst
    cases first with
    | concrete c =>
      have hclaim := (outcome_of_first_concrete members hfirst fields).1
      exact Ty.rank_of_isConcrete (hconcrete _ hclaim)
    | name text =>
      rcases outcome_of_first_name members hfirst fields with he | ⟨rest, he⟩
      · rw [he]
        rfl
      · rw [he]
        rfl
    | touch => cases hf
    | emptyShape => cases hf

theorem outcome_of_untyped (members : MemberTable) (policy : ConflictPolicy)
    (h : ∀ leaf ∈ leaves, leaf.isType = false) (fields : List (String × Ty)) :
    outcome members policy leaves fields =
      if fields ≠ [] ∨ .emptyShape ∈ leaves then .shape fields else .dynamic := by
  have hclaims : claimsOf leaves = [] := claimsOf_eq_nil_iff.mpr fun c hc => nomatch h _ hc
  have hnames : namesOf leaves = [] := namesOf_eq_nil_iff.mpr fun text hn => nomatch h _ hn
  rw [outcome_of_claims_eq_nil hclaims]
  split
  · rename_i hf
    exact unclaimed_of_shape hnames hf
  · rename_i hf
    exact unclaimed_of_nothing hnames hf

end

section

variable {atoms atoms' : List Atom}

theorem leavesAt_subset (h : atoms ⊆ atoms') (p : Path) : leavesAt p atoms ⊆ leavesAt p atoms' := by
  intro leaf hleaf
  exact mem_leavesAt_iff.mpr (h (mem_leavesAt_iff.mp hleaf))

theorem segmentsBelow_subset (h : atoms ⊆ atoms') (p : Path) :
    segmentsBelow p atoms ⊆ segmentsBelow p atoms' := by
  intro s hs
  obtain ⟨q, leaf, hmem⟩ := mem_segmentsBelow_iff.mp hs
  exact mem_segmentsBelow_iff.mpr ⟨q, leaf, h hmem⟩

variable (members : MemberTable)
  (hconcrete : ∀ q, ∀ c ∈ claimsOf (leavesAt q atoms), c.isConcrete = true)
  (hconcrete' : ∀ q, ∀ c ∈ claimsOf (leavesAt q atoms'), c.isConcrete = true)

include hconcrete in
theorem rank_reference_eq_three_iff (p : Path) :
    (reference members .keepFirst atoms p).rank = 3 ↔
      ∃ leaf ∈ leavesAt p atoms, leaf.isType = true := by
  constructor
  · intro hrank
    by_contra hnone
    have huntyped : ∀ leaf ∈ leavesAt p atoms, leaf.isType = false := by simpa using hnone
    rw [reference_eq, outcome_of_untyped members _ huntyped] at hrank
    split at hrank
    · rw [Ty.rank_shape] at hrank
      split at hrank <;> cases hrank
    · cases hrank
  · rintro ⟨leaf, hleaf, htype⟩
    rw [reference_eq]
    exact rank_outcome_of_isType members (hconcrete p) hleaf htype _

include hconcrete hconcrete' in
/-- Only what is said at a path and one step below counts for the rank of its type, so that the
first discovery there need not be the same. -/
theorem rank_reference_mono (h : atoms ⊆ atoms') (p : Path) :
    (reference members .keepFirst atoms p).rank ≤ (reference members .keepFirst atoms' p).rank := by
  have hthree : ∀ q, (reference members .keepFirst atoms q).rank = 3 →
      (reference members .keepFirst atoms' q).rank = 3 := by
    intro q hq
    obtain ⟨leaf, hleaf, htype⟩ := (rank_reference_eq_three_iff members hconcrete q).mp hq
    exact (rank_reference_eq_three_iff members hconcrete' q).mpr
      ⟨leaf, leavesAt_subset h q hleaf, htype⟩
  by_cases htyped : ∃ leaf ∈ leavesAt p atoms', leaf.isType = true
  · rw [(rank_reference_eq_three_iff members hconcrete' p).mpr htyped]
    exact Ty.rank_le _
  · have huntyped' : ∀ leaf ∈ leavesAt p atoms', leaf.isType = false := by simpa using htyped
    have huntyped : ∀ leaf ∈ leavesAt p atoms, leaf.isType = false :=
      fun leaf hleaf => huntyped' leaf (leavesAt_subset h p hleaf)
    have hsegments := segmentsBelow_subset h p
    rw [reference_eq, reference_eq members _ atoms', outcome_of_untyped members _ huntyped,
      outcome_of_untyped members _ huntyped']
    split
    · rename_i hfields
      rw [if_pos]
      · refine Ty.rank_shape_le fun f hf hrank => ?_
        obtain ⟨s, hs, rfl⟩ := List.mem_map.mp hf
        exact ⟨_, List.mem_map_of_mem (hsegments hs), hthree (p.child s) hrank⟩
      · rcases hfields with hne | hempty
        · obtain ⟨s, hs⟩ := List.exists_mem_of_ne_nil _ (mt List.map_eq_nil_iff.mpr hne)
          exact .inl (List.ne_nil_of_mem (List.mem_map_of_mem (hsegments hs)))
        · exact .inr (leavesAt_subset h p hempty)
    · exact Nat.zero_le _

end

/-- With conflicts settled in favour of the first discovery, evidence that is inserted anywhere
lowers the rank of no type: neither that of the value itself nor that at any node of its tree, which
stays there. -/
theorem rank_synthesize_mono (members : MemberTable) (strategy : Strategy)
    {evidence evidence' : List Evidence} (h : evidence.Sublist evidence') :
    (synthesize members strategy .keepFirst evidence).rank ≤
        (synthesize members strategy .keepFirst evidence').rank ∧
      ∀ p node, (Trie.ofEvidence strategy evidence).find? p = some node →
        ∃ node', (Trie.ofEvidence strategy evidence').find? p = some node' ∧
          (node.resolve members .keepFirst).rank ≤ (node'.resolve members .keepFirst).rank := by
  have hatoms : atomsOf strategy evidence ⊆ atomsOf strategy evidence' := by
    intro a ha
    obtain ⟨e, he, hmem⟩ := mem_atomsOf_iff.mp ha
    exact mem_atomsOf_iff.mpr ⟨e, h.subset he, hmem⟩
  have hmono := rank_reference_mono members (claimsOf_leavesAt_isConcrete strategy evidence)
    (claimsOf_leavesAt_isConcrete strategy evidence') hatoms
  constructor
  · rw [synthesize, synthesize, Trie.resolve_ofEvidence, Trie.resolve_ofEvidence]
    exact hmono .root
  · intro p node hnode
    rw [Trie.ofEvidence_eq_ofAtoms, find?_ofAtoms_eq_some_iff] at hnode
    obtain ⟨hp, rfl⟩ := hnode
    have hp' : p = [] ∨ ∃ q leaf, ⟨p ++ q, leaf⟩ ∈ atomsOf strategy evidence' := by
      rcases hp with hroot | ⟨q, leaf, hmem⟩
      · exact .inl hroot
      · exact .inr ⟨q, leaf, hatoms hmem⟩
    refine ⟨Trie.ofAtoms (below p (atomsOf strategy evidence')), ?_, ?_⟩
    · rw [Trie.ofEvidence_eq_ofAtoms]
      exact find?_ofAtoms_eq_some_iff.mpr ⟨hp', rfl⟩
    · rw [Trie.resolve_ofAtoms_below, Trie.resolve_ofAtoms_below]
      exact hmono p

/-- The string that is inserted takes the place of the number, and the reference hides its field. -/
theorem rank_synthesize_mono_covered :
    let members : MemberTable := fun name => if name = "K" then some ["a"] else none
    let evidence : List Evidence := [.access ["a"], .numeric ["a"], .access ["b", "c"]]
    let evidence' : List Evidence := [.textual ["a"], .access ["a"], .argument [] (.named "K"),
      .numeric ["a"], .access ["b", "c"], .argument ["b"] (.array .dynamic)]
    evidence.Sublist evidence' ∧
      synthesize members .baseline .keepFirst evidence =
        .shape [("a", .number), ("b", .shape [("c", .dynamic)])] ∧
      synthesize members .baseline .keepFirst evidence' =
        .inter [.named "K", .shape [("b", .array .dynamic)]] ∧
      ((Trie.ofEvidence .baseline evidence').find? ["a"]).map (·.resolve members .keepFirst) =
        some .string ∧
      (synthesize members .baseline .keepFirst evidence).rank ≤
          (synthesize members .baseline .keepFirst evidence').rank ∧
        ∀ p node, (Trie.ofEvidence .baseline evidence).find? p = some node →
          ∃ node', (Trie.ofEvidence .baseline evidence').find? p = some node' ∧
            (node.resolve members .keepFirst).rank ≤ (node'.resolve members .keepFirst).rank :=
  ⟨by decide, by decide, by decide, by decide, rank_synthesize_mono _ _ (by decide)⟩

end UsageTypes
