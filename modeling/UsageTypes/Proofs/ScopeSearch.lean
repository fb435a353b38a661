import UsageTypes.Proofs.DocumentOrder

/-! The function that a name means. It is a declaration of that name, made by a statement of a block
around the place where the name stands. -/

namespace UsageTypes

namespace Place

theorem In.child_of_kind? {root : Tree} {p c : Place} {k : Kind} {l : Label} (hp : p.In root)
    (hc : p.child? l = some c) (hk : c.tree.kind? = some k) : c.In root :=
  hp.child (mem_named.mpr ⟨List.mem_of_find?_eq_some hc, Tree.isNamed_of_kind? hk⟩)

theorem In.of_suffix {root : Tree} {p : Place} (hp : p.In root) {t : Tree} {i : Nat}
    {above : List (Tree × Nat)} (h : (t, i) :: above <:+ p.above) : In root ⟨t, above⟩ := by
  obtain ⟨u, around⟩ := p
  induction around generalizing u with
  | nil => simp at h
  | cons outer around ih =>
    rcases List.suffix_cons_iff.mp h with he | h
    · obtain ⟨rfl, rfl⟩ := List.cons.inj he
      exact hp.parent
    · exact ih _ hp.parent h

theorem is_iff {p : Place} {k : Kind} : p.is k = true ↔ p.tree.kind? = some k :=
  decide_eq_true_iff

theorem unwrap_of_is_identifier {p : Place} (h : p.is .identifier = true) : p.unwrap = p := by
  obtain ⟨t, above⟩ := p
  cases t with
  | node l k start cs =>
    obtain rfl : k = .identifier := by simpa [is, Tree.is, Tree.kind?] using h
    rfl
  | _ => rfl

end Place

section Scopes

variable {name : String} {f : Place}

/-- The function that a statement binds to a name is what it declares, under that name. -/
theorem statementBinding_eq_function {s : Place} (h : statementBinding name s = some (.function f)) :
    declarationOf s = some f ∧ f.tree.isDeclaration = true ∧ f.tree.declaredName? = some name := by
  rw [statementBinding] at h
  cases hd : declarationOf s with
  | none => simp [hd] at h
  | some d =>
    simp only [hd] at h
    have hfunction : ∀ {k : Kind}, d.tree.kind? = some k → k.isDeclaration = true →
        (if d.tree.declaredName? = some name then some (Binding.function d) else none) =
          some (.function f) →
        some d = some f ∧ f.tree.isDeclaration = true ∧ f.tree.declaredName? = some name := by
      intro k hk hdeclaration h
      split at h
      · obtain rfl : d = f := by simpa using h
        exact ⟨rfl, by rw [Tree.isDeclaration, hk, Option.any_some, hdeclaration], ‹_›⟩
      · cases h
    split at h
    · exact hfunction ‹_› rfl h
    · exact hfunction ‹_› rfl h
    · split at h <;> cases h
    · split at h <;> cases h
    · split at h <;> cases h
    · cases h

/-- A function is found as the one that a statement in a block around declares. -/
theorem exists_of_lookupFunction {above : List (Tree × Nat)} (h : lookupFunction name above = some f) :
    ∃ t i outer, (t, i) :: outer <:+ above ∧ ∃ s ∈ Place.named ⟨t, outer⟩,
      statementBinding name s = some (.function f) := by
  induction above with
  | nil => cases h
  | cons a above ih =>
    obtain ⟨t, i⟩ := a
    have hout : lookupFunction name above = some f → ∃ u j outer, (u, j) :: outer <:+ (t, i) :: above ∧
        ∃ s ∈ Place.named ⟨u, outer⟩, statementBinding name s = some (.function f) := by
      intro h
      obtain ⟨u, j, outer, hsuffix, hs⟩ := ih h
      exact ⟨u, j, outer, hsuffix.trans (List.suffix_cons _ _), hs⟩
    rw [lookupFunction] at h
    split at h
    · cases h
    · split at h
      · split at h
        · rename_i g hg
          obtain rfl := Option.some.inj h
          exact ⟨t, i, above, List.suffix_rfl, List.exists_of_findSome?_eq_some hg⟩
        · cases h
        · exact hout h
      · exact hout h

variable {root : Tree}

theorem lookupFunction_in {p : Place} (hp : p.In root) (h : lookupFunction name p.above = some f) :
    f.In root ∧ f.tree.isDeclaration = true ∧ f.tree.declaredName? = some name := by
  obtain ⟨t, i, outer, hsuffix, s, hs, hbinding⟩ := exists_of_lookupFunction h
  obtain ⟨hd, hdeclaration, hname⟩ := statementBinding_eq_function hbinding
  refine ⟨?_, hdeclaration, hname⟩
  have hin : s.In root := (hp.of_suffix hsuffix).child hs
  rw [declarationOf] at hd
  split at hd
  · obtain ⟨k, hk, -⟩ := (Option.any_eq_true _ _).mp hdeclaration
    exact hin.child_of_kind? hd hk
  · obtain rfl := Option.some.inj hd
    exact hin

theorem mem_functionNames {f : Place} (hf : f.In root) (hdeclaration : f.tree.isDeclaration = true)
    (hname : f.tree.declaredName? = some name) : name ∈ (Program.ofTree root).functionNames := by
  rw [Program.functionNames_ofTree]
  refine List.mem_filterMap.mpr ⟨f.tree, List.mem_filter.mpr ⟨?_, hdeclaration⟩, hname⟩
  rw [← map_tree_places [] root]
  exact List.mem_map_of_mem (Place.mem_nodes_iff.mpr hf)

/-- A callee in a tree means what looking its name up gives: every declaration has been noted. -/
theorem resolveFunction_eq_lookup {callee : Place} (hc : callee.unwrap.In root)
    (hid : callee.unwrap.is .identifier = true) : (Program.ofTree root).resolveFunction callee =
      lookupFunction callee.unwrap.text callee.unwrap.above := by
  simp only [Program.resolveFunction, hid, Bool.true_and, List.contains_iff_mem]
  split
  · rfl
  · rename_i hmem
    cases h : lookupFunction callee.unwrap.text callee.unwrap.above with
    | none => rfl
    | some f =>
      obtain ⟨hin, hdeclaration, hname⟩ := lookupFunction_in hc h
      exact absurd (mem_functionNames hin hdeclaration hname) hmem

theorem resolveFunction_in {callee : Place} (hc : callee.In root) (hid : callee.is .identifier = true)
    (h : (Program.ofTree root).resolveFunction callee = some f) : f.In root := by
  have hunwrap := Place.unwrap_of_is_identifier hid
  rw [resolveFunction_eq_lookup (by rwa [hunwrap]) (by rwa [hunwrap]), hunwrap] at h
  exact (lookupFunction_in hc h).1

end Scopes

end UsageTypes
