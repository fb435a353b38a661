import UsageTypes.Proofs.Alongside

/-! Nested functions that redeclare a parameter. Whatever their bodies are, names outside of them mean
the same functions, and as long as types are read alike there the walk over the body of the parameter's
function collects the same evidence. -/

namespace UsageTypes

namespace Tree

/-- Whether a function has a name for itself or for one of its parameters. -/
def redeclares (name : String) (t : Tree) : Bool :=
  t.isFunctionLike &&
    ((!t.is .methodDefinition && t.declaredName? = some name) || t.boundNames.contains name)

/-- The functions that redeclare a name. -/
def Selection.redeclaring (name : String) : Selection where
  has := redeclares name
  isFunctionLike h := (Bool.and_eq_true_iff.mp h).1

theorem Parallel.redeclares_eq {s : Selection} {t u : Tree} (h : t.Parallel s u) {n : String}
    (hn : isMarked n = false) : t.redeclares n = u.redeclares n := by
  rw [redeclares, redeclares, h.isFunctionLike_eq, h.is_eq, h.contains_boundNames_eq hn]
  simp only [h.declaredName?_eq_iff hn]

end Tree

theorem Focus.redeclares_eq_tree (f : Focus) {t : Tree} (h : t.isFunctionLike = true) :
    f.redeclares t = t.redeclares f.name := by
  rw [Tree.redeclares, h, Bool.true_and]
  rfl

/-- What is sought of a parameter with the name stays, if the function's own parameters bind the same
names and its body redeclares nothing. -/
theorem focus_along {name : String} {b b' : Place} {root root' : Tree}
    (hstart : b.Parallel (.redeclaring name) b') (hb : b.In root) (hb' : b'.In root')
    (htypes : ∀ p q, p.In root → q.In root' → Place.Along (.redeclaring name) b b' p q → p.ReadsAlike q)
    {f g : Place} (hfg : Place.Along (.redeclaring name) b b' f g) (hf : f.child? .body = some b)
    (hg : g.child? .body = some b') (hplain : b.tree.redeclares name = false)
    (hparameters : f.parameters.map (·.tree.parameterName?) = g.parameters.map (·.tree.parameterName?))
    (hn : isMarked name = false) (limit : Nat) :
    ((Program.ofTree root).focus f name limit).Mirrors (Place.Along (.redeclaring name) b b')
      ((Program.ofTree root').focus g name limit) := by
  refine {
    program := mirrors_of_along hstart hb hb' htypes
    scope_eq := scopeOf_along hstart hb hb' htypes hfg hf hg hplain hparameters
    path?_eq := fun h => (h.parallel hstart).tree.accessPath_eq name limit
    redeclares_eq := fun h hfunction => ?_
    body := fun {p q} h hkeeps => h.child?_rel hstart fun hredeclares => ?_ }
  · have htree := (h.parallel hstart).tree
    rw [Focus.redeclares_eq_tree _ hfunction,
      Focus.redeclares_eq_tree _ (htree.isFunctionLike_eq ▸ hfunction)]
    exact htree.redeclares_eq hn
  · rw [Focus.redeclares_eq_tree _ (Tree.Selection.isFunctionLike _ hredeclares)] at hkeeps
    exact absurd (hkeeps.symm.trans hredeclares) (by decide)

/-- Nested functions that redeclare a parameter do not interfere: with any other bodies in them, the
evidence about the parameter is the same, item for item, as long as every annotation, return type and
cast outside of the bodies is read as the same type. -/
theorem evidence_rebodied {source : String} {root root' : Tree} (hroot : readProgram source = some root)
    {name : String} (hname : name ∈ root.identifiers) {f g b b' : Place} (hf : f.In root)
    (hg : g.In root') (hb : f.child? .body = some b) (hb' : g.child? .body = some b')
    (hblock : b.is .statementBlock = true) (hsame : b.Agrees (.redeclaring name) b')
    (hparameters : f.parameters.map (·.tree.parameterName?) = g.parameters.map (·.tree.parameterName?))
    (htypes : ∀ p q, p.In root → q.In root' → Place.Along (.redeclaring name) b b' p q → p.ReadsAlike q)
    (limit : Nat) :
    (Program.ofTree root).evidence f name limit b = (Program.ofTree root').evidence g name limit b' := by
  have hk := Place.is_iff.mp hblock
  have hbin : b.In root := hf.child_of_kind? hb hk
  have hwell := wellRead_of_readProgram hroot
  have hn : isMarked name = false := by
    obtain ⟨t, ht, rfl⟩ := List.mem_map.mp hname
    obtain ⟨ht, hid⟩ := List.mem_filter.mp ht
    rw [← map_tree_places [] root] at ht
    obtain ⟨p, hp, rfl⟩ := List.mem_map.mp ht
    exact ((Place.mem_nodes_iff.mp hp).wellRead hwell).1.not_isMarked (of_decide_eq_true hid)
  have hstart : b.Parallel (.redeclaring name) b' :=
    hsame.parallel (hbin.wellRead hwell).1 (hbin.wellRead hwell).2
  have hbin' : b'.In root' := hg.child_of_kind? hb' (hstart.tree.kind?_eq ▸ hk)
  have hfg : Place.Along (.redeclaring name) b b' f g := by
    obtain ⟨i, t, -, rfl⟩ := Place.mem_children (List.mem_of_find?_eq_some hb)
    obtain ⟨j, u, -, rfl⟩ := Place.mem_children (List.mem_of_find?_eq_some hb')
    exact .outer .start
  have hplain : b.tree.redeclares name = false :=
    (Tree.Selection.redeclaring name).not_has (Tree.not_isFunctionLike_of_kind? hk rfl)
  have hfocus := focus_along hstart hbin hbin' htypes hfg hb hb' hplain hparameters hn limit
  exact hfocus.visit_eq (limit + 1) .start

/-- A function that is called and redeclares the parameter of its caller. What it declares counts as
before, and what its body does counts for nothing. -/
theorem evidence_rebodied_of_called_function :
    let source := "function f(p) { p.a = q as A; h(p); function h(b: B, p) { p() } }"
    let source' := "function f(p) { p.a = q as A; h(p); function h(b: B, p) { return p.c } }"
    let root := (readProgram source).getD default
    let root' := (readProgram source').getD default
    let f := ((Program.ofTree root).declarations[0]?).getD default
    let g := ((Program.ofTree root').declarations[0]?).getD default
    let b := (f.child? .body).getD default
    let b' := (g.child? .body).getD default
    (readProgram source = some root ∧ "p" ∈ root.identifiers ∧ f.In root ∧ g.In root' ∧
        f.child? .body = some b ∧ g.child? .body = some b' ∧ b.is .statementBlock = true ∧
        b.Agrees (.redeclaring "p") b' ∧
        f.parameters.map (·.tree.parameterName?) = g.parameters.map (·.tree.parameterName?) ∧
        ∀ p q, p.In root → q.In root' → Place.Along (.redeclaring "p") b b' p q → p.ReadsAlike q) ∧
      ((Program.ofTree root).evidence f "p" 256 b).map (·.display) =
        ["access <root>", "access a", "assign a: A", "access <root>", "argument <root>: B"] ∧
      (Program.ofTree root).evidence f "p" 256 b = (Program.ofTree root').evidence g "p" 256 b' := by
  intro source source' root root' f g b b'
  have hfacts : (readProgram source).isSome = true ∧ "p" ∈ root.identifiers ∧
      ((Program.ofTree root).declarations[0]?).isSome = true ∧
      ((Program.ofTree root').declarations[0]?).isSome = true ∧
      (f.child? .body).isSome = true ∧ (g.child? .body).isSome = true ∧
      b.is .statementBlock = true ∧ b.Agrees (.redeclaring "p") b' ∧
      f.parameters.map (·.tree.parameterName?) = g.parameters.map (·.tree.parameterName?) ∧
      (∀ p ∈ (Program.ofTree root).places, ∀ q ∈ (Program.ofTree root').places,
        p.address = q.address → p.ReadsAlike q) ∧
      ((Program.ofTree root).evidence f "p" 256 b).map (·.display) =
        ["access <root>", "access a", "assign a: A", "access <root>", "argument <root>: B"] := by
    decide +kernel
  obtain ⟨hread, hname, hf, hg, hb, hb', hblock, hsame, hparameters, htypes, hdisplay⟩ := hfacts
  have hfin : f.In root := declarations_in (eq_some_getD hf)
  have hgin : g.In root' := declarations_in (eq_some_getD hg)
  have haddress : b.address = b'.address := map_eq_of_forall₂ hsame.above fun _ _ hab => hab.2
  have halike : ∀ p q, p.In root → q.In root' → Place.Along (.redeclaring "p") b b' p q → p.ReadsAlike q := by
    intro p q hp hq h
    exact htypes p (Place.mem_nodes_iff.mpr hp) q (Place.mem_nodes_iff.mpr hq) (h.address_eq haddress)
  have hread := eq_some_getD (d := default) hread
  have hb := eq_some_getD (d := default) hb
  have hb' := eq_some_getD (d := default) hb'
  exact ⟨⟨hread, hname, hfin, hgin, hb, hb', hblock, hsame, hparameters, halike⟩, hdisplay,
    evidence_rebodied hread hname hfin hgin hb hb' hblock hsame hparameters halike 256⟩

/-- A type that is not understood is kept by its text, and with it a body that stands there: the
evidence then differs with the body. -/
theorem evidence_rebodied_inside_type :
    let root := (readProgram "function f(p) { p.a = q as { [p => 1]: A } | B }").getD default
    let root' := (readProgram "function f(p) { p.a = q as { [p => 2]: A } | B }").getD default
    let f := ((Program.ofTree root).declarations[0]?).getD default
    let g := ((Program.ofTree root').declarations[0]?).getD default
    let b := (f.child? .body).getD default
    let b' := (g.child? .body).getD default
    b.is .statementBlock = true ∧ b.Agrees (.redeclaring "p") b' ∧
      f.parameters.map (·.tree.parameterName?) = g.parameters.map (·.tree.parameterName?) ∧
      (Program.ofTree root).evidence f "p" 256 b = [.access [], .access ["a"],
        .assign ["a"] (.named "{ [p => 1]: A } | B")] ∧
      (Program.ofTree root').evidence g "p" 256 b' = [.access [], .access ["a"],
        .assign ["a"] (.named "{ [p => 2]: A } | B")] := by
  decide +kernel

end UsageTypes
