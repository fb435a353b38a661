import Mathlib.Data.List.Induction
import UsageTypes.Proofs.Alongside

/-! The local names of a function. Its parameters are bound first, then the variables of its body in
document order, each in the scope of those before; what stands in nested functions counts for nothing. -/

namespace UsageTypes

namespace Scope

/-- Binds names one after the other, each to a type that may depend on the scope so far. -/
def bindAll (type : Scope → Place → Ty) (scope : Scope) (ds : List (Place × String)) : Scope :=
  ds.foldl (fun scope d => scope.bind d.2 (type scope d.1)) scope

variable {type : Scope → Place → Ty} {scope : Scope} {ds : List (Place × String)}

theorem bindAll_append_singleton (d : Place × String) : bindAll type scope (ds ++ [d]) =
    (bindAll type scope ds).bind d.2 (type (bindAll type scope ds) d.1) := by
  rw [bindAll, List.foldl_append]
  rfl

theorem append_singleton_eq_append_cons {α : Type} {xs pre post : List α} {e a : α}
    (h : xs ++ [e] = pre ++ a :: post) :
    (post = [] ∧ xs = pre ∧ e = a) ∨ ∃ rest, post = rest ++ [e] ∧ xs = pre ++ a :: rest := by
  rcases List.eq_nil_or_concat' post with rfl | ⟨rest, c, rfl⟩
  · obtain ⟨rfl, he⟩ := List.append_inj' h rfl
    exact .inl ⟨rfl, rfl, List.singleton_inj.mp he⟩
  · rw [← List.cons_append, ← List.append_assoc] at h
    obtain ⟨rfl, he⟩ := List.append_inj' h rfl
    obtain rfl := List.singleton_inj.mp he
    exact .inr ⟨rest, rfl, rfl⟩

/-- The last binding of a name counts, if there is one. -/
theorem lookup_bindAll_eq_some_iff {n : String} {t : Ty} :
    (bindAll type scope ds).lookup n = some t ↔
      (∃ pre d post, ds = pre ++ (d, n) :: post ∧ n ∉ post.map Prod.snd ∧
        t = type (bindAll type scope pre) d) ∨
      (n ∉ ds.map Prod.snd ∧ scope.lookup n = some t) := by
  induction ds using List.reverseRecOn with
  | nil => simp [bindAll]
  | append_singleton ds e ih =>
    rw [bindAll_append_singleton, lookup_bind]
    by_cases hn : n = e.2
    · subst hn
      rw [if_pos rfl, Option.some.injEq]
      constructor
      · rintro rfl
        exact .inl ⟨ds, e.1, [], rfl, by simp, rfl⟩
      · rintro (⟨pre, d, post, hsplit, hpost, rfl⟩ | ⟨hmem, -⟩)
        · rcases append_singleton_eq_append_cons hsplit with ⟨-, rfl, he⟩ | ⟨rest, rfl, -⟩
          · rw [he]
          · simp at hpost
        · simp at hmem
    · rw [if_neg hn, ih]
      constructor
      · rintro (⟨pre, d, post, rfl, hpost, rfl⟩ | ⟨hmem, hlookup⟩)
        · exact .inl ⟨pre, d, post ++ [e], by simp, by simpa [hn] using hpost, rfl⟩
        · exact .inr ⟨by simpa [hn] using hmem, hlookup⟩
      · rintro (⟨pre, d, post, hsplit, hpost, rfl⟩ | ⟨hmem, hlookup⟩)
        · rcases append_singleton_eq_append_cons hsplit with ⟨-, -, rfl⟩ | ⟨rest, rfl, rfl⟩
          · exact absurd rfl hn
          · exact .inl ⟨pre, d, rest, rfl, by simpa [hn] using hpost, rfl⟩
        · exact .inr ⟨by simpa [hn] using hmem, hlookup⟩

end Scope

namespace Place

/-- The second node stands in the first and is no function. -/
def Opens (p c : Place) : Prop := c ∈ p.named ∧ c.tree.isFunctionLike = false

/-- A node and what can be reached from it without entering a function. -/
def outside (p : Place) : List Place := p.tree.places (!·.isFunctionLike) p.above

theorem mem_outside_iff {p q : Place} :
    q ∈ p.outside ↔ p.tree.isNamed = true ∧ Relation.ReflTransGen Opens p q := by
  have hopens : Enters (!·.isFunctionLike) = Opens := by
    funext p c
    simp [Enters, Opens]
  rw [outside, mem_places_iff, hopens]

theorem outside_pairwise (p : Place) : p.outside.Pairwise Before :=
  places_pairwise _ p

/-- The name that a variable declarator binds, unless it is a pattern. -/
def variableName? (v : Place) : Option String :=
  if v.is .variableDeclarator then ((v.tree.child? .name).filter (·.is .identifier)).map Tree.text
  else none

/-- The parameters of a function that have a name, with their names. -/
def namedParameters (f : Place) : List (Place × String) :=
  f.parameters.filterMap fun p => p.tree.parameterName?.map (p, ·)

/-- The variables of a function with their names. -/
def namedVariables (f : Place) : List (Place × String) :=
  ((f.child? .body).toList.flatMap outside).filterMap fun v => v.variableName?.map (v, ·)

theorem mem_namedVariables_iff {f v : Place} {n : String} : (v, n) ∈ f.namedVariables ↔
    v.variableName? = some n ∧
      ∃ b, f.child? .body = some b ∧ Relation.ReflTransGen Opens b v := by
  have hnode : ∀ {b : Place}, Relation.ReflTransGen Opens b v → v.variableName? = some n →
      b.tree.isNamed = true := by
    intro b hb hv
    rcases Relation.ReflTransGen.cases_head hb with rfl | ⟨c, hc, -⟩
    · rw [variableName?] at hv
      split at hv
      · rename_i hk
        exact Tree.isNamed_of_kind? (is_iff.mp hk)
      · cases hv
    · exact Tree.isNamed_of_mem_children (tree_mem_of_mem_named hc.1)
  simp only [namedVariables, List.mem_filterMap, List.mem_flatMap, Option.mem_toList,
    Option.map_eq_some_iff, Prod.mk.injEq, mem_outside_iff]
  constructor
  · rintro ⟨w, ⟨b, hb, -, hw⟩, m, hm, rfl, rfl⟩
    exact ⟨hm, b, hb, hw⟩
  · rintro ⟨hn, b, hb, hv⟩
    exact ⟨v, ⟨b, hb, hnode hv hn, hv⟩, n, hn, rfl, rfl⟩

theorem namedVariables_pairwise (f : Place) : (f.namedVariables.map Prod.fst).Pairwise Before := by
  have hall : ((f.child? .body).toList.flatMap outside).Pairwise Before := by
    cases f.child? .body with
    | none => exact .nil
    | some b => simpa using b.outside_pairwise
  have hfilter : f.namedVariables.map Prod.fst =
      ((f.child? .body).toList.flatMap outside).filter (·.variableName?.isSome) := by
    rw [namedVariables, List.map_filterMap, ← List.filterMap_eq_filter]
    refine List.filterMap_congr fun v _ => ?_
    cases h : v.variableName? <;> simp [Option.guard, h]
  rw [hfilter]
  exact hall.filter _

end Place

namespace Program

/-- The type of a variable: that of its ascription, else that of its value in the scope so far. -/
def variableType (program : Program) (scope : Scope) (v : Place) : Ty :=
  match v.tree.child? .typing with
  | some ascription => resolveType ascription
  | none => ((v.child? .value).bind (program.typeOf scope)).getD .dynamic

/-- The scope of a function before its body. -/
def parameterScope (program : Program) (f : Place) : Scope :=
  Scope.bindAll (fun _ p => (program.parameterType p).getD .dynamic) .empty f.namedParameters

theorem bindVariable_eq (program : Program) (scope : Scope) {v : Place}
    (hv : v.is .variableDeclarator = true) : program.bindVariable scope v =
      match v.variableName? with
      | some n => scope.bind n (program.variableType scope v)
      | none => scope := by
  rw [bindVariable, Place.variableName?, if_pos hv, variableType]
  cases v.tree.child? .name with
  | none => rfl
  | some name =>
    cases hid : name.is .identifier with
    | false => simp [Option.filter, hid]
    | true => cases v.tree.child? .typing <;> simp [Option.filter, hid]

theorem foldl_bindParameter (program : Program) (f : Place) :
    f.parameters.foldl program.bindParameter .empty = program.parameterScope f := by
  rw [parameterScope, Scope.bindAll, Place.namedParameters, List.foldl_filterMap]
  refine List.foldl_ext _ _ _ fun scope p _ => ?_
  rw [bindParameter]
  cases p.tree.parameterName? <;> rfl

theorem foldl_bindVariable (program : Program) (scope : Scope) (b : Place) :
    (variablesOf b).foldl program.bindVariable scope = Scope.bindAll program.variableType scope
      (b.outside.filterMap fun v => v.variableName?.map (v, ·)) := by
  rw [variablesOf, ← Place.outside, List.foldl_filter, Scope.bindAll, List.foldl_filterMap]
  refine List.foldl_ext _ _ _ fun scope v _ => ?_
  cases hv : v.is .variableDeclarator with
  | false => simp [Place.variableName?, hv]
  | true =>
    rw [if_pos rfl, program.bindVariable_eq scope hv]
    cases v.variableName? <;> rfl

theorem scopeOf_eq_bindAll (program : Program) (f : Place) : program.scopeOf f =
    Scope.bindAll program.variableType (program.parameterScope f) f.namedVariables := by
  rw [scopeOf_eq_foldl, foldl_bindParameter, Place.namedVariables]
  cases f.child? .body with
  | none => rfl
  | some b => simpa using program.foldl_bindVariable _ b

/-- A number of turns of the walk with a stack. The node on top is looked at; what stands in it outside
of functions takes its place, the first node on top. -/
def bindPending (program : Program) : Nat → List Place → Scope → Scope
  | 0, _, scope => scope
  | _ + 1, [], scope => scope
  | steps + 1, p :: pending, scope =>
    program.bindPending steps (p.named.filter (!·.tree.isFunctionLike) ++ pending)
      (if p.is .variableDeclarator then program.bindVariable scope p else scope)

theorem bindPending_nil (program : Program) (steps : Nat) (scope : Scope) :
    program.bindPending steps [] scope = scope := by
  cases steps <;> rfl

/-- The walk comes to an end, and more turns change nothing. -/
theorem exists_bindPending (program : Program) (pending : List Place) (scope : Scope) :
    ∃ n, ∀ steps, program.bindPending (n + steps) pending scope =
      Place.traverse (!·.isFunctionLike) program.bindNode scope pending := by
  induction scope, pending using Place.traverse.induct (!·.isFunctionLike) program.bindNode with
  | case1 scope => exact ⟨0, fun steps => by rw [bindPending_nil, Place.traverse]⟩
  | case2 scope p pending ih =>
    obtain ⟨n, hn⟩ := ih
    refine ⟨n + 1, fun steps => ?_⟩
    rw [Nat.add_right_comm, Place.traverse, ← hn steps, Place.push_reverse]
    rfl

theorem exists_scopeOf_eq_bindPending (program : Program) (f : Place) : ∃ n, ∀ steps,
    program.scopeOf f =
      program.bindPending (n + steps) (f.child? .body).toList (program.parameterScope f) := by
  rw [scopeOf, foldl_bindParameter]
  cases f.child? .body with
  | none => exact ⟨0, fun steps => (program.bindPending_nil _ _).symm⟩
  | some b =>
    obtain ⟨n, hn⟩ := program.exists_bindPending [b] (program.parameterScope f)
    exact ⟨n, fun steps => (hn steps).symm⟩

theorem lookup_scopeOf_eq_some_iff {program : Program} {f : Place} {n : String} {t : Ty} :
    (program.scopeOf f).lookup n = some t ↔
      (∃ pre v post, f.namedVariables = pre ++ (v, n) :: post ∧ n ∉ post.map Prod.snd ∧
        t = program.variableType
          (Scope.bindAll program.variableType (program.parameterScope f) pre) v) ∨
      (n ∉ f.namedVariables.map Prod.snd ∧ ∃ pre p post, f.namedParameters = pre ++ (p, n) :: post ∧
        n ∉ post.map Prod.snd ∧ t = (program.parameterType p).getD .dynamic) := by
  have hempty : Scope.empty.lookup n ≠ some t := fun h => nomatch h
  rw [scopeOf_eq_bindAll, Scope.lookup_bindAll_eq_some_iff, parameterScope,
    Scope.lookup_bindAll_eq_some_iff]
  simp only [hempty, and_false, or_false]

end Program

/-- The scope of a function declaration is the fold of its declarations: its named parameters, then the
variables of its body in document order, those in nested functions apart, each bound to the type that
it has in the scope so far. The walk with a stack leaves the same scope, the last binding of a name is
what a lookup gives, and no other bodies in nested functions make a difference, as long as every
annotation, return type and cast outside of them is read as the same type. -/
theorem scopeOf_fold {source : String} {root : Tree} (hroot : readProgram source = some root) {f : Place}
    (hf : f.In root) (hdeclaration : f.tree.isDeclaration = true) :
    let program := Program.ofTree root
    (∃ vs : List (Place × String),
      (∀ v n, (v, n) ∈ vs ↔ v.variableName? = some n ∧
        ∃ b, f.child? .body = some b ∧ Relation.ReflTransGen Place.Opens b v) ∧
      (vs.map Prod.fst).Pairwise Place.Before ∧
      program.scopeOf f = Scope.bindAll program.variableType (program.parameterScope f) vs ∧
      ∀ n t, (program.scopeOf f).lookup n = some t ↔
        (∃ pre v post, vs = pre ++ (v, n) :: post ∧ n ∉ post.map Prod.snd ∧
          t = program.variableType
            (Scope.bindAll program.variableType (program.parameterScope f) pre) v) ∨
        (n ∉ vs.map Prod.snd ∧ ∃ pre p post, f.namedParameters = pre ++ (p, n) :: post ∧
          n ∉ post.map Prod.snd ∧ t = (program.parameterType p).getD .dynamic)) ∧
    (∃ n, ∀ steps, program.scopeOf f =
      program.bindPending (n + steps) (f.child? .body).toList (program.parameterScope f)) ∧
    ∀ {root' : Tree} {g b b' : Place}, g.In root' → f.child? .body = some b →
      g.child? .body = some b' → b.Agrees .functions b' →
      f.parameters.map (·.tree.parameterName?) = g.parameters.map (·.tree.parameterName?) →
      (∀ p q, p.In root → q.In root' → Place.Along .functions b b' p q → p.ReadsAlike q) →
      (Program.ofTree root').scopeOf g = program.scopeOf f := by
  intro program
  refine ⟨⟨f.namedVariables, fun v n => Place.mem_namedVariables_iff, f.namedVariables_pairwise,
    program.scopeOf_eq_bindAll f, fun n t => Program.lookup_scopeOf_eq_some_iff⟩,
    program.exists_scopeOf_eq_bindPending f, ?_⟩
  intro root' g b b' hg hb hb' hsame hparameters htypes
  have hwell := hf.wellRead (wellRead_of_readProgram hroot)
  have hk : b.tree.kind? = some .statementBlock := by
    have hbody : f.tree.child? .body = some b.tree := by rw [← Place.map_tree_child?, hb, Option.map_some]
    exact Place.is_iff.mp (hwell.1.body hdeclaration hbody)
  have hbin : b.In root := hf.child_of_kind? hb hk
  have hstart : b.Parallel .functions b' :=
    hsame.parallel (hbin.wellRead (wellRead_of_readProgram hroot)).1
      (hbin.wellRead (wellRead_of_readProgram hroot)).2
  have hbin' : b'.In root' := hg.child_of_kind? hb' (hstart.tree.kind?_eq ▸ hk)
  have hfg : Place.Along .functions b b' f g := by
    obtain ⟨i, t, -, rfl⟩ := Place.mem_children (List.mem_of_find?_eq_some hb)
    obtain ⟨j, u, -, rfl⟩ := Place.mem_children (List.mem_of_find?_eq_some hb')
    exact .outer .start
  have hplain : b.tree.isFunctionLike = false := Tree.not_isFunctionLike_of_kind? hk rfl
  exact (scopeOf_along hstart hbin hbin' htypes hfg hb hb' hplain hparameters).symm

/-- A variable that is declared twice, with a function behind it. -/
theorem scopeOf_fold_of_nested_functions :
    let source := "function f(p: A) { let v = p; { var v = h() } function h(): B { p } }"
    let source' := "function f(p: A) { let v = p; { var v = h() } function h(): B { let v } }"
    let root := (readProgram source).getD default
    let root' := (readProgram source').getD default
    let f := ((Program.ofTree root).declarations[0]?).getD default
    let g := ((Program.ofTree root').declarations[0]?).getD default
    let b := (f.child? .body).getD default
    let b' := (g.child? .body).getD default
    (readProgram source = some root ∧ f.In root ∧ f.tree.isDeclaration = true ∧ g.In root' ∧
        f.child? .body = some b ∧ g.child? .body = some b' ∧ b.Agrees .functions b' ∧
        f.parameters.map (·.tree.parameterName?) = g.parameters.map (·.tree.parameterName?) ∧
        ∀ p q, p.In root → q.In root' → Place.Along .functions b b' p q → p.ReadsAlike q) ∧
      (Program.ofTree root).scopeOf f = [("v", .named "B"), ("v", .named "A"), ("p", .named "A")] ∧
      (Program.ofTree root').scopeOf g = (Program.ofTree root).scopeOf f := by
  intro source source' root root' f g b b'
  have hfacts : (readProgram source).isSome = true ∧
      ((Program.ofTree root).declarations[0]?).isSome = true ∧
      ((Program.ofTree root').declarations[0]?).isSome = true ∧
      (f.child? .body).isSome = true ∧ (g.child? .body).isSome = true ∧ b.Agrees .functions b' ∧
      f.parameters.map (·.tree.parameterName?) = g.parameters.map (·.tree.parameterName?) ∧
      (∀ p ∈ (Program.ofTree root).places, ∀ q ∈ (Program.ofTree root').places,
        p.address = q.address → p.ReadsAlike q) ∧
      (Program.ofTree root).scopeOf f = [("v", .named "B"), ("v", .named "A"), ("p", .named "A")] := by
    decide +kernel
  obtain ⟨hread, hf, hg, hb, hb', hsame, hparameters, htypes, hscope⟩ := hfacts
  have hfin : f.In root := declarations_in (eq_some_getD hf)
  have hdeclaration : f.tree.isDeclaration = true := declarations_isDeclaration (eq_some_getD hf)
  have hgin : g.In root' := declarations_in (eq_some_getD hg)
  have haddress : b.address = b'.address := map_eq_of_forall₂ hsame.above fun _ _ hab => hab.2
  have halike : ∀ p q, p.In root → q.In root' → Place.Along .functions b b' p q → p.ReadsAlike q := by
    intro p q hp hq h
    exact htypes p (Place.mem_nodes_iff.mpr hp) q (Place.mem_nodes_iff.mpr hq) (h.address_eq haddress)
  obtain ⟨-, -, hrebodied⟩ := scopeOf_fold (eq_some_getD hread) hfin hdeclaration
  exact ⟨⟨eq_some_getD hread, hfin, hdeclaration, hgin, eq_some_getD hb, eq_some_getD hb', hsame,
    hparameters, halike⟩, hscope,
    hrebodied hgin (eq_some_getD hb) (eq_some_getD hb') hsame hparameters halike⟩

/-- A type that is not understood is kept by its text, and with it the body of a function that stands
there: the scope then differs with the body. -/
theorem scopeOf_rebodied_inside_type :
    let root := (readProgram "function f(p) { let v: { [p => 1]: A } | B }").getD default
    let root' := (readProgram "function f(p) { let v: { [p => 2]: A } | B }").getD default
    let f := ((Program.ofTree root).declarations[0]?).getD default
    let g := ((Program.ofTree root').declarations[0]?).getD default
    let b := (f.child? .body).getD default
    let b' := (g.child? .body).getD default
    f.tree.isDeclaration = true ∧ b.Agrees .functions b' ∧
      f.parameters.map (·.tree.parameterName?) = g.parameters.map (·.tree.parameterName?) ∧
      (Program.ofTree root).scopeOf f = [("v", .named "{ [p => 1]: A } | B"), ("p", .dynamic)] ∧
      (Program.ofTree root').scopeOf g = [("v", .named "{ [p => 2]: A } | B"), ("p", .dynamic)] := by
  decide +kernel

end UsageTypes
