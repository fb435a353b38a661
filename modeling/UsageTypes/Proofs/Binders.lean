import UsageTypes.Proofs.InnermostBinding
import UsageTypes.Proofs.Mirroring

/-! Names that the patterns of parameters and variables bind. Plain patterns hide what is further out;
names within an object or array pattern go unnoticed, and what they hide is still found. -/

namespace UsageTypes

namespace Tree

mutual

/-- The names that a pattern binds, however deep they stand in it. -/
def patternNames : Tree → List String
  | .node _ kind _ cs =>
    match kind with
    | .identifier | .shorthandPropertyIdentifierPattern => [textAll cs]
    | .restPattern | .objectPattern | .arrayPattern => patternNamesAll cs
    | .pairPattern => patternNamesAt .value cs
    | .assignmentPattern | .objectAssignmentPattern => patternNamesAt .left cs
    | _ => []
  | _ => []

def patternNamesAll : List Tree → List String
  | [] => []
  | t :: ts => patternNames t ++ patternNamesAll ts

/-- The same for the tree that plays a role. -/
def patternNamesAt (l : Label) : List Tree → List String
  | [] => []
  | t :: ts => if t.label? = some l then patternNames t else patternNamesAt l ts

end

/-- The names that the patterns of a function's parameters bind. -/
def parameterNames (function : Tree) : List String :=
  (function.parameters.filterMap (·.child? .pattern)).flatMap patternNames

/-- A name, or a rest of which a name is all there is. -/
def isPlainPattern (t : Tree) : Bool :=
  t.is .identifier || (t.is .restPattern && t.named.length = 1 && t.named.all (·.is .identifier))

/-- Whether a function binds a name by a plain pattern, with or without a default, or by the bare
parameter of an arrow. -/
def bindsPlainly (name : String) (function : Tree) : Bool :=
  function.parameters.any (fun p => (p.child? .pattern).any fun q =>
      q.isPlainPattern && q.patternNames.contains name)
    || (function.child? .parameter).any fun q => q.is .identifier && q.patternNames.contains name

section Patterns

variable {t : Tree}

theorem patternNames_of_is_identifier (h : t.is .identifier = true) : t.patternNames = [t.text] := by
  cases t with
  | node l k p cs =>
    obtain rfl : k = .identifier := Option.some.inj (of_decide_eq_true h)
    rfl
  | _ => cases of_decide_eq_true h

theorem patternNames_of_not_isNamed (h : t.isNamed = false) : t.patternNames = [] := by
  cases t with
  | node l k p cs => cases h
  | _ => rfl

theorem patternNamesAll_eq (ts : List Tree) :
    patternNamesAll ts = (ts.filter (·.isNamed)).flatMap patternNames := by
  induction ts with
  | nil => rfl
  | cons t ts ih =>
    rw [patternNamesAll, ih]
    cases hn : t.isNamed with
    | true => rw [List.filter_cons_of_pos hn, List.flatMap_cons]
    | false =>
      rw [List.filter_cons_of_neg (by simp [hn]), patternNames_of_not_isNamed hn]
      rfl

theorem patternNames_of_is_restPattern (h : t.is .restPattern = true) :
    t.patternNames = t.named.flatMap patternNames := by
  cases t with
  | node l k p cs =>
    obtain rfl : k = .restPattern := Option.some.inj (of_decide_eq_true h)
    exact patternNamesAll_eq cs
  | _ => cases of_decide_eq_true h

end Patterns

/-- What a function binds plainly is among the names that it is known to bind. -/
theorem mem_boundNames_of_bindsPlainly {name : String} {function : Tree}
    (h : function.bindsPlainly name = true) : name ∈ function.boundNames := by
  rw [bindsPlainly, Bool.or_eq_true, List.any_eq_true, Option.any_eq_true] at h
  rw [boundNames, List.mem_append]
  rcases h with ⟨p, hp, h⟩ | ⟨x, hx, h⟩
  · obtain ⟨pattern, hpattern, h⟩ := (Option.any_eq_true _ _).mp h
    rw [Bool.and_eq_true, List.contains_iff_mem] at h
    obtain ⟨hplain, hname⟩ := h
    refine .inl (List.mem_filterMap.mpr ⟨p, hp, ?_⟩)
    rw [parameterName?, hpattern]
    cases hid : pattern.is .identifier with
    | true =>
      rw [patternNames_of_is_identifier hid, List.mem_singleton] at hname
      simp [hid, hname]
    | false =>
      simp only [isPlainPattern, hid, Bool.false_or, Bool.and_eq_true, decide_eq_true_eq] at hplain
      obtain ⟨⟨hrest, hlength⟩, hall⟩ := hplain
      obtain ⟨x, hx⟩ := List.length_eq_one_iff.mp hlength
      rw [hx, List.all_cons, List.all_nil, Bool.and_true] at hall
      rw [patternNames_of_is_restPattern hrest, hx, List.flatMap_singleton,
        patternNames_of_is_identifier hall, List.mem_singleton] at hname
      simp [hid, hrest, hx, hname]
  · rw [Bool.and_eq_true, List.contains_iff_mem] at h
    obtain ⟨hid, hname⟩ := h
    rw [patternNames_of_is_identifier hid, List.mem_singleton] at hname
    refine .inr ?_
    rw [hx, hname]
    exact List.mem_singleton_self _

end Tree

/-- Whether a block declares a variable by a plain name. -/
def declaresPlainly (name : String) (block : Place) : Bool :=
  isBlock block.tree && block.named.any fun s => (declarationOf s).any fun d =>
    (d.is .lexicalDeclaration || d.is .variableDeclaration) &&
      d.tree.named.any fun v => v.is .variableDeclarator && (v.child? .name).any fun q =>
        q.is .identifier && q.patternNames.contains name

theorem hides_of_declaresPlainly {name : String} {block : Place} (h : declaresPlainly name block = true) :
    HidesName name block := by
  rw [declaresPlainly, Bool.and_eq_true, List.any_eq_true] at h
  obtain ⟨hblock, s, hs, h⟩ := h
  obtain ⟨d, hd, h⟩ := (Option.any_eq_true _ _).mp h
  rw [Bool.and_eq_true, Bool.or_eq_true, List.any_eq_true] at h
  obtain ⟨hkind, v, hv, h⟩ := h
  rw [Bool.and_eq_true] at h
  obtain ⟨hdeclarator, h⟩ := h
  obtain ⟨q, hq, h⟩ := (Option.any_eq_true _ _).mp h
  rw [Bool.and_eq_true, List.contains_iff_mem] at h
  obtain ⟨hid, hname⟩ := h
  rw [Tree.patternNames_of_is_identifier hid, List.mem_singleton] at hname
  refine .inl ⟨hblock, s, hs, d, declarationOf_eq_some_iff.mp hd, .inr (.inr ⟨hkind, v, hv, hdeclarator, ?_⟩)⟩
  rw [Tree.declaredName?, hq, hname]
  rfl

section Hiding

variable {name : String} {f : Place}

theorem ancestors_of_firstBinds {block : Place} (h : FirstBinds name block f) :
    ∀ a ∈ block :: block.ancestors, a ∈ f.ancestors := by
  obtain ⟨before, s, after, hnamed, -, hdeclares, -⟩ := h
  have hs : s ∈ block.named := by
    rw [hnamed]
    exact List.mem_append_right _ List.mem_cons_self
  have hblock : s.ancestors = block :: block.ancestors :=
    Place.ancestors_of_mem_children (Place.mem_named.mp hs).1
  rcases hdeclares with ⟨-, rfl⟩ | ⟨-, hdeclaration⟩
  · rw [hblock]
    exact fun a ha => ha
  · have hstatement := Place.ancestors_of_mem_children (List.mem_of_find?_eq_some hdeclaration)
    rw [hstatement, hblock]
    exact fun a ha => List.mem_cons_of_mem _ ha

/-- What hides a name around an identifier is around the function that the identifier means. -/
theorem mem_ancestors_of_hides {root : Tree} {c a : Place} (hc : c.In root)
    (hid : c.is .identifier = true) (ha : a ∈ c.ancestors) (hhides : HidesName c.text a)
    (h : (Program.ofTree root).resolveFunction c = some f) : a ∈ f.ancestors := by
  have hunwrap := Place.unwrap_of_is_identifier hid
  rw [resolveFunction_eq_lookup (by rwa [hunwrap]) (by rwa [hunwrap]), hunwrap] at h
  obtain ⟨inner, block, outer, hsplit, -, hfirst, hinner⟩ := lookupFunction_eq_some_iff.mp h
  have hblock := Place.ancestors_of_append hsplit
  have haround : a ∈ inner ++ block :: outer := hsplit ▸ ha
  rcases List.mem_append.mp haround with ha | ha
  · exact absurd hhides (hinner a ha)
  · exact ancestors_of_firstBinds hfirst a (hblock ▸ ha)

theorem Focus.evidenceIn_visit_of_redeclares (f : Focus) {p : Place} (hfunction : p.tree.isFunctionLike = true)
    (h : f.redeclares p.tree = true) (budget : Nat) : evidenceIn (f.visit budget p) = [] := by
  cases budget with
  | zero => rfl
  | succ budget =>
    obtain ⟨k, hk, hlike⟩ := (Option.any_eq_true _ _).mp hfunction
    have hpath : f.path? p = none := by
      refine accessPath_eq_none ?_ ?_
      · rw [Tree.is, hk]
        cases k <;> first | rfl | cases hlike
      · rw [Tree.link?, hk]
        cases k <;> first | rfl | cases hlike
    have hcall : ∀ callee arguments, ¬p.Calls callee arguments := by
      intro callee arguments hcall
      obtain rfl := Option.some.inj (hk.symm.trans hcall.kind?_eq)
      cases hlike
    have hsilent : f.parts p = [] ∧ f.ownEvents p = [] := by
      rw [parts, ownEvents, hk, if_pos hfunction, if_pos h]
      cases k <;> first | exact ⟨rfl, rfl⟩ | cases hlike
    rw [visit_of_not_calls hpath hcall, hsilent.1, hsilent.2]
    rfl

end Hiding

/-- A function that binds a name by a plain pattern knows that it does: an identifier in it means no
function further out, and nothing in it is a use of a parameter of that name. A block that declares a
variable by a plain name hides the functions further out as well. -/
theorem plain_binders_hide (root : Tree) (name : String) :
    (∀ h : Place, h.tree.isFunctionLike = true → h.tree.bindsPlainly name = true →
      name ∈ h.tree.boundNames ∧
      (∀ c f : Place, c.In root → c.is .identifier = true → c.text = name → h ∈ c.ancestors →
        (Program.ofTree root).resolveFunction c = some f → h ∈ f.ancestors) ∧
      ∀ (focus : Focus) (budget : Nat), focus.name = name → evidenceIn (focus.visit budget h) = []) ∧
    ∀ b : Place, declaresPlainly name b = true →
      ∀ c f : Place, c.In root → c.is .identifier = true → c.text = name → b ∈ c.ancestors →
        (Program.ofTree root).resolveFunction c = some f → b ∈ f.ancestors := by
  refine ⟨fun h hfunction hbinds => ?_, fun b hb c f hc hid hname hancestor => ?_⟩
  · have hmem := Tree.mem_boundNames_of_bindsPlainly hbinds
    refine ⟨hmem, fun c f hc hid hname hancestor => ?_, fun focus budget hfocus => ?_⟩
    · exact mem_ancestors_of_hides hc hid hancestor (.inr ⟨hfunction, hname ▸ hmem⟩)
    · refine focus.evidenceIn_visit_of_redeclares hfunction ?_ budget
      rw [Focus.redeclares, hfocus, List.contains_iff_mem.mpr hmem, Bool.or_true]
  · exact mem_ancestors_of_hides hc hid hancestor (hname ▸ hides_of_declaresPlainly hb)

/-- Binders by a rest, by a default and by a variable, with a function of the name further in. -/
theorem plain_binders_hide_rest_default_variable :
    let source :=
      "function g() {} function f(p) { (...p) => p.x; function k(g = 1) { var g; { function g() {} g(p) } } }"
    let root := (readProgram source).getD default
    let program := Program.ofTree root
    let arrow := ((program.places.filter (·.is .arrowFunction))[0]?).getD default
    let c := ((program.places.filter fun c => c.is .identifier && c.text = "g")[4]?).getD default
    let k := (c.ancestors[4]?).getD default
    let block := (c.ancestors[3]?).getD default
    let f := (program.resolveFunction c).getD default
    (readProgram source = some root ∧ arrow.tree.isFunctionLike = true ∧
        arrow.tree.bindsPlainly "p" = true ∧ k.tree.isFunctionLike = true ∧
        k.tree.bindsPlainly "g" = true ∧ declaresPlainly "g" block = true ∧
        c.In root ∧ c.is .identifier = true ∧ c.text = "g" ∧ k ∈ c.ancestors ∧ block ∈ c.ancestors ∧
        program.resolveFunction c = some f) ∧
      "p" ∈ arrow.tree.boundNames ∧ "g" ∈ k.tree.boundNames ∧
      (∀ budget, evidenceIn ((program.focus f "p" 256).visit budget arrow) = []) ∧
      k ∈ f.ancestors ∧ block ∈ f.ancestors := by
  intro source root program arrow c k block f
  have hfacts : (readProgram source).isSome = true ∧ arrow.tree.isFunctionLike = true ∧
      arrow.tree.bindsPlainly "p" = true ∧ k.tree.isFunctionLike = true ∧
      k.tree.bindsPlainly "g" = true ∧ declaresPlainly "g" block = true ∧
      ((program.places.filter fun c => c.is .identifier && c.text = "g")[4]?).isSome = true ∧
      (c.ancestors[4]?).isSome = true ∧ (c.ancestors[3]?).isSome = true ∧
      (program.resolveFunction c).isSome = true := by
    decide +kernel
  obtain ⟨hread, harrow, hp, hlike, hk, hblock, hc, hk', hblock', hf⟩ := hfacts
  obtain ⟨hplace, hname⟩ := List.mem_filter.mp (List.mem_of_getElem? (eq_some_getD (d := default) hc))
  rw [Bool.and_eq_true, decide_eq_true_eq] at hname
  obtain ⟨hid, hname⟩ := hname
  have hin : c.In root := Program.mem_places_iff.mp hplace
  have hkc : k ∈ c.ancestors := List.mem_of_getElem? (eq_some_getD hk')
  have hbc : block ∈ c.ancestors := List.mem_of_getElem? (eq_some_getD hblock')
  have hfunction := (plain_binders_hide root "p").1 arrow harrow hp
  have hdefault := (plain_binders_hide root "g").1 k hlike hk
  have hvariable := (plain_binders_hide root "g").2 block hblock
  exact ⟨⟨eq_some_getD hread, harrow, hp, hlike, hk, hblock, hin, hid, hname, hkc, hbc, eq_some_getD hf⟩,
    hfunction.1, hdefault.1, fun budget => hfunction.2.2 _ budget rfl,
    hdefault.2.1 c f hin hid hname hkc (eq_some_getD hf), hvariable c f hin hid hname hbc (eq_some_getD hf)⟩

/-- Names within an object pattern hide nothing: what a nested function does with its own `p` counts for
the parameter `p` around it, and functions further out are found past a parameter or a variable of
their name. -/
theorem destructured_names_hide_nothing :
    (let root := (readProgram "function f(p) { const h = ({ p }) => p.x }").getD default
      let program := Program.ofTree root
      let f := (program.declarations[0]?).getD default
      let arrow := ((program.places.filter (·.is .arrowFunction))[0]?).getD default
      arrow.tree.parameterNames = ["p"] ∧ arrow.tree.boundNames = [] ∧
        program.evidence f "p" 256 ((f.child? .body).getD default) = [.access [], .access ["x"]]) ∧
    (let root := (readProgram "function g(a, b) {} function k({ g }) { g(1) }").getD default
      let program := Program.ofTree root
      let k := (program.declarations[1]?).getD default
      k.tree.parameterNames = ["g"] ∧ k.tree.boundNames = [] ∧
        program.calls = [([0], 1)]) ∧
    (let root := (readProgram "function g(a, b) {} function k(o) { const { g } = o; g(1) }").getD default
      let program := Program.ofTree root
      let declarators := program.places.filter (·.is .variableDeclarator)
      declarators.map (fun v => (v.tree.child? .name).map Tree.patternNames) = [some ["g"]] ∧
        program.calls = [([0], 1)]) := by
  decide +kernel

end UsageTypes
