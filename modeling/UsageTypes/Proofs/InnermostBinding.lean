import UsageTypes.Proofs.ScopeSearch

/-! What a callee means is said by the blocks and functions around it: the innermost block that binds
the name decides by its first statement that does, unless a function in between binds the name. -/

namespace UsageTypes

namespace Place

/-- The nodes around a place, innermost first. -/
def around : List (Tree × Nat) → List Place
  | [] => []
  | (t, _) :: above => ⟨t, above⟩ :: around above

def ancestors (p : Place) : List Place := around p.above

theorem ancestors_of_append {p b : Place} {inner outer : List Place}
    (h : p.ancestors = inner ++ b :: outer) : b.ancestors = outer := by
  have hsplit : ∀ {above : List (Tree × Nat)} {inner : List Place},
      around above = inner ++ b :: outer → b.ancestors = outer := by
    intro above
    induction above with
    | nil => intro inner h; cases inner <;> cases h
    | cons a above ih =>
      intro inner h
      cases inner with
      | nil =>
        obtain ⟨rfl, hrest⟩ := List.cons.inj h
        exact hrest
      | cons c inner => exact ih (List.cons.inj h).2
  exact hsplit h

theorem ancestors_of_mem_children {p c : Place} (h : c ∈ p.children) : c.ancestors = p :: p.ancestors := by
  obtain ⟨i, t, -, rfl⟩ := mem_children h
  rfl

end Place

/-- The declaration that a statement makes, exported or not. -/
def Declares (s d : Place) : Prop :=
  (s.is .exportStatement = false ∧ d = s) ∨ (s.is .exportStatement = true ∧ s.child? .declaration = some d)

/-- A declaration of a function or generator. -/
def DeclaresFunction (name : String) (d : Place) : Prop :=
  d.tree.isDeclaration = true ∧ d.tree.declaredName? = some name

/-- A declaration of a class, or of variables one of which has the name for its pattern. -/
def DeclaresOther (name : String) (d : Place) : Prop :=
  (d.is .classDeclaration = true ∧ d.tree.declaredName? = some name) ∨
    ((d.is .lexicalDeclaration = true ∨ d.is .variableDeclaration = true) ∧
      ∃ v ∈ d.tree.named, v.is .variableDeclarator = true ∧ v.declaredName? = some name)

/-- A statement of a block that binds a name. -/
def Binds (name : String) (s : Place) : Prop :=
  ∃ d, Declares s d ∧ (DeclaresFunction name d ∨ DeclaresOther name d)

/-- The first statement of a block that binds a name declares a function. -/
def FirstBinds (name : String) (block f : Place) : Prop :=
  ∃ before s after, block.named = before ++ s :: after ∧ (∀ p ∈ before, ¬ Binds name p) ∧
    Declares s f ∧ DeclaresFunction name f

/-- A block or a function that binds a name for what is in it. -/
def HidesName (name : String) (p : Place) : Prop :=
  (isBlock p.tree = true ∧ ∃ s ∈ p.named, Binds name s) ∨
    (p.tree.isFunctionLike = true ∧ name ∈ p.tree.boundNames)

section Statements

variable {name : String} {s d f : Place}

theorem declarationOf_eq_some_iff : declarationOf s = some d ↔ Declares s d := by
  rw [declarationOf, Declares]
  cases s.is .exportStatement with
  | true => simp
  | false => simp [eq_comm]

theorem isDeclaration_iff {t : Tree} : t.isDeclaration = true ↔
    t.kind? = some .functionDeclaration ∨ t.kind? = some .generatorFunctionDeclaration := by
  rw [Tree.isDeclaration]
  cases t.kind? with
  | none => simp
  | some k => cases k <;> decide

/-- A statement that binds a name to a function declares that function, and one that binds nothing
declares neither a function nor another thing of that name. -/
theorem statementBinding_of_declares (hd : Declares s d) :
    (statementBinding name s = some (.function f) ↔ DeclaresFunction name d ∧ d = f) ∧
      (statementBinding name s = some .other → DeclaresOther name d) ∧
      (statementBinding name s = none → ¬ DeclaresFunction name d ∧ ¬ DeclaresOther name d) := by
  rw [statementBinding, declarationOf_eq_some_iff.mpr hd]
  simp only [DeclaresFunction, DeclaresOther, isDeclaration_iff, Place.is_iff]
  split
  · rename_i hk
    simp [hk]
  · rename_i hk
    simp [hk]
  · rename_i hk
    simp [hk]
  · rename_i hk
    simp [hk]
  · rename_i hk
    simp [hk]
  · simp_all

theorem statementBinding_eq_function_iff :
    statementBinding name s = some (.function f) ↔ Declares s f ∧ DeclaresFunction name f := by
  constructor
  · intro h
    obtain ⟨hd, hdeclaration⟩ := statementBinding_eq_function h
    exact ⟨declarationOf_eq_some_iff.mp hd, hdeclaration⟩
  · rintro ⟨hd, hf⟩
    exact (statementBinding_of_declares hd).1.mpr ⟨hf, rfl⟩

theorem statementBinding_eq_none_iff : statementBinding name s = none ↔ ¬ Binds name s := by
  constructor
  · rintro h ⟨d, hd, hbinds⟩
    obtain ⟨hfunction, hother⟩ := (statementBinding_of_declares (f := d) hd).2.2 h
    exact hbinds.elim hfunction hother
  · intro h
    cases hb : statementBinding name s with
    | none => rfl
    | some b =>
      cases b with
      | function f =>
        obtain ⟨hd, hf⟩ := statementBinding_eq_function_iff.mp hb
        exact absurd ⟨f, hd, .inl hf⟩ h
      | other =>
        cases hd : declarationOf s with
        | none => simp [statementBinding, hd] at hb
        | some d =>
          have hdeclares := declarationOf_eq_some_iff.mp hd
          exact absurd ⟨d, hdeclares, .inr ((statementBinding_of_declares (f := d) hdeclares).2.1 hb)⟩ h

variable {block : Place}

theorem blockBinding_eq_function_iff :
    blockBinding name block = some (.function f) ↔ FirstBinds name block f := by
  rw [blockBinding, List.findSome?_eq_some_iff, FirstBinds]
  simp only [statementBinding_eq_function_iff, statementBinding_eq_none_iff]
  grind

theorem blockBinding_eq_none_iff : blockBinding name block = none ↔ ∀ s ∈ block.named, ¬ Binds name s := by
  rw [blockBinding, List.findSome?_eq_none_iff]
  simp only [statementBinding_eq_none_iff]

end Statements

section Search

variable {name : String} {f : Place}

theorem not_isFunctionLike_of_isBlock {t : Tree} (h : isBlock t = true) : t.isFunctionLike = false := by
  rw [isBlock, Bool.or_eq_true] at h
  rcases h with h | h
  · exact Tree.not_isFunctionLike_of_kind? (of_decide_eq_true h) rfl
  · exact Tree.not_isFunctionLike_of_kind? (of_decide_eq_true h) rfl

/-- One step outwards: a block decides by its first statement that binds the name, and what does not
hide the name is passed. -/
theorem lookupFunction_cons_iff {t : Tree} {i : Nat} {above : List (Tree × Nat)} :
    lookupFunction name ((t, i) :: above) = some f ↔
      (isBlock t = true ∧ FirstBinds name ⟨t, above⟩ f) ∨
        (¬ HidesName name ⟨t, above⟩ ∧ lookupFunction name above = some f) := by
  rw [lookupFunction, ← blockBinding_eq_function_iff]
  have hhides : HidesName name ⟨t, above⟩ ↔ (isBlock t = true ∧ blockBinding name ⟨t, above⟩ ≠ none) ∨
      (t.isFunctionLike && t.boundNames.contains name) = true := by
    rw [HidesName, ne_eq, blockBinding_eq_none_iff, Bool.and_eq_true, List.contains_iff_mem]
    push Not
    rfl
  rw [hhides]
  cases hb : isBlock t with
  | true =>
    rw [not_isFunctionLike_of_isBlock hb, Bool.false_and]
    cases blockBinding name ⟨t, above⟩ with
    | none => simp
    | some b => cases b <;> simp
  | false => split <;> simp_all

/-- A name means the function that the innermost node around which hides the name declares. -/
theorem lookupFunction_eq_some_iff {above : List (Tree × Nat)} : lookupFunction name above = some f ↔
    ∃ inner block outer, Place.around above = inner ++ block :: outer ∧ isBlock block.tree = true ∧
      FirstBinds name block f ∧ ∀ p ∈ inner, ¬ HidesName name p := by
  induction above with
  | nil => simp [lookupFunction, Place.around]
  | cons a above ih =>
    obtain ⟨t, i⟩ := a
    rw [lookupFunction_cons_iff, ih, Place.around]
    constructor
    · rintro (⟨hblock, hfirst⟩ | ⟨hfree, inner, block, outer, hsplit, hblock, hfirst, hinner⟩)
      · exact ⟨[], ⟨t, above⟩, Place.around above, rfl, hblock, hfirst, List.forall_mem_nil _⟩
      · refine ⟨⟨t, above⟩ :: inner, block, outer, by rw [hsplit]; rfl, hblock, hfirst, ?_⟩
        exact List.forall_mem_cons.mpr ⟨hfree, hinner⟩
    · rintro ⟨inner, block, outer, hsplit, hblock, hfirst, hinner⟩
      cases inner with
      | nil =>
        obtain ⟨rfl, rfl⟩ := List.cons.inj hsplit
        exact .inl ⟨hblock, hfirst⟩
      | cons p inner =>
        obtain ⟨rfl, hrest⟩ := List.cons.inj hsplit
        obtain ⟨hfree, hbetween⟩ := List.forall_mem_cons.mp hinner
        exact .inr ⟨hfree, inner, block, outer, hrest, hblock, hfirst, hbetween⟩

end Search

/-- An identifier means the function that the innermost block around it declares first under that name,
if no block or function in between binds the name. That only names of declared functions are looked up
makes no difference. -/
theorem resolveFunction_innermost {root : Tree} {c : Place} (hc : c.In root)
    (hid : c.is .identifier = true) :
    (∀ f, (Program.ofTree root).resolveFunction c = some f ↔
      ∃ inner block outer, c.ancestors = inner ++ block :: outer ∧ isBlock block.tree = true ∧
        FirstBinds c.text block f ∧ ∀ p ∈ inner, ¬ HidesName c.text p) ∧
      (Program.ofTree root).resolveFunction c = lookupFunction c.text c.above := by
  have hunwrap := Place.unwrap_of_is_identifier hid
  have hlookup := resolveFunction_eq_lookup (by rwa [hunwrap]) (by rwa [hunwrap])
  rw [hunwrap] at hlookup
  refine ⟨fun f => ?_, hlookup⟩
  rw [hlookup]
  exact lookupFunction_eq_some_iff

/-- A call in an inner block, before the declaration that it means and after another one further out. -/
theorem resolveFunction_innermost_declared_later :
    let source := "function f(a) {} function h(b) { { f(b) } function f(c) {} }"
    let root := (readProgram source).getD default
    let program := Program.ofTree root
    let c := ((program.places.filter (·.is .identifier))[4]?).getD default
    let f := (program.resolveFunction c).getD default
    readProgram source = some root ∧ c.In root ∧ c.is .identifier = true ∧
      program.declarations.map (·.address) = [[0], [2], [4, 5, 2]] ∧ f.address = [4, 5, 2] ∧
      ∃ inner block outer, c.ancestors = inner ++ block :: outer ∧ isBlock block.tree = true ∧
        FirstBinds c.text block f ∧ ∀ p ∈ inner, ¬ HidesName c.text p := by
  intro source root program c f
  have hfacts : (readProgram source).isSome = true ∧
      ((program.places.filter (·.is .identifier))[4]?).isSome = true ∧
      program.declarations.map (·.address) = [[0], [2], [4, 5, 2]] ∧ f.address = [4, 5, 2] ∧
      (program.resolveFunction c).isSome = true := by
    decide +kernel
  obtain ⟨hread, hc, hdeclarations, haddress, hf⟩ := hfacts
  obtain ⟨hplace, hid⟩ := List.mem_filter.mp (List.mem_of_getElem? (eq_some_getD hc))
  have hin : c.In root := Program.mem_places_iff.mp hplace
  exact ⟨eq_some_getD hread, hin, hid, hdeclarations, haddress,
    ((resolveFunction_innermost hin hid).1 f).mp (eq_some_getD hf)⟩

end UsageTypes
