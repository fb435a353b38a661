import UsageTypes.Proofs.DocumentOrder
import UsageTypes.Proofs.Uncommented
import UsageTypes.Proofs.Walk

/-! Two programs side by side. Where corresponding places look the same, names mean corresponding
functions and annotations are read as the same types, expressions and local names have the same
static types, the walk over a body collects the same evidence, and so reports are the same. -/

namespace UsageTypes

namespace Place

/-- A comment, and the blank that takes its place. -/
def Blanked (c b : Place) : Prop :=
  c.tree.Blanked b.tree

/-- Trees that are kept or gone in a node are so as places. -/
theorem siblings_thinned {Kept Gone : Tree → Tree → Prop} {counts : Tree → Bool}
    {R S : Place → Place → Prop} {parent parent' : Tree} {above above' : List (Tree × Nat)} {n : Nat}
    {cs ds : List Tree} (h : Thinned Kept Gone counts n cs ds) (i : Nat)
    (hkept : ∀ k c d, cs[k]? = some c → ds[k]? = some d → Kept c d →
      R ⟨c, (parent, i + k) :: above⟩ ⟨d, (parent', i + k) :: above'⟩)
    (hgone : ∀ p q : Place, Gone p.tree q.tree → S p q) :
    Thinned R S (fun p => counts p.tree) n (siblings parent above i cs)
      (siblings parent' above' i ds) := by
  induction h generalizing i with
  | nil => exact .nil
  | keep hab _ ih =>
    refine .keep (hkept 0 _ _ rfl rfl hab) (ih (i + 1) fun k c d hc hd hcd => ?_)
    have := hkept (k + 1) c d hc hd hcd
    rwa [← Nat.add_assoc, Nat.add_right_comm] at this
  | drop hab _ ih =>
    refine .drop (hgone _ _ hab) (ih (i + 1) fun k c d hc hd hcd => ?_)
    have := hkept (k + 1) c d hc hd hcd
    rwa [← Nat.add_assoc, Nat.add_right_comm] at this

theorem depth_of_mem_siblings {parent : Tree} {above : List (Tree × Nat)} {i : Nat} {ts : List Tree}
    {c : Place} (h : c ∈ siblings parent above i ts) : c.above.length = above.length + 1 := by
  induction ts generalizing i with
  | nil => cases h
  | cons t ts ih =>
    rcases List.mem_cons.mp h with rfl | h
    · rfl
    · exact ih h

theorem depth_of_child? {p c : Place} {l : Label} (h : p.child? l = some c) :
    c.above.length = p.above.length + 1 :=
  depth_of_mem_siblings (List.mem_of_find?_eq_some h)

theorem depth_of_mem_named {p c : Place} (h : c ∈ p.named) : c.above.length = p.above.length + 1 :=
  depth_of_mem_siblings (List.mem_filter.mp h).1

theorem unwrapFirst_eq (parent : Tree) (above : List (Tree × Nat)) (i : Nat) (ts : List Tree) :
    unwrapFirst parent above i ts =
      match (siblings parent above i ts).filter (·.tree.isNamed) with
      | [] => ⟨parent, above⟩
      | c :: _ => c.unwrap := by
  induction ts generalizing i with
  | nil => rfl
  | cons t ts ih => cases hn : t.isNamed <;> simp [unwrapFirst, siblings, hn, ih, unwrap]

theorem unwrap_eq (p : Place) : p.unwrap =
    if p.is .parenthesizedExpression then
      match p.named with
      | [] => p
      | c :: _ => c.unwrap
    else p := by
  obtain ⟨t, above⟩ := p
  cases t with
  | node l k start cs =>
    by_cases hk : k = .parenthesizedExpression
    · subst hk
      exact unwrapFirst_eq _ above 0 cs
    · simp [unwrap, Tree.unwrap, is, Tree.is, Tree.kind?, hk]
  | _ => rfl

/-- A walk meets corresponding places, if what stands in corresponding places that it enters
corresponds. -/
theorem places_mirror {R : Place → Place → Prop} {enter : Tree → Bool}
    (hnamed : ∀ {p q : Place}, R p q → p.tree.isNamed = q.tree.isNamed)
    (henter : ∀ {p q : Place}, R p q → enter p.tree = enter q.tree)
    (hentered : ∀ {p q : Place}, R p q → enter p.tree = true → List.Forall₂ R p.children q.children)
    {p q : Place} (h : R p q) (hchildren : List.Forall₂ R p.children q.children) :
    List.Forall₂ R (p.tree.places enter p.above) (q.tree.places enter q.above) := by
  induction p using below_induction generalizing q with
  | step p ih =>
    cases hn : p.tree.isNamed with
    | false =>
      rw [places_of_not_isNamed enter hn, places_of_not_isNamed enter (hnamed h ▸ hn)]
      exact .nil
    | true =>
      rw [places_eq enter hn, places_eq enter (hnamed h ▸ hn)]
      refine .cons h (flatMap_rel hchildren fun a ha b hab => ?_)
      rw [← henter hab]
      split
      · rename_i hent
        cases hna : a.tree.isNamed with
        | false =>
          rw [places_of_not_isNamed enter hna, places_of_not_isNamed enter (hnamed hab ▸ hna)]
          exact .nil
        | true => exact ih a (mem_named.mpr ⟨ha, hna⟩) hab (hentered hab hent)
      · exact .nil

/-- Parentheses are taken off corresponding places alike. -/
theorem unwrap_rel {R : Place → Place → Prop}
    (hkind : ∀ {p q : Place}, R p q → p.tree.kind? = q.tree.kind?)
    (hfirst : ∀ {p q : Place}, R p q → p.is .parenthesizedExpression = true →
      Option.Rel R p.named[0]? q.named[0]?) {p q : Place} (h : R p q) : R p.unwrap q.unwrap := by
  induction p using below_induction generalizing q with
  | step p ih =>
    have his : p.is .parenthesizedExpression = q.is .parenthesizedExpression := by
      simp only [is, Tree.is, hkind h]
    rw [unwrap_eq p, unwrap_eq q, ← his]
    split
    · rename_i hp
      obtain ⟨ha, hb⟩ | ⟨a, as, b, bs, ha, hb, hab⟩ := cons_cases_of_rel (hfirst h hp)
      · rw [ha, hb]
        exact h
      · rw [ha, hb]
        exact ih a (by rw [ha]; exact List.mem_cons_self) hab
    · exact h

end Place

/-- What a name is bound to, with corresponding functions if it is one. -/
inductive Binding.Mirrors (R : Place → Place → Prop) : Binding → Binding → Prop
  | function {f g : Place} : R f g → Mirrors R (.function f) (.function g)
  | other : Mirrors R .other .other

section Names

variable {R : Place → Place → Prop} {name : String}

theorem declarationOf_rel {p q : Place} (h : R p q) (hkind : p.tree.kind? = q.tree.kind?)
    (hchild : Option.Rel R (p.child? .declaration) (q.child? .declaration)) :
    Option.Rel R (declarationOf p) (declarationOf q) := by
  rw [declarationOf, declarationOf, Place.is, Place.is, Tree.is, Tree.is, ← hkind]
  split
  · exact hchild
  · exact .some h

/-- Statements bind a name alike, if it is the name of corresponding declarations alike. -/
theorem statementBinding_rel {p q : Place}
    (hdeclaration : Option.Rel R (declarationOf p) (declarationOf q))
    (hkind : ∀ {a b : Place}, R a b → a.tree.kind? = b.tree.kind?)
    (hname : ∀ {a b : Place}, R a b →
      (a.tree.declaredName? = some name ↔ b.tree.declaredName? = some name))
    (hvariables : ∀ {a b : Place}, R a b →
      a.is .lexicalDeclaration = true ∨ a.is .variableDeclaration = true →
      (a.tree.named.any fun v => v.is .variableDeclarator && v.declaredName? = some name) =
        b.tree.named.any fun v => v.is .variableDeclarator && v.declaredName? = some name) :
    Option.Rel (Binding.Mirrors R) (statementBinding name p) (statementBinding name q) := by
  obtain ⟨ha, hb⟩ | ⟨a, b, ha, hb, hab⟩ := option_rel_cases hdeclaration
  · rw [statementBinding, statementBinding, ha, hb]
    exact .none
  · simp only [statementBinding, ha, hb, ← hkind hab, ← hname hab]
    have hfunction : ∀ c : Prop, [Decidable c] → Option.Rel (Binding.Mirrors R)
        (if c then some (.function a) else none) (if c then some (.function b) else none) := by
      intro c _
      split
      · exact .some (.function hab)
      · exact .none
    have hother : ∀ c : Prop, [Decidable c] → Option.Rel (Binding.Mirrors R)
        (if c then some .other else none) (if c then some .other else none) := by
      intro c _
      split
      · exact .some .other
      · exact .none
    split
    · exact hfunction _
    · exact hfunction _
    · exact hother _
    · rename_i hk
      rw [← hvariables hab (.inl (decide_eq_true hk))]
      exact hother _
    · rename_i hk
      rw [← hvariables hab (.inr (decide_eq_true hk))]
      exact hother _
    · exact .none

/-- One step outwards in the search for a function. -/
theorem lookupFunction_cons_rel {t u : Tree} {above above' : List (Tree × Nat)} (i j : Nat)
    (hkind : t.kind? = u.kind?)
    (hbound : t.isFunctionLike = true → t.boundNames.contains name = u.boundNames.contains name)
    (hblock : isBlock t = true → Option.Rel (Binding.Mirrors R) (blockBinding name ⟨t, above⟩)
      (blockBinding name ⟨u, above'⟩))
    (hout : Option.Rel R (lookupFunction name above) (lookupFunction name above')) :
    Option.Rel R (lookupFunction name ((t, i) :: above)) (lookupFunction name ((u, j) :: above')) := by
  have hhidden : (t.isFunctionLike && t.boundNames.contains name) =
      (u.isFunctionLike && u.boundNames.contains name) := by
    have hlike : t.isFunctionLike = u.isFunctionLike := by
      rw [Tree.isFunctionLike, Tree.isFunctionLike, hkind]
    rw [← hlike]
    cases hf : t.isFunctionLike with
    | false => rfl
    | true => rw [hbound hf]
  have hsame : isBlock t = isBlock u := by
    simp only [isBlock, Tree.is, hkind]
  rw [lookupFunction, lookupFunction, ← hhidden, ← hsame]
  split
  · exact .none
  · split
    · rename_i hb
      have hbinding := hblock hb
      generalize blockBinding name ⟨t, above⟩ = o, blockBinding name ⟨u, above'⟩ = o' at hbinding
      cases hbinding with
      | none => exact hout
      | some hbinding =>
        cases hbinding with
        | function hfg => exact .some hfg
        | other => exact .none
    · exact hout

end Names

theorem ascribed_eq {o o' : Option Tree} {t t' : Option Ty} :
    o.map resolveType = o'.map resolveType → t = t' →
    (match o with
      | some ascription => some (resolveType ascription)
      | none => t) =
    match o' with
      | some ascription => some (resolveType ascription)
      | none => t' := by
  intro h ht
  cases o <;> cases o' <;> simp_all

/-- The annotation, the return type and the cast in two places are read as the same types. A cast is
read only so far below the nesting limit as it is nested itself. -/
structure Place.ReadsAlike (p q : Place) : Prop where
  typing_eq : (p.tree.child? .typing).map resolveType = (q.tree.child? .typing).map resolveType
  returns_eq : (p.tree.child? .returns).map resolveType = (q.tree.child? .returns).map resolveType
  cast_eq : p.is .asExpression = true → ∀ budget ≤ nestingLimit,
    nestingLimit ≤ budget + p.above.length →
    (p.tree.named[1]?).map (resolve budget) = (q.tree.named[1]?).map (resolve budget)

namespace Program

/-- What a correspondence of places has to respect: what is read of a place by kind, by role or by
position corresponds, the bodies of functions apart, and what is read as a type is the same. -/
structure Mirrors (R : Place → Place → Prop) (program other : Program) : Prop where
  kind?_eq {p q : Place} : R p q → p.tree.kind? = q.tree.kind?
  word_eq {p q : Place} : R p q → p.is .identifier = true ∨ p.is .propertyIdentifier = true →
    p.text = q.text
  operator?_eq {p q : Place} : R p q → p.tree.operator? = q.tree.operator?
  child {p q : Place} {l : Label} : R p q → l ≠ .body → Option.Rel R (p.child? l) (q.child? l)
  children {p q : Place} : R p q → p.tree.isFunctionLike = false →
    ∃ n, Thinned R Place.Blanked (·.tree.isNamed) n p.children q.children
  first {p q : Place} : R p q → p.is .parenthesizedExpression = true →
    Option.Rel R p.named[0]? q.named[0]?
  elements {p q : Place} : R p q → p.is .arrayLiteral = true → List.Forall₂ R p.named q.named
  parameters {p q : Place} : R p q → List.Forall₂ R p.parameters q.parameters
  types {p q : Place} : R p q → p.ReadsAlike q
  resolve {p q : Place} : R p q →
    Option.Rel R (program.resolveFunction p) (other.resolveFunction q)

namespace Mirrors

variable {R : Place → Place → Prop} {program other : Program} (m : Mirrors R program other)

include m

theorem is_eq {p q : Place} (h : R p q) (k : Kind) : p.is k = q.is k := by
  simp only [Place.is, Tree.is, m.kind?_eq h]

theorem isFunctionLike_eq {p q : Place} (h : R p q) :
    p.tree.isFunctionLike = q.tree.isFunctionLike := by
  rw [Tree.isFunctionLike, Tree.isFunctionLike, m.kind?_eq h]

theorem isNamed_eq {p q : Place} (h : R p q) : p.tree.isNamed = q.tree.isNamed := by
  have hsome : ∀ t : Tree, t.isNamed = t.kind?.isSome := fun t => by cases t <;> rfl
  rw [hsome, hsome, m.kind?_eq h]

theorem child_cases {p q : Place} (h : R p q) {l : Label} (hl : l ≠ .body) :
    (p.child? l = none ∧ q.child? l = none) ∨
      ∃ a b, p.child? l = some a ∧ q.child? l = some b ∧ R a b :=
  option_rel_cases (m.child h hl)

/-- The child of a node in a role, as a place and as a tree. -/
theorem tree_child_cases {p q : Place} (h : R p q) {l : Label} (hl : l ≠ .body) :
    (p.tree.child? l = none ∧ q.tree.child? l = none) ∨
      ∃ a b, p.tree.child? l = some a.tree ∧ q.tree.child? l = some b.tree ∧ R a b := by
  rw [← Place.map_tree_child?, ← Place.map_tree_child?]
  obtain ⟨ha, hb⟩ | ⟨a, b, ha, hb, hab⟩ := m.child_cases h hl
  · exact .inl ⟨by rw [ha]; rfl, by rw [hb]; rfl⟩
  · exact .inr ⟨a, b, by rw [ha]; rfl, by rw [hb]; rfl, hab⟩

theorem isRest_eq {p q : Place} (h : R p q) : p.tree.isRest = q.tree.isRest := by
  rw [Tree.isRest, Tree.isRest]
  obtain ⟨ha, hb⟩ | ⟨a, b, ha, hb, hab⟩ := m.tree_child_cases h (l := .pattern) (by decide)
  · rw [ha, hb]
  · rw [ha, hb]
    exact m.is_eq hab .restPattern

theorem arguments_cases {p q : Place} (h : R p q) :
    (p.arguments? = none ∧ q.arguments? = none) ∨
      ∃ as bs, p.arguments? = some as ∧ q.arguments? = some bs ∧ List.Forall₂ R as bs := by
  obtain ⟨ha, hb⟩ | ⟨a, b, ha, hb, hab⟩ := m.child_cases h (l := .arguments) (by decide)
  · exact .inl ⟨by simp [Place.arguments?, ha], by simp [Place.arguments?, hb]⟩
  · simp only [Place.arguments?, ha, hb, ← m.is_eq hab]
    split
    · rename_i hlist
      have hkind : a.tree.kind? = some .argumentList := of_decide_eq_true hlist
      obtain ⟨n, hn⟩ := m.children hab (by simp [Tree.isFunctionLike, hkind, Kind.isFunctionLike])
      refine .inr ⟨_, _, rfl, rfl, ?_⟩
      rw [Place.named, Place.named, List.filter_filter, List.filter_filter]
      refine hn.filter_rel (fun c d hcd => ?_) ?_
      · rw [m.is_eq hcd, m.isNamed_eq hcd]
      · rintro ⟨c, _⟩ ⟨d, _⟩ ⟨s, cs, rfl, -, rfl⟩
        exact ⟨rfl, rfl⟩
    · exact .inl ⟨rfl, rfl⟩

section Typing

theorem returnType_eq {p q : Place} (h : R p q) :
    program.returnType p = other.returnType q := by
  obtain ⟨ha, hb⟩ | ⟨a, b, ha, hb, hab⟩ := m.child_cases h (l := .callee) (by decide)
  · rw [returnType, returnType, ha, hb]
  · obtain ⟨hf, hg⟩ | ⟨f, g, hf, hg, hfg⟩ := option_rel_cases (m.resolve hab)
    · simp only [returnType, ha, hb, hf, hg]
    · simp only [returnType, ha, hb, hf, hg, (m.types hfg).returns_eq]

theorem exprType_eq (scope : Scope) (budget : Nat) {p q : Place} (h : R p q)
    (hbudget : budget ≤ nestingLimit + 1) (hdepth : nestingLimit + 1 ≤ budget + p.above.length) :
    program.exprType scope budget p = other.exprType scope budget q := by
  induction budget generalizing p q with
  | zero => rfl
  | succ budget ih =>
    have hchild : ∀ l : Label, l ≠ .body → (p.child? l).bind (program.exprType scope budget) =
        (q.child? l).bind (other.exprType scope budget) := by
      intro l hl
      obtain ⟨ha, hb⟩ | ⟨a, b, ha, hb, hab⟩ := m.child_cases h hl
      · rw [ha, hb]
        rfl
      · have hd := Place.depth_of_child? ha
        rw [ha, hb]
        exact ih hab (by omega) (by omega)
    have his : ∀ {k : Kind}, p.tree.kind? = some k → p.is k = true := fun hk => decide_eq_true hk
    rw [exprType, exprType, ← m.kind?_eq h]
    split
    · rfl
    · rfl
    · rfl
    · rfl
    · rfl
    · rename_i hk
      obtain ⟨ha, hb⟩ | ⟨a, as, b, bs, ha, hb, hab⟩ := cons_cases_of_rel (m.first h (his hk))
      · rw [ha, hb]
      · have hd := Place.depth_of_mem_named (p := p) (c := a) (by rw [ha]; exact List.mem_cons_self)
        rw [ha, hb]
        exact ih hab (by omega) (by omega)
    · rename_i hk
      rw [m.word_eq h (.inl (his hk))]
    · rw [m.operator?_eq h]
    · rw [m.operator?_eq h, hchild .left (by decide), hchild .right (by decide)]
    · rename_i hk
      have hlists := m.elements h (his hk)
      have hdepths : ∀ a ∈ p.named, nestingLimit + 1 ≤ budget + a.above.length := by
        intro a ha
        have hd := Place.depth_of_mem_named ha
        omega
      have hmaps : p.named.map (program.exprType scope budget) =
          q.named.map (other.exprType scope budget) := by
        generalize p.named = as, q.named = bs at hlists hdepths
        induction hlists with
        | nil => rfl
        | cons hab _ ihs =>
          obtain ⟨ha, has⟩ := List.forall_mem_cons.mp hdepths
          rw [List.map_cons, List.map_cons, ih hab (by omega) ha, ihs has]
      rw [hmaps]
    · rename_i hk
      exact (m.types h).cast_eq (his hk) _ (by omega) (by omega)
    · obtain ⟨ha, hb⟩ | ⟨a, b, ha, hb, hab⟩ := m.tree_child_cases h (l := .constructor) (by decide)
      · rw [ha, hb]
      · have hid := m.is_eq hab .identifier
        have hword : a.is .identifier = true → a.text = b.text := fun hid => m.word_eq hab (.inl hid)
        simp only [Place.is, Place.text] at hid hword
        simp only [ha, hb, ← hid]
        split
        · rw [hword ‹_›]
        · rfl
    · exact m.returnType_eq h
    · rfl

theorem typeOf_eq (scope : Scope) {p q : Place} (h : R p q) :
    program.typeOf scope p = other.typeOf scope q :=
  m.exprType_eq scope (nestingLimit + 1) h (Nat.le_refl _) (Nat.le_add_right _ _)

theorem parameterType_eq {p q : Place} (h : R p q) :
    program.parameterType p = other.parameterType q := by
  rw [parameterType, parameterType]
  refine ascribed_eq (m.types h).typing_eq ?_
  obtain ⟨hc, hd⟩ | ⟨c, d, hc, hd, hcd⟩ := m.tree_child_cases h (l := .pattern) (by decide)
  · rw [hc, hd]
  · have hid := m.is_eq hcd .identifier
    have hrest := m.is_eq hcd .restPattern
    simp only [Place.is] at hid hrest
    simp only [hc, hd, ← hid, ← hrest]
    obtain ⟨he, hf⟩ | ⟨e, f, he, hf, hef⟩ := m.child_cases h (l := .value) (by decide)
    · rw [he, hf]
    · simp only [he, hf, m.typeOf_eq .empty hef]

theorem declaredAt_eq {p q : Place} (h : R p q) (position : Nat) :
    program.declaredAt p position = other.declaredAt q position := by
  have hp := m.parameters h
  have hlast : Option.Rel R p.parameters.getLast? q.parameters.getLast? := by
    rw [List.getLast?_eq_getElem?, List.getLast?_eq_getElem?, hp.length_eq]
    exact getElem?_rel hp _
  simp only [declaredAt]
  obtain ⟨ha, hb⟩ | ⟨a, b, ha, hb, hab⟩ := option_rel_cases (getElem?_rel hp position)
  · rw [ha, hb]
    obtain ⟨hc, hd⟩ | ⟨c, d, hc, hd, hcd⟩ := option_rel_cases hlast
    · rw [hc, hd]
    · simp only [hc, hd, ← m.isRest_eq hcd, m.parameterType_eq hcd]
  · simp only [ha, hb, ← m.isRest_eq hab, m.parameterType_eq hab]

theorem bindVariable_eq (scope : Scope) {p q : Place} (h : R p q) :
    program.bindVariable scope p = other.bindVariable scope q := by
  have hvalue : (p.child? .value).bind (program.typeOf scope) =
      (q.child? .value).bind (other.typeOf scope) := by
    obtain ⟨he, hf⟩ | ⟨e, f, he, hf, hef⟩ := m.child_cases h (l := .value) (by decide)
    · simp only [he, hf, Option.bind_none]
    · simp only [he, hf, Option.bind_some, m.typeOf_eq scope hef]
  rw [bindVariable, bindVariable]
  obtain ⟨ha, hb⟩ | ⟨a, b, ha, hb, hab⟩ := m.tree_child_cases h (l := .name) (by decide)
  · rw [ha, hb]
  · have hid := m.is_eq hab .identifier
    have hword : a.is .identifier = true → a.text = b.text := fun hid => m.word_eq hab (.inl hid)
    simp only [Place.is, Place.text] at hid hword
    simp only [ha, hb, ← hid]
    split
    · rw [hword ‹_›]
      exact congrArg (fun t : Option Ty => scope.bind b.tree.text (t.getD .dynamic))
        (ascribed_eq (m.types h).typing_eq hvalue)
    · rfl

/-- The local names of corresponding functions have the same types, if the parameters bind the same
names and the variables of the bodies correspond. -/
theorem scopeOf_eq {f g : Place} (h : R f g)
    (hnames : f.parameters.map (·.tree.parameterName?) = g.parameters.map (·.tree.parameterName?))
    (hbody : Option.Rel (fun b c => List.Forall₂ R (variablesOf b) (variablesOf c))
      (f.child? .body) (g.child? .body)) : program.scopeOf f = other.scopeOf g := by
  have hparameters : ∀ scope : Scope, f.parameters.foldl program.bindParameter scope =
      g.parameters.foldl other.bindParameter scope := by
    have hlists := m.parameters h
    generalize f.parameters = as, g.parameters = bs at hlists hnames
    induction hlists with
    | nil => simp only [List.foldl_nil, implies_true]
    | cons hab _ ih =>
      intro scope
      simp only [List.map_cons, List.cons.injEq] at hnames
      rw [List.foldl_cons, List.foldl_cons, bindParameter, bindParameter, hnames.1,
        m.parameterType_eq hab]
      exact ih hnames.2 _
  rw [scopeOf_eq_foldl, scopeOf_eq_foldl, hparameters]
  obtain ⟨hb, hc⟩ | ⟨b, c, hb, hc, hbc⟩ := option_rel_cases hbody
  · rw [hb, hc, Option.toList_none, List.flatMap_nil, List.foldl_nil, List.foldl_nil]
  · rw [hb, hc, Option.toList_some, Option.toList_some, List.flatMap_singleton, List.flatMap_singleton]
    exact foldl_eq_of_forall₂ hbc (fun scope _ _ hde => m.bindVariable_eq scope hde) _

end Typing

end Mirrors

end Program

namespace Focus

/-- The same parameter in two programs: local names have the same types, expressions reach the same
paths from the parameter, and the bodies of nested functions correspond unless they redeclare it. -/
structure Mirrors (R : Place → Place → Prop) (f g : Focus) : Prop where
  program : f.program.Mirrors R g.program
  scope_eq : f.scope = g.scope
  path?_eq {p q : Place} : R p q → f.path? p = g.path? q
  redeclares_eq {p q : Place} : R p q → p.tree.isFunctionLike = true →
    f.redeclares p.tree = g.redeclares q.tree
  body {p q : Place} : R p q → f.redeclares p.tree = false →
    Option.Rel R (p.child? .body) (q.child? .body)

namespace Mirrors

variable {R : Place → Place → Prop} {f g : Focus} (m : f.Mirrors R g)

include m

theorem typeOf_eq {p q : Place} (h : R p q) :
    f.program.typeOf f.scope p = g.program.typeOf g.scope q := by
  rw [m.scope_eq]
  exact m.program.typeOf_eq _ h

theorem argumentTypes_eq {as bs : List Place} (h : List.Forall₂ R as bs) :
    f.argumentTypes as = g.argumentTypes bs :=
  map_eq_of_forall₂ h fun _ _ hab => by rw [m.typeOf_eq hab]

theorem operandEvents_eq (rule : OperandRule) {p q : Place} (h : R p q) {o o' : Option Place}
    (ho : Option.Rel R o o') :
    evidenceIn (f.operandEvents rule p o) = evidenceIn (g.operandEvents rule q o') := by
  rw [operandEvents, operandEvents, ← m.path?_eq h]
  cases f.path? p with
  | none => simp
  | some path =>
    cases ho with
    | none => cases rule <;> simp
    | some hab =>
      cases rule with
      | numeric => simp
      | numericOrText =>
        simp only [evidenceIn_append, evidenceIn_chainEvents, evidenceIn_typeEvents,
          m.typeOf_eq hab]

theorem operands_eq (rule : OperandRule) {o o' r r' : Option Place} (ho : Option.Rel R o o')
    (hr : Option.Rel R r r') :
    (o.toList.flatMap fun p => evidenceIn (f.operandEvents rule p r)) =
      o'.toList.flatMap fun p => evidenceIn (g.operandEvents rule p r') := by
  cases ho with
  | none => simp only [Option.toList_none, List.flatMap_nil]
  | some hab => simp [m.operandEvents_eq rule hab hr]

theorem argumentEvents_eq {callee callee' : Place} {function function' : Place}
    (hfunction : R function function') (index : Nat) {p q : Place} (h : R p q) :
    evidenceIn (f.argumentEvents callee function index p) =
      evidenceIn (g.argumentEvents callee' function' index q) := by
  rw [argumentEvents, argumentEvents, ← m.path?_eq h]
  cases f.path? p with
  | none => simp
  | some path =>
    simp only [evidenceIn_append, evidenceIn_chainEvents, evidenceIn_cuts, List.nil_append,
      m.program.declaredAt_eq hfunction]
    split
    · split <;> rfl
    · rfl

theorem passEvents_eq {callee callee' : Place} (hcallee : R callee callee') {as bs : List Place}
    (h : List.Forall₂ R as bs) :
    evidenceIn (f.passEvents callee as) = evidenceIn (g.passEvents callee' bs) := by
  rw [passEvents, passEvents]
  obtain ⟨hx, hy⟩ | ⟨x, y, hx, hy, hxy⟩ := option_rel_cases (m.program.resolve hcallee)
  · rw [hx, hy]
  · simp only [hx, hy, evidenceIn_flatMap]
    have hplain := takeWhile_rel h (f := (!·.is .spreadElement)) (g := (!·.is .spreadElement))
      fun a b hab => by rw [m.program.is_eq hab]
    refine flatMap_eq_of_forall₂ (zipIdx_rel hplain 0) ?_
    rintro ⟨a, i⟩ ⟨b, j⟩ ⟨hab, rfl⟩
    exact m.argumentEvents_eq hxy i hab

theorem assignEvents_eq {o o' r r' : Option Place} (ho : Option.Rel R o o')
    (hr : Option.Rel R r r') :
    evidenceIn (f.assignEvents o r) = evidenceIn (g.assignEvents o' r') := by
  cases ho with
  | none => rfl
  | @some p q hp =>
    cases hr with
    | none => rfl
    | some hr =>
      rw [assignEvents, assignEvents, ← m.path?_eq hp]
      cases f.path? p with
      | none => simp
      | some path =>
        simp only [evidenceIn_append, evidenceIn_chainEvents, evidenceIn_typeEvents, m.typeOf_eq hr]

theorem binaryEvents_eq {p q : Place} (h : R p q) :
    evidenceIn (f.binaryEvents p) = evidenceIn (g.binaryEvents q) := by
  have hl := m.program.child h (l := .left) (by decide)
  have hr := m.program.child h (l := .right) (by decide)
  rw [binaryEvents, binaryEvents, ← m.program.operator?_eq h]
  split
  · rfl
  · simp only [evidenceIn_append, evidenceIn_flatMap, m.operands_eq _ hl hr, m.operands_eq _ hr hl]

theorem compoundEvents_eq {p q : Place} (h : R p q) :
    evidenceIn (f.compoundEvents p) = evidenceIn (g.compoundEvents q) := by
  have hl := m.program.child h (l := .left) (by decide)
  have hr := m.program.child h (l := .right) (by decide)
  rw [compoundEvents, compoundEvents, ← m.program.operator?_eq h]
  split
  · rfl
  · split
    · rfl
    · split
      · rfl
      · simp only [evidenceIn_flatMap, m.operands_eq _ hl hr]

theorem unaryEvents_eq {p q : Place} (h : R p q) :
    evidenceIn (f.unaryEvents p) = evidenceIn (g.unaryEvents q) := by
  rw [unaryEvents, unaryEvents, ← m.program.operator?_eq h, ← m.program.is_eq h]
  split
  · simp only [evidenceIn_flatMap,
      m.operands_eq _ (m.program.child h (l := .argument) (by decide)) .none]
  · rfl

theorem method?_rel {p q : Place} (h : R p q) :
    Option.Rel (fun a b => R a.1 b.1 ∧ a.2 = b.2) (method? p) (method? q) := by
  rw [method?, method?, ← m.program.is_eq h]
  split
  · obtain ⟨ha, hb⟩ | ⟨a, b, ha, hb, hab⟩ := m.program.tree_child_cases h (l := .property) (by decide)
    · rw [ha, hb]
      exact .none
    · obtain ⟨hc, hd⟩ | ⟨c, d, hc, hd, hcd⟩ := m.program.child_cases h (l := .object) (by decide)
      · rw [ha, hb, hc, hd]
        exact .none
      · have hid := m.program.is_eq hab .propertyIdentifier
        have hword : a.is .propertyIdentifier = true → a.text = b.text :=
          fun hid => m.program.word_eq hab (.inr hid)
        simp only [Place.is, Place.text] at hid hword
        simp only [ha, hb, hc, hd, ← hid]
        split
        · exact .some ⟨hcd, hword ‹_›⟩
        · exact .none
  · exact .none

theorem receiver?_eq {p q : Place} (h : R p q) : f.receiver? p = g.receiver? q := by
  rw [receiver?, receiver?]
  obtain ⟨ha, hb⟩ | ⟨⟨a, n⟩, ⟨b, k⟩, ha, hb, hab, rfl⟩ := option_rel_cases (m.method?_rel h)
  · simp only [ha, hb, Option.bind_none]
  · simp only [ha, hb, Option.bind_some, m.path?_eq hab]

theorem ownEvents_eq {p q : Place} (h : R p q) :
    evidenceIn (f.ownEvents p) = evidenceIn (g.ownEvents q) := by
  rw [ownEvents, ownEvents, ← m.program.kind?_eq h]
  split
  · exact m.binaryEvents_eq h
  · exact m.compoundEvents_eq h
  · exact m.assignEvents_eq (m.program.child h (l := .left) (by decide))
      (m.program.child h (l := .right) (by decide))
  · exact m.unaryEvents_eq h
  · exact m.unaryEvents_eq h
  · rfl

end Mirrors

/-- A comment says nothing about a parameter. -/
theorem visit_comment (f : Focus) (budget : Nat) (s : Position) {cs : List Tree}
    (hcs : ∀ d ∈ cs, d.isNamed = false) (above : List (Tree × Nat)) :
    evidenceIn (f.visit budget ⟨.node none .comment s cs, above⟩) = [] := by
  cases budget with
  | zero => rfl
  | succ budget =>
    have hpath : f.path? ⟨.node none .comment s cs, above⟩ = none := accessPath_eq_none rfl rfl
    have hnamed : Place.named ⟨.node none .comment s cs, above⟩ = [] := by
      rw [Place.named, List.filter_eq_nil_iff]
      intro c hc
      have htree : c.tree ∈ cs := by
        have := List.mem_map_of_mem (f := (·.tree)) hc
        rwa [Place.map_tree_children] at this
      simp [hcs _ htree]
    rw [visit_of_not_calls hpath fun _ _ hcall => by cases hcall.kind?_eq]
    have hparts : f.parts ⟨.node none .comment s cs, above⟩ = [] := hnamed
    rw [hparts, List.flatMap_nil]
    rfl

namespace Mirrors

variable {R : Place → Place → Prop} {f g : Focus} (m : f.Mirrors R g)

include m

/-- Corresponding nodes are calls of what corresponds, or they are no calls. -/
theorem calls_cases {p q : Place} (h : R p q) :
    ((∀ callee arguments, ¬p.Calls callee arguments) ∧ ∀ callee arguments, ¬q.Calls callee arguments) ∨
      ∃ callee arguments callee' arguments', p.Calls callee arguments ∧ q.Calls callee' arguments' ∧
        R callee callee' ∧ List.Forall₂ R arguments arguments' := by
  by_cases hk : p.tree.kind? = some .callExpression
  · have hk' := m.program.kind?_eq h ▸ hk
    obtain ⟨ha, hb⟩ | ⟨callee, callee', ha, hb, hcallee⟩ := m.program.child_cases h (l := .callee) (by decide)
    · refine .inl ⟨fun _ _ hp => ?_, fun _ _ hq => ?_⟩
      · cases hp.callee?_eq.symm.trans ha
      · cases hq.callee?_eq.symm.trans hb
    · obtain ⟨hc, hd⟩ | ⟨arguments, arguments', hc, hd, harguments⟩ := m.program.arguments_cases h
      · refine .inl ⟨fun _ _ hp => ?_, fun _ _ hq => ?_⟩
        · cases hp.arguments?_eq.symm.trans hc
        · cases hq.arguments?_eq.symm.trans hd
      · exact .inr ⟨callee, arguments, callee', arguments', ⟨hk, ha, hc⟩, ⟨hk', hb, hd⟩, hcallee, harguments⟩
  · exact .inl ⟨fun _ _ hp => hk hp.kind?_eq, fun _ _ hq => hk (m.program.kind?_eq h ▸ hq.kind?_eq)⟩

/-- The parts of corresponding nodes say the same, if what corresponds among them does so. -/
theorem parts_eq {budget : Nat}
    (ih : ∀ {p q : Place}, R p q → evidenceIn (f.visit budget p) = evidenceIn (g.visit budget q))
    {p q : Place} (h : R p q) :
    ((f.parts p).flatMap fun c => evidenceIn (f.visit budget c)) =
      (g.parts q).flatMap fun c => evidenceIn (g.visit budget c) := by
  have hrel : ∀ {o o' : Option Place}, Option.Rel R o o' →
      (o.toList.flatMap fun c => evidenceIn (f.visit budget c)) =
        o'.toList.flatMap fun c => evidenceIn (g.visit budget c) := by
    intro o o' ho
    cases ho with
    | none => simp only [Option.toList_none, List.flatMap_nil]
    | some hab => simp only [Option.toList_some, List.flatMap_singleton, ih hab]
  have hfield : ∀ l : Label, l ≠ .body →
      ((p.child? l).toList.flatMap fun c => evidenceIn (f.visit budget c)) =
        (q.child? l).toList.flatMap fun c => evidenceIn (g.visit budget c) :=
    fun l hl => hrel (m.program.child h hl)
  have hsides : (((p.child? .left).toList ++ (p.child? .right).toList).flatMap fun c =>
        evidenceIn (f.visit budget c)) =
      ((q.child? .left).toList ++ (q.child? .right).toList).flatMap fun c =>
        evidenceIn (g.visit budget c) := by
    rw [List.flatMap_append, List.flatMap_append, hfield .left (by decide), hfield .right (by decide)]
  rw [parts, parts, ← m.program.kind?_eq h, ← m.program.isFunctionLike_eq h]
  split
  · exact hsides
  · exact hsides
  · exact hsides
  · exact hfield .argument (by decide)
  · exact hfield .argument (by decide)
  · split
    · rename_i hfunction
      rw [← m.redeclares_eq h hfunction]
      split
      · simp only [List.flatMap_nil]
      · rename_i hplain
        exact hrel (m.body h (by simpa using hplain))
    · rename_i hplain
      obtain ⟨n, hn⟩ := m.program.children h (by simpa using hplain)
      refine hn.flatMap_eq (fun a b hab => ⟨m.program.isNamed_eq hab, ih hab⟩) ?_
      rintro ⟨a, _⟩ ⟨b, _⟩ ⟨s, cs, rfl, hcs, rfl⟩
      exact ⟨visit_comment f budget s hcs _, rfl⟩

/-- A walk collects the same evidence. -/
theorem visit_eq (budget : Nat) {p q : Place} (h : R p q) :
    evidenceIn (f.visit budget p) = evidenceIn (g.visit budget q) := by
  induction budget generalizing p q with
  | zero => rfl
  | succ budget ih =>
    cases hpath : f.path? p with
    | some path => rw [visit_of_path? hpath, visit_of_path? (m.path?_eq h ▸ hpath)]
    | none =>
      have hpath' : g.path? q = none := m.path?_eq h ▸ hpath
      obtain ⟨hp, hq⟩ | ⟨callee, arguments, callee', arguments', hp, hq, hcallee, harguments⟩ :=
        m.calls_cases h
      · rw [visit_of_not_calls hpath hp, visit_of_not_calls hpath' hq, m.parts_eq ih h, m.ownEvents_eq h]
      · have hinside : (arguments.flatMap fun c => evidenceIn (f.visit budget c)) =
            arguments'.flatMap fun c => evidenceIn (g.visit budget c) :=
          flatMap_eq_of_forall₂ harguments fun _ _ hab => ih hab
        rw [visit_of_calls hp hpath, visit_of_calls hq hpath', m.receiver?_eq hcallee,
          m.path?_eq hcallee, hinside, m.argumentTypes_eq harguments, ih hcallee,
          m.passEvents_eq hcallee harguments]

end Mirrors

end Focus

/-- The function that a call by name counts for, with the number of arguments. -/
def Program.calledAt (program : Program) (p : Place) : Option (List Nat × Nat) :=
  (plainCall? p).bind fun (callee, count) =>
    (program.resolveFunction callee).map fun f => (f.address, count)

theorem Program.calls_eq_filterMap {program : Program}
    (h : program.plainCalls = program.places.filterMap plainCall?) :
    program.calls = program.places.filterMap program.calledAt := by
  rw [calls, h, List.filterMap_filterMap]
  rfl

/-- What a report shows of a function or a parameter itself. -/
def Tree.face (t : Tree) : Option String × Option String × String × Position :=
  (t.declaredName?, t.parameterName?, t.text, t.start)

namespace Program.Mirrors

variable {R : Place → Place → Prop} {program other : Program} (m : Mirrors R program other)

include m

theorem isOpen_eq {p q : Place} (h : R p q) : program.isOpen p = other.isOpen q := by
  rw [isOpen, isOpen, m.parameterType_eq h]

theorem any_isOpen_eq {f g : Place} (h : R f g) :
    f.parameters.any program.isOpen = g.parameters.any other.isOpen :=
  any_eq_of_forall₂ (m.parameters h) fun _ _ hab => m.isOpen_eq hab

theorem openParameters_rel {f g : Place} (h : R f g) :
    List.Forall₂ (fun a b => R a.1 b.1 ∧ a.2 = b.2) (program.openParameters f)
      (other.openParameters g) := by
  refine filter_rel (zipIdx_rel (m.parameters h) 0) ?_
  rintro ⟨a, i⟩ ⟨b, j⟩ ⟨hab, -⟩
  simp only [m.parameterType_eq hab]

theorem plainCall?_rel {p q : Place} (h : R p q) :
    Option.Rel (fun a b => R a.1 b.1 ∧ a.2 = b.2) (plainCall? p) (plainCall? q) := by
  rw [plainCall?, plainCall?, ← m.is_eq h]
  split
  · obtain ⟨ha, hb⟩ | ⟨a, b, ha, hb, hab⟩ := m.child_cases h (l := .callee) (by decide)
    · rw [ha, hb]
      exact .none
    · obtain ⟨hc, hd⟩ | ⟨as, bs, hc, hd, hargs⟩ := m.arguments_cases h
      · rw [ha, hb, hc, hd]
        exact .none
      · have hspread : as.any (·.is .spreadElement) = bs.any (·.is .spreadElement) :=
          any_eq_of_forall₂ hargs fun _ _ hcd => m.is_eq hcd _
        simp only [ha, hb, hc, hd, ← m.is_eq hab, ← hspread, ← hargs.length_eq]
        split
        · exact .some ⟨hab, rfl⟩
        · exact .none
  · exact .none

theorem calledAt_eq (haddress : ∀ {f g : Place}, R f g → f.address = g.address) {p q : Place}
    (h : R p q) : program.calledAt p = other.calledAt q := by
  rw [calledAt, calledAt]
  obtain ⟨ha, hb⟩ | ⟨⟨a, n⟩, ⟨b, k⟩, ha, hb, hab, rfl⟩ := option_rel_cases (m.plainCall?_rel h)
  · simp only [ha, hb, Option.bind_none]
  · obtain ⟨hc, hd⟩ | ⟨c, d, hc, hd, hcd⟩ := option_rel_cases (m.resolve hab)
    · simp only [ha, hb, Option.bind_some, hc, hd, Option.map_none]
    · simp only [ha, hb, Option.bind_some, hc, hd, Option.map_some, haddress hcd]

omit m in
theorem slotEvidence_eq (limit : Nat) {f g : Place}
    (hfocus : ∀ name, (program.focus f name limit).Mirrors R (other.focus g name limit))
    (hbody : Option.Rel R (f.child? .body) (g.child? .body)) {a b : Place}
    (hname : a.tree.parameterName? = b.tree.parameterName?) (i : Nat) :
    program.slotEvidence limit f (program.slotAt (a, i)) =
      other.slotEvidence limit g (other.slotAt (b, i)) := by
  simp only [slotEvidence, slotAt, ← hname]
  cases a.tree.parameterName? with
  | none => rfl
  | some name =>
    obtain ⟨hc, hd⟩ | ⟨c, d, hc, hd, hcd⟩ := option_rel_cases hbody
    · simp only [hc, hd]
    · simp only [hc, hd]
      exact (hfocus name).visit_eq (limit + 1) hcd

theorem reportOf_eq (settings : Settings) {f g : Place} (h : R f g)
    (hface : ∀ {p q : Place}, R p q → p.tree.face = q.tree.face)
    (harities : program.arities f = other.arities g)
    (htype : ∀ {a b : Place} (i : Nat), R a b → program.slotType settings f (program.slotAt (a, i)) =
      other.slotType settings g (other.slotAt (b, i))) :
    program.reportOf settings f = other.reportOf settings g := by
  have hshown : ∀ {p q : Place}, R p q → p.tree.declaredName? = q.tree.declaredName? ∧
      p.tree.parameterName? = q.tree.parameterName? ∧ p.tree.text = q.tree.text ∧
      p.tree.start = q.tree.start := by
    intro p q hpq
    simpa [Tree.face] using hface hpq
  rw [reportOf, reportOf, (hshown h).1, Tree.line, Tree.line, (hshown h).2.2.2]
  congr 1
  refine map_eq_of_forall₂ (m.openParameters_rel h) ?_
  rintro ⟨a, i⟩ ⟨b, j⟩ ⟨hab, rfl⟩
  obtain ⟨-, hname, htext, hstart⟩ := hshown hab
  have hoptional := m.is_eq hab .optionalParameter
  simp only [Place.is] at hoptional
  simp only [inferSlot, htype i hab, harities]
  simp only [slotAt, Tree.stop, Tree.line, hname, htext, hstart, hoptional]
  rfl

end Program.Mirrors

end UsageTypes
