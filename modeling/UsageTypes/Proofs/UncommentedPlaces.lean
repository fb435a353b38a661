import UsageTypes.Proofs.DocumentOrder
import UsageTypes.Proofs.Mirroring

/-! Places and names in trees that differ in comments which are read by no position: places correspond,
names mean the same functions, and so the one program mirrors the other. -/

namespace UsageTypes

open UsageTypes.Tree (positional)

def AboveUncomments : List (Tree × Nat) → List (Tree × Nat) → Prop :=
  List.Forall₂ fun a b => a.1.Uncomments positional b.1 ∧ a.2 = b.2

namespace Place

/-- Places that differ only in comments that are read by no position. -/
structure Uncomments (p q : Place) : Prop where
  tree : p.tree.Uncomments positional q.tree
  above : AboveUncomments p.above q.above

namespace Uncomments

variable {p q : Place} (h : p.Uncomments q)

include h

theorem address_eq : p.address = q.address :=
  map_eq_of_forall₂ h.above fun _ _ hab => hab.2

theorem is_eq (k : Kind) : p.is k = q.is k :=
  h.tree.is_eq k

theorem text_eq : p.text = q.text :=
  h.tree.text_eq

theorem children_thinned : Thinned Uncomments Blanked (·.tree.isNamed) (p.tree.fixedIn positional)
    p.children q.children :=
  siblings_thinned h.tree.children_thinned 0 (fun _ _ _ _ _ hcd => ⟨hcd, .cons ⟨h.tree, rfl⟩ h.above⟩)
    fun _ _ hgone => hgone

theorem child?_rel (l : Label) : Option.Rel Uncomments (p.child? l) (q.child? l) := by
  refine h.children_thinned.find?_rel ?_ ?_
  · intro a b hab
    rw [hab.tree.label?_eq]
  · rintro ⟨a, _⟩ ⟨b, _⟩ ⟨s, cs, rfl, -, rfl⟩
    exact ⟨rfl, rfl⟩

theorem child?_cases (l : Label) : (p.child? l = none ∧ q.child? l = none) ∨
    ∃ a b, p.child? l = some a ∧ q.child? l = some b ∧ a.Uncomments b :=
  option_rel_cases (h.child?_rel l)

theorem named_filter (test : Tree → Bool)
    (htest : ∀ a b : Tree, a.Uncomments positional b → test a = test b)
    (hcomment : ∀ s cs, test (.node none .comment s cs) = false) :
    List.Forall₂ Uncomments (p.named.filter (test ·.tree)) (q.named.filter (test ·.tree)) := by
  rw [named, named, List.filter_filter, List.filter_filter]
  refine h.children_thinned.filter_rel ?_ ?_
  · intro a b hab
    rw [htest _ _ hab.tree, hab.tree.isNamed_eq]
  · rintro ⟨a, _⟩ ⟨b, _⟩ ⟨s, cs, rfl, -, rfl⟩
    simp [hcomment, Tree.isNamed]

theorem named_getElem?_of_kind {k : Kind} (hk : p.tree.kind? = some k) {i : Nat}
    (hi : i < k.positional p.tree.children) : Option.Rel Uncomments p.named[i]? q.named[i]? :=
  getElem?_rel_of_take (h.children_thinned.take_rel (Nat.le_refl _) fun _ _ hab => hab.tree.isNamed_eq)
    (Nat.lt_of_lt_of_le hi (Tree.le_fixedIn hk))

theorem named_rel_of_kind {k : Kind} (hk : p.tree.kind? = some k)
    (hall : p.tree.children.length ≤ k.positional p.tree.children) :
    List.Forall₂ Uncomments p.named q.named := by
  have hlen : p.children.length ≤ p.tree.fixedIn positional := by
    have := congrArg List.length p.map_tree_children
    rw [List.length_map] at this
    rw [this]
    exact Nat.le_trans hall (Tree.le_fixedIn hk)
  exact filter_rel (h.children_thinned.forall₂ hlen) fun _ _ hab => hab.tree.isNamed_eq

theorem parameters_rel : List.Forall₂ Uncomments p.parameters q.parameters := by
  obtain ⟨ha, hb⟩ | ⟨a, b, ha, hb, hab⟩ := h.child?_cases .parameters
  · simp [parameters, ha, hb]
  · simp only [parameters, ha, hb]
    exact hab.named_filter Tree.isPositional (fun _ _ h => h.isPositional_eq) fun _ _ => rfl

end Uncomments

end Place

/-- A walk that comments do not influence: neither where it goes nor what it looks for. -/
structure BlindToComments (enter : Tree → Bool) (test : Place → Bool) : Prop where
  enter_eq : ∀ a b : Tree, a.Uncomments positional b → enter a = enter b
  test_eq : ∀ a b : Place, a.Uncomments b → test a = test b
  comment : ∀ s cs above, test ⟨.node none .comment s cs, above⟩ = false

section Walks

variable {enter : Tree → Bool} {test : Place → Bool}

theorem placesAll_eq_nil {cs : List Tree} (h : ∀ c ∈ cs, c.isNamed = false) (parent : Tree)
    (above : List (Tree × Nat)) (i : Nat) : placesAll enter parent above i cs = [] := by
  induction cs generalizing i with
  | nil => rfl
  | cons c cs ih =>
    have hc : c.places enter ((parent, i) :: above) = [] := by
      have := h c List.mem_cons_self
      cases c <;> simp_all [Tree.isNamed, Tree.places]
    rw [placesAll, hc, ih fun d hd => h d (List.mem_cons_of_mem _ hd)]
    simp

mutual

/-- A walk meets the same nodes, comments apart. -/
theorem places_rel (hw : BlindToComments enter test) : ∀ {t u : Tree} {above above' : List (Tree × Nat)},
    t.Uncomments positional u → AboveUncomments above above' →
    List.Forall₂ Place.Uncomments ((t.places enter above).filter test)
      ((u.places enter above').filter test)
  | .blank _, _, _, _, .blank _, _ => .nil
  | .token _ _, _, _, _, .token _ _, _ => .nil
  | .node l k p cs, .node _ _ _ ds, above, above', .node h, ha => by
    have hroot : Place.Uncomments ⟨.node l k p cs, above⟩ ⟨.node l k p ds, above'⟩ := ⟨.node h, ha⟩
    have hrest := placesAll_rel hw hroot.tree ha h 0
    rw [Tree.places, Tree.places, List.filter_cons, List.filter_cons, ← hw.test_eq _ _ hroot]
    split
    · exact .cons hroot hrest
    · exact hrest

theorem placesAll_rel (hw : BlindToComments enter test) : ∀ {parent parent' : Tree} {above above' : List (Tree × Nat)},
    parent.Uncomments positional parent' → AboveUncomments above above' →
    ∀ {n : Nat} {cs ds : List Tree},
    Thinned (Tree.Uncomments positional) Tree.Blanked Tree.isNamed n cs ds → ∀ i,
    List.Forall₂ Place.Uncomments ((placesAll enter parent above i cs).filter test)
      ((placesAll enter parent' above' i ds).filter test)
  | _, _, _, _, _, _, _, [], _, .nil, _ => .nil
  | parent, parent', above, above', hp, ha, _, _ :: _, _, .keep h hs, i => by
    have hrest := placesAll_rel hw hp ha hs (i + 1)
    have hfirst := places_rel hw h (.cons (a := (parent, i)) (b := (parent', i)) ⟨hp, rfl⟩ ha)
    rw [placesAll, placesAll, List.filter_append, List.filter_append, ← hw.enter_eq _ _ h]
    refine List.rel_append ?_ hrest
    split
    · exact hfirst
    · exact .nil
  | parent, parent', above, above', hp, ha, _, _ :: _, _, .drop h hs, i => by
    obtain ⟨s, cs, rfl, hcs, rfl⟩ := h
    have hrest := placesAll_rel hw hp ha hs (i + 1)
    have hnone : (if enter (.node none .comment s cs) then
        Tree.places enter ((parent, i) :: above) (.node none .comment s cs) else []).filter test
          = [] := by
      split
      · simp [Tree.places, placesAll_eq_nil hcs, hw.comment]
      · rfl
    rw [placesAll, placesAll, List.filter_append, List.filter_append, hnone]
    simpa [Tree.places] using hrest

end

end Walks

theorem declares_eq {t u : Tree} (h : t.Uncomments positional u) (name : String) :
    (t.named.any fun v => v.is .variableDeclarator && v.declaredName? = some name) =
      u.named.any fun v => v.is .variableDeclarator && v.declaredName? = some name := by
  refine h.named_any _ (fun a b hab => ?_) fun _ _ => rfl
  rw [hab.is_eq, hab.declaredName?_eq]

theorem blockBinding_rel {p q : Place} (h : p.Uncomments q) (name : String) :
    Option.Rel (Binding.Mirrors Place.Uncomments) (blockBinding name p) (blockBinding name q) := by
  refine h.children_thinned.findSome?_rel (fun a b hab => ⟨hab.tree.isNamed_eq, ?_⟩) ?_
  · refine statementBinding_rel (declarationOf_rel hab hab.tree.kind?_eq (hab.child?_rel _))
      (fun hcd => hcd.tree.kind?_eq) (fun hcd => ?_) fun hcd _ => declares_eq hcd.tree name
    rw [hcd.tree.declaredName?_eq]
  · rintro ⟨a, _⟩ ⟨b, _⟩ ⟨s, cs, rfl, -, rfl⟩
    exact ⟨rfl, rfl⟩

/-- A name means the same function, or none, wherever it stands. -/
theorem lookupFunction_rel (name : String) {above above' : List (Tree × Nat)}
    (h : AboveUncomments above above') :
    Option.Rel Place.Uncomments (lookupFunction name above) (lookupFunction name above') := by
  induction h with
  | nil => exact .none
  | @cons a b above above' hab habove ih =>
    refine lookupFunction_cons_rel a.2 b.2 hab.1.kind?_eq (fun _ => ?_) (fun _ => ?_) ih
    · rw [hab.1.boundNames_eq]
    · exact blockBinding_rel (p := ⟨a.1, above⟩) (q := ⟨b.1, above'⟩) ⟨hab.1, habove⟩ name

/-- Programs that differ only in comments that are read by no position. -/
structure Program.Uncomments (program other : Program) : Prop where
  root : program.root.Uncomments positional other.root
  functionNames_eq : program.functionNames = other.functionNames
  typeDeclarations_rel : List.Forall₂
    (fun a b : String × Tree => a.1 = b.1 ∧ a.2.Uncomments positional b.2)
    program.typeDeclarations other.typeDeclarations
  plainCalls_eq : program.plainCalls = program.places.filterMap Program.plainCall?
  other_plainCalls_eq : other.plainCalls = other.places.filterMap Program.plainCall?

theorem nodes_filter_rel {t u : Tree} (h : t.Uncomments positional u) (test : Tree → Bool)
    (htest : ∀ a b : Tree, a.Uncomments positional b → test a = test b)
    (hcomment : ∀ s cs, test (.node none .comment s cs) = false) :
    List.Forall₂ (Tree.Uncomments positional) (t.nodes.filter test) (u.nodes.filter test) := by
  have hw : BlindToComments (fun _ => true) (test ·.tree) :=
    ⟨fun _ _ _ => rfl, fun a b hab => htest _ _ hab.tree, fun s cs _ => hcomment s cs⟩
  rw [← map_tree_places [] t, ← map_tree_places [] u, List.filter_map, List.filter_map,
    List.forall₂_map_left_iff, List.forall₂_map_right_iff]
  exact (places_rel hw h .nil).imp fun _ _ hab => hab.tree

theorem ofTree_uncomments {t u : Tree} (h : t.Uncomments positional u) :
    (Program.ofTree t).Uncomments (Program.ofTree u) := by
  refine ⟨h, ?_, ?_, Program.plainCalls_ofTree t, Program.plainCalls_ofTree u⟩
  · have hd := nodes_filter_rel h Tree.isDeclaration (fun _ _ hab => hab.isDeclaration_eq)
      fun _ _ => rfl
    rw [Program.functionNames_ofTree, Program.functionNames_ofTree]
    exact filterMap_eq_of_forall₂ hd fun _ _ hab => hab.declaredName?_eq
  · have hd := nodes_filter_rel h Program.isTypeDeclaration
      (fun _ _ hab => by simp only [Program.isTypeDeclaration, hab.is_eq]) fun _ _ => rfl
    rw [Program.typeDeclarations_ofTree, Program.typeDeclarations_ofTree]
    generalize t.nodes.filter Program.isTypeDeclaration = as,
      u.nodes.filter Program.isTypeDeclaration = bs at hd
    induction hd with
    | nil => exact .nil
    | @cons a b as bs hab _ ih =>
      rw [List.filterMap_cons, List.filterMap_cons, ← hab.declaredName?_eq]
      cases a.declaredName? with
      | none => exact ih
      | some name => exact .cons ⟨rfl, hab⟩ ih

theorem lookup_rel {as bs : List (String × Tree)}
    (h : List.Forall₂ (fun a b : String × Tree => a.1 = b.1 ∧ a.2.Uncomments positional b.2) as bs)
    (name : String) :
    Option.Rel (Tree.Uncomments positional) (as.lookup name) (bs.lookup name) := by
  induction h with
  | nil => exact .none
  | @cons a b as bs hab _ ih =>
    rw [List.lookup_cons, List.lookup_cons, ← hab.1]
    split
    · exact .some hab.2
    · exact ih

section Programs

variable {program other : Program} (hprogram : program.Uncomments other)

include hprogram

theorem typeDeclaration?_cases (name : String) :
    (program.typeDeclaration? name = none ∧ other.typeDeclaration? name = none) ∨
      ∃ a b, program.typeDeclaration? name = some a ∧ other.typeDeclaration? name = some b ∧
        a.Uncomments positional b :=
  option_rel_cases (lookup_rel hprogram.typeDeclarations_rel name)

theorem resolveFunction_rel {p q : Place} (h : p.Uncomments q) :
    Option.Rel Place.Uncomments (program.resolveFunction p) (other.resolveFunction q) := by
  have hu : p.unwrap.Uncomments q.unwrap :=
    Place.unwrap_rel (fun h => h.tree.kind?_eq)
      (fun h hk => h.named_getElem?_of_kind (of_decide_eq_true hk) Nat.zero_lt_one) h
  rw [Program.resolveFunction, Program.resolveFunction, ← hprogram.functionNames_eq]
  simp only [← hu.is_eq, ← hu.text_eq]
  split
  · exact lookupFunction_rel _ hu.above
  · exact .none

omit hprogram in
theorem map_resolveType_eq {t u : Tree} (h : t.Uncomments positional u) (l : Label) :
    (t.child? l).map resolveType = (u.child? l).map resolveType := by
  obtain ⟨ha, hb⟩ | ⟨a, b, ha, hb, hab⟩ := h.child?_cases l
  · rw [ha, hb]
  · rw [ha, hb, Option.map_some, Option.map_some, hab.resolveType_eq]

/-- Comments that are read by no position change nothing that inference looks at. -/
theorem mirrors_of_uncomments : program.Mirrors Place.Uncomments other where
  kind?_eq h := h.tree.kind?_eq
  word_eq h _ := h.text_eq
  operator?_eq h := h.tree.operator?_eq
  child h _ := h.child?_rel _
  children h _ := ⟨_, h.children_thinned⟩
  first h hk := h.named_getElem?_of_kind (of_decide_eq_true hk) Nat.zero_lt_one
  elements h hk := h.named_rel_of_kind (of_decide_eq_true hk) (Nat.le_refl _)
  parameters h := h.parameters_rel
  types h := by
    refine ⟨map_resolveType_eq h.tree .typing, map_resolveType_eq h.tree .returns, fun hk _ _ _ => ?_⟩
    obtain ⟨ha, hb⟩ | ⟨a, b, ha, hb, hab⟩ :=
      option_rel_cases (h.tree.named_getElem?_of_kind (of_decide_eq_true hk) Nat.one_lt_two)
    · rw [ha, hb]
    · rw [ha, hb, Option.map_some, Option.map_some, hab.resolve_eq]
  resolve h := resolveFunction_rel hprogram h

theorem scopeOf_eq {p q : Place} (h : p.Uncomments q) : program.scopeOf p = other.scopeOf q := by
  have hw : BlindToComments (!·.isFunctionLike) (·.is .variableDeclarator) :=
    ⟨fun _ _ h => by rw [h.isFunctionLike_eq], fun _ _ h => h.is_eq _, fun _ _ _ => rfl⟩
  refine (mirrors_of_uncomments hprogram).scopeOf_eq h ?_ ?_
  · exact map_eq_of_forall₂ h.parameters_rel fun _ _ hab => hab.tree.parameterName?_eq
  · obtain ⟨ha, hb⟩ | ⟨a, b, ha, hb, hab⟩ := h.child?_cases .body
    · rw [ha, hb]
      exact .none
    · rw [ha, hb]
      exact .some (places_rel hw hab.tree hab.above)

end Programs

end UsageTypes
