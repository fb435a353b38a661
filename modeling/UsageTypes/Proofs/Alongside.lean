import UsageTypes.Proofs.FreeBodies
import UsageTypes.Proofs.Growth

/-! Places side by side in trees with other bodies in some of their functions. Whatever the bodies are,
names outside of them mean the same functions, and where types are read alike so do expressions have
the same types. -/

namespace UsageTypes

open UsageTypes.Tree (Selection)

namespace Place

/-- Corresponding trees in the same place of corresponding nodes. -/
structure Agrees (s : Selection) (p q : Place) : Prop where
  tree : p.tree.agrees s q.tree = true
  above : List.Forall₂ (fun a b => a.1.agrees s b.1 = true ∧ a.2 = b.2) p.above q.above

instance (s : Selection) (p q : Place) : Decidable (p.Agrees s q) :=
  decidable_of_iff
    (p.tree.agrees s q.tree = true ∧ p.above.length = q.above.length ∧
      ∀ a ∈ p.above.zip q.above, a.1.1.agrees s a.2.1 = true ∧ a.1.2 = a.2.2)
    ⟨fun ⟨htree, hlength, habove⟩ =>
        ⟨htree, List.forall₂_iff_zip.mpr ⟨hlength, fun {a b} hab => habove (a, b) hab⟩⟩,
      fun h => ⟨h.tree, (List.forall₂_iff_zip.mp h.above).1,
        fun _ ha => (List.forall₂_iff_zip.mp h.above).2 ha⟩⟩

instance (p q : Place) : Decidable (p.ReadsAlike q) :=
  decidable_of_iff
    ((p.tree.child? .typing).map resolveType = (q.tree.child? .typing).map resolveType ∧
      (p.tree.child? .returns).map resolveType = (q.tree.child? .returns).map resolveType ∧
      (p.is .asExpression = true → ∀ budget ≤ nestingLimit, nestingLimit ≤ budget + p.above.length →
        (p.tree.named[1]?).map (resolve budget) = (q.tree.named[1]?).map (resolve budget)))
    ⟨fun ⟨htyping, hreturns, hcast⟩ => ⟨htyping, hreturns, hcast⟩,
      fun h => ⟨h.typing_eq, h.returns_eq, h.cast_eq⟩⟩

/-- The places that are found side by side from two places on, stepwise outwards or inwards, but never
into the body of a selected function. -/
inductive Along (s : Selection) (b b' : Place) : Place → Place → Prop
  | start : Along s b b' b b'
  | outer {t u v w : Tree} {i j : Nat} {above above' : List (Tree × Nat)} :
    Along s b b' ⟨t, (v, i) :: above⟩ ⟨u, (w, j) :: above'⟩ →
    Along s b b' ⟨v, above⟩ ⟨w, above'⟩
  | inner {t u c d : Tree} {i : Nat} {above above' : List (Tree × Nat)} :
    Along s b b' ⟨t, above⟩ ⟨u, above'⟩ → t.children[i]? = some c → u.children[i]? = some d →
    (s.has t = true → c.label? ≠ some .body) →
    Along s b b' ⟨c, (t, i) :: above⟩ ⟨d, (u, i) :: above'⟩

/-- Places that correspond and are well read, with all that is around them. -/
structure Parallel (s : Selection) (p q : Place) : Prop where
  tree : p.tree.Parallel s q.tree
  above : List.Forall₂ (fun a b => a.1.Parallel s b.1 ∧ a.2 = b.2) p.above q.above

section Trees

theorem getElem?_siblings (parent : Tree) (above : List (Tree × Nat)) (i k : Nat) (ts : List Tree) :
    (siblings parent above i ts)[k]? = ts[k]?.map fun t => ⟨t, (parent, i + k) :: above⟩ := by
  induction ts generalizing i k with
  | nil => rfl
  | cons t ts ih =>
    cases k with
    | zero => rfl
    | succ k =>
      rw [siblings, List.getElem?_cons_succ, List.getElem?_cons_succ, ih, Nat.add_right_comm,
        Nat.add_assoc]

/-- A place of a tree, or a token in a node of it. -/
structure Under (root : Tree) (p : Place) : Prop where
  isIn : p.tree.isNamed = true → p.In root
  outer : ∀ a above, p.above = a :: above → In root ⟨a.1, above⟩

theorem In.under {root : Tree} {p : Place} (h : p.In root) : p.Under root where
  isIn _ := h
  outer a above he := by
    obtain ⟨t, _⟩ := p
    obtain rfl := he
    exact h.parent

theorem Under.child {root t c : Tree} {i : Nat} {above : List (Tree × Nat)}
    (h : Under root ⟨t, above⟩) (hc : t.children[i]? = some c) : Under root ⟨c, (t, i) :: above⟩ := by
  have ht : In root ⟨t, above⟩ := h.isIn (Tree.isNamed_of_mem_children (List.mem_of_getElem? hc))
  constructor
  · intro hn
    refine ht.child (mem_named.mpr ⟨List.mem_of_getElem? (i := i) ?_, hn⟩)
    rw [children, getElem?_siblings, hc, Option.map_some, Nat.zero_add]
  · intro a above' he
    obtain ⟨rfl, rfl⟩ := List.cons.inj he
    exact ht

theorem In.wellRead {root : Tree} (hroot : root.WellRead) {p : Place} (h : p.In root) :
    p.tree.WellRead ∧ ∀ a ∈ p.above, a.1.WellRead := by
  induction h with
  | root => exact ⟨hroot, fun _ ha => by cases ha⟩
  | child _ hc ih =>
    obtain ⟨k, t, ht, rfl⟩ := mem_children (mem_named.mp hc).1
    exact ⟨ih.1.of_mem_children (List.mem_of_getElem? ht), List.forall_mem_cons.mpr ih⟩

theorem Agrees.parallel {s : Selection} {p q : Place} (h : p.Agrees s q)
    (htree : p.tree.WellRead) (habove : ∀ a ∈ p.above, a.1.WellRead) : p.Parallel s q :=
  ⟨⟨h.tree, htree⟩, rel_of_forall₂ h.above fun a ha _ hab => ⟨⟨hab.1, habove a ha⟩, hab.2⟩⟩

end Trees

namespace Along

variable {s : Selection} {b b' p q : Place} (hstart : b.Parallel s b')

include hstart

theorem parallel (h : Along s b b' p q) : p.Parallel s q := by
  induction h with
  | start => exact hstart
  | outer _ ih =>
    obtain ⟨⟨hvw, -⟩, habove⟩ := List.forall₂_cons.mp ih.above
    exact ⟨hvw, habove⟩
  | inner _ hc hd hclear ih =>
    rcases ih.tree.children_thinned.getElem?_cases hc hd with hcd | hgone
    · exact ⟨hcd.1, .cons ⟨ih.tree, rfl⟩ ih.above⟩
    · exact absurd hgone.2.1 (hclear hgone.1)

omit hstart in
theorem address_eq (hb : b.address = b'.address) (h : Along s b b' p q) :
    p.address = q.address := by
  induction h with
  | start => exact hb
  | outer _ ih => exact (List.cons.inj ih).2
  | inner _ _ _ _ ih => exact congrArg (_ :: ·) ih

omit hstart in
theorem under {root root' : Tree} (hb : b.In root) (hb' : b'.In root') (h : Along s b b' p q) :
    p.Under root ∧ q.Under root' := by
  induction h with
  | start => exact ⟨hb.under, hb'.under⟩
  | outer _ ih => exact ⟨(ih.1.outer _ _ rfl).under, (ih.2.outer _ _ rfl).under⟩
  | inner _ hc hd _ ih => exact ⟨ih.1.child hc, ih.2.child hd⟩

theorem children_thinned (h : Along s b b' p q) : Thinned (Along s b b')
    (fun c d => s.has p.tree = true ∧ c.tree.Bodies d.tree) (fun _ => true) 0
    p.children q.children := by
  refine siblings_thinned (h.parallel hstart).tree.children_thinned 0 ?_ fun _ _ hgone => hgone
  intro k c d hc hd hcd
  rw [Nat.zero_add]
  exact .inner h hc hd hcd.2

theorem children_rel (h : Along s b b' p q) (hplain : s.has p.tree = false) :
    List.Forall₂ (Along s b b') p.children q.children :=
  (h.children_thinned hstart).forall₂_of_not_gone fun _ _ hgone => by simp [hplain] at hgone

theorem child?_rel (h : Along s b b' p q) {l : Label}
    (hl : s.has p.tree = true → l ≠ .body) :
    Option.Rel (Along s b b') (p.child? l) (q.child? l) := by
  refine (h.children_thinned hstart).find?_rel (fun c d hcd => ?_) fun _ _ hgone =>
    hgone.2.not_label (hl hgone.1)
  rw [(hcd.parallel hstart).tree.label?_eq]

theorem named_rel (h : Along s b b' p q) (hplain : p.tree.isFunctionLike = false) :
    List.Forall₂ (Along s b b') p.named q.named :=
  filter_rel (h.children_rel hstart (s.not_has hplain)) fun _ _ hcd =>
    (hcd.parallel hstart).tree.isNamed_eq

theorem named_rel_of_is (h : Along s b b' p q) {k : Kind} (hp : p.is k = true)
    (hk : k.isFunctionLike = false) : List.Forall₂ (Along s b b') p.named q.named :=
  h.named_rel hstart (Tree.not_isFunctionLike_of_kind? (is_iff.mp hp) hk)

theorem parameters_rel (h : Along s b b' p q) :
    List.Forall₂ (Along s b b') p.parameters q.parameters := by
  rw [parameters, parameters]
  obtain ⟨hc, hd⟩ | ⟨c, d, hc, hd, hcd⟩ :=
    option_rel_cases (h.child?_rel hstart (l := .parameters) fun _ => by decide)
  · rw [hc, hd]
    exact .nil
  · have hlist : p.tree.child? .parameters = some c.tree := by
      rw [← map_tree_child?, hc, Option.map_some]
    rw [hc, hd]
    exact filter_rel (hcd.named_rel hstart ((h.parallel hstart).tree.wellRead.parameters hlist))
      fun _ _ hef => (hef.parallel hstart).tree.isPositional_eq

end Along

end Place

section Names

open Place

variable {s : Selection} {b b' p q : Place} (hstart : b.Parallel s b') {n : String}
  (hn : isMarked n = false)

include hstart hn

theorem statementBinding_along (h : Along s b b' p q) :
    Option.Rel (Binding.Mirrors (Along s b b')) (statementBinding n p) (statementBinding n q) := by
  have hkind : ∀ {c d : Place}, Along s b b' c d → c.tree.kind? = d.tree.kind? :=
    fun hcd => (hcd.parallel hstart).tree.kind?_eq
  refine statementBinding_rel (declarationOf_rel h (hkind h) (h.child?_rel hstart fun _ => by decide)) hkind
    (fun hcd => (hcd.parallel hstart).tree.declaredName?_eq_iff hn) fun {c d} hcd hc => ?_
  refine (hcd.parallel hstart).tree.any_declares_eq hn ?_
  rcases hc with hc | hc
  · exact Tree.not_isFunctionLike_of_kind? (Place.is_iff.mp hc) rfl
  · exact Tree.not_isFunctionLike_of_kind? (Place.is_iff.mp hc) rfl

/-- A name means functions in the same place, whatever the bodies are. -/
theorem lookupFunction_along (h : Along s b b' p q) :
    Option.Rel (Along s b b') (lookupFunction n p.above) (lookupFunction n q.above) := by
  obtain ⟨t, above⟩ := p
  obtain ⟨u, above'⟩ := q
  induction above generalizing t u above' with
  | nil =>
    obtain rfl := List.forall₂_nil_left_iff.mp (h.parallel hstart).above
    exact .none
  | cons v above ih =>
    obtain ⟨w, above', -, -, rfl⟩ := List.forall₂_cons_left_iff.mp (h.parallel hstart).above
    have hout : Along s b b' ⟨v.1, above⟩ ⟨w.1, above'⟩ := h.outer
    have htree := (hout.parallel hstart).tree
    refine lookupFunction_cons_rel _ _ htree.kind?_eq (fun _ => htree.contains_boundNames_eq hn)
      (fun hblock => ?_) (ih _ _ _ hout)
    have hnamed : List.Forall₂ (Along s b b') (named ⟨v.1, above⟩) (named ⟨w.1, above'⟩) := by
      rw [isBlock, Bool.or_eq_true] at hblock
      rcases hblock with hblock | hblock
      · exact hout.named_rel_of_is hstart hblock rfl
      · exact hout.named_rel_of_is hstart hblock rfl
    exact findSome?_rel hnamed fun _ _ hcd => statementBinding_along hstart hn hcd

end Names

section Programs

open Place

variable {s : Selection} {b b' p q : Place} {root root' : Tree} (hstart : b.Parallel s b')
  (hb : b.In root) (hb' : b'.In root')

include hstart hb hb'

theorem resolveFunction_along (h : Along s b b' p q) : Option.Rel (Along s b b')
    ((Program.ofTree root).resolveFunction p) ((Program.ofTree root').resolveFunction q) := by
  have hu : Along s b b' p.unwrap q.unwrap := by
    refine unwrap_rel (fun hcd => (hcd.parallel hstart).tree.kind?_eq) (fun hcd hc => ?_) h
    exact getElem?_rel (hcd.named_rel_of_is hstart hc rfl) 0
  have htree := (hu.parallel hstart).tree
  cases hid : p.unwrap.is .identifier with
  | false =>
    have hid' : q.unwrap.is .identifier = false := by rw [is, ← htree.is_eq, ← is, hid]
    simp only [Program.resolveFunction, hid, hid', Bool.false_and, Bool.false_eq_true, if_false]
    exact .none
  | true =>
    have hid' : q.unwrap.is .identifier = true := by rw [is, ← htree.is_eq, ← is, hid]
    have hk := is_iff.mp hid
    have hn : isMarked p.unwrap.text = false := htree.wellRead.not_isMarked hk
    have hin := (hu.under hb hb').1.isIn (Tree.isNamed_of_kind? hk)
    have hin' := (hu.under hb hb').2.isIn (Tree.isNamed_of_kind? (is_iff.mp hid'))
    -- both programs have noted all their declarations, so only the scopes decide
    have htext : p.unwrap.text = q.unwrap.text := htree.text_eq_of_isWord hk rfl
    rw [resolveFunction_eq_lookup hin hid, resolveFunction_eq_lookup hin' hid', ← htext]
    exact lookupFunction_along hstart hn hu

variable (htypes : ∀ p q, p.In root → q.In root' → Along s b b' p q → p.ReadsAlike q)

include htypes

/-- Bodies of selected functions change nothing of what the places outside of them look like, if types
are read alike there. -/
theorem mirrors_of_along : (Program.ofTree root).Mirrors (Along s b b') (.ofTree root') where
  kind?_eq h := (h.parallel hstart).tree.kind?_eq
  word_eq h hk := by
    rcases hk with hk | hk
    · exact (h.parallel hstart).tree.text_eq_of_isWord (is_iff.mp hk) rfl
    · exact (h.parallel hstart).tree.text_eq_of_isWord (is_iff.mp hk) rfl
  operator?_eq h := (h.parallel hstart).tree.operator?_eq
  child h hl := h.child?_rel hstart fun _ => hl
  children h hplain :=
    ⟨0, Thinned.of_forall₂ (h.children_rel hstart (s.not_has hplain))⟩
  first h hk := getElem?_rel (h.named_rel_of_is hstart hk rfl) 0
  elements h hk := h.named_rel_of_is hstart hk rfl
  parameters h := h.parameters_rel hstart
  types {p q} h := by
    -- a token has no type in it and stays as it is
    have htree := (h.parallel hstart).tree
    obtain ⟨-, he⟩ | ⟨_, _, _, _, _, _, hp, hq, -⟩ := Tree.agrees_cases htree.agrees
    · exact ⟨by rw [he], by rw [he], fun _ _ _ _ => by rw [he]⟩
    · obtain ⟨hunder, hunder'⟩ := h.under hb hb'
      exact htypes p q (hunder.isIn (by rw [hp]; rfl)) (hunder'.isIn (by rw [hq]; rfl)) h
  resolve h := resolveFunction_along hstart hb hb' h

/-- Nor do they change the local names of a function around them, if its own parameters bind the same
names. -/
theorem scopeOf_along {f g : Place} (hfg : Along s b b' f g) (hf : f.child? .body = some b)
    (hg : g.child? .body = some b') (hplain : s.has b.tree = false)
    (hparameters : f.parameters.map (·.tree.parameterName?) = g.parameters.map (·.tree.parameterName?)) :
    (Program.ofTree root).scopeOf f = (Program.ofTree root').scopeOf g := by
  refine (mirrors_of_along hstart hb hb' htypes).scopeOf_eq hfg hparameters ?_
  rw [hf, hg]
  have hfunction : ∀ {p q : Place}, Along s b b' p q → p.tree.isFunctionLike = q.tree.isFunctionLike :=
    fun h => (h.parallel hstart).tree.isFunctionLike_eq
  refine .some (filter_rel ?_ fun _ _ h => (h.parallel hstart).tree.is_eq _)
  refine places_mirror (fun h => (h.parallel hstart).tree.isNamed_eq) (fun h => by rw [hfunction h])
    (fun h henter => ?_) .start (Along.start.children_rel hstart hplain)
  exact h.children_rel hstart (s.not_has (by simpa using henter))

end Programs

end UsageTypes
