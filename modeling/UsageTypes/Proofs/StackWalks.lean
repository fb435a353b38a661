import Mathlib.Logic.Relation
import UsageTypes.Tree.Traversal

/-! Walks with a stack. At every turn what was visited and what is on the stack stand in document order
and leave out nothing that can be entered, so in the end each such node was visited, once and in that
order: a walk visits what the recursion over the tree lists. -/

namespace UsageTypes

namespace Place

/-- Document order: a node comes before all that it encloses, an earlier child before a later one. -/
def Before (p q : Place) : Prop :=
  p.address.reverse < q.address.reverse

/-- The second place is a node in the first that a walk enters. -/
def Enters (enter : Tree → Bool) (p c : Place) : Prop :=
  c ∈ p.named ∧ enter c.tree = true

/-- The first place stands in an earlier child of a node than the second. -/
def Apart (p q : Place) : Prop :=
  ∃ j k above, j < k ∧ j :: above <:+ p.address ∧ k :: above <:+ q.address

section Addresses

variable {p q c : Place} {enter : Tree → Bool}

theorem mem_siblings {parent : Tree} {above : List (Tree × Nat)} {i : Nat} {ts : List Tree}
    {c : Place} (h : c ∈ siblings parent above i ts) :
    ∃ k t, ts[k]? = some t ∧ c = ⟨t, (parent, i + k) :: above⟩ := by
  induction ts generalizing i with
  | nil => simp [siblings] at h
  | cons t ts ih =>
    rcases List.mem_cons.mp h with rfl | h
    · exact ⟨0, t, rfl, rfl⟩
    · obtain ⟨k, u, hu, rfl⟩ := ih h
      exact ⟨k + 1, u, by simpa using hu, by simp only [Nat.add_assoc, Nat.add_comm 1 k]⟩

theorem mem_children (h : c ∈ p.children) :
    ∃ k t, p.tree.children[k]? = some t ∧ c = ⟨t, (p.tree, k) :: p.above⟩ := by
  obtain ⟨k, t, ht, hc⟩ := mem_siblings h
  exact ⟨k, t, ht, by simpa using hc⟩

theorem tree_mem_children (h : c ∈ p.children) : c.tree ∈ p.tree.children := by
  obtain ⟨k, t, ht, rfl⟩ := mem_children h
  exact List.mem_of_getElem? ht

theorem mem_named : c ∈ p.named ↔ c ∈ p.children ∧ c.tree.isNamed = true := by
  simp [named]

theorem tree_mem_of_mem_named (h : c ∈ p.named) : c.tree ∈ p.tree.children :=
  tree_mem_children (mem_named.mp h).1

theorem tree_mem_of_child? {l : Label} (h : p.child? l = some c) : c.tree ∈ p.tree.children :=
  tree_mem_children (List.mem_of_find?_eq_some h)

theorem mem_entered : c ∈ p.entered enter ↔ Enters enter p c :=
  List.mem_filter

theorem address_of_mem_named (h : c ∈ p.named) : ∃ k, c.address = k :: p.address := by
  obtain ⟨k, t, -, rfl⟩ := mem_children (mem_named.mp h).1
  exact ⟨k, rfl⟩

theorem lt_append_cons (a s : List Nat) (k : Nat) : a < a ++ k :: s := by
  induction a with
  | nil => exact List.Lex.nil
  | cons x a ih => exact List.Lex.cons ih

theorem append_cons_lt {i j : Nat} (h : i < j) (a s r : List Nat) : a ++ i :: s < a ++ j :: r := by
  induction a with
  | nil => exact List.Lex.rel h
  | cons x a ih => exact List.Lex.cons ih

theorem Before.trans (h : p.Before q) (h' : q.Before c) : p.Before c :=
  List.lt_trans h h'

theorem before_of_mem_named (h : c ∈ p.named) : p.Before c := by
  obtain ⟨k, hk⟩ := address_of_mem_named h
  rw [Before, hk, List.reverse_cons]
  exact lt_append_cons _ _ _

theorem Apart.before (h : p.Apart q) : p.Before q := by
  obtain ⟨j, k, above, hjk, ⟨s, hs⟩, ⟨r, hr⟩⟩ := h
  rw [Before, ← hs, ← hr]
  simpa using append_cons_lt hjk above.reverse s.reverse r.reverse

theorem Apart.of_mem_named (h : p.Apart q) (hc : c ∈ p.named) : c.Apart q := by
  obtain ⟨j, k, above, hjk, hp, hq⟩ := h
  obtain ⟨i, hi⟩ := address_of_mem_named hc
  exact ⟨j, k, above, hjk, hi ▸ hp.trans (List.suffix_cons i _), hq⟩

theorem siblings_pairwise (parent : Tree) (above : List (Tree × Nat)) (i : Nat) (ts : List Tree) :
    (siblings parent above i ts).Pairwise Apart := by
  induction ts generalizing i with
  | nil => exact .nil
  | cons t ts ih =>
    refine .cons (fun d hd => ?_) (ih (i + 1))
    obtain ⟨k, u, -, rfl⟩ := mem_siblings hd
    exact ⟨i, i + 1 + k, above.map (·.2), by omega, List.suffix_refl _, List.suffix_refl _⟩

theorem entered_pairwise (enter : Tree → Bool) (p : Place) : (p.entered enter).Pairwise Apart :=
  ((siblings_pairwise _ _ _ _).filter _).filter _

end Addresses

/-- A walk from a place after some turns: what was visited, and what is on the stack. -/
structure Walked (enter : Tree → Bool) (start : Place) (visited stack : List Place) : Prop where
  started : start ∈ visited ++ stack
  reached : ∀ p ∈ visited ++ stack, Relation.ReflTransGen (Enters enter) start p
  closed : ∀ p ∈ visited, ∀ c, Enters enter p c → c ∈ visited ++ stack
  ordered : (visited ++ stack).Pairwise Before
  apart : stack.Pairwise Apart

namespace Walked

variable {enter : Tree → Bool} {start p q : Place} {visited stack : List Place}

theorem refl (enter : Tree → Bool) (start : Place) : Walked enter start [] [start] where
  started := List.mem_singleton_self start
  reached p hp := by
    obtain rfl := List.mem_singleton.mp hp
    exact .refl
  closed p hp := by cases hp
  ordered := List.pairwise_singleton _ _
  apart := List.pairwise_singleton _ _

theorem ordered_turn (h : Walked enter start visited (p :: stack)) :
    (visited ++ p :: (p.entered enter ++ stack)).Pairwise Before := by
  obtain ⟨hvisited, hstack, hbefore⟩ := List.pairwise_append.mp h.ordered
  obtain ⟨hp, hstack⟩ := List.pairwise_cons.mp hstack
  have hentered : ∀ c ∈ p.entered enter, p.Before c :=
    fun c hc => before_of_mem_named (mem_entered.mp hc).1
  have hinside : (p.entered enter ++ stack).Pairwise Before := by
    refine List.pairwise_append.mpr ⟨(entered_pairwise enter p).imp Apart.before, hstack, ?_⟩
    intro c hc q hq
    exact (((List.pairwise_cons.mp h.apart).1 q hq).of_mem_named (mem_entered.mp hc).1).before
  refine List.pairwise_append.mpr ⟨hvisited, List.pairwise_cons.mpr ⟨fun q hq => ?_, hinside⟩, ?_⟩
  · rcases List.mem_append.mp hq with hq | hq
    · exact hentered q hq
    · exact hp q hq
  · intro v hv q hq
    have hvp := hbefore v hv p List.mem_cons_self
    rcases List.mem_cons.mp hq with rfl | hq
    · exact hvp
    · rcases List.mem_append.mp hq with hq | hq
      · exact hvp.trans (hentered q hq)
      · exact hbefore v hv q (List.mem_cons_of_mem _ hq)

/-- One turn: the place on top is visited, and what it encloses takes its place. -/
theorem turn (h : Walked enter start visited (p :: stack)) :
    Walked enter start (visited ++ [p]) (p.entered enter ++ stack) := by
  have hkept : ∀ q ∈ visited ++ p :: stack, q ∈ visited ++ [p] ++ (p.entered enter ++ stack) := by
    simp only [List.mem_append, List.mem_cons, List.not_mem_nil, or_false]
    rintro q (hq | rfl | hq)
    · exact .inl (.inl hq)
    · exact .inl (.inr rfl)
    · exact .inr (.inr hq)
  refine ⟨hkept _ h.started, fun q hq => ?_, fun q hq c hc => ?_, ?_, ?_⟩
  · have hp := h.reached p (List.mem_append_right _ List.mem_cons_self)
    simp only [List.mem_append, List.mem_singleton] at hq
    rcases hq with (hq | rfl) | hq | hq
    · exact h.reached q (List.mem_append_left _ hq)
    · exact hp
    · exact hp.tail (mem_entered.mp hq)
    · exact h.reached q (List.mem_append_right _ (List.mem_cons_of_mem _ hq))
  · rcases List.mem_append.mp hq with hq | hq
    · exact hkept c (h.closed q hq c hc)
    · obtain rfl := List.mem_singleton.mp hq
      exact List.mem_append_right _ (List.mem_append_left _ (mem_entered.mpr hc))
  · rw [List.append_assoc]
    exact h.ordered_turn
  · obtain ⟨hp, hstack⟩ := List.pairwise_cons.mp h.apart
    refine List.pairwise_append.mpr ⟨entered_pairwise enter p, hstack, fun c hc q hq => ?_⟩
    exact (hp q hq).of_mem_named (mem_entered.mp hc).1

/-- Nothing is missing when the stack is empty. -/
theorem mem_iff (h : Walked enter start visited []) :
    q ∈ visited ↔ Relation.ReflTransGen (Enters enter) start q := by
  have hclosed := h.closed
  have hstarted := h.started
  rw [List.append_nil] at hclosed hstarted
  constructor
  · intro hq
    exact h.reached q (List.mem_append_left _ hq)
  · intro hq
    induction hq with
    | refl => exact hstarted
    | tail _ hc ih => exact hclosed _ ih _ hc

theorem pairwise (h : Walked enter start visited []) : visited.Pairwise Before := by
  have hordered := h.ordered
  rwa [List.append_nil] at hordered

end Walked

/-- What a walk visits. -/
def visits (enter : Tree → Bool) (visited stack : List Place) : List Place :=
  traverse enter (fun visited p => visited ++ [p]) visited stack

section Runs

variable {enter : Tree → Bool} {start p q : Place} {visited stack : List Place}

theorem visits_nil (enter : Tree → Bool) (visited : List Place) : visits enter visited [] = visited := by
  rw [visits, traverse]

theorem visits_cons (enter : Tree → Bool) (visited : List Place) (p : Place) (stack : List Place) :
    visits enter visited (p :: stack) = visits enter (visited ++ [p]) (p.entered enter ++ stack) := by
  rw [visits, traverse, push_reverse]
  rfl

theorem Walked.visits (h : Walked enter start visited stack) :
    Walked enter start (visits enter visited stack) [] := by
  induction visited, stack using traverse.induct enter fun visited p => visited ++ [p] with
  | case1 visited => rwa [visits_nil]
  | case2 visited p stack ih =>
    rw [push_reverse] at ih
    rw [visits_cons]
    exact ih h.turn

/-- A walk does to the state what is done for each place that it visits, one after the other. -/
theorem traverse_eq_foldl {σ : Type} (enter : Tree → Bool) (visit : σ → Place → σ) (found : σ)
    (visited stack : List Place) : traverse enter visit (visited.foldl visit found) stack =
      (visits enter visited stack).foldl visit found := by
  induction visited, stack using traverse.induct enter fun visited p => visited ++ [p] with
  | case1 visited => rw [visits_nil, traverse]
  | case2 visited p stack ih =>
    rw [push_reverse] at ih
    rw [visits_cons, ← ih, traverse, push_reverse, List.foldl_append]
    rfl

end Runs

section Recursion

theorem placesAll_eq_flatMap (enter : Tree → Bool) (parent : Tree) (above : List (Tree × Nat))
    (i : Nat) (ts : List Tree) : placesAll enter parent above i ts =
      (siblings parent above i ts).flatMap fun c =>
        if enter c.tree then c.tree.places enter c.above else [] := by
  induction ts generalizing i with
  | nil => rfl
  | cons t ts ih => rw [placesAll, siblings, List.flatMap_cons, ih]

theorem places_eq (enter : Tree → Bool) {p : Place} (h : p.tree.isNamed = true) :
    p.tree.places enter p.above =
      p :: p.children.flatMap fun c => if enter c.tree then c.tree.places enter c.above else [] := by
  obtain ⟨t, above⟩ := p
  cases t with
  | node l k start cs =>
    rw [Tree.places, placesAll_eq_flatMap]
    rfl
  | _ => cases h

theorem places_of_not_isNamed (enter : Tree → Bool) {p : Place} (h : p.tree.isNamed = false) :
    p.tree.places enter p.above = [] := by
  obtain ⟨t, above⟩ := p
  cases t with
  | node => cases h
  | _ => rfl

theorem places_eq_entered (enter : Tree → Bool) {p : Place} (h : p.tree.isNamed = true) :
    p.tree.places enter p.above =
      p :: (p.entered enter).flatMap fun c => c.tree.places enter c.above := by
  rw [places_eq enter h, entered, named]
  congr 1
  induction p.children with
  | nil => rfl
  | cons c cs ih =>
    rw [List.flatMap_cons, ih, List.filter_cons]
    cases hn : c.tree.isNamed with
    | false => simp [places_of_not_isNamed _ hn]
    | true => cases he : enter c.tree <;> simp [he]

/-- A walk visits what the recursion lists for each place on the stack. -/
theorem visits_eq_flatMap (enter : Tree → Bool) (visited stack : List Place)
    (h : ∀ p ∈ stack, p.tree.isNamed = true) :
    visits enter visited stack = visited ++ stack.flatMap fun p => p.tree.places enter p.above := by
  induction visited, stack using traverse.induct enter fun visited p => visited ++ [p] with
  | case1 visited => rw [visits_nil, List.flatMap_nil, List.append_nil]
  | case2 visited p stack ih =>
    rw [push_reverse] at ih
    obtain ⟨hp, hstack⟩ := List.forall_mem_cons.mp h
    have hentered : ∀ c ∈ p.entered enter ++ stack, c.tree.isNamed = true := by
      refine List.forall_mem_append.mpr ⟨fun c hc => ?_, hstack⟩
      exact (mem_named.mp (mem_entered.mp hc).1).2
    rw [visits_cons, ih hentered, List.flatMap_cons, places_eq_entered enter hp, List.flatMap_append]
    simp

variable {enter : Tree → Bool} {p q : Place}

theorem visits_singleton (enter : Tree → Bool) (h : p.tree.isNamed = true) :
    visits enter [] [p] = p.tree.places enter p.above := by
  rw [visits_eq_flatMap enter [] [p] (by simpa using h)]
  simp

theorem walked_places (enter : Tree → Bool) (h : p.tree.isNamed = true) :
    Walked enter p (p.tree.places enter p.above) [] := by
  rw [← visits_singleton enter h]
  exact (Walked.refl enter p).visits

theorem mem_places_iff : q ∈ p.tree.places enter p.above ↔
    p.tree.isNamed = true ∧ Relation.ReflTransGen (Enters enter) p q := by
  cases h : p.tree.isNamed with
  | false => simp [places_of_not_isNamed enter h]
  | true => simp [(walked_places enter h).mem_iff]

theorem places_pairwise (enter : Tree → Bool) (p : Place) :
    (p.tree.places enter p.above).Pairwise Before := by
  cases h : p.tree.isNamed with
  | false =>
    rw [places_of_not_isNamed enter h]
    exact .nil
  | true => exact (walked_places enter h).pairwise

/-- A walk that passes over what is no node does what is to be done for the places of a tree, one
after the other. -/
theorem traverse_singleton {σ : Type} {visit : σ → Place → σ}
    (hvisit : ∀ found p, p.tree.isNamed = false → visit found p = found) (enter : Tree → Bool)
    (found : σ) (p : Place) :
    traverse enter visit found [p] = (p.tree.places enter p.above).foldl visit found := by
  have hfold := traverse_eq_foldl enter visit found [] [p]
  rw [List.foldl_nil] at hfold
  rw [hfold]
  cases h : p.tree.isNamed with
  | false =>
    have hnone : p.entered enter = [] := by
      rw [entered, named, children]
      obtain ⟨t, above⟩ := p
      cases t with
      | node => cases h
      | _ => rfl
    rw [visits_cons, hnone, List.append_nil, visits_nil, places_of_not_isNamed enter h]
    exact hvisit found p h
  | true => rw [visits_singleton enter h]

end Recursion

end Place

end UsageTypes
