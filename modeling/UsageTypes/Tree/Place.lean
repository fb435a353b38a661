import UsageTypes.Tree.Basic

/-!
Places in a tree: a tree together with the nodes around it. Two places of one tree are the same if
they have the same address.
-/

namespace UsageTypes

structure Place where
  tree : Tree
  /-- The enclosing nodes, innermost first, each with the index of the child that leads here. -/
  above : List (Tree × Nat) := []
  deriving Inhabited

namespace Place

/-- The indices that lead here, innermost first. -/
def address (p : Place) : List Nat :=
  p.above.map (·.2)

/-- The places of trees that stand side by side in a node from an index on. -/
def siblings (parent : Tree) (above : List (Tree × Nat)) : Nat → List Tree → List Place
  | _, [] => []
  | i, t :: ts => ⟨t, (parent, i) :: above⟩ :: siblings parent above (i + 1) ts

def children (p : Place) : List Place :=
  siblings p.tree p.above 0 p.tree.children

/-- The children that are nodes, comments included. -/
def named (p : Place) : List Place :=
  p.children.filter (·.tree.isNamed)

/-- The first child that plays a role. -/
def child? (p : Place) (l : Label) : Option Place :=
  p.children.find? (·.tree.label? = some l)

def is (p : Place) (k : Kind) : Bool := p.tree.is k

def text (p : Place) : String := p.tree.text

theorem map_tree_siblings (parent : Tree) (above : List (Tree × Nat)) (i : Nat) (ts : List Tree) :
    (siblings parent above i ts).map (·.tree) = ts := by
  induction ts generalizing i with
  | nil => rfl
  | cons t ts ih => simp [siblings, ih]

theorem map_tree_children (p : Place) : p.children.map (·.tree) = p.tree.children :=
  map_tree_siblings _ _ _ _

theorem map_tree_named (p : Place) : p.named.map (·.tree) = p.tree.named := by
  rw [named, Tree.named, ← map_tree_children, List.filter_map]
  rfl

theorem map_tree_child? (p : Place) (l : Label) : (p.child? l).map (·.tree) = p.tree.child? l := by
  rw [child?, Tree.child?, ← map_tree_children, List.find?_map]
  rfl

end Place

mutual

/-- A node and all nodes below it that a test admits, in document order. The node itself is not
tested, and nothing below a node that fails the test is visited. -/
def Tree.places (enter : Tree → Bool) (above : List (Tree × Nat)) : Tree → List Place
  | .node l k p cs =>
    ⟨.node l k p cs, above⟩ :: placesAll enter (.node l k p cs) above 0 cs
  | _ => []

def placesAll (enter : Tree → Bool) (parent : Tree) (above : List (Tree × Nat)) :
    Nat → List Tree → List Place
  | _, [] => []
  | i, t :: ts =>
    (if enter t then t.places enter ((parent, i) :: above) else [])
      ++ placesAll enter parent above (i + 1) ts

end

namespace Place

/-- A node and all nodes below it, in document order. -/
def nodes (p : Place) : List Place :=
  p.tree.places (fun _ => true) p.above

end Place

mutual

/-- The expression inside parentheses, however many there are. -/
def Tree.unwrap (above : List (Tree × Nat)) : Tree → Place
  | .node l k p cs =>
    if k = .parenthesizedExpression then unwrapFirst (.node l k p cs) above 0 cs
    else ⟨.node l k p cs, above⟩
  | t => ⟨t, above⟩

/-- The same for the first node among the children of a pair of parentheses. -/
def unwrapFirst (parent : Tree) (above : List (Tree × Nat)) : Nat → List Tree → Place
  | _, [] => ⟨parent, above⟩
  | i, t :: ts =>
    if t.isNamed then t.unwrap ((parent, i) :: above) else unwrapFirst parent above (i + 1) ts

end

def Place.unwrap (p : Place) : Place :=
  p.tree.unwrap p.above

end UsageTypes
