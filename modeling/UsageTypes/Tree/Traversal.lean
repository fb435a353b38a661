import UsageTypes.Tree.Place

/-!
Walks over a tree with a stack of the places that are still to be visited. The place on top is taken
off and visited, and the nodes in it that may be entered are put on the stack in its stead, the last
one first, so that the first one is the next to be visited.
-/

namespace UsageTypes

namespace Place

/-- Puts places on a stack, one after the other. The head of the list is the top. -/
def push (stack places : List Place) : List Place :=
  places.foldl (fun stack p => p :: stack) stack

/-- The nodes in a place that a test admits. -/
def entered (enter : Tree → Bool) (p : Place) : List Place :=
  p.named.filter (enter ·.tree)

theorem push_reverse (stack places : List Place) : push stack places.reverse = places ++ stack := by
  simp [push]

theorem map_tree_entered (enter : Tree → Bool) (p : Place) :
    (p.entered enter).map (·.tree) = p.tree.named.filter enter := by
  rw [entered, ← map_tree_named, List.filter_map]
  rfl

/-- How many trees there are on a stack and below. -/
def load (stack : List Place) : Nat := Tree.sizeAll (stack.map (·.tree))

theorem load_push_entered_lt (enter : Tree → Bool) (p : Place) (stack : List Place) :
    load (push stack (p.entered enter).reverse) < load (p :: stack) := by
  rw [push_reverse, load, List.map_append, map_tree_entered, Tree.sizeAll_append]
  refine Nat.add_lt_add_right (Nat.lt_of_le_of_lt ?_ (Tree.sizeAll_children_lt p.tree)) _
  exact Nat.le_trans (Tree.sizeAll_filter_le _ _) (Tree.sizeAll_filter_le _ _)

/-- Visits the places on a stack and all that may be entered from them. -/
def traverse {σ : Type} (enter : Tree → Bool) (visit : σ → Place → σ) (found : σ) :
    List Place → σ
  | [] => found
  | p :: stack => traverse enter visit (visit found p) (push stack (p.entered enter).reverse)
termination_by stack => load stack
decreasing_by exact load_push_entered_lt enter p stack

end Place

end UsageTypes
