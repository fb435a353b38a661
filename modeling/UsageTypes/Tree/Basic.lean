import UsageTypes.Tree.Kind

/-!
Syntax trees. A tree keeps every character of the text that it covers: named nodes carry the
structure, tokens are punctuation, keywords and operators, blanks stand between them.
-/

namespace UsageTypes

/-- A place in a text, counted in bytes. Lines and columns start at zero. -/
structure Position where
  byte : Nat := 0
  line : Nat := 0
  column : Nat := 0
  deriving DecidableEq, Repr, Inhabited

namespace Position

/-- The place behind a character. -/
def next (p : Position) (c : Char) : Position :=
  if c = '\n' then ⟨p.byte + 1, p.line + 1, 0⟩
  else ⟨p.byte + c.utf8Size, p.line, p.column + c.utf8Size⟩

/-- The place behind a text. -/
def after (p : Position) (cs : List Char) : Position :=
  cs.foldl next p

theorem after_append (p : Position) (cs ds : List Char) :
    p.after (cs ++ ds) = (p.after cs).after ds := by
  simp [after]

end Position

inductive Tree where
  | blank (text : String)
  | token (label : Option Label) (text : String)
  | node (label : Option Label) (kind : Kind) (start : Position) (children : List Tree)
  deriving Inhabited

namespace Tree

mutual

/-- The text that a tree covers. -/
def text : Tree → String
  | blank s => s
  | token _ s => s
  | node _ _ _ cs => textAll cs

def textAll : List Tree → String
  | [] => ""
  | t :: ts => t.text ++ textAll ts

end

def kind? : Tree → Option Kind
  | node _ k _ _ => some k
  | _ => none

/-- Whether a tree is a node of the given kind. -/
def is (t : Tree) (k : Kind) : Bool :=
  t.kind? = some k

def isNamed : Tree → Bool
  | node .. => true
  | _ => false

def label? : Tree → Option Label
  | blank _ => none
  | token l _ => l
  | node l _ _ _ => l

def children : Tree → List Tree
  | node _ _ _ cs => cs
  | _ => []

/-- The children that are nodes, comments included. -/
def named (t : Tree) : List Tree :=
  t.children.filter isNamed

/-- The first child that plays a role. -/
def child? (t : Tree) (l : Label) : Option Tree :=
  t.children.find? (·.label? = some l)

def start : Tree → Position
  | node _ _ p _ => p
  | _ => {}

/-- The byte behind the last one of a tree. -/
def stop (t : Tree) : Nat :=
  t.start.byte + t.text.utf8ByteSize

/-- The line on which a tree starts, counted from one. -/
def line (t : Tree) : Nat :=
  t.start.line + 1

/-- Gives a role to a token or node that has none; blanks and comments have no role. -/
def play (l : Label) : Tree → Tree
  | token none s => token (some l) s
  | node none k p cs => if k = .comment then node none k p cs else node (some l) k p cs
  | t => t

mutual

/-- A node and all nodes below it, in document order. -/
def nodes : Tree → List Tree
  | node l k p cs => node l k p cs :: nodesAll cs
  | _ => []

def nodesAll : List Tree → List Tree
  | [] => []
  | t :: ts => t.nodes ++ nodesAll ts

end

mutual

/-- The number of trees in a tree, itself included. -/
def size : Tree → Nat
  | node _ _ _ cs => sizeAll cs + 1
  | _ => 1

def sizeAll : List Tree → Nat
  | [] => 0
  | t :: ts => t.size + sizeAll ts

end

mutual

/-- The number of nodes on the longest way down. -/
def height : Tree → Nat
  | node _ _ _ cs => heightAll cs + 1
  | _ => 0

def heightAll : List Tree → Nat
  | [] => 0
  | t :: ts => max t.height (heightAll ts)

end

theorem sizeAll_append (ts us : List Tree) : sizeAll (ts ++ us) = sizeAll ts + sizeAll us := by
  induction ts with
  | nil => simp [sizeAll]
  | cons t ts ih => simp [sizeAll, ih, Nat.add_assoc]

theorem sizeAll_filter_le (test : Tree → Bool) (ts : List Tree) :
    sizeAll (ts.filter test) ≤ sizeAll ts := by
  induction ts with
  | nil => exact Nat.le_refl _
  | cons t ts ih =>
    rw [List.filter_cons]
    split
    · exact Nat.add_le_add_left ih _
    · exact Nat.le_trans ih (Nat.le_add_left _ _)

theorem size_le_sizeAll {t : Tree} {ts : List Tree} (h : t ∈ ts) : t.size ≤ sizeAll ts := by
  induction h with
  | head => exact Nat.le_add_right _ _
  | tail _ _ ih => exact Nat.le_trans ih (Nat.le_add_left _ _)

theorem sizeAll_children_lt (t : Tree) : sizeAll t.children < t.size := by
  cases t with
  | node l k p cs => exact Nat.lt_succ_self _
  | _ => exact Nat.one_pos

theorem size_lt_of_mem_children {t u : Tree} (h : u ∈ t.children) : u.size < t.size :=
  Nat.lt_of_le_of_lt (size_le_sizeAll h) (sizeAll_children_lt t)

end Tree

end UsageTypes
