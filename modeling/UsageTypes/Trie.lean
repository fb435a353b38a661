import UsageTypes.Evidence
import UsageTypes.Options

/-!
Synthesis of a type from evidence. Evidence is collected in a tree keyed by access path, own-body
evidence ahead of call arguments; the tree is then read bottom-up. A concrete claim beats a shape
built from fields, a shape beats a bare access, references are kept whole and intersected with the
fields that they do not declare, and claims that do not unify are settled by the conflict policy.
-/

namespace UsageTypes

mutual

/-- The type that both types refine to, when there is one: open positions yield to concrete ones. -/
def unify (a b : Ty) : Option Ty :=
  if a = b then some a
  else match a, b with
    | .dynamic, other => some other
    | other, .dynamic => some other
    | .array x, .array y => (unify x y).map .array
    | .function ps r, .function qs s =>
      match unifyAll ps qs, unify r s with
      | some params, some returns => some (.function params returns)
      | _, _ => none
    | _, _ => none

def unifyAll : List Ty → List Ty → Option (List Ty)
  | [], [] => some []
  | x :: xs, y :: ys =>
    match unify x y, unifyAll xs ys with
    | some z, some zs => some (z :: zs)
    | _, _ => none
  | _, _ => none

end

/-- What evidence says about the value at one path. -/
structure Mark where
  /-- Concrete types in order of discovery, unified where they agree. -/
  claims : List Ty := []
  /-- Distinct references in order of discovery. -/
  names : List String := []
  /-- Whether a reference came before any concrete type. -/
  nameFirst : Bool := false
  /-- Whether the empty object type was seen. -/
  emptyShape : Bool := false
  deriving DecidableEq, Inhabited

/-- Adds a concrete type to the first claim that it unifies with, or as a claim of its own. -/
def addClaim (t : Ty) : List Ty → List Ty
  | [] => [t]
  | c :: cs =>
    match unify c t with
    | some u => u :: cs
    | none => c :: addClaim t cs

namespace Mark

def claim (m : Mark) (t : Ty) : Mark :=
  { m with claims := addClaim t m.claims }

def refer (m : Mark) (name : String) : Mark :=
  { m with
    names := if name ∈ m.names then m.names else m.names ++ [name]
    nameFirst := m.nameFirst || (m.claims.isEmpty && m.names.isEmpty) }

def seeEmptyShape (m : Mark) : Mark :=
  { m with emptyShape := true }

/-- Several claims, or a claim beside a reference. -/
def conflicting (m : Mark) : Bool :=
  1 < m.claims.length || (!m.claims.isEmpty && !m.names.isEmpty)

end Mark

/-- Evidence by access path. Children are in order of discovery. -/
inductive Trie where
  | node (mark : Mark) (children : List (String × Trie))
  deriving Inhabited

namespace Trie

def empty : Trie := .node {} []

def mark : Trie → Mark
  | node m _ => m

def children : Trie → List (String × Trie)
  | node _ cs => cs

def mapMark (f : Mark → Mark) : Trie → Trie
  | node m cs => node (f m) cs

/-- Changes the child of a name, which is added behind the others if it is new. -/
def changeChild (name : String) (f : Trie → Trie) : List (String × Trie) → List (String × Trie)
  | [] => [(name, f empty)]
  | (n, t) :: cs => if n = name then (n, f t) :: cs else (n, t) :: changeChild name f cs

def atChild (name : String) (f : Trie → Trie) : Trie → Trie
  | node m cs => node m (changeChild name f cs)

/-- Changes the node at a path; the nodes on the way come into being. -/
def atPath : Path → (Trie → Trie) → Trie → Trie
  | [], f => f
  | s :: p, f => atChild s (atPath p f)

mutual

/-- Takes in a type: shapes go to the children, members of an intersection one by one. -/
def absorb : Ty → Trie → Trie
  | .dynamic => id
  | .named text => mapMark (·.refer text)
  | .inter members => absorbAll members
  | .shape [] => mapMark Mark.seeEmptyShape
  | .shape (field :: fields) => absorbFields (field :: fields)
  | .primitive kind => mapMark (·.claim (.primitive kind))
  | .array element => mapMark (·.claim (.array element))
  | .function params returns => mapMark (·.claim (.function params returns))

def absorbAll : List Ty → Trie → Trie
  | [] => id
  | t :: ts => fun node => absorbAll ts (absorb t node)

def absorbFields : List (String × Ty) → Trie → Trie
  | [] => id
  | (name, t) :: fields => fun node => absorbFields fields (atChild name (absorb t) node)

end

/-- Takes in one piece of evidence. -/
def insert (strategy : Strategy) (root : Trie) : Evidence → Trie
  | .access p => atPath p id root
  | .numeric p => atPath p (absorb .number) root
  | .textual p => atPath p (absorb .string) root
  | .method p name arguments =>
    match strategy.interpret name arguments with
    | .collection element => atPath p (absorb (.array element)) root
    | .member t => atPath p (atChild name (absorb t)) root
  | .argument p declared => atPath p (absorb declared) root
  | .invoke p arguments => atPath p (absorb (callSignature arguments)) root
  | .assign p assigned => atPath p (absorb assigned) root

/-- Own-body evidence ahead of call arguments, each in its own order. -/
def inOrder (evidence : List Evidence) : List Evidence :=
  evidence.filter (·.origin = .ownBody) ++ evidence.filter (·.origin = .callArgument)

def ofEvidence (strategy : Strategy) (evidence : List Evidence) : Trie :=
  (inOrder evidence).foldl (insert strategy) empty

end Trie

/-- What a unit declares: the member names of a declared type, nothing for a name it does not
declare. -/
abbrev MemberTable := String → Option (List String)

/-- References, followed by the fields that none of them declares. -/
def combineNamed (members : MemberTable) (names : List String) (fields : List (String × Ty)) : Ty :=
  let covered := (names.filterMap members).flatten
  match fields.filter (fun f => f.1 ∉ covered) with
  | [] => .interOf (names.map .named)
  | leftover => .interOf (names.map .named ++ [.shape leftover])

/-- The type of a value from what is known about it and the types of its fields. -/
def settle (members : MemberTable) (policy : ConflictPolicy) (m : Mark)
    (fields : List (String × Ty)) : Ty :=
  let rest :=
    if !m.names.isEmpty then combineNamed members m.names fields
    else if !fields.isEmpty || m.emptyShape then .shape fields
    else .dynamic
  match m.claims with
  | [] => rest
  | claim :: _ =>
    if m.conflicting then
      match policy with
      | .unresolved => .dynamic
      | .keepFirst => if m.nameFirst then rest else claim
    else claim

namespace Trie

mutual

/-- The type of the value that a node stands for. -/
def resolve (members : MemberTable) (policy : ConflictPolicy) : Trie → Ty
  | node m cs => settle members policy m (resolveFields members policy cs)

def resolveFields (members : MemberTable) (policy : ConflictPolicy) :
    List (String × Trie) → List (String × Ty)
  | [] => []
  | (name, t) :: cs => (name, t.resolve members policy) :: resolveFields members policy cs

end

end Trie

/-- The type of a parameter from the evidence about it. -/
def synthesize (members : MemberTable) (strategy : Strategy) (policy : ConflictPolicy)
    (evidence : List Evidence) : Ty :=
  (Trie.ofEvidence strategy evidence).resolve members policy

end UsageTypes
