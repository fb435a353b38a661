import UsageTypes.Function
import UsageTypes.Tree.Traversal

/-!
The declarations of a program by name, and the function that a callee names: scopes are searched
from the call outwards, the closest binding wins, and a parameter or variable hides every function
further out.
-/

namespace UsageTypes

/-- What a block binds a name to. -/
inductive Binding where
  | function (place : Place)
  | other
  deriving Inhabited

/-- A declaration, without the export around it. -/
def declarationOf (statement : Place) : Option Place :=
  if statement.is .exportStatement then statement.child? .declaration else some statement

/-- What a statement binds a name to. -/
def statementBinding (name : String) (statement : Place) : Option Binding :=
  match declarationOf statement with
  | none => none
  | some d =>
    match d.tree.kind? with
    | some .functionDeclaration | some .generatorFunctionDeclaration =>
      if d.tree.declaredName? = some name then some (.function d) else none
    | some .classDeclaration => if d.tree.declaredName? = some name then some .other else none
    | some .lexicalDeclaration | some .variableDeclaration =>
      if d.tree.named.any (fun v => v.is .variableDeclarator && v.declaredName? = some name) then
        some .other
      else none
    | _ => none

/-- What a block binds a name to: its first statement that binds it decides. -/
def blockBinding (name : String) (block : Place) : Option Binding :=
  block.named.findSome? (statementBinding name)

def isBlock (t : Tree) : Bool := t.is .program || t.is .statementBlock

/-- The function that a name means inside the given nodes, innermost first. -/
def lookupFunction (name : String) : List (Tree × Nat) → Option Place
  | [] => none
  | (t, _) :: above =>
    if t.isFunctionLike && t.boundNames.contains name then none
    else if isBlock t then
      match blockBinding name ⟨t, above⟩ with
      | some (.function f) => some f
      | some .other => none
      | none => lookupFunction name above
    else lookupFunction name above

namespace Program

def isTypeDeclaration (t : Tree) : Bool :=
  t.is .interfaceDeclaration || t.is .typeAliasDeclaration || t.is .classDeclaration

/-- The callee and the number of arguments of a call by name, if the number is known. -/
def plainCall? (p : Place) : Option (Place × Nat) :=
  if p.is .callExpression then
    match p.child? .callee, p.arguments? with
    | some callee, some arguments =>
      if callee.is .identifier && !arguments.any (·.is .spreadElement) then
        some (callee, arguments.length)
      else none
    | _, _ => none
  else none

end Program

/-- What a tree declares, and its calls by name, all in document order. -/
structure Index where
  /-- The names of function declarations. -/
  functionNames : List String := []
  /-- Interfaces, type aliases and classes by name. -/
  typeDeclarations : List (String × Tree) := []
  /-- Calls are put down here until all declarations are known. -/
  plainCalls : List (Place × Nat) := []
  deriving Inhabited

namespace Index

/-- Takes a node into an index. -/
def note (index : Index) (p : Place) : Index :=
  if p.tree.isDeclaration then
    { index with functionNames := index.functionNames ++ p.tree.declaredName?.toList }
  else if Program.isTypeDeclaration p.tree then
    { index with
      typeDeclarations := index.typeDeclarations ++ (p.tree.declaredName?.map (·, p.tree)).toList }
  else { index with plainCalls := index.plainCalls ++ (Program.plainCall? p).toList }

/-- The index of a tree. -/
def ofTree (root : Tree) : Index :=
  Place.traverse (fun _ => true) note {} [⟨root, []⟩]

end Index

/-- A program with its index. -/
structure Program extends Index where
  root : Tree
  deriving Inhabited

namespace Program

def ofTree (root : Tree) : Program := { Index.ofTree root with root := root }

def places (program : Program) : List Place := Place.nodes ⟨program.root, []⟩

/-- The function declarations of a program, in document order. -/
def declarations (program : Program) : List Place :=
  program.places.filter (·.tree.isDeclaration)

/-- The first declaration of a type. -/
def typeDeclaration? (program : Program) (name : String) : Option Tree :=
  program.typeDeclarations.lookup name

/-- The function declaration that a callee names. -/
def resolveFunction (program : Program) (callee : Place) : Option Place :=
  let c := callee.unwrap
  if c.is .identifier && program.functionNames.contains c.text then lookupFunction c.text c.above
  else none

/-- The addresses of called functions with the numbers of arguments, in document order. -/
def calls (program : Program) : List (List Nat × Nat) :=
  program.plainCalls.filterMap fun (callee, count) =>
    (program.resolveFunction callee).map fun f => (f.address, count)

/-- How many arguments the given calls pass to a function. -/
def countsAt (calls : List (List Nat × Nat)) (function : Place) : List Nat :=
  calls.filterMap fun (address, count) => if address = function.address then some count else none

/-- How many arguments the calls of a function pass. -/
def arities (program : Program) (function : Place) : List Nat :=
  countsAt program.calls function

end Program

end UsageTypes
