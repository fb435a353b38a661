import UsageTypes.Tree.Place

/-! Functions in a tree: what counts as one, its parameters, the names it binds, and calls. -/

namespace UsageTypes

namespace Kind

/-- Kinds of nodes with a scope of their own. -/
def isFunctionLike : Kind → Bool
  | .functionDeclaration | .generatorFunctionDeclaration | .functionExpression | .generatorFunction
  | .arrowFunction | .methodDefinition => true
  | _ => false

/-- Declarations whose parameters are inferred. -/
def isDeclaration : Kind → Bool
  | .functionDeclaration | .generatorFunctionDeclaration => true
  | _ => false

end Kind

namespace Tree

def isFunctionLike (t : Tree) : Bool := t.kind?.any Kind.isFunctionLike

def isDeclaration (t : Tree) : Bool := t.kind?.any Kind.isDeclaration

def declaredName? (t : Tree) : Option String := (t.child? .name).map text

def operator? (t : Tree) : Option String := (t.child? .operator).map text

/-- Parameters count by position, `this` apart. -/
def isPositional (t : Tree) : Bool :=
  (t.is .requiredParameter || t.is .optionalParameter)
    && !(t.child? .pattern).any (·.is .thisWord)

def parameters (t : Tree) : List Tree :=
  match t.child? .parameters with
  | some list => list.named.filter isPositional
  | none => []

/-- The name that a plain or rest parameter binds. -/
def parameterName? (t : Tree) : Option String :=
  match t.child? .pattern with
  | some pattern =>
    if pattern.is .identifier then some pattern.text
    else if pattern.is .restPattern then pattern.named.head?.map text
    else none
  | none => none

def isRest (t : Tree) : Bool := (t.child? .pattern).any (·.is .restPattern)

/-- The names that a function binds: its parameters and the bare parameter of an arrow. -/
def boundNames (t : Tree) : List String :=
  t.parameters.filterMap parameterName? ++ ((t.child? .parameter).map text).toList

end Tree

namespace Place

def parameters (p : Place) : List Place :=
  match p.child? .parameters with
  | some list => list.named.filter (·.tree.isPositional)
  | none => []

/-- The arguments of a call; a tagged template has none. Comments do not count. -/
def arguments? (p : Place) : Option (List Place) :=
  match p.child? .arguments with
  | some list => if list.is .argumentList then some (list.named.filter (!·.is .comment)) else none
  | none => none

end Place

/-- A string literal without its quotes. -/
def unquote? (literal : String) : Option String :=
  match literal.toList with
  | q :: c :: cs =>
    if (q = '"' || q = '\x27' || q = '`') && (c :: cs).getLast? = some q then
      some (String.ofList (c :: cs).dropLast)
    else none
  | _ => none

end UsageTypes
