import UsageTypes.Lookup
import UsageTypes.Resolve
import UsageTypes.Scope

/-! Static types of simple expressions, of parameters and of local names. -/

namespace UsageTypes

/-- The type of the result of a binary operator; that of `+` depends on the operands. -/
def operatorType (op : String) (left right : Option Ty) : Option Ty :=
  if op = "+" then
    if left = some .string || right = some .string then some .string
    else if left = some .number && right = some .number then some .number
    else none
  else if op ∈ ["-", "*", "/", "%", "**", "&", "|", "^", "<<", ">>", ">>>"] then some .number
  else if op ∈ ["<", "<=", ">", ">=", "==", "===", "!=", "!==", "instanceof", "in"] then some .boolean
  else none

def prefixType (op : String) : Option Ty :=
  if op = "-" || op = "+" || op = "~" then some .number
  else if op = "!" then some .boolean
  else if op = "typeof" then some .string
  else none

/-- The type of an array literal: its elements have one type. -/
def arrayOf : List (Option Ty) → Option Ty
  | some t :: ts => if ts.all (· = some t) then some (.array t) else none
  | _ => none

namespace Program

/-- The type that a called function declares to return. -/
def returnType (program : Program) (call : Place) : Option Ty :=
  match call.child? .callee with
  | none => none
  | some callee =>
    match program.resolveFunction callee with
    | none => none
    | some f => (f.tree.child? .returns).map resolveType

/-- The static type of an expression, if it is known. The budget is what is left of the nesting
limit. -/
def exprType (program : Program) (scope : Scope) : Nat → Place → Option Ty
  | 0, _ => none
  | budget + 1, p =>
    match p.tree.kind? with
    | some .numberLiteral => some .number
    | some .stringLiteral | some .templateString => some .string
    | some .trueWord | some .falseWord => some .boolean
    | some .parenthesizedExpression =>
      match p.named with
      | [] => none
      | inner :: _ => exprType program scope budget inner
    | some .identifier => scope.lookup p.text
    | some .unaryExpression => p.tree.operator?.bind prefixType
    | some .binaryExpression =>
      match p.tree.operator? with
      | none => none
      | some op =>
        operatorType op ((p.child? .left).bind (exprType program scope budget))
          ((p.child? .right).bind (exprType program scope budget))
    | some .arrayLiteral => arrayOf (p.named.map (exprType program scope budget))
    | some .asExpression => (p.tree.named[1]?).map (resolve budget)
    | some .newExpression =>
      match p.tree.child? .constructor with
      | some c => if c.is .identifier then some (.named c.text) else none
      | none => none
    | some .callExpression => program.returnType p
    | _ => none

/-- The static type of an expression that stands by itself. -/
def typeOf (program : Program) (scope : Scope) (p : Place) : Option Ty :=
  program.exprType scope (nestingLimit + 1) p

/-- The type of a parameter from its ascription or its default. Nothing is known of a pattern. -/
def parameterType (program : Program) (parameter : Place) : Option Ty :=
  match parameter.tree.child? .typing with
  | some ascription => some (resolveType ascription)
  | none =>
    match parameter.tree.child? .pattern with
    | none => none
    | some pattern =>
      if pattern.is .identifier then
        match parameter.child? .value with
        | some value => some ((program.typeOf .empty value).getD .dynamic)
        | none => some .dynamic
      else if pattern.is .restPattern then some (.array .dynamic)
      else none

/-- What a rest parameter declares for each of its arguments. -/
def restElement : Ty → Ty
  | .array element => element
  | _ => .dynamic

/-- The type that a function declares for the argument at a position. -/
def declaredAt (program : Program) (function : Place) (position : Nat) : Option Ty :=
  let parameters := function.parameters
  match parameters[position]? with
  | some parameter =>
    if parameter.tree.isRest then (program.parameterType parameter).map restElement
    else program.parameterType parameter
  | none =>
    match parameters.getLast? with
    | some last =>
      if last.tree.isRest then (program.parameterType last).map restElement else none
    | none => none

def bindParameter (program : Program) (scope : Scope) (parameter : Place) : Scope :=
  match parameter.tree.parameterName? with
  | some name => scope.bind name ((program.parameterType parameter).getD .dynamic)
  | none => scope

/-- Binds a variable to the type of its ascription, else to that of its first value. -/
def bindVariable (program : Program) (scope : Scope) (declarator : Place) : Scope :=
  match declarator.tree.child? .name with
  | none => scope
  | some name =>
    if name.is .identifier then
      let t := match declarator.tree.child? .typing with
        | some ascription => some (resolveType ascription)
        | none => (declarator.child? .value).bind (program.typeOf scope)
      scope.bind name.text (t.getD .dynamic)
    else scope

/-- Binds a node of a body, if it is a variable declarator. -/
def bindNode (program : Program) (scope : Scope) (p : Place) : Scope :=
  if p.is .variableDeclarator then program.bindVariable scope p else scope

/-- The local names of a function with their types. The bodies of nested functions are not entered. -/
def scopeOf (program : Program) (function : Place) : Scope :=
  let parameters := function.parameters.foldl program.bindParameter .empty
  match function.child? .body with
  | some body => Place.traverse (!·.isFunctionLike) program.bindNode parameters [body]
  | none => parameters

/-- The variable declarators of a body in document order, those of nested functions apart. -/
def variablesOf (body : Place) : List Place :=
  (body.tree.places (!·.isFunctionLike) body.above).filter (·.is .variableDeclarator)

end Program

/-- Nodes that are not analysed because they are nested too deeply, by line. -/
inductive Cut where
  | type (line : Nat)
  | expr (line : Nat)
  deriving DecidableEq, Repr, Inhabited

namespace Program

def resolveCuts (t : Tree) : List Cut := (typeCuts (nestingLimit + 1) t).map .type

/-- What typing an expression leaves out. -/
def exprCuts (program : Program) : Nat → Place → List Cut
  | 0, p => [.expr p.tree.line]
  | budget + 1, p =>
    match p.tree.kind? with
    | some .parenthesizedExpression => p.named.head?.toList.flatMap (exprCuts program budget)
    | some .binaryExpression =>
      if p.tree.operator? = some "+" then
        (p.child? .left).toList.flatMap (exprCuts program budget)
          ++ (p.child? .right).toList.flatMap (exprCuts program budget)
      else []
    | some .arrayLiteral => p.named.flatMap (exprCuts program budget)
    | some .asExpression => (p.tree.named[1]?).toList.flatMap fun t => (typeCuts budget t).map .type
    | some .callExpression =>
      match (p.child? .callee).bind program.resolveFunction with
      | some f => (f.tree.child? .returns).toList.flatMap resolveCuts
      | none => []
    | _ => []

def typeOfCuts (program : Program) (p : Place) : List Cut :=
  program.exprCuts (nestingLimit + 1) p

/-- What typing a parameter leaves out. -/
def parameterCuts (program : Program) (parameter : Place) : List Cut :=
  match parameter.tree.child? .typing with
  | some ascription => resolveCuts ascription
  | none =>
    if (parameter.tree.child? .pattern).any (·.is .identifier) then
      (parameter.child? .value).toList.flatMap program.typeOfCuts
    else []

/-- What finding the declared type at a position leaves out. -/
def declaredCuts (program : Program) (function : Place) (position : Nat) : List Cut :=
  let parameters := function.parameters
  match parameters[position]? with
  | some parameter => program.parameterCuts parameter
  | none =>
    match parameters.getLast? with
    | some last => if last.tree.isRest then program.parameterCuts last else []
    | none => []

def variableCuts (program : Program) (declarator : Place) : List Cut :=
  if (declarator.tree.child? .name).any (·.is .identifier) then
    match declarator.tree.child? .typing with
    | some ascription => resolveCuts ascription
    | none => (declarator.child? .value).toList.flatMap program.typeOfCuts
  else []

/-- What finding the local names of a function leaves out. -/
def scopeCuts (program : Program) (function : Place) : List Cut :=
  (function.parameters.filter (·.tree.parameterName?.isSome)).flatMap program.parameterCuts
    ++ (function.child? .body).toList.flatMap fun body =>
      (variablesOf body).flatMap program.variableCuts

end Program

end UsageTypes
