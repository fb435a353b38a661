import UsageTypes.Access
import UsageTypes.Evidence
import UsageTypes.Typing

/-!
The uses of a parameter in the body of its function. A body is walked once in source order, whatever
branches are taken; forms that are not understood contribute nothing but what stands inside them.
-/

namespace UsageTypes

/-- What the walk over a body meets. -/
inductive Event where
  | evidence (e : Evidence)
  /-- A node was too deep to be visited. -/
  | tooDeep (kind : String)
  /-- An access chain was too long to be followed. -/
  | longChain
  /-- A parameter was passed where the callee declares nothing. -/
  | openArgument (index : Nat) (callee : String)
  /-- A nested function redeclares the parameter. -/
  | redeclared
  /-- A type or an expression was nested too deeply to be analysed. -/
  | cut (c : Cut)
  deriving DecidableEq, Inhabited

def Event.evidence? : Event → Option Evidence
  | .evidence e => some e
  | _ => none

/-- How an operator constrains its operands. -/
inductive OperandRule where
  /-- Numeric, unless the other operand is a string. -/
  | numericOrText
  | numeric
  deriving DecidableEq, Repr

/-- The rule of an operator; assignments and comparisons with `=` share that of their base. -/
def operandRule? (op : String) : Option OperandRule :=
  let base := String.ofList (op.toList.reverse.dropWhile (· = '=')).reverse
  if base ∈ ["+", "<", ">"] then some .numericOrText
  else if base ∈ ["-", "*", "/", "%", "**", "&", "|", "^", "<<", ">>", ">>>"] then some .numeric
  else none

mutual

/-- The evidence of passing a value where a type is declared: shapes count field by field,
intersections member by member, anything else as a whole. -/
def passing (path : Path) : Ty → List Evidence
  | .shape (field :: fields) => passingFields path (field :: fields)
  | .inter members => passingAll path members
  | .shape [] => [.argument path (.shape [])]
  | .dynamic => [.argument path .dynamic]
  | .primitive kind => [.argument path (.primitive kind)]
  | .array element => [.argument path (.array element)]
  | .named text => [.argument path (.named text)]
  | .function params returns => [.argument path (.function params returns)]

def passingFields (path : Path) : List (String × Ty) → List Evidence
  | [] => []
  | (name, t) :: fields => passing (path.child name) t ++ passingFields path fields

def passingAll (path : Path) : List Ty → List Evidence
  | [] => []
  | t :: ts => passing path t ++ passingAll path ts

end

/-- The parameter whose uses are sought. -/
structure Focus where
  program : Program
  name : String
  /-- The local names of its function. -/
  scope : Scope
  /-- How deep nodes may be nested, and how long access chains may be. -/
  limit : Nat

namespace Focus

def path? (f : Focus) (p : Place) : Option Path := accessPath f.name f.limit p.tree

/-- What following an expression's access chain meets. -/
def chainEvents (f : Focus) (p : Place) : List Event :=
  if follow f.name f.limit [] p.tree = .tooLong then [.longChain] else []

def typeEvents (f : Focus) (p : Place) : List Event :=
  (f.program.typeOfCuts p).map .cut

/-- A read of the value at a path reads all that leads to it. -/
def accessEvents (path : Path) : List Event :=
  path.prefixes.map fun q => .evidence (.access q)

/-- What an operand of an operator says, given the other operand. -/
def operandEvents (f : Focus) (rule : OperandRule) (operand : Place) (other : Option Place) :
    List Event :=
  f.chainEvents operand ++
    match f.path? operand with
    | none => []
    | some path =>
      match rule, other with
      | .numericOrText, some o =>
        f.typeEvents o ++
          if f.program.typeOf f.scope o = some .string then [.evidence (.textual path)]
          else [.evidence (.numeric path)]
      | _, _ => [.evidence (.numeric path)]

def argumentTypes (f : Focus) (arguments : List Place) : List Ty :=
  arguments.map fun a => (f.program.typeOf f.scope a).getD .dynamic

/-- The receiver and the name of the method that a callee names. -/
def method? (callee : Place) : Option (Place × String) :=
  if callee.is .memberExpression then
    match callee.tree.child? .property, callee.child? .object with
    | some property, some object =>
      if property.is .propertyIdentifier then some (object, property.text) else none
    | _, _ => none
  else none

/-- What an argument says, given the function that is called. -/
def argumentEvents (f : Focus) (callee function : Place) (index : Nat) (argument : Place) :
    List Event :=
  f.chainEvents argument ++
    match f.path? argument with
    | none => []
    | some path =>
      (f.program.declaredCuts function index).map .cut ++
        match f.program.declaredAt function index with
        | some declared =>
          if declared.isDynamic then [.openArgument index callee.text]
          else (passing path declared).map .evidence
        | none => [.openArgument index callee.text]

/-- What the arguments of a call to a declared function say. Positions behind a spread argument are
unknown. -/
def passEvents (f : Focus) (callee : Place) (arguments : List Place) : List Event :=
  match f.program.resolveFunction callee with
  | none => []
  | some function =>
    ((arguments.takeWhile (!·.is .spreadElement)).zipIdx).flatMap
      fun (argument, index) => f.argumentEvents callee function index argument

/-- Whether a nested function has the parameter's name for itself or for one of its parameters. -/
def redeclares (f : Focus) (function : Tree) : Bool :=
  (!function.is .methodDefinition && function.declaredName? = some f.name)
    || function.boundNames.contains f.name

/-- What an assignment says about the place that is assigned to. -/
def assignEvents (f : Focus) (left right : Option Place) : List Event :=
  match left, right with
  | some l, some r =>
    f.chainEvents l ++
      match f.path? l with
      | none => []
      | some path =>
        f.typeEvents r ++
          match f.program.typeOf f.scope r with
          | some t => if t.isDynamic then [] else [.evidence (.assign path t)]
          | none => []
  | _, _ => []

/-- What an operator says about both operands. -/
def binaryEvents (f : Focus) (p : Place) : List Event :=
  match p.tree.operator?.bind operandRule? with
  | none => []
  | some rule =>
    (p.child? .left).toList.flatMap (f.operandEvents rule · (p.child? .right))
      ++ (p.child? .right).toList.flatMap (f.operandEvents rule · (p.child? .left))

/-- What a compound assignment says about its left side. -/
def compoundEvents (f : Focus) (p : Place) : List Event :=
  match p.tree.operator? with
  | none => []
  | some op =>
    if op ∈ ["&&=", "||=", "??="] then []
    else match operandRule? op with
      | none => []
      | some rule => (p.child? .left).toList.flatMap (f.operandEvents rule · (p.child? .right))

/-- What a prefix or postfix operator says. -/
def unaryEvents (f : Focus) (p : Place) : List Event :=
  if p.is .updateExpression || p.tree.operator?.any (· ∈ ["-", "+", "~"]) then
    (p.child? .argument).toList.flatMap (f.operandEvents .numeric · none)
  else []

/-- The uses of the parameter in a node. The budget is what is left of the depth limit. -/
def visit (f : Focus) : Nat → Place → List Event
  | 0, p => [.tooDeep ((p.tree.kind?.map Kind.name).getD "")]
  | budget + 1, p =>
    f.chainEvents p ++
    match f.path? p with
    | some path => accessEvents path
    | none =>
      let field (l : Label) : List Event := (p.child? l).toList.flatMap (f.visit budget)
      match p.tree.kind? with
      | some .binaryExpression => field .left ++ field .right ++ f.binaryEvents p
      | some .augmentedAssignmentExpression => field .left ++ field .right ++ f.compoundEvents p
      | some .unaryExpression | some .updateExpression => field .argument ++ f.unaryEvents p
      | some .assignmentExpression =>
        field .left ++ field .right ++ f.assignEvents (p.child? .left) (p.child? .right)
      | some .callExpression =>
        match p.child? .callee, p.arguments? with
        | some callee, some arguments =>
          let receiver := (method? callee).bind fun (object, name) =>
            (f.path? object).map (·, name)
          let receiverEvents := (method? callee).toList.flatMap fun (object, _) => f.chainEvents object
          let inside := arguments.flatMap (f.visit budget)
          let types := arguments.flatMap f.typeEvents
          receiverEvents ++
          match receiver with
          | some (path, name) =>
            accessEvents path ++ inside ++ types
              ++ [.evidence (.method path name (f.argumentTypes arguments))]
          | none =>
            f.chainEvents callee ++
            match f.path? callee with
            | some path =>
              accessEvents path ++ inside ++ types
                ++ [.evidence (.invoke path (f.argumentTypes arguments))]
            | none => f.visit budget callee ++ inside ++ f.passEvents callee arguments
        | _, _ => p.named.flatMap (f.visit budget)
      | _ =>
        if p.tree.isFunctionLike then
          if f.redeclares p.tree then [.redeclared] else field .body
        else p.named.flatMap (f.visit budget)

end Focus

namespace Program

def focus (program : Program) (function : Place) (name : String) (limit : Nat) : Focus :=
  ⟨program, name, program.scopeOf function, limit⟩

/-- What a walk over a body meets, for one parameter of its function. -/
def events (program : Program) (function : Place) (name : String) (limit : Nat) (body : Place) :
    List Event :=
  (program.focus function name limit).visit (limit + 1) body

/-- The evidence about one parameter of a function, in order of discovery. -/
def evidence (program : Program) (function : Place) (name : String) (limit : Nat) (body : Place) :
    List Evidence :=
  (program.events function name limit body).filterMap Event.evidence?

end Program

end UsageTypes
