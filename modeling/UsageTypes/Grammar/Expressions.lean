import UsageTypes.Grammar.Types

/-!
The grammar of expressions. Operators bind as in JavaScript, with one exception: a postfix `!`, an
`as` and a `satisfies` take all of the prefix and binary operators before them.
-/

namespace UsageTypes

namespace Context

/-- The right of an operator that takes as much as it can. -/
def loosely (c : Context) : Context := { c with level := .loose, head := false }

def within (c : Context) (level : Level) : Context := { c with level, head := false }

/-- Whether a binary operator of a strength may go on with an operand. -/
def allowsBinary (c : Context) (strength : Nat) : Bool :=
  match c.level with
  | .loose => true
  | .binary s => s < strength
  | .power => strength = 12
  | _ => false

/-- Whether a postfix `!` or a cast may. -/
def allowsCast (c : Context) : Bool :=
  match c.level with
  | .loose | .power | .await => true
  | _ => false

def allowsNonNull (c : Context) : Bool :=
  c.allowsCast || c.level = .target

def allowsUpdate (c : Context) : Bool :=
  match c.level with
  | .construct | .target => false
  | _ => true

def typeEnding (c : Context) : Ending :=
  if c.ends then .expression else .never

end Context

namespace Forms

open Grammar

/-- The binary operators by strength. -/
def binaryOperators : List (Nat × List String × List String) :=
  [(1, ["??"], []), (2, ["||"], []), (3, ["&&"], []), (4, ["|"], []), (5, ["^"], []), (6, ["&"], []),
    (7, ["==", "===", "!=", "!=="], []), (8, ["<", "<=", ">", ">="], ["instanceof", "in"]),
    (9, ["<<", ">>", ">>>"], []), (10, ["+", "-"], []), (11, ["*", "/", "%"], []), (12, ["**"], [])]

def assignmentOperators : List String :=
  ["+=", "-=", "*=", "/=", "%=", "**=", "<<=", ">>=", ">>>=", "&=", "^=", "|=", "&&=", "||=", "??="]

/-- What a pattern can bind to, patterns within it apart. -/
def isPlace (k : Kind) : Bool :=
  k ∈ [.identifier, .undefinedWord, .memberExpression, .subscriptExpression, .nonNullExpression]

/-- What can be assigned to, patterns apart. -/
def isTarget (k : Kind) : Bool :=
  isPlace k || k = .parenthesizedExpression

def spread : Form := node .spreadElement (mark "..." ++ inner)

def arguments : Form :=
  node .argumentList (mark "(" ++ commaHoles (alt spread inner) ++ mark ")")

def template : Form :=
  node .templateString (mark "`"
    ++ many (oneOf [gluedLeaf .stringFragment .template, gluedLeaf .escapeSequence .escape,
      node .templateSubstitution (glued (.mark ['$', '{']) ++ nest (.exprs {}) ++ mark "\x7d")])
    ++ glued (.mark ['`']))

def regex : Form :=
  node .regexLiteral (mark "/" ++ field .pattern (gluedLeaf .regexPattern .regex) ++ glued (.mark ['/'])
    ++ opt (field .flags (gluedLeaf .regexFlags .regexFlags)))

def parenthesized : Form :=
  node .parenthesizedExpression (mark "(" ++ nest (.exprs {}) ++ typing .never ++ mark ")")

def array : Form :=
  node .arrayLiteral (mark "[" ++ commaHoles (alt spread inner) ++ mark "]")

def methodDefinition (ends : Bool) : Form :=
  node .methodDefinition (memberModifiers ++ opt (mark "*") ++ field .name propertyName ++ opt (mark "?")
    ++ methodAhead ends ++ signature .never ++ field .body (nest .block))

def object : Form :=
  node .objectLiteral (mark "\x7b"
    ++ commaHoles (oneOf [spread, methodDefinition false,
      node .pair (field .key propertyName ++ mark ":" ++ field .value inner),
      leaf .shorthandPropertyIdentifier (.name [])])
    ++ mark "\x7d")

def restPattern (g : Form) : Form := node .restPattern (mark "..." ++ g)

def arrayPattern : Form :=
  node .arrayPattern (mark "["
    ++ commaHoles (alt (node .assignmentPattern (field .left (nest .pattern) ++ op "=" ++ field .right inner))
      (nest .pattern))
    ++ mark "]")

def objectPattern : Form :=
  node .objectPattern (mark "\x7b"
    ++ commaHoles (oneOf [
      restPattern (nest .pattern),
      node .pairPattern (field .key propertyName ++ mark ":" ++ field .value (alt
        (node .assignmentPattern (field .left (nest .pattern) ++ op "=" ++ field .right inner))
        (nest .pattern))),
      node .objectAssignmentPattern (
        field .left (leaf .shorthandPropertyIdentifierPattern (.name [])) ++ op "=" ++ field .right inner),
      leaf .shorthandPropertyIdentifierPattern (.name [])])
    ++ mark "\x7d")

def destructuring : Form := alt objectPattern arrayPattern

/-- A pattern, or a place that is assigned to. -/
def pattern : Form :=
  oneOf [restPattern (nest .pattern), destructuring ++ absent (alt (mark ".") (mark "[")),
    only isPlace (nest (.expr { level := .target }))]

/-- What a variable binds. -/
def bindingPattern : Form := alt destructuring binding

def parameterHead : Form :=
  many (field .decorator (nest .decorator))
    ++ many (oneOf [accessibility, node .overrideModifier (word "override"), word "readonly"]
      ++ ahead (fun cs => memberAhead cs || startsWith cs ['{']))
    ++ field .pattern (alt (nest .pattern) (leaf .thisWord (.word "this".toList)))

/-- Whether the question mark before makes a parameter optional, and begins no conditional. -/
def endsOptional : List Char → Bool
  | c :: _ => c ∈ [':', ')', ',']
  | [] => false

def parameter : Form :=
  alt (node .optionalParameter (parameterHead ++ mark "?" ++ ahead endsOptional ++ typing .never
      ++ initializer false))
    (node .requiredParameter (parameterHead ++ typing .never ++ initializer false))

def parameters : Form :=
  node .formalParameters (mark "(" ++ opt (commaSep parameter ++ opt (mark ",")) ++ mark ")")

/-- Whether brackets are a pattern: an assignment follows them. -/
def assignmentAhead (cs : List Char) : Bool :=
  match behindBracket cs with
  | some ds => operatorAt (dropTrivia ds.length ds) = ['=']
  | none => false

/-- Whether parentheses are followed by a colon. -/
def colonAhead (cs : List Char) : Bool :=
  match behindBracket cs with
  | some ds => startsWith (dropTrivia ds.length ds) [':']
  | none => false

def arrowBody (c : Context) : Form :=
  op "=>" ++ field .body (alt (nest .block) (absent (mark "\x7b") ++ nest (.expr c.loosely)))

def async : Form := word "async"

/-- Arrow functions. Parentheses are parameters if an arrow follows, or a return type and an arrow. -/
def arrows (c : Context) : List Form :=
  [node .arrowFunction (field .parameter (identifier c) ++ arrowBody c),
    node .arrowFunction (async ++ field .parameter (identifier c) ++ arrowBody c),
    node .arrowFunction (opt async ++ ahead (fun cs => startsWith cs ['('] && arrowAhead cs)
      ++ signature .never ++ arrowBody c)]
  ++ (if c.branch then [] else
    [node .arrowFunction (opt async ++ ahead (fun cs => startsWith cs ['('] && colonAhead cs)
      ++ signature .never ++ arrowBody c)])
  ++ [node .arrowFunction (opt async ++ look (mark "<") ++ signature .never ++ arrowBody c)]

def functionExpressions : List Form :=
  [node .functionExpression (opt async ++ word "function" ++ opt (field .name (leaf .identifier (.name [])))
      ++ signature .never ++ field .body (nest .block)),
    node .generatorFunction (opt async ++ word "function" ++ mark "*"
      ++ opt (field .name (leaf .identifier (.name []))) ++ signature .never ++ field .body (nest .block))]

def heritage : Form :=
  let extendsClause : Form := node .extendsClause (word "extends"
    ++ commaSep (field .value (nest (.expr { level := .target }))
      ++ opt (field .typeArguments (nest .typeArguments))))
  let implementsClause : Form := node .implementsClause (word "implements" ++ commaSep anyType)
  opt (node .classHeritage (alt (extendsClause ++ opt implementsClause) implementsClause))

def className : Form :=
  leaf .typeIdentifier (.name ["extends".toList, "implements".toList])

def decorators : Form := many (field .decorator (nest .decorator))

def classExpression : Form :=
  node .classExpression (decorators ++ word "class" ++ opt (field .name className)
    ++ opt (field .typeParameters (nest .typeParameters)) ++ heritage ++ field .body (nest .classBody))

/-- The name and the body of a module. -/
def moduleTail : Form :=
  let name : Form := grow (leaf .identifier (.name []))
    (wrap .nestedIdentifier none (fun _ => true) (mark "." ++ leaf .identifier (.name [])))
  field .name (alt stringLiteral name) ++ opt (field .body (nest .block))

def internalModule : Form :=
  node .internalModule (word "namespace" ++ moduleTail)

def newExpression (c : Context) : Form :=
  node .newExpression (word "new" ++ field .constructor (nest (.expr (c.within .construct)))
    ++ opt (field .typeArguments (nest .typeArguments)) ++ opt (field .arguments (nest .arguments)))

def yieldExpression (c : Context) : Form :=
  let guard : Form := if c.ends then unlessImplied else empty
  node .yieldExpression (word "yield"
    ++ oneOf [mark "*" ++ nest (.expr c.loosely), guard ++ nest (.expr c.loosely), empty])

def constants : List Form :=
  [leaf .thisWord (.word "this".toList), leaf .superWord (.word "super".toList),
    leaf .nullWord (.word "null".toList), leaf .undefinedWord (.word "undefined".toList),
    leaf .trueWord (.word "true".toList), leaf .falseWord (.word "false".toList)]

/-- An operand and the prefix operators before it. -/
def operandOf (c : Context) : Form :=
  oneOf (arrows c
    ++ functionExpressions
    ++ [internalModule, identifier c, numberLiteral, stringLiteral, template,
      node .assignmentExpression (ahead (fun cs =>
          (startsWith cs ['['] || startsWith cs ['{']) && assignmentAhead cs)
        ++ field .left destructuring ++ op "=" ++ field .right (nest (.expr c.loosely))),
      parenthesized, array, nest .object,
      node .updateExpression (field .operator (ops ["++", "--"]) ++ field .argument (nest (.expr (c.within .unary)))),
      node .unaryExpression (field .operator (alt (ops ["!", "~", "-", "+"]) (words ["typeof", "void", "delete"]))
        ++ field .argument (nest (.expr (c.within .unary)))),
      node .awaitExpression (word "await" ++ nest (.expr (c.within .await))),
      node .metaProperty (word "new" ++ mark "." ++ word "target"),
      newExpression c,
      yieldExpression c]
    ++ constants
    ++ [classExpression,
      node .typeAssertion (nest .typeArguments ++ nest (.expr (c.within .unary))),
      regex,
      leaf .importWord (.word "import".toList) ++ look (alt (mark "(") (mark ".")),
      leaf .privatePropertyIdentifier .privateName ++ look (word "in"),
      loneWord])

def chainMark : Form := field .chain (node .optionalChain (op "?."))

/-- Accesses to members, which every operand may go on with. -/
def accesses : List Form :=
  [wrap .memberExpression (some .object) (fun _ => true)
      (alt (mark "." ++ absent (glued (.mark ['.']))) chainMark
        ++ field .property (alt (leaf .privatePropertyIdentifier .privateName)
          (leaf .propertyIdentifier (.name [])))),
    wrap .subscriptExpression (some .object) (fun _ => true)
      (opt chainMark ++ mark "[" ++ field .index (nest (.exprs {})) ++ mark "]")]

def calls : List Form :=
  [wrap .callExpression (some .callee) (fun _ => true) (field .arguments (nest .arguments)),
    wrap .callExpression (some .callee) (fun _ => true) (field .arguments template),
    wrap .callExpression (some .callee) (fun _ => true)
      (op "?." ++ opt (field .typeArguments (nest .typeArguments)) ++ field .arguments (nest .arguments)),
    wrap .callExpression (some .callee) (fun _ => true)
      (field .typeArguments (nest .typeArguments) ++ field .arguments (alt (nest .arguments) template)),
    wrap .instantiationExpression (some .callee) (fun _ => true)
      (field .typeArguments (nest .typeArguments) ++ ahead endsOperand)]

def binaries (c : Context) : List Form :=
  binaryOperators.filterMap fun (strength, marks, names) =>
    if c.allowsBinary strength then
      let level : Level := if strength = 12 then .power else .binary strength
      some (wrap .binaryExpression (some .left) (fun _ => true)
        (field .operator (alt (ops marks) (words names)) ++ field .right (nest (.expr (c.within level)))))
    else none

def assignments (c : Context) : List Form :=
  [wrap .assignmentExpression (some .left) isTarget (op "=" ++ field .right (nest (.expr c.loosely))),
    wrap .augmentedAssignmentExpression (some .left) isTarget
      (field .operator (ops assignmentOperators) ++ field .right (nest (.expr c.loosely)))]

/-- A conditional. Parentheses before the colon are no parameters if they can be an operand. -/
def conditionals (c : Context) : List Form :=
  let branches (branch : Bool) : Form :=
    op "?" ++ field .consequence (nest (.expr { branch })) ++ mark ":"
      ++ field .alternative (nest (.expr c.loosely))
  [wrap .ternaryExpression (some .condition) (fun _ => true) (branches true),
    wrap .ternaryExpression (some .condition) (fun _ => true)
      (look (op "?" ++ alt async (mark "(")) ++ branches false)]

def casts (c : Context) : List Form :=
  [wrap .asExpression none (fun _ => true) (word "as" ++ alt (word "const") (nest (.type 0 c.typeEnding))),
    wrap .satisfiesExpression none (fun _ => true) (word "satisfies" ++ nest (.type 0 c.typeEnding))]

def continuation (c : Context) : Form :=
  oneOf (accesses
    ++ (if c.level = .construct then [] else calls)
    ++ (if c.allowsUpdate then
      [wrap .updateExpression (some .argument) (fun _ => true) (field .operator (ops ["++", "--"]))] else [])
    ++ (if c.allowsNonNull then [wrap .nonNullExpression none (fun _ => true) (op "!")] else [])
    ++ (if c.allowsUpdate then assignments c else [])
    ++ binaries c
    ++ (if c.allowsCast then casts c else [])
    ++ (if c.level = .loose then conditionals c else []))

def expression (c : Context) : Form :=
  grow (operandOf c) ((if c.ends then unlessImplied else empty) ++ continuation c) ++ operand

/-- One expression, or several with commas between them. -/
def expressions (c : Context) : Form :=
  let rest : Form := mark "," ++ nest (.expr { c with head := false })
  grow (nest (.expr c)) (wrap .sequenceExpression none (· ≠ .sequenceExpression) (rest ++ many rest)) ++ operand

end Forms

end UsageTypes
