import UsageTypes.Grammar.Basic
import UsageTypes.Grammar.Brackets

/-! The rules of the TypeScript grammar that refer to each other, and the words they share. -/

namespace UsageTypes

/-- What an operand stands in. It decides which operators may go on with the operand, and which ones
take all that was read so far. -/
inductive Level where
  /-- Nothing that binds tighter than the loosest operators. -/
  | loose
  /-- The right of a binary operator of the given strength. -/
  | binary (strength : Nat)
  /-- The right of an exponentiation. -/
  | power
  /-- Behind `await`. -/
  | await
  /-- Behind a prefix operator or a type assertion. -/
  | unary
  /-- Behind `new`. -/
  | construct
  /-- A place that is assigned to. -/
  | target
  deriving DecidableEq, Repr, Inhabited

structure Context where
  level : Level := .loose
  /-- Whether an implied semicolon may end the expression. -/
  ends : Bool := false
  /-- Whether the expression is followed by the colon of a conditional. -/
  branch : Bool := false
  /-- Whether the expression begins a statement. -/
  head : Bool := false
  deriving DecidableEq, Repr, Inhabited

/-- Where an implied semicolon may end a type: nowhere, or as it ends a declaration or an
expression. -/
inductive Ending where
  | never | declaration | expression
  deriving DecidableEq, Repr, Inhabited

inductive Rule where
  | statement
  | block
  | expr (c : Context)
  | exprs (c : Context)
  | arguments
  | object
  | pattern
  | parameters
  | classBody
  | decorator
  /-- A type; operators of at most the given strength do not go on with it. -/
  | type (strength : Nat) (e : Ending)
  | typeArguments
  | typeParameters
  /-- The members of an object type or of an interface. -/
  | members (kind : Kind)
  deriving Inhabited

abbrev Form := Grammar Rule

/-- Fails where a semicolon is implied. -/
def Ending.guard : Ending → Form
  | .never => .empty
  | .declaration => .absent .implied
  | .expression => .unlessImplied

namespace Forms

open Grammar

/-- What a rule of the grammar reads. -/
def nest (r : Rule) : Form := rule r

/-- An expression in brackets or between commas. -/
def inner : Form := nest (.expr {})

/-- An expression that may end a statement. -/
def outer : Form := nest (.expr { ends := true })

def anyType : Form := nest (.type 0 .never)

/-- Words that begin an operand, and so are no names where an operand may stand. -/
def operandWords : List (List Char) :=
  ["await", "class", "delete", "false", "function", "import", "new", "null", "super", "this", "true",
    "typeof", "undefined", "void", "yield"].map String.toList

/-- Words that are no names at the start of a statement. -/
def statementWords : List (List Char) :=
  operandWords ++ ["abstract", "break", "case", "const", "continue", "debugger", "default", "do", "enum",
    "export", "for", "if", "interface", "let", "return", "switch", "throw", "try", "var", "while",
    "with"].map String.toList

/-- Words that begin a type. -/
def typeWords : List (List Char) :=
  ["abstract", "import", "infer", "keyof", "new", "readonly", "typeof", "unique"].map String.toList

/-- A name where an expression may stand. -/
def identifier (c : Context) : Form :=
  leaf .identifier (.name (if c.head then statementWords else operandWords))

/-- Whether nothing follows that an operand could begin with. -/
def endsOperand : List Char → Bool
  | c :: _ => c ∈ [')', ']', '}', ',', ';', ':']
  | [] => true

/-- Words that are names if they stand alone. -/
def loneWord : Form :=
  oneOf (["export", "let", "new"].map fun w => leaf .identifier (.word w.toList) ++ ahead endsOperand)

/-- A name where nothing but a name may stand. -/
def binding : Form :=
  alt (leaf .undefinedWord (.word "undefined".toList)) (leaf .identifier (.name []))

def typeName : Form := leaf .typeIdentifier (.name [])

def stringIn (quote : Char) : Form :=
  node .stringLiteral (token (.mark [quote])
    ++ many (alt (gluedLeaf .stringFragment (.fragment quote)) (gluedLeaf .escapeSequence .escape))
    ++ glued (.mark [quote]))

def stringLiteral : Form := alt (stringIn '"') (stringIn '\x27')

def numberLiteral : Form := leaf .numberLiteral .number

def propertyName : Form :=
  oneOf [leaf .propertyIdentifier (.name []), leaf .privatePropertyIdentifier .privateName, stringLiteral,
    numberLiteral, node .computedPropertyName (mark "[" ++ inner ++ mark "]")]

/-- Whether the name of a member follows, so that the word before it modifies the member. -/
def memberAhead : List Char → Bool
  | c :: _ => isNamePart c || c ∈ ['"', '\x27', '[', '#', '*', '\\']
  | [] => false

def modifier (g : Form) : Form := g ++ ahead memberAhead

/-- What calls a method, in a place where the end of a line may end a member. -/
def methodAhead (ends : Bool) : Form :=
  (if ends then absent implied else empty) ++ look (alt (mark "(") (mark "<"))

def accessibility : Form := node .accessibilityModifier (words ["public", "private", "protected"])

/-- The modifiers of a member, as far as they are words. -/
def memberModifiers : Form :=
  many (modifier (oneOf [accessibility, node .overrideModifier (word "override"),
    words ["static", "readonly", "async", "get", "set", "declare", "abstract", "accessor"]]))

def ascription (e : Ending) : Form := node .typeAscription (mark ":" ++ nest (.type 0 e))

def typing (e : Ending) : Form := opt (field .typing (ascription e))

/-- The value that a variable, a field or a parameter starts with. -/
def initializer (ends : Bool) : Form :=
  opt (op "=" ++ field .value (nest (.expr { ends })))

def typePredicate (e : Ending) : Form :=
  node .typePredicate (field .name (alt (leaf .thisWord (.word "this".toList)) (leaf .identifier (.name [])))
    ++ word "is" ++ field .typing (nest (.type 0 e)))

def assertsClause (e : Ending) : Form :=
  node .assertsClause (word "asserts" ++ oneOf [typePredicate e, leaf .thisWord (.word "this".toList),
    leaf .identifier (.name ["is".toList])])

def returnAscription (e : Ending) : Form :=
  oneOf [node .assertsAscription (mark ":" ++ assertsClause e),
    node .typePredicateAscription (mark ":" ++ typePredicate e), ascription e]

/-- Type parameters, parameters and return type. -/
def signature (e : Ending) : Form :=
  opt (field .typeParameters (nest .typeParameters)) ++ field .parameters (nest .parameters)
    ++ opt (field .returns (returnAscription e))

end Forms

end UsageTypes
