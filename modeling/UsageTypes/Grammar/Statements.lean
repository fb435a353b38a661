import UsageTypes.Grammar.Expressions

/-! The grammar of statements, declarations and classes, and of whole programs. -/

namespace UsageTypes

namespace Forms

open Grammar

def block : Form :=
  node .statementBlock (mark "\x7b" ++ many (nest .statement) ++ mark "\x7d" ++ opt implied)

def condition : Form := parenthesized

def plainName : Form := leaf .identifier (.name [])

def decoratorForm : Form :=
  node .decorator (mark "@" ++ grow (alt plainName parenthesized)
    (oneOf [
      wrap .memberExpression (some .object) (fun _ => true)
        (mark "." ++ field .property (leaf .propertyIdentifier (.name []))),
      wrap .callExpression (some .callee) (· ≠ .callExpression)
        (opt (field .typeArguments (nest .typeArguments)) ++ field .arguments (nest .arguments))]))

def fieldDefinition : Form :=
  node .publicFieldDefinition (decorators ++ memberModifiers ++ field .name propertyName
    ++ opt (alt (mark "?") (op "!")) ++ typing .declaration ++ initializer true)

def abstractMethod : Form :=
  node .abstractMethodSignature (opt (modifier accessibility) ++ modifier (word "abstract")
    ++ memberModifiers ++ opt (mark "*") ++ field .name propertyName ++ opt (mark "?")
    ++ methodAhead true ++ signature .declaration)

def classMember : Form :=
  oneOf [
    mark ";",
    node .classStaticBlock (word "static" ++ field .body (nest .block)),
    decorators ++ methodDefinition true ++ opt semicolon,
    abstractMethod ++ oneOf [semicolon, mark ","],
    indexSignature ++ oneOf [semicolon, mark ","],
    methodSignature ++ oneOf [semicolon, mark ","],
    fieldDefinition ++ oneOf [semicolon, mark ","]]

def classBody : Form :=
  node .classBody (mark "\x7b" ++ many classMember ++ mark "\x7d")

def classTail : Form :=
  field .name className ++ opt (field .typeParameters (nest .typeParameters)) ++ heritage
    ++ field .body (nest .classBody)

def declarator (ends : Bool) : Form :=
  node .variableDeclarator (alt
    (field .name plainName ++ op "!" ++ field .typing (ascription .declaration))
    (field .name bindingPattern ++ typing .declaration ++ initializer ends))

def lexicalDeclaration : Form :=
  node .lexicalDeclaration (field .keyword (words ["let", "const"]) ++ commaSep (declarator true) ++ semicolon)

def variableDeclaration : Form :=
  node .variableDeclaration (field .keyword (word "var") ++ commaSep (declarator true) ++ semicolon)

def functionName : Form := field .name plainName

def functionDeclarations : List Form :=
  [node .functionDeclaration (opt async ++ word "function" ++ functionName ++ signature .declaration
      ++ field .body (nest .block) ++ opt implied),
    node .generatorFunctionDeclaration (opt async ++ word "function" ++ mark "*" ++ functionName
      ++ signature .declaration ++ field .body (nest .block) ++ opt implied),
    node .functionSignature (opt async ++ word "function" ++ functionName ++ signature .declaration ++ semicolon)]

def enumDeclaration : Form :=
  let member : Form := alt
    (node .enumAssignment (field .name propertyName ++ op "=" ++ field .value inner))
    (field .name propertyName)
  node .enumDeclaration (opt (word "const") ++ word "enum" ++ field .name plainName
    ++ field .body (node .enumBody (mark "\x7b" ++ opt (commaSep member ++ opt (mark ",")) ++ mark "\x7d")))

def interfaceDeclaration : Form :=
  node .interfaceDeclaration (word "interface" ++ field .name typeName
    ++ opt (field .typeParameters (nest .typeParameters))
    ++ opt (node .extendsTypeClause (word "extends" ++ commaSep (field .typing namedType)))
    ++ field .body (nest (.members .interfaceBody)))

def typeAlias : Form :=
  node .typeAliasDeclaration (word "type" ++ field .name typeName
    ++ opt (field .typeParameters (nest .typeParameters)) ++ op "="
    ++ field .value (nest (.type 0 .declaration)) ++ semicolon)

def importAlias : Form :=
  node .importAlias (word "import" ++ plainName ++ op "="
    ++ grow plainName (wrap .nestedIdentifier none (fun _ => true) (mark "." ++ plainName)) ++ semicolon)

/-- Declarations that may be exported and declared, an ambient declaration apart. -/
def plainDeclarations : List Form :=
  functionDeclarations
  ++ [node .classDeclaration (decorators ++ word "class" ++ classTail ++ opt implied),
    node .abstractClassDeclaration (decorators ++ word "abstract" ++ word "class" ++ classTail),
    enumDeclaration, lexicalDeclaration, variableDeclaration, interfaceDeclaration, typeAlias,
    node .moduleDeclaration (word "module" ++ moduleTail), importAlias]

def ambientDeclaration : Form :=
  node .ambientDeclaration (word "declare" ++ oneOf (plainDeclarations
    ++ [internalModule, word "global" ++ nest .block,
      word "module" ++ mark "." ++ leaf .propertyIdentifier (.name []) ++ mark ":"
        ++ nest (.type 0 .declaration) ++ semicolon]))

def fromClause : Form := word "from" ++ field .source stringLiteral

def exportClause : Form :=
  let name : Form := alt stringLiteral plainName
  let item : Form := alt
    (node .exportSpecifier (modifier (words ["type", "typeof"]) ++ field .name name
      ++ opt (word "as" ++ field .aliasing name) ++ look (alt (mark ",") (mark "\x7d"))))
    (node .exportSpecifier (field .name name ++ opt (word "as" ++ field .aliasing name)))
  node .exportClause (mark "\x7b" ++ opt (commaSep item ++ opt (mark ",")) ++ mark "\x7d")

def exportStatement : Form :=
  let exported : List Form := plainDeclarations ++ [internalModule, ambientDeclaration]
  node .exportStatement (decorators ++ word "export" ++ oneOf [
    node .namespaceExport (mark "*" ++ word "as" ++ alt stringLiteral plainName) ++ fromClause ++ semicolon,
    mark "*" ++ fromClause ++ semicolon,
    exportClause ++ opt fromClause ++ semicolon,
    word "type" ++ exportClause ++ opt fromClause ++ semicolon,
    word "type" ++ mark "*" ++ opt (word "as" ++ plainName) ++ fromClause ++ semicolon,
    op "=" ++ outer ++ semicolon,
    word "as" ++ word "namespace" ++ plainName ++ semicolon,
    word "default" ++ oneOf [field .declaration (oneOf exported), field .value outer ++ semicolon],
    field .declaration (oneOf exported)])

def importClause : Form :=
  let specifier : Form :=
    let name : Form := alt stringLiteral plainName
    alt (node .importSpecifier (modifier (words ["type", "typeof"]) ++ oneOf [
          field .name name ++ word "as" ++ field .aliasing plainName, field .name plainName]
          ++ look (alt (mark ",") (mark "\x7d"))))
      (node .importSpecifier (oneOf [
        field .name name ++ word "as" ++ field .aliasing plainName, field .name plainName]))
  let named : Form := node .namedImports (mark "\x7b" ++ opt (commaSep specifier ++ opt (mark ",")) ++ mark "\x7d")
  let whole : Form := node .namespaceImport (mark "*" ++ word "as" ++ plainName)
  node .importClause (oneOf [whole, named, plainName ++ opt (mark "," ++ alt whole named)])

def importStatement : Form :=
  let require : Form := node .importRequireClause (plainName ++ op "=" ++ word "require" ++ mark "("
    ++ field .source stringLiteral ++ mark ")")
  let tail : Form := oneOf [importClause ++ fromClause, require, field .source stringLiteral] ++ semicolon
  node .importStatement (word "import" ++ alt tail (words ["type", "typeof"] ++ tail))

def forHeader : Form :=
  let bound : Form := field .left bindingPattern
  mark "(" ++ oneOf [
      field .keyword (words ["let", "const"]) ++ bound,
      field .keyword (word "var") ++ bound ++ opt (op "=" ++ field .value (nest (.expr { level := .target }))),
      field .left (alt (destructuring ++ look (words ["in", "of"]))
        (only isTarget (nest (.expr { level := .target }))))]
    ++ field .operator (words ["in", "of"]) ++ field .right (nest (.exprs {})) ++ mark ")"

def expressionStatement : Form :=
  node .expressionStatement (nest (.exprs { ends := true, head := true }) ++ semicolon)

def emptyStatement : Form := node .emptyStatement (mark ";")

def loops : List Form :=
  [node .forInStatement (word "for" ++ opt (word "await") ++ forHeader ++ field .body (nest .statement)),
    node .forStatement (word "for" ++ mark "("
      ++ field .initializer (oneOf [lexicalDeclaration, variableDeclaration, emptyStatement, expressionStatement])
      ++ field .condition (alt emptyStatement expressionStatement)
      ++ opt (field .increment (nest (.exprs {}))) ++ mark ")" ++ field .body (nest .statement)),
    node .whileStatement (word "while" ++ field .condition condition ++ field .body (nest .statement)),
    node .doStatement (word "do" ++ field .body (nest .statement) ++ word "while" ++ field .condition condition)]

def switchStatement : Form :=
  let statements : Form := field .body (many (nest .statement))
  node .switchStatement (word "switch" ++ field .value condition
    ++ field .body (node .switchBody (mark "\x7b" ++ many (alt
        (node .switchCase (word "case" ++ field .value (nest (.exprs {})) ++ mark ":" ++ statements))
        (node .switchDefault (word "default" ++ mark ":" ++ statements)))
      ++ mark "\x7d")))

def tryStatement : Form :=
  node .tryStatement (word "try" ++ field .body (nest .block)
    ++ opt (field .handler (node .catchClause (word "catch"
      ++ opt (mark "(" ++ field .parameter bindingPattern ++ typing .never ++ mark ")")
      ++ field .body (nest .block))))
    ++ opt (field .finalizer (node .finallyClause (word "finally" ++ field .body (nest .block)))))

def jump (kind : Kind) (w : String) : Form :=
  node kind (word w
    ++ opt (absent implied ++ field .target (leaf .statementIdentifier (.name []))) ++ semicolon)

def controls : List Form :=
  [node .ifStatement (word "if" ++ field .condition condition ++ field .consequence (nest .statement)
      ++ opt (field .alternative (node .elseClause (word "else" ++ nest .statement)))),
    switchStatement, tryStatement,
    node .withStatement (word "with" ++ field .object condition ++ field .body (nest .statement)),
    jump .breakStatement "break", jump .continueStatement "continue",
    node .returnStatement (word "return" ++ opt (absent implied ++ nest (.exprs { ends := true })) ++ semicolon),
    node .throwStatement (word "throw" ++ nest (.exprs { ends := true }) ++ semicolon),
    node .debuggerStatement (word "debugger" ++ semicolon)]

/-- Statements that begin with a word of their own are no expressions. -/
def beginsOtherwise : Form :=
  alt (mark "\x7b") (opt async ++ word "function" ++ opt (mark "*") ++ plainName)

def statement : Form :=
  trivia ++ oneOf ([nest .block, emptyStatement]
    ++ controls ++ loops
    ++ [node .labeledStatement (field .target (leaf .statementIdentifier (.name statementWords)) ++ mark ":"
      ++ field .body (nest .statement))]
    ++ plainDeclarations
    ++ [ambientDeclaration, exportStatement, importStatement,
      absent beginsOtherwise ++ expressionStatement])

/-- The grammar of TypeScript. -/
def grammar : Rule → Form
  | .statement => statement
  | .block => block
  | .expr c => expression c
  | .exprs c => expressions c
  | .arguments => arguments
  | .object => object
  | .pattern => pattern
  | .parameters => parameters
  | .classBody => classBody
  | .decorator => decoratorForm
  | .type strength e => typeExpression strength e
  | .typeArguments => typeArguments
  | .typeParameters => typeParameters
  | .members kind => members kind

/-- The statements of a program, the line that names an interpreter first. -/
def program : Form :=
  opt (leaf .hashBangLine .hashBang) ++ many (nest .statement) ++ trivia

end Forms

/-- Reads statements as far as possible. -/
def readStatements (source : String) : List Tree × Cursor :=
  let cs := source.toList
  let bound := cs.length + 1
  let rules := Grammar.readRule Forms.grammar bound (16 * bound)
  (Forms.program.read bound rules [] { rest := cs }).getD ([], { rest := cs })

/-- Reads a whole program. -/
def readProgram (source : String) : Option Tree :=
  let (ts, c) := readStatements source
  if c.rest.isEmpty then some (.node none .program {} ts) else none

end UsageTypes
