import UsageTypes.Grammar.Rule

/-! The grammar of types, and of the members of object types. -/

namespace UsageTypes

namespace Forms

open Grammar

/-- Whether parentheses are the parameters of a function: an arrow follows them. -/
def arrowAhead (cs : List Char) : Bool :=
  match behindBracket cs with
  | some ds => startsWith (dropTrivia ds.length ds) ['=', '>']
  | none => false

def functionType (e : Ending) : Form :=
  node .functionType (opt (field .typeParameters (nest .typeParameters)) ++ ahead arrowAhead
    ++ field .parameters (nest .parameters) ++ mark "=>"
    ++ field .returns (oneOf [assertsClause e, typePredicate e, nest (.type 0 e)]))

def constructorType (e : Ending) : Form :=
  node .constructorType (opt (word "abstract") ++ word "new" ++ opt (field .typeParameters (nest .typeParameters))
    ++ field .parameters (nest .parameters) ++ mark "=>" ++ field .typing (nest (.type 0 e)))

def tupleMember : Form :=
  oneOf [
    node .optionalParameter (field .name (leaf .identifier (.name [])) ++ mark "?" ++ field .typing (ascription .never)),
    node .requiredParameter (field .name (oneOf [node .restPattern (mark "..." ++ leaf .identifier (.name [])),
        leaf .identifier (.name [])])
      ++ field .typing (ascription .never)),
    node .restType (mark "..." ++ anyType),
    node .optionalType (anyType ++ mark "?"),
    anyType]

def tupleType : Form :=
  node .tupleType (mark "[" ++ opt (commaSep tupleMember ++ opt (mark ",")) ++ mark "]")

def literalType : Form :=
  node .literalType (oneOf [
    node .unaryExpression (field .operator (ops ["-", "+"]) ++ field .argument numberLiteral),
    numberLiteral, stringLiteral, leaf .trueWord (.word "true".toList), leaf .falseWord (.word "false".toList),
    leaf .nullWord (.word "null".toList), leaf .undefinedWord (.word "undefined".toList)])

def templateLiteralType : Form :=
  node .templateLiteralType (mark "`"
    ++ many (oneOf [glued .template, glued .escape, node .templateType (mark "$\x7b" ++ anyType ++ mark "\x7d")])
    ++ glued (.mark ['`']))

/-- The expression that a type query asks about. -/
def typeQuery : Form :=
  node .typeQuery (word "typeof" ++ grow
    (oneOf [leaf .thisWord (.word "this".toList),
      node .callExpression (field .callee (leaf .importWord (.word "import".toList))
        ++ field .arguments (nest .arguments)),
      leaf .identifier (.name [])])
    (oneOf [
      wrap .memberExpression (some .object) (fun _ => true)
        (oneOf [mark ".", field .chain (node .optionalChain (op "?."))]
          ++ field .property (alt (leaf .privatePropertyIdentifier .privateName)
            (leaf .propertyIdentifier (.name [])))),
      wrap .subscriptExpression (some .object) (fun _ => true)
        (mark "[" ++ field .index (oneOf [numberLiteral, stringLiteral]) ++ mark "]"),
      wrap .instantiationExpression (some .callee) (· ≠ .instantiationExpression)
        (field .typeArguments (nest .typeArguments))]))

/-- The names before the last one of a qualified name. -/
def qualifier : Form :=
  grow (leaf .identifier (.name typeWords))
    (wrap .nestedIdentifier none (fun _ => true)
      (mark "." ++ leaf .identifier (.name []) ++ look (mark ".")))

def nestedTypeName : Form :=
  node .nestedTypeIdentifier (field .qualifier qualifier ++ mark "." ++ field .name typeName)

def namedType : Form :=
  let plain : Form := leaf .typeIdentifier (.name typeWords)
  oneOf [
    node .genericType (field .name (alt nestedTypeName plain) ++ field .typeArguments (nest .typeArguments)),
    nestedTypeName, plain]

/-- A type that another file exports. -/
def importedType : Form :=
  only (· ≠ .importWord) (grow (leaf .importWord (.word "import".toList)) (alt
    (wrap .callExpression (some .callee) (· ≠ .callExpression) (field .arguments (nest .arguments)))
    (wrap .memberExpression (some .object) (fun _ => true)
      (mark "." ++ field .property (alt (leaf .privatePropertyIdentifier .privateName)
        (leaf .propertyIdentifier (.name [])))))))

def predefinedType : Form :=
  node .predefinedType (oneOf [word "unique" ++ word "symbol",
    words ["any", "number", "boolean", "string", "symbol", "void", "unknown", "never", "object"]])

def typeOperand (e : Ending) : Form :=
  oneOf [
    node .unionType (op "|" ++ nest (.type 2 e)),
    node .intersectionType (op "&" ++ nest (.type 3 e)),
    functionType e,
    constructorType e,
    node .parenthesizedType (mark "(" ++ anyType ++ mark ")"),
    nest (.members .objectType),
    tupleType,
    literalType,
    templateLiteralType,
    node .readonlyType (word "readonly" ++ nest (.type 0 e)),
    node .indexTypeQuery (word "keyof" ++ nest (.type 4 e)),
    node .inferType (word "infer" ++ typeName ++ opt (word "extends" ++ nest (.type 1 e))),
    typeQuery,
    predefinedType,
    leaf .thisType (.word "this".toList),
    leaf .existentialType (.mark ['*']),
    importedType,
    node .flowMaybeType (mark "?" ++ nest (.type 4 e)),
    namedType]

/-- What may go on with a type. Unions are weaker than intersections, and conditionals weaker than
both. -/
def typeContinuation (strength : Nat) (e : Ending) : Form :=
  oneOf ([
      wrap .arrayType none (fun _ => true) (mark "[" ++ mark "]"),
      wrap .lookupType none (fun _ => true) (mark "[" ++ anyType ++ mark "]")]
    ++ (if strength < 3 then
      [wrap .intersectionType none (fun _ => true) (op "&" ++ nest (.type 3 e))] else [])
    ++ (if strength < 2 then
      [wrap .unionType none (fun _ => true) (op "|" ++ nest (.type 2 e))] else [])
    ++ (if strength < 1 then
      [wrap .conditionalType (some .left) (fun _ => true)
        (word "extends" ++ field .right (nest (.type 1 .never)) ++ mark "?"
          ++ field .consequence anyType ++ mark ":" ++ field .alternative (nest (.type 0 e)))] else []))

def typeExpression (strength : Nat) (e : Ending) : Form :=
  grow (typeOperand e) (e.guard ++ typeContinuation strength e)

def typeArguments : Form :=
  node .typeArguments (mark "<" ++ commaSep anyType ++ opt (mark ",") ++ mark ">")

def typeParameter : Form :=
  node .typeParameter (opt (modifier (word "const")) ++ field .name typeName
    ++ opt (field .constraint (node .constraint (alt (word "extends") (mark ":") ++ anyType)))
    ++ opt (field .value (node .defaultType (mark "=" ++ anyType))))

def typeParameters : Form :=
  node .typeParameters (mark "<" ++ commaSep typeParameter ++ opt (mark ",") ++ mark ">")

/-- A signature for members by key, or for each key of a type. -/
def indexSignature : Form :=
  node .indexSignature (
    opt (opt (field .sign (ops ["-", "+"])) ++ word "readonly" ++ ahead (startsWith · ['[']))
    ++ mark "["
    ++ oneOf [
      field .name (leaf .identifier (.name [])) ++ mark ":" ++ field .indexType anyType,
      node .mappedTypeClause (field .name typeName ++ word "in" ++ field .typing anyType
        ++ opt (word "as" ++ field .aliasing anyType))]
    ++ mark "]"
    ++ field .typing (oneOf [
      node .optingTypeAscription (mark "?:" ++ nest (.type 0 .declaration)),
      node .omittingTypeAscription (mark "-?:" ++ nest (.type 0 .declaration)),
      node .addingTypeAscription (mark "+?:" ++ nest (.type 0 .declaration)),
      ascription .declaration]))

def methodSignature : Form :=
  node .methodSignature (memberModifiers ++ opt (mark "*") ++ field .name propertyName ++ opt (mark "?")
    ++ methodAhead true ++ signature .declaration)

def propertySignature : Form :=
  node .propertySignature (memberModifiers ++ field .name propertyName ++ opt (mark "?") ++ typing .declaration)

def typeMember : Form :=
  oneOf [
    indexSignature,
    node .callSignature (look (alt (mark "(") (mark "<")) ++ signature .declaration),
    node .constructSignature (opt (modifier (word "abstract")) ++ word "new"
      ++ opt (field .typeParameters (nest .typeParameters)) ++ field .parameters (nest .parameters)
      ++ typing .declaration),
    methodSignature,
    propertySignature]

def members (kind : Kind) : Form :=
  let member : Form := typeMember ++ oneOf [mark ",", semicolon, look (mark "\x7d")]
  node kind (mark "\x7b" ++ opt (opt (alt (mark ",") (mark ";")) ++ member) ++ many member ++ mark "\x7d")

end Forms

end UsageTypes
