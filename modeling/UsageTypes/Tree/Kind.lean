/-!
The vocabulary of TypeScript syntax trees: the kinds of named nodes and the roles that a node's
children play in it.
-/

namespace UsageTypes

/-- The kind of a named node. -/
inductive Kind where
  | program | hashBangLine | comment | identifier | propertyIdentifier
  | privatePropertyIdentifier | shorthandPropertyIdentifier | shorthandPropertyIdentifierPattern
  | statementIdentifier | typeIdentifier | nestedIdentifier | nestedTypeIdentifier
  | undefinedWord | nullWord | trueWord | falseWord | thisWord | superWord | importWord
  | numberLiteral | stringLiteral | stringFragment | escapeSequence | templateString
  | templateSubstitution | regexLiteral | regexPattern | regexFlags | parenthesizedExpression
  | sequenceExpression | objectLiteral | arrayLiteral | pair | spreadElement
  | computedPropertyName | memberExpression | subscriptExpression | optionalChain
  | callExpression | argumentList | newExpression | metaProperty | unaryExpression
  | updateExpression | binaryExpression | ternaryExpression | awaitExpression | yieldExpression
  | assignmentExpression | augmentedAssignmentExpression | asExpression | satisfiesExpression
  | nonNullExpression | typeAssertion | instantiationExpression | functionExpression
  | generatorFunction | arrowFunction | classExpression | functionDeclaration
  | generatorFunctionDeclaration | functionSignature | formalParameters | requiredParameter
  | optionalParameter | restPattern | objectPattern | arrayPattern | pairPattern
  | assignmentPattern | objectAssignmentPattern | classDeclaration | abstractClassDeclaration
  | classBody | classHeritage | extendsClause | implementsClause | classStaticBlock
  | methodDefinition | publicFieldDefinition | methodSignature | abstractMethodSignature
  | accessibilityModifier | overrideModifier | decorator | interfaceDeclaration | interfaceBody
  | extendsTypeClause | propertySignature | callSignature | constructSignature | indexSignature
  | mappedTypeClause | optingTypeAscription | omittingTypeAscription | addingTypeAscription
  | typeAliasDeclaration | enumDeclaration | enumBody | enumAssignment | moduleDeclaration
  | internalModule | ambientDeclaration | importAlias | typeAscription | typePredicateAscription
  | assertsAscription | typePredicate | assertsClause | typeParameters | typeParameter
  | constraint | defaultType | typeArguments | predefinedType | arrayType | genericType
  | objectType | intersectionType | unionType | parenthesizedType | functionType
  | constructorType | readonlyType | indexTypeQuery | typeQuery | lookupType | conditionalType
  | inferType | literalType | templateLiteralType | templateType | tupleType | optionalType
  | restType | thisType | existentialType | flowMaybeType | statementBlock | expressionStatement
  | lexicalDeclaration | variableDeclaration | variableDeclarator | emptyStatement | ifStatement
  | elseClause | forStatement | forInStatement | whileStatement | doStatement | switchStatement
  | switchBody | switchCase | switchDefault | tryStatement | catchClause | finallyClause
  | withStatement | breakStatement | continueStatement | returnStatement | throwStatement
  | debuggerStatement | labeledStatement | exportStatement | exportClause | exportSpecifier
  | namespaceExport | importStatement | importClause | importSpecifier | namedImports
  | namespaceImport | importRequireClause
  deriving DecidableEq, Repr, Inhabited

/-- The name of a kind, as diagnostics write it. -/
def Kind.name : Kind → String
  | .program => "program"
  | .hashBangLine => "hash_bang_line"
  | .comment => "comment"
  | .identifier => "identifier"
  | .propertyIdentifier => "property_identifier"
  | .privatePropertyIdentifier => "private_property_identifier"
  | .shorthandPropertyIdentifier => "shorthand_property_identifier"
  | .shorthandPropertyIdentifierPattern => "shorthand_property_identifier_pattern"
  | .statementIdentifier => "statement_identifier"
  | .typeIdentifier => "type_identifier"
  | .nestedIdentifier => "nested_identifier"
  | .nestedTypeIdentifier => "nested_type_identifier"
  | .undefinedWord => "undefined"
  | .nullWord => "null"
  | .trueWord => "true"
  | .falseWord => "false"
  | .thisWord => "this"
  | .superWord => "super"
  | .importWord => "import"
  | .numberLiteral => "number"
  | .stringLiteral => "string"
  | .stringFragment => "string_fragment"
  | .escapeSequence => "escape_sequence"
  | .templateString => "template_string"
  | .templateSubstitution => "template_substitution"
  | .regexLiteral => "regex"
  | .regexPattern => "regex_pattern"
  | .regexFlags => "regex_flags"
  | .parenthesizedExpression => "parenthesized_expression"
  | .sequenceExpression => "sequence_expression"
  | .objectLiteral => "object"
  | .arrayLiteral => "array"
  | .pair => "pair"
  | .spreadElement => "spread_element"
  | .computedPropertyName => "computed_property_name"
  | .memberExpression => "member_expression"
  | .subscriptExpression => "subscript_expression"
  | .optionalChain => "optional_chain"
  | .callExpression => "call_expression"
  | .argumentList => "arguments"
  | .newExpression => "new_expression"
  | .metaProperty => "meta_property"
  | .unaryExpression => "unary_expression"
  | .updateExpression => "update_expression"
  | .binaryExpression => "binary_expression"
  | .ternaryExpression => "ternary_expression"
  | .awaitExpression => "await_expression"
  | .yieldExpression => "yield_expression"
  | .assignmentExpression => "assignment_expression"
  | .augmentedAssignmentExpression => "augmented_assignment_expression"
  | .asExpression => "as_expression"
  | .satisfiesExpression => "satisfies_expression"
  | .nonNullExpression => "non_null_expression"
  | .typeAssertion => "type_assertion"
  | .instantiationExpression => "instantiation_expression"
  | .functionExpression => "function_expression"
  | .generatorFunction => "generator_function"
  | .arrowFunction => "arrow_function"
  | .classExpression => "class"
  | .functionDeclaration => "function_declaration"
  | .generatorFunctionDeclaration => "generator_function_declaration"
  | .functionSignature => "function_signature"
  | .formalParameters => "formal_parameters"
  | .requiredParameter => "required_parameter"
  | .optionalParameter => "optional_parameter"
  | .restPattern => "rest_pattern"
  | .objectPattern => "object_pattern"
  | .arrayPattern => "array_pattern"
  | .pairPattern => "pair_pattern"
  | .assignmentPattern => "assignment_pattern"
  | .objectAssignmentPattern => "object_assignment_pattern"
  | .classDeclaration => "class_declaration"
  | .abstractClassDeclaration => "abstract_class_declaration"
  | .classBody => "class_body"
  | .classHeritage => "class_heritage"
  | .extendsClause => "extends_clause"
  | .implementsClause => "implements_clause"
  | .classStaticBlock => "class_static_block"
  | .methodDefinition => "method_definition"
  | .publicFieldDefinition => "public_field_definition"
  | .methodSignature => "method_signature"
  | .abstractMethodSignature => "abstract_method_signature"
  | .accessibilityModifier => "accessibility_modifier"
  | .overrideModifier => "override_modifier"
  | .decorator => "decorator"
  | .interfaceDeclaration => "interface_declaration"
  | .interfaceBody => "interface_body"
  | .extendsTypeClause => "extends_type_clause"
  | .propertySignature => "property_signature"
  | .callSignature => "call_signature"
  | .constructSignature => "construct_signature"
  | .indexSignature => "index_signature"
  | .mappedTypeClause => "mapped_type_clause"
  | .optingTypeAscription => "opting_type_annotation"
  | .omittingTypeAscription => "omitting_type_annotation"
  | .addingTypeAscription => "adding_type_annotation"
  | .typeAliasDeclaration => "type_alias_declaration"
  | .enumDeclaration => "enum_declaration"
  | .enumBody => "enum_body"
  | .enumAssignment => "enum_assignment"
  | .moduleDeclaration => "module"
  | .internalModule => "internal_module"
  | .ambientDeclaration => "ambient_declaration"
  | .importAlias => "import_alias"
  | .typeAscription => "type_annotation"
  | .typePredicateAscription => "type_predicate_annotation"
  | .assertsAscription => "asserts_annotation"
  | .typePredicate => "type_predicate"
  | .assertsClause => "asserts"
  | .typeParameters => "type_parameters"
  | .typeParameter => "type_parameter"
  | .constraint => "constraint"
  | .defaultType => "default_type"
  | .typeArguments => "type_arguments"
  | .predefinedType => "predefined_type"
  | .arrayType => "array_type"
  | .genericType => "generic_type"
  | .objectType => "object_type"
  | .intersectionType => "intersection_type"
  | .unionType => "union_type"
  | .parenthesizedType => "parenthesized_type"
  | .functionType => "function_type"
  | .constructorType => "constructor_type"
  | .readonlyType => "readonly_type"
  | .indexTypeQuery => "index_type_query"
  | .typeQuery => "type_query"
  | .lookupType => "lookup_type"
  | .conditionalType => "conditional_type"
  | .inferType => "infer_type"
  | .literalType => "literal_type"
  | .templateLiteralType => "template_literal_type"
  | .templateType => "template_type"
  | .tupleType => "tuple_type"
  | .optionalType => "optional_type"
  | .restType => "rest_type"
  | .thisType => "this_type"
  | .existentialType => "existential_type"
  | .flowMaybeType => "flow_maybe_type"
  | .statementBlock => "statement_block"
  | .expressionStatement => "expression_statement"
  | .lexicalDeclaration => "lexical_declaration"
  | .variableDeclaration => "variable_declaration"
  | .variableDeclarator => "variable_declarator"
  | .emptyStatement => "empty_statement"
  | .ifStatement => "if_statement"
  | .elseClause => "else_clause"
  | .forStatement => "for_statement"
  | .forInStatement => "for_in_statement"
  | .whileStatement => "while_statement"
  | .doStatement => "do_statement"
  | .switchStatement => "switch_statement"
  | .switchBody => "switch_body"
  | .switchCase => "switch_case"
  | .switchDefault => "switch_default"
  | .tryStatement => "try_statement"
  | .catchClause => "catch_clause"
  | .finallyClause => "finally_clause"
  | .withStatement => "with_statement"
  | .breakStatement => "break_statement"
  | .continueStatement => "continue_statement"
  | .returnStatement => "return_statement"
  | .throwStatement => "throw_statement"
  | .debuggerStatement => "debugger_statement"
  | .labeledStatement => "labeled_statement"
  | .exportStatement => "export_statement"
  | .exportClause => "export_clause"
  | .exportSpecifier => "export_specifier"
  | .namespaceExport => "namespace_export"
  | .importStatement => "import_statement"
  | .importClause => "import_clause"
  | .importSpecifier => "import_specifier"
  | .namedImports => "named_imports"
  | .namespaceImport => "namespace_import"
  | .importRequireClause => "import_require_clause"

/-- The role of a child in its node. -/
inductive Label where
  | name | parameters | parameter | pattern | typing | value | returns | body | callee
  | arguments | typeArguments | typeParameters | argument | operator | left | right | object
  | property | index | chain | declaration | decorator | constructor | condition | consequence
  | alternative | initializer | increment | keyword | key | target | handler | finalizer | source
  | aliasing | qualifier | indexType | sign | constraint | flags
  deriving DecidableEq, Repr, Inhabited

end UsageTypes
