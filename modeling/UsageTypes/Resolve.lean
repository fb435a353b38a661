import UsageTypes.Function
import UsageTypes.Ty

/-!
Types of ascriptions. Forms that inference does not look into are kept as they are written, and so
are types that are nested too deeply.
-/

namespace UsageTypes

/-- How deep types and expressions may be nested. -/
def nestingLimit : Nat := 256

/-- The name of a member of an object type or class, if it is written out. -/
def memberName? (member : Tree) : Option String :=
  match member.child? .name with
  | none => none
  | some name =>
    match name.kind? with
    | some .stringLiteral => unquote? name.text
    | some .propertyIdentifier | some .numberLiteral | some .privatePropertyIdentifier =>
      some name.text
    | _ => none

/-- The type that a keyword names. -/
def keywordType (word : String) : Ty :=
  if word = "any" || word = "unknown" then .dynamic
  else match Primitive.ofKeyword? word with
    | some kind => .primitive kind
    | none => .named word

/-- The element type of `Array<T>` and `ReadonlyArray<T>`. -/
def arrayElement? (t : Tree) : Option Tree :=
  if t.declaredName? = some "Array" || t.declaredName? = some "ReadonlyArray" then
    match (t.child? .typeArguments).map Tree.named with
    | some [element] => some element
    | _ => none
  else none

/-- A type, or the type of an ascription, as it is written. -/
def verbatim (t : Tree) : Ty :=
  if t.is .typeAscription then
    match t.named with
    | [] => .dynamic
    | inner :: _ => .named inner.text
  else .named t.text

/-- A callable with the given reading of its ascriptions; what is not annotated is open. -/
def signatureWith (read : Tree → Ty) (t : Tree) : Ty :=
  let annotated (u : Option Tree) : Ty := match u with
    | some ascription => read ascription
    | none => .dynamic
  .function (t.parameters.map fun p => annotated (p.child? .typing)) (annotated (t.child? .returns))

/-- The fields of an object type with the given reading of members. -/
def fieldsWith (read : Tree → Ty) (t : Tree) : List (String × Ty) :=
  t.named.filterMap fun member =>
    match memberName? member with
    | none => none
    | some name =>
      if member.is .propertySignature then
        some (name, match member.child? .typing with
          | some ascription => read ascription
          | none => .dynamic)
      else if member.is .methodSignature then some (name, read member)
      else none

/-- The type that a type node, an ascription or a method signature stands for. The budget is what is
left of the nesting limit. -/
def resolve : Nat → Tree → Ty
  | 0, t => if t.is .methodSignature then signatureWith verbatim t else verbatim t
  | budget + 1, t =>
    match t.kind? with
    | some .typeAscription | some .parenthesizedType =>
      match t.named with
      | [] => .dynamic
      | inner :: _ => resolve budget inner
    | some .predefinedType => keywordType t.text
    | some .arrayType =>
      match t.named with
      | [] => .array .dynamic
      | element :: _ => .array (resolve budget element)
    | some .genericType =>
      match arrayElement? t with
      | some element => .array (resolve budget element)
      | none => .named t.text
    | some .objectType | some .interfaceBody => .shape (fieldsWith (resolve budget) t)
    | some .intersectionType => .interOf (t.named.map (resolve budget))
    | some .functionType | some .methodSignature => signatureWith (resolve budget) t
    | _ => .named t.text

/-- The type of an ascription that stands by itself. -/
def resolveType (t : Tree) : Ty := resolve (nestingLimit + 1) t

/-- The line of a type that is kept because it is nested too deeply. -/
def cutLine (t : Tree) : List Nat :=
  if t.is .typeAscription then
    match t.named with
    | [] => []
    | inner :: _ => [inner.line]
  else [t.line]

def signatureCuts (cuts : Tree → List Nat) (t : Tree) : List Nat :=
  t.parameters.flatMap (fun p => (p.child? .typing).toList.flatMap cuts)
    ++ (t.child? .returns).toList.flatMap cuts

def fieldCuts (cuts : Tree → List Nat) (t : Tree) : List Nat :=
  t.named.flatMap fun member =>
    if (memberName? member).isNone then []
    else if member.is .propertySignature then (member.child? .typing).toList.flatMap cuts
    else if member.is .methodSignature then cuts member
    else []

/-- The lines of the types that resolving a type keeps because they are nested too deeply. -/
def typeCuts : Nat → Tree → List Nat
  | 0, t => if t.is .methodSignature then signatureCuts cutLine t else cutLine t
  | budget + 1, t =>
    match t.kind? with
    | some .typeAscription | some .parenthesizedType | some .arrayType =>
      t.named.head?.toList.flatMap (typeCuts budget)
    | some .genericType => (arrayElement? t).toList.flatMap (typeCuts budget)
    | some .objectType | some .interfaceBody => fieldCuts (typeCuts budget) t
    | some .intersectionType => t.named.flatMap (typeCuts budget)
    | some .functionType | some .methodSignature => signatureCuts (typeCuts budget) t
    | _ => []

end UsageTypes
