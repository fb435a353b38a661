import UsageTypes.Typing

/-!
The member names of a type: those of shapes, of the declarations that a reference names, of what an
interface extends and of what an alias stands for. References are followed once each, and only so
far.
-/

namespace UsageTypes

/-- How far references are followed. -/
def referenceLimit : Nat := 16

/-- A listing in the making. -/
structure Listing where
  /-- The references that were followed. -/
  seen : List String := []
  names : List String := []
  /-- The lines of types that were nested too deeply. -/
  cuts : List Nat := []
  deriving DecidableEq, Inhabited

namespace Listing

def add (s : Listing) (name : String) : Listing :=
  if name ∈ s.names then s else { s with names := s.names ++ [name] }

def see (s : Listing) (name : String) : Listing := { s with seen := name :: s.seen }

def cut (s : Listing) (t : Tree) : Listing :=
  { s with cuts := s.cuts ++ typeCuts (nestingLimit + 1) t }

end Listing

/-- The types that an interface extends. -/
def basesOf (declaration : Tree) : List Tree :=
  (declaration.named.filter (·.is .extendsTypeClause)).flatMap Tree.named

/-- The members that a class body declares with a body or a value. -/
def classMembers (declaration : Tree) : List String :=
  match declaration.child? .body with
  | some body =>
    (body.named.filter fun m => m.is .publicFieldDefinition || m.is .methodDefinition).filterMap
      memberName?
  | none => []

/-- The types whose members a declaration has. -/
def inherited (declaration : Tree) : List Tree :=
  if declaration.is .interfaceDeclaration then
    basesOf declaration ++ (declaration.child? .body).toList
  else if declaration.is .typeAliasDeclaration then (declaration.child? .value).toList
  else []

namespace Program

/-- Adds the members of a type to a listing. The budget is what is left of the limit on
references. -/
def listMembers (program : Program) : Nat → Ty → Listing → Listing
  | 0, _, s => s
  | budget + 1, .named name, s =>
    if name ∈ s.seen then s
    else match program.typeDeclaration? name with
      | none => s.see name
      | some d =>
        let s := (inherited d).foldl
          (fun s t => program.listMembers budget (resolveType t) (s.cut t)) (s.see name)
        if d.is .classDeclaration then (classMembers d).foldl Listing.add s else s
  | _ + 1, .shape fields, s => (fields.map (·.1)).foldl Listing.add s
  | budget + 1, .inter members, s => members.foldl (fun s t => program.listMembers budget t s) s
  | _ + 1, _, s => s

def listing (program : Program) (t : Ty) : Listing :=
  program.listMembers (referenceLimit + 1) t {}

/-- The member names of a type; nothing for a name that the program does not declare. -/
def members? (program : Program) (t : Ty) : Option (List String) :=
  match t with
  | .named name =>
    if (program.typeDeclaration? name).isSome then some (program.listing t).names else none
  | _ => some (program.listing t).names

/-- The lines of types that listing the members of a reference meets too deeply nested. -/
def memberCuts (program : Program) (name : String) : List Nat :=
  if (program.typeDeclaration? name).isSome then (program.listing (.named name)).cuts else []

end Program

end UsageTypes
