import UsageTypes.Typing

/-! The function declarations that have something to infer: at least one open parameter. -/

namespace UsageTypes

/-- A parameter by position. -/
structure Slot where
  index : Nat
  declaration : Place
  /-- The name that the parameter binds, if it is plain. -/
  name : Option String
  isOpen : Bool

/-- A function declaration with all its parameters. -/
structure Candidate where
  function : Place
  name : Option String
  slots : List Slot

namespace Candidate

def openSlots (c : Candidate) : List Slot := c.slots.filter (·.isOpen)

end Candidate

namespace Program

/-- A parameter of which nothing is known is not open. -/
def isOpen (program : Program) (parameter : Place) : Bool :=
  (program.parameterType parameter).any Ty.isDynamic

def candidate (program : Program) (function : Place) : Candidate where
  function := function
  name := function.tree.declaredName?
  slots := function.parameters.zipIdx.map fun (p, i) =>
    ⟨i, p, p.tree.parameterName?, program.isOpen p⟩

/-- A declaration with an open parameter. -/
def qualify? (program : Program) (function : Place) : Option Candidate :=
  let c := program.candidate function
  if c.slots.any (·.isOpen) then some c else none

/-- Takes a node into the list of those found, if it is a declaration that qualifies. -/
def collect (program : Program) (found : List Candidate) (p : Place) : List Candidate :=
  if p.tree.isDeclaration then found ++ (program.qualify? p).toList else found

/-- The declarations with an open parameter, in document order. -/
def scan (program : Program) : List Candidate :=
  Place.traverse (fun _ => true) program.collect [] [⟨program.root, []⟩]

end Program

end UsageTypes
