import UsageTypes.Members
import UsageTypes.Options
import UsageTypes.Scan
import UsageTypes.Source
import UsageTypes.Trie
import UsageTypes.Usage

/-!
Inference over a whole program: every open parameter of every function declaration gets a type from
its uses, and counts as optional if it is declared so or if some call leaves it out.
-/

namespace UsageTypes

/-- An inferred parameter and where it is declared. Lines and columns count from one. -/
structure ParameterReport where
  name : String
  index : Nat
  startByte : Nat
  endByte : Nat
  line : Nat
  column : Nat
  type : Ty
  isOptional : Bool
  deriving DecidableEq, Inhabited

structure FunctionReport where
  name : Option String
  line : Nat
  parameters : List ParameterReport
  deriving DecidableEq, Inhabited

structure FileReport where
  path : String
  functions : List FunctionReport
  deriving DecidableEq, Inhabited

namespace ParameterReport

def display (p : ParameterReport) : String :=
  p.name ++ ": " ++ p.type.display ++ if p.isOptional then "?" else ""

end ParameterReport

namespace FunctionReport

def display (f : FunctionReport) : String :=
  String.intercalate ", " (f.parameters.map (·.display))

end FunctionReport

/-- How a run infers. -/
structure Settings where
  options : Options
  strategy : Strategy

namespace Settings

def ofOptions (options : Options) : Settings := ⟨options, options.methodStrategy⟩

end Settings

namespace Program

/-- The member names that the program declares for a reference. -/
def memberTable (program : Program) : MemberTable := fun name => program.members? (.named name)

/-- The evidence about a parameter; there is none without a name and a body. -/
def slotEvidence (program : Program) (limit : Nat) (function : Place) (slot : Slot) : List Evidence :=
  match slot.name, function.child? .body with
  | some name, some body => program.evidence function name limit body
  | _, _ => []

def slotType (program : Program) (settings : Settings) (function : Place) (slot : Slot) : Ty :=
  synthesize program.memberTable settings.strategy settings.options.conflictPolicy
    (program.slotEvidence settings.options.maxDepth function slot)

def inferSlot (program : Program) (settings : Settings) (function : Place) (arities : List Nat)
    (slot : Slot) : ParameterReport :=
  let d := slot.declaration.tree
  { name := slot.name.getD d.text
    index := slot.index
    startByte := d.start.byte
    endByte := d.stop
    line := d.line
    column := d.start.column + 1
    type := program.slotType settings function slot
    isOptional := d.is .optionalParameter || arities.any (· ≤ slot.index) }

/-- Infers the open parameters of a function, given the calls of the program. -/
def inferFunction (program : Program) (settings : Settings) (calls : List (List Nat × Nat))
    (c : Candidate) : FunctionReport :=
  let arities := countsAt calls c.function
  { name := c.name
    line := c.function.tree.line
    parameters := c.openSlots.map (program.inferSlot settings c.function arities) }

/-- Infers every open parameter of a program, in document order. -/
def infer (program : Program) (settings : Settings) : List FunctionReport :=
  let calls := program.calls
  program.scan.map (program.inferFunction settings calls)

end Program

/-- Reads a source text and infers its open parameters. -/
def inferText (settings : Settings) (fileName text : String) : Except Fault (List FunctionReport) :=
  (Source.parse fileName text).map fun source => (Program.ofTree source.tree).infer settings

end UsageTypes
