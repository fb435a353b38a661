import UsageTypes.Strategy

/-! The options of a run. -/

namespace UsageTypes

inductive StrategyKind where
  | baseline | refined
  deriving DecidableEq, Repr, Inhabited

namespace StrategyKind

def name : StrategyKind → String
  | baseline => "baseline"
  | refined => "refined"

def ofName? (word : String) : Option StrategyKind :=
  if word = "baseline" then some baseline
  else if word = "refined" then some refined
  else none

end StrategyKind

/-- What becomes of a path that different concrete types claim. -/
inductive ConflictPolicy where
  /-- The type that was discovered first is kept. -/
  | keepFirst
  /-- The path is left open. -/
  | unresolved
  deriving DecidableEq, Repr, Inhabited

namespace ConflictPolicy

def name : ConflictPolicy → String
  | keepFirst => "keep-first"
  | unresolved => "unresolved"

def ofName? (word : String) : Option ConflictPolicy :=
  if word = "keep-first" then some keepFirst
  else if word = "unresolved" then some unresolved
  else none

end ConflictPolicy

structure Options where
  strategy : StrategyKind := .refined
  /-- The methods that make their receiver an array under the refined strategy. -/
  appendMethods : List String := ["push"]
  conflictPolicy : ConflictPolicy := .unresolved
  /-- How deep the search for evidence descends into a body. -/
  maxDepth : Nat := 256
  /-- The name that diagnostics give to a text without a file. -/
  fileName : String := "input.ts"
  deriving DecidableEq, Repr, Inhabited

namespace Options

def default : Options := {}

/-- The interpretation of method calls that the options select. -/
def methodStrategy (options : Options) : Strategy :=
  match options.strategy with
  | .baseline => .baseline
  | .refined => .refined options.appendMethods

end Options

end UsageTypes
