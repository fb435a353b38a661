/-! Access paths: the field names that lead from a parameter to a value. -/

namespace UsageTypes

/-- Field names, outermost first. The empty path is the parameter itself. -/
abbrev Path := List String

namespace Path

def root : Path := []

def child (path : Path) (field : String) : Path :=
  path ++ [field]

/-- Every path on the way from the root to this one, both included. -/
def prefixes : Path → List Path
  | [] => [[]]
  | s :: p => [] :: (prefixes p).map (s :: ·)

def display : Path → String
  | [] => "<root>"
  | s :: p => String.intercalate "." (s :: p)

end Path

end UsageTypes
