import UsageTypes.Path
import UsageTypes.Ty

/-! Evidence: one observed use of a parameter, or of a value reached through it. -/

namespace UsageTypes

inductive Evidence where
  /-- The value was read. -/
  | access (path : Path)
  /-- The value took part in arithmetic, or in a comparison with something that is no string. -/
  | numeric (path : Path)
  /-- The value took part in a concatenation or a comparison with a string. -/
  | textual (path : Path)
  /-- A method of the value was called. -/
  | method (path : Path) (name : String) (arguments : List Ty)
  /-- The value was passed where a callee declares a type. -/
  | argument (path : Path) (declared : Ty)
  /-- The value itself was called. -/
  | invoke (path : Path) (arguments : List Ty)
  /-- A value of a known type was assigned. -/
  | assign (path : Path) (assigned : Ty)
  deriving DecidableEq, Inhabited

/-- Evidence is either seen in the function's own body or read off a callee's declaration. -/
inductive Origin where
  | ownBody | callArgument
  deriving DecidableEq, Repr

namespace Evidence

def path : Evidence → Path
  | access p | numeric p | textual p | method p _ _ | argument p _ | invoke p _ | assign p _ => p

def origin : Evidence → Origin
  | argument _ _ => .callArgument
  | _ => .ownBody

def display : Evidence → String
  | access p => "access " ++ p.display
  | numeric p => "numeric " ++ p.display
  | textual p => "string " ++ p.display
  | method p name arguments =>
    "method " ++ p.display ++ "." ++ name ++ "/" ++ toString arguments.length
  | argument p declared => "argument " ++ p.display ++ ": " ++ declared.display
  | invoke p arguments => "invoke " ++ p.display ++ "/" ++ toString arguments.length
  | assign p assigned => "assign " ++ p.display ++ ": " ++ assigned.display

end Evidence

end UsageTypes
