import UsageTypes.Ty

/-! What a method call says about its receiver. -/

namespace UsageTypes

inductive MethodUse where
  /-- The receiver is an array with this element type. -/
  | collection (element : Ty)
  /-- The receiver has a member named after the method, of this type. -/
  | member (t : Ty)
  deriving DecidableEq, Inhabited

/-- An interpretation of method calls, by method name and argument types. -/
structure Strategy where
  name : String
  interpret : String → List Ty → MethodUse

/-- The callable that accepts the given arguments. -/
def callSignature (arguments : List Ty) : Ty :=
  .function arguments .dynamic

namespace Strategy

/-- Every call makes the method a callable member of the receiver. -/
def baseline : Strategy :=
  ⟨"baseline", fun _ arguments => .member (callSignature arguments)⟩

/-- The element type that arguments agree on; the open type when they disagree or are none. -/
def element : List Ty → Ty
  | [] => .dynamic
  | t :: ts => if ts.all (· = t) then t else .dynamic

/-- A call of an append method makes the receiver an array of what is appended. -/
def refined (appendMethods : List String) : Strategy :=
  ⟨"refined", fun method arguments =>
    if method ∈ appendMethods then .collection (element arguments)
    else .member (callSignature arguments)⟩

/-- Reads the listed methods off a table, and treats the others as the baseline does. -/
def table (entries : List (String × MethodUse)) : Strategy :=
  ⟨"table", fun method arguments =>
    (entries.lookup method).getD (.member (callSignature arguments))⟩

end Strategy

end UsageTypes
