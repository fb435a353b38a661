import UsageTypes.Ty

/-! The local names of one function with their static types. The latest binding of a name counts. -/

namespace UsageTypes

/-- Bindings, latest first. -/
abbrev Scope := List (String × Ty)

namespace Scope

def empty : Scope := []

def lookup (scope : Scope) (name : String) : Option Ty :=
  List.lookup name scope

/-- Binds a name, which hides what was bound to it. -/
def bind (scope : Scope) (name : String) (t : Ty) : Scope :=
  (name, t) :: scope

theorem lookup_bind (scope : Scope) (name other : String) (t : Ty) :
    (scope.bind name t).lookup other = if other = name then some t else scope.lookup other := by
  rw [lookup, bind, List.lookup_cons]
  by_cases h : other = name
  · simp [h]
  · simp [lookup, h, beq_false_of_ne h]

end Scope

end UsageTypes
