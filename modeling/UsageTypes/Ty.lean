/-!
The types of inference: the open type, primitives, arrays, object shapes, references kept by their
text, intersections and callables. Field order and member order are part of a type.
-/

namespace UsageTypes

inductive Primitive where
  | number | string | boolean
  deriving DecidableEq, Repr, Inhabited

/-- The keyword that writes a primitive type. -/
def Primitive.keyword : Primitive → String
  | .number => "number"
  | .string => "string"
  | .boolean => "boolean"

def Primitive.ofKeyword? (word : String) : Option Primitive :=
  if word = "number" then some .number
  else if word = "string" then some .string
  else if word = "boolean" then some .boolean
  else none

theorem Primitive.ofKeyword?_keyword (p : Primitive) : ofKeyword? p.keyword = some p := by
  cases p <;> rfl

inductive Ty where
  /-- No refining information: the open type. -/
  | dynamic
  | primitive (kind : Primitive)
  | array (element : Ty)
  /-- An anonymous object type. -/
  | shape (fields : List (String × Ty))
  /-- A declared type, or any type expression that is kept as it is written. -/
  | named (text : String)
  | inter (members : List Ty)
  | function (params : List Ty) (returns : Ty)
  deriving Inhabited

namespace Ty

abbrev number : Ty := .primitive .number
abbrev string : Ty := .primitive .string
abbrev boolean : Ty := .primitive .boolean

mutual

/-- Compares two types, field by field and member by member. -/
def same : Ty → Ty → Bool
  | .dynamic, .dynamic => true
  | .primitive p, .primitive q => decide (p = q)
  | .array x, .array y => same x y
  | .shape fs, .shape gs => sameFields fs gs
  | .named s, .named t => decide (s = t)
  | .inter xs, .inter ys => sameAll xs ys
  | .function ps r, .function qs s => sameAll ps qs && same r s
  | _, _ => false

def sameFields : List (String × Ty) → List (String × Ty) → Bool
  | [], [] => true
  | (n, x) :: fs, (m, y) :: gs => decide (n = m) && same x y && sameFields fs gs
  | _, _ => false

def sameAll : List Ty → List Ty → Bool
  | [], [] => true
  | x :: xs, y :: ys => same x y && sameAll xs ys
  | _, _ => false

end

mutual

theorem same_iff (a b : Ty) : same a b = true ↔ a = b := by
  cases a <;> cases b <;> simp [same, same_iff, sameFields_iff, sameAll_iff]

theorem sameFields_iff (fs gs : List (String × Ty)) : sameFields fs gs = true ↔ fs = gs := by
  cases fs with
  | nil => cases gs <;> simp [sameFields]
  | cons f fs => cases gs <;> simp [sameFields, same_iff, sameFields_iff, Prod.ext_iff]

theorem sameAll_iff (xs ys : List Ty) : sameAll xs ys = true ↔ xs = ys := by
  cases xs with
  | nil => cases ys <;> simp [sameAll]
  | cons x xs => cases ys <;> simp [sameAll, same_iff, sameAll_iff]

end

instance : DecidableEq Ty := fun a b => decidable_of_iff _ (same_iff a b)

def isDynamic : Ty → Bool
  | .dynamic => true
  | _ => false

/-- The members an intersection contributes to another one. -/
def parts : Ty → List Ty
  | .inter members => members
  | t => [t]

end Ty

namespace Ty

/-- The intersection of the given types in normal form: nested intersections are flattened, repeated
members dropped, one member stands for itself and no member gives the open type. -/
def interOf (members : List Ty) : Ty :=
  match (members.flatMap parts).eraseDups with
  | [] => .dynamic
  | [t] => t
  | ts => .inter ts

end Ty

/-- Whether an arrow stands in a text. -/
def hasArrow : List Char → Bool
  | '=' :: '>' :: _ => true
  | _ :: cs => hasArrow cs
  | [] => false

namespace Ty

/-- Callables and texts with a union bar or an arrow bind looser than `&` and `[]`. -/
def bindsLoosely : Ty → Bool
  | .function _ _ => true
  | .named text => text.toList.contains '|' || hasArrow text.toList
  | _ => false

def isInter : Ty → Bool
  | .inter _ => true
  | _ => false

mutual

/-- A type as it is written in an annotation. -/
def display : Ty → String
  | .dynamic => "any"
  | .primitive kind => kind.keyword
  | .array element =>
    if element.bindsLoosely || element.isInter then "(" ++ element.display ++ ")[]"
    else element.display ++ "[]"
  | .shape [] => "\x7b\x7d"
  | .shape (field :: fields) => "\x7b " ++ displayFields (field :: fields) ++ "\x7d"
  | .named text => text
  | .inter members => displayMembers members
  | .function params returns => "(" ++ displayParams 0 params ++ ") => " ++ returns.display

def displayFields : List (String × Ty) → String
  | [] => ""
  | (name, t) :: fields => name ++ ": " ++ t.display ++ "; " ++ displayFields fields

def displayMembers : List Ty → String
  | [] => ""
  | [t] => if t.bindsLoosely then "(" ++ t.display ++ ")" else t.display
  | t :: ts =>
    (if t.bindsLoosely then "(" ++ t.display ++ ")" else t.display) ++ " & " ++ displayMembers ts

def displayParams (index : Nat) : List Ty → String
  | [] => ""
  | [t] => "arg" ++ toString index ++ ": " ++ t.display
  | t :: ts => "arg" ++ toString index ++ ": " ++ t.display ++ ", " ++ displayParams (index + 1) ts

end

example : display (.array (.inter [.named "A", .named "B"])) = "(A & B)[]" := by decide +kernel
example : display (.function [.number, .string] .dynamic) = "(arg0: number, arg1: string) => any" := by
  decide +kernel

end Ty

end UsageTypes
