import UsageTypes.Function
import UsageTypes.Path

/-!
Access chains: a name followed by member accesses and subscripts with a string, with parentheses
and non-null marks anywhere. A chain is followed from its last access inwards, and it is given up when
it has more segments than a limit; the name is looked at in the end.
-/

namespace UsageTypes

/-- The segment that an access adds to a path. -/
def segment? (kind : Kind) (children : List Tree) : Option String :=
  if kind = .memberExpression then
    match children.find? (·.label? = some .property) with
    | some property => if property.is .propertyIdentifier then some property.text else none
    | none => none
  else if kind = .subscriptExpression then
    match children.find? (·.label? = some .index) with
    | some index => if index.is .stringLiteral then unquote? index.text else none
    | none => none
  else none

def isWrapper (kind : Kind) : Bool :=
  kind = .parenthesizedExpression || kind = .nonNullExpression

namespace Tree

/-- The segment of a link of a chain, if it is an access, and what the link is built on. -/
def link? (t : Tree) : Option (Option String × Tree) :=
  match t.kind? with
  | none => none
  | some kind =>
    if isWrapper kind then t.named.head?.map (none, ·)
    else match segment? kind t.children with
      | some s => (t.child? .object).map (some s, ·)
      | none => none

theorem mem_children_of_link? {t inner : Tree} {segment : Option String}
    (h : t.link? = some (segment, inner)) : inner ∈ t.children := by
  rw [link?] at h
  split at h
  · cases h
  · split at h
    · obtain ⟨u, hu, he⟩ := Option.map_eq_some_iff.mp h
      obtain ⟨-, rfl⟩ := Prod.mk.inj he
      exact (List.mem_filter.mp (List.mem_of_head? hu)).1
    · split at h
      · obtain ⟨u, hu, he⟩ := Option.map_eq_some_iff.mp h
        obtain ⟨-, rfl⟩ := Prod.mk.inj he
        exact List.mem_of_find?_eq_some hu
      · cases h

end Tree

/-- Where following an expression ends. -/
inductive Trail where
  /-- At the name, and the path leads from there to the expression. -/
  | reached (path : Path)
  /-- Behind more segments than the limit allows. -/
  | tooLong
  /-- At another name, or at something that is no link of a chain. -/
  | lost
  deriving DecidableEq, Repr, Inhabited

def Trail.path? : Trail → Option Path
  | .reached path => some path
  | _ => none

/-- Follows an expression inwards. The segments behind it are known, the last one first. -/
def follow (name : String) (limit : Nat) (segments : List String) (t : Tree) : Trail :=
  if t.is .identifier then if t.text = name then .reached segments.reverse else .lost
  else
    match _h : t.link? with
    | none => .lost
    | some (segment, inner) =>
      if limit < (segments ++ segment.toList).length then .tooLong
      else follow name limit (segments ++ segment.toList) inner
termination_by t.size
decreasing_by exact Tree.size_lt_of_mem_children (Tree.mem_children_of_link? _h)

/-- The path that an expression reaches from a name, if it has no more segments than the limit. -/
def accessPath (name : String) (limit : Nat) (t : Tree) : Option Path :=
  (follow name limit [] t).path?

section Turns

variable {name : String} {limit : Nat} {segments : List String} {t : Tree}

theorem follow_of_is_identifier (h : t.is .identifier = true) : follow name limit segments t =
    if t.text = name then .reached segments.reverse else .lost := by
  rw [follow, if_pos h]

theorem follow_of_no_link (hid : ¬t.is .identifier = true) (h : t.link? = none) :
    follow name limit segments t = .lost := by
  rw [follow, if_neg hid, h]

theorem follow_of_link? {segment : Option String} {inner : Tree} (hid : ¬t.is .identifier = true)
    (h : t.link? = some (segment, inner)) : follow name limit segments t =
      if limit < (segments ++ segment.toList).length then .tooLong
      else follow name limit (segments ++ segment.toList) inner := by
  rw [follow, if_neg hid, h]

theorem accessPath_eq_none (hid : t.is .identifier = false) (h : t.link? = none) :
    accessPath name limit t = none := by
  rw [accessPath, follow_of_no_link (by rw [hid]; exact Bool.false_ne_true) h]
  rfl

end Turns

end UsageTypes
