import UsageTypes.Proofs.DocumentOrder

/-! What written types mean and what expressions are typed as, however deep they are. Each is the one
reading of trees that takes the step of resolving or of typing everywhere. The meaning of a type depends
on its syntax alone: neither on where it stands nor on its role there. -/

namespace UsageTypes

namespace Tree

variable {t u : Tree}

theorem height_lt_of_mem_named (h : u ∈ t.named) : u.height < t.height :=
  height_lt_of_mem_children (List.mem_filter.mp h).1

theorem height_lt_of_child? {l : Label} (h : t.child? l = some u) : u.height < t.height :=
  height_lt_of_mem_children (List.mem_of_find?_eq_some h)

theorem height_lt_of_mem_parameters (h : u ∈ t.parameters) : u.height < t.height := by
  obtain ⟨list, hlist, hu⟩ := exists_list_of_mem_parameters h
  exact Nat.lt_trans (height_lt_of_mem_named hu) (height_lt_of_mem_children hlist)

theorem height_lt_of_arrayElement? (h : arrayElement? t = some u) : u.height < t.height := by
  obtain ⟨list, hlist, hu⟩ := exists_list_of_arrayElement? h
  exact Nat.lt_trans (height_lt_of_mem_named hu) (height_lt_of_mem_children hlist)

end Tree

open UsageTypes.Tree

/-- The type that a node stands for, with the given reading of the types below it. -/
def resolveWith (read : Tree → Ty) (t : Tree) : Ty :=
  match t.kind? with
  | some .typeAscription | some .parenthesizedType =>
    match t.named with
    | [] => .dynamic
    | inner :: _ => read inner
  | some .predefinedType => keywordType t.text
  | some .arrayType =>
    match t.named with
    | [] => .array .dynamic
    | element :: _ => .array (read element)
  | some .genericType =>
    match arrayElement? t with
    | some element => .array (read element)
    | none => .named t.text
  | some .objectType | some .interfaceBody => .shape (fieldsWith read t)
  | some .intersectionType => .interOf (t.named.map read)
  | some .functionType | some .methodSignature => signatureWith read t
  | _ => .named t.text

theorem resolve_succ (budget : Nat) (t : Tree) :
    resolve (budget + 1) t = resolveWith (resolve budget) t := by
  rw [resolve]
  rfl

section Congruence

variable {t : Tree} {read read' : Tree → Ty} (h : ∀ u, u.height < t.height → read u = read' u)

include h

theorem annotation_congr {p : Tree} (hp : p.height ≤ t.height) (l : Label) :
    (match p.child? l with
      | some ascription => read ascription
      | none => .dynamic) =
    match p.child? l with
      | some ascription => read' ascription
      | none => .dynamic := by
  split
  · rename_i a ha
    exact h a (Nat.lt_of_lt_of_le (height_lt_of_child? ha) hp)
  · rfl

theorem signatureWith_congr : signatureWith read t = signatureWith read' t := by
  rw [signatureWith, signatureWith]
  congr 1
  · refine List.map_congr_left fun p hp => ?_
    exact annotation_congr h (Nat.le_of_lt (height_lt_of_mem_parameters hp)) .typing
  · exact annotation_congr h (Nat.le_refl _) .returns

theorem fieldsWith_congr : fieldsWith read t = fieldsWith read' t := by
  refine List.filterMap_congr fun member hm => ?_
  have hmember := height_lt_of_mem_named hm
  rw [h member hmember]
  cases ha : member.child? .typing with
  | none => rfl
  | some a =>
    simp only
    rw [h a (Nat.lt_trans (height_lt_of_child? ha) hmember)]

theorem resolveWith_congr : resolveWith read t = resolveWith read' t := by
  have hfirst : ∀ {inner : Tree} {rest : List Tree}, t.named = inner :: rest →
      read inner = read' inner := fun hnamed =>
    h _ (height_lt_of_mem_named (by rw [hnamed]; exact List.mem_cons_self))
  rw [resolveWith, resolveWith]
  split
  · split
    · rfl
    · exact hfirst ‹_›
  · split
    · rfl
    · exact hfirst ‹_›
  · rfl
  · split
    · rfl
    · exact congrArg Ty.array (hfirst ‹_›)
  · split
    · exact congrArg Ty.array (h _ (height_lt_of_arrayElement? ‹_›))
    · rfl
  · rw [fieldsWith_congr h]
  · rw [fieldsWith_congr h]
  · rw [List.map_congr_left fun u hu => h u (height_lt_of_mem_named hu)]
  · exact signatureWith_congr h
  · exact signatureWith_congr h
  · rfl

end Congruence

/-- The type that a tree stands for, without a limit on nesting. The test on heights only shows that
reading ends: it never fails, see `meaning_eq`. -/
def meaning (t : Tree) : Ty :=
  resolveWith (fun u => if u.height < t.height then meaning u else .dynamic) t
termination_by t.height

theorem meaning_eq (t : Tree) : meaning t = resolveWith meaning t := by
  rw [meaning]
  exact resolveWith_congr fun u hu => if_pos hu

/-- Nothing else takes the step of resolving everywhere. -/
theorem forall_eq_resolveWith_iff {read : Tree → Ty} :
    (∀ t, read t = resolveWith read t) ↔ read = meaning := by
  constructor
  · intro hread
    funext t
    induction ht : t.height using Nat.strongRecOn generalizing t with
    | ind n ih =>
      subst ht
      rw [hread, meaning_eq]
      exact resolveWith_congr fun u hu => ih u.height hu u rfl
  · rintro rfl
    exact meaning_eq

namespace Place

def height (p : Place) : Nat := p.tree.height

variable {p c : Place}

theorem height_lt_of_mem_named (h : c ∈ p.named) : c.height < p.height :=
  height_lt_of_mem_children (tree_mem_of_mem_named h)

theorem height_lt_of_child? {l : Label} (h : p.child? l = some c) : c.height < p.height :=
  height_lt_of_mem_children (tree_mem_of_child? h)

end Place

namespace Program

variable (program : Program) (scope : Scope)

/-- The type of an expression, with the given readings of the types and expressions below it. What a
called function declares to return stands by itself. -/
def exprTypeWith (read : Tree → Ty) (typed : Place → Option Ty) (p : Place) : Option Ty :=
  match p.tree.kind? with
  | some .numberLiteral => some .number
  | some .stringLiteral | some .templateString => some .string
  | some .trueWord | some .falseWord => some .boolean
  | some .parenthesizedExpression =>
    match p.named with
    | [] => none
    | inner :: _ => typed inner
  | some .identifier => scope.lookup p.text
  | some .unaryExpression => p.tree.operator?.bind prefixType
  | some .binaryExpression =>
    match p.tree.operator? with
    | none => none
    | some op => operatorType op ((p.child? .left).bind typed) ((p.child? .right).bind typed)
  | some .arrayLiteral => arrayOf (p.named.map typed)
  | some .asExpression => (p.tree.named[1]?).map read
  | some .newExpression =>
    match p.tree.child? .constructor with
    | some c => if c.is .identifier then some (.named c.text) else none
    | none => none
  | some .callExpression => program.returnType p
  | _ => none

theorem exprType_succ (budget : Nat) (p : Place) :
    program.exprType scope (budget + 1) p =
      program.exprTypeWith scope (resolve budget) (program.exprType scope budget) p := by
  rw [exprType]
  rfl

theorem exprTypeWith_congr {read read' : Tree → Ty} {typed typed' : Place → Option Ty} {p : Place}
    (hread : ∀ u : Tree, u.height < p.height → read u = read' u)
    (htyped : ∀ c : Place, c.height < p.height → typed c = typed' c) :
    program.exprTypeWith scope read typed p = program.exprTypeWith scope read' typed' p := by
  have hrole : ∀ l, (p.child? l).bind typed = (p.child? l).bind typed' := fun l =>
    Option.bind_congr fun c hc => htyped c (Place.height_lt_of_child? hc)
  rw [exprTypeWith, exprTypeWith]
  split
  · rfl
  · rfl
  · rfl
  · rfl
  · rfl
  · split
    · rfl
    · rename_i inner rest hnamed
      exact htyped inner (Place.height_lt_of_mem_named (by rw [hnamed]; exact List.mem_cons_self))
  · rfl
  · rfl
  · rw [hrole, hrole]
  · rw [List.map_congr_left fun c hc => htyped c (Place.height_lt_of_mem_named hc)]
  · exact Option.map_congr fun u hu => hread u (height_lt_of_mem_named (List.mem_of_getElem? hu))
  · rfl
  · rfl
  · rfl

/-- The type of an expression, without a limit on nesting. -/
def staticType (p : Place) : Option Ty :=
  program.exprTypeWith scope meaning
    (fun c => if c.height < p.height then staticType c else none) p
termination_by p.height

theorem staticType_eq (p : Place) :
    program.staticType scope p = program.exprTypeWith scope meaning (program.staticType scope) p := by
  rw [staticType]
  exact exprTypeWith_congr program scope (fun _ _ => rfl) fun c hc => if_pos hc

/-- Nothing else takes the step of typing everywhere. -/
theorem forall_eq_exprTypeWith_iff {typed : Place → Option Ty} :
    (∀ p, typed p = program.exprTypeWith scope meaning typed p) ↔ typed = program.staticType scope := by
  constructor
  · intro htyped
    funext p
    induction hp : p.height using Nat.strongRecOn generalizing p with
    | ind n ih =>
      subst hp
      rw [htyped, staticType_eq]
      exact exprTypeWith_congr program scope (fun _ _ => rfl) fun c hc => ih c.height hc c rfl
  · rintro rfl
    exact staticType_eq program scope

end Program

namespace Tree

mutual

/-- A tree that has forgotten where its nodes stand. -/
def unplaced : Tree → Tree
  | node l k _ cs => node l k {} (unplacedAll cs)
  | t => t

def unplacedAll : List Tree → List Tree
  | [] => []
  | t :: ts => t.unplaced :: unplacedAll ts

end

/-- What a tree is, wherever it stands and whatever its role there. -/
def asSyntax (t : Tree) : Tree :=
  match t.unplaced with
  | node _ k p cs => node none k p cs
  | token _ s => token none s
  | blank s => blank s

theorem unplacedAll_eq (ts : List Tree) : unplacedAll ts = ts.map unplaced := by
  induction ts with
  | nil => rfl
  | cons t ts ih => rw [unplacedAll, ih, List.map_cons]

section Unplaced

variable (t : Tree)

theorem kind?_unplaced : t.unplaced.kind? = t.kind? := by
  cases t <;> rfl

theorem isNamed_unplaced : t.unplaced.isNamed = t.isNamed := by
  cases t <;> rfl

theorem label?_unplaced : t.unplaced.label? = t.label? := by
  cases t <;> rfl

theorem is_unplaced (k : Kind) : t.unplaced.is k = t.is k := by
  rw [is, is, kind?_unplaced]

theorem children_unplaced : t.unplaced.children = t.children.map unplaced := by
  cases t with
  | node l k p cs => exact unplacedAll_eq cs
  | _ => rfl

mutual

theorem text_unplaced : (t : Tree) → t.unplaced.text = t.text
  | blank _ => rfl
  | token _ _ => rfl
  | node _ _ _ cs => textAll_unplacedAll cs

theorem textAll_unplacedAll : (ts : List Tree) → textAll (unplacedAll ts) = textAll ts
  | [] => rfl
  | t :: ts => by rw [unplacedAll, textAll, textAll, text_unplaced t, textAll_unplacedAll ts]

end

theorem named_unplaced : t.unplaced.named = t.named.map unplaced := by
  rw [named, named, children_unplaced, List.filter_map]
  congr 1
  exact List.filter_congr fun u _ => isNamed_unplaced u

theorem child?_unplaced (l : Label) : t.unplaced.child? l = (t.child? l).map unplaced := by
  rw [child?, child?, children_unplaced, List.find?_map]
  congr 2
  funext u
  rw [Function.comp, label?_unplaced]

theorem declaredName?_unplaced : t.unplaced.declaredName? = t.declaredName? := by
  rw [declaredName?, declaredName?, child?_unplaced, Option.map_map]
  exact congrArg (Option.map · _) (funext text_unplaced)

theorem isPositional_unplaced : t.unplaced.isPositional = t.isPositional := by
  rw [isPositional, isPositional, is_unplaced, is_unplaced, child?_unplaced, Option.any_map]
  congr 3
  exact funext fun u => is_unplaced u _

theorem parameters_unplaced : t.unplaced.parameters = t.parameters.map unplaced := by
  rw [parameters, parameters, child?_unplaced]
  cases t.child? .parameters with
  | none => rfl
  | some list =>
    rw [Option.map_some]
    simp only
    rw [named_unplaced, List.filter_map]
    congr 1
    exact List.filter_congr fun u _ => isPositional_unplaced u

theorem memberName?_unplaced : memberName? t.unplaced = memberName? t := by
  rw [memberName?, memberName?, child?_unplaced]
  cases t.child? .name with
  | none => rfl
  | some name =>
    rw [Option.map_some]
    simp only
    rw [kind?_unplaced, text_unplaced]

theorem arrayElement?_unplaced : arrayElement? t.unplaced = (arrayElement? t).map unplaced := by
  rw [arrayElement?, arrayElement?, declaredName?_unplaced, child?_unplaced, Option.map_map]
  split
  · cases t.child? .typeArguments with
    | none => rfl
    | some list =>
      rw [Option.map_some, Option.map_some, Function.comp, named_unplaced]
      rcases list.named with - | ⟨u, - | ⟨v, us⟩⟩ <;> rfl
  · rfl

end Unplaced

end Tree

section Unplaced

variable (read : Tree → Ty) (t : Tree)

theorem annotation_unplaced (l : Label) :
    (match t.unplaced.child? l with
      | some ascription => read ascription
      | none => .dynamic) =
    match t.child? l with
      | some ascription => read ascription.unplaced
      | none => .dynamic := by
  rw [child?_unplaced]
  cases t.child? l <;> rfl

theorem signatureWith_unplaced :
    signatureWith read t.unplaced = signatureWith (read ·.unplaced) t := by
  rw [signatureWith, signatureWith, parameters_unplaced, List.map_map]
  congr 1
  · exact List.map_congr_left fun p _ => annotation_unplaced read p .typing
  · exact annotation_unplaced read t .returns

theorem fieldsWith_unplaced : fieldsWith read t.unplaced = fieldsWith (read ·.unplaced) t := by
  rw [fieldsWith, fieldsWith, named_unplaced, List.filterMap_map]
  refine List.filterMap_congr fun member _ => ?_
  rw [Function.comp, memberName?_unplaced, is_unplaced, is_unplaced, child?_unplaced]
  cases member.child? .typing <;> rfl

/-- The step of resolving sees no positions. -/
theorem resolveWith_unplaced :
    resolveWith read t.unplaced = resolveWith (read ·.unplaced) t := by
  rw [resolveWith, resolveWith, kind?_unplaced]
  split
  · rw [named_unplaced]
    cases t.named <;> rfl
  · rw [named_unplaced]
    cases t.named <;> rfl
  · rw [text_unplaced]
  · rw [named_unplaced]
    cases t.named <;> rfl
  · rw [arrayElement?_unplaced, text_unplaced]
    cases arrayElement? t <;> rfl
  · rw [fieldsWith_unplaced]
  · rw [fieldsWith_unplaced]
  · rw [named_unplaced, List.map_map]
    rfl
  · exact signatureWith_unplaced read t
  · exact signatureWith_unplaced read t
  · rw [text_unplaced]

end Unplaced

theorem meaning_unplaced (t : Tree) : meaning t.unplaced = meaning t := by
  induction ht : t.height using Nat.strongRecOn generalizing t with
  | ind n ih =>
    subst ht
    rw [meaning_eq, meaning_eq t, resolveWith_unplaced]
    exact resolveWith_congr fun u hu => ih u.height hu u rfl

/-- Types with the same syntax have the same meaning. -/
theorem meaning_asSyntax (t : Tree) : meaning t.asSyntax = meaning t := by
  have hrole : resolveWith meaning t.asSyntax = resolveWith meaning t.unplaced := by
    cases t <;> rfl
  rw [meaning_eq, hrole, ← meaning_eq, meaning_unplaced]

end UsageTypes
