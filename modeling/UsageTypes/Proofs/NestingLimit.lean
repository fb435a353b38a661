import UsageTypes.Members
import UsageTypes.Proofs.Meaning

/-! The limit on nesting. Each step down a type or an expression takes one level of the limit at most,
so the limit makes no difference to a tree that is no higher than what is left of it: at every depth it
has its meaning, and a written type means the same wherever a program reads it. -/

namespace UsageTypes

open UsageTypes.Tree

/-- The type that a node stands for, so many levels down. -/
def resolveAt (depth : Nat) (t : Tree) : Ty :=
  resolve (nestingLimit + 1 - depth) t

/-- The type of an expression so many levels down. -/
def Program.exprTypeAt (program : Program) (scope : Scope) (depth : Nat) (p : Place) : Option Ty :=
  program.exprType scope (nestingLimit + 1 - depth) p

theorem resolve_eq_meaning {budget : Nat} {t : Tree} (h : t.height ≤ budget) :
    resolve budget t = meaning t := by
  induction budget generalizing t with
  | zero =>
    rw [meaning_eq]
    cases t with
    | node l k p cs => exact absurd h (Nat.not_succ_le_zero _)
    | _ => rfl
  | succ budget ih =>
    rw [resolve_succ, meaning_eq]
    exact resolveWith_congr fun u hu => ih (by omega)

section Cuts

variable {t : Tree} {cuts : Tree → List Nat} (h : ∀ u, u.height < t.height → cuts u = [])

include h

theorem ascription_cuts_eq_nil {p : Tree} (hp : p.height ≤ t.height) (l : Label) :
    (p.child? l).toList.flatMap cuts = [] := by
  refine List.flatMap_eq_nil_iff.mpr fun a ha => h a ?_
  exact Nat.lt_of_lt_of_le (height_lt_of_child? (Option.mem_toList.mp ha)) hp

theorem signatureCuts_eq_nil : signatureCuts cuts t = [] := by
  rw [signatureCuts, ascription_cuts_eq_nil h (Nat.le_refl _), List.append_nil]
  refine List.flatMap_eq_nil_iff.mpr fun p hp => ?_
  exact ascription_cuts_eq_nil h (Nat.le_of_lt (height_lt_of_mem_parameters hp)) .typing

theorem fieldCuts_eq_nil : fieldCuts cuts t = [] := by
  refine List.flatMap_eq_nil_iff.mpr fun member hm => ?_
  have hmember := height_lt_of_mem_named hm
  rw [ascription_cuts_eq_nil h (Nat.le_of_lt hmember), h member hmember]
  simp

end Cuts

/-- Nothing is left out of a type that is not too high. -/
theorem typeCuts_eq_nil {budget : Nat} {t : Tree} (h : t.height < budget) : typeCuts budget t = [] := by
  induction budget generalizing t with
  | zero => exact absurd h (Nat.not_lt_zero _)
  | succ budget ih =>
    have hbelow : ∀ u, u.height < t.height → typeCuts budget u = [] := fun u hu => ih (by omega)
    have hfirst : t.named.head?.toList.flatMap (typeCuts budget) = [] := by
      refine List.flatMap_eq_nil_iff.mpr fun u hu => hbelow u (height_lt_of_mem_named ?_)
      exact List.mem_of_mem_head? (Option.mem_toList.mp hu)
    rw [typeCuts]
    split
    · exact hfirst
    · exact hfirst
    · exact hfirst
    · refine List.flatMap_eq_nil_iff.mpr fun u hu => hbelow u ?_
      exact height_lt_of_arrayElement? (Option.mem_toList.mp hu)
    · exact fieldCuts_eq_nil hbelow
    · exact fieldCuts_eq_nil hbelow
    · exact List.flatMap_eq_nil_iff.mpr fun u hu => hbelow u (height_lt_of_mem_named hu)
    · exact signatureCuts_eq_nil hbelow
    · exact signatureCuts_eq_nil hbelow
    · rfl

namespace Program

variable (program : Program)

theorem exprType_eq_staticType (scope : Scope) {budget : Nat} {p : Place} (h : p.height ≤ budget) :
    program.exprType scope budget p = program.staticType scope p := by
  induction budget generalizing p with
  | zero =>
    -- only what is no node has no height
    rw [staticType_eq]
    obtain ⟨t, above⟩ := p
    cases t with
    | node l k start cs => exact absurd h (Nat.not_succ_le_zero _)
    | _ => rfl
  | succ budget ih =>
    rw [exprType_succ, staticType_eq]
    refine exprTypeWith_congr program scope (fun u hu => ?_) fun c hc => ih (by omega)
    exact resolve_eq_meaning (by omega)

end Program

namespace Place

/-- The type that a parameter or variable is annotated with. -/
def annotation? (p : Place) : Option Tree :=
  ((p.tree.child? .typing).filter (·.is .typeAscription)).bind (·.named.head?)

/-- The type to which an expression is cast. -/
def castType? (p : Place) : Option Tree :=
  if p.is .asExpression then p.tree.named[1]? else none

theorem exists_of_annotation? {p : Place} {t : Tree} (h : p.annotation? = some t) :
    ∃ a rest, p.tree.child? .typing = some a ∧ a.kind? = some .typeAscription ∧ a.named = t :: rest := by
  obtain ⟨a, ha, hhead⟩ := Option.bind_eq_some_iff.mp h
  obtain ⟨hchild, hkind⟩ := Option.filter_eq_some_iff.mp ha
  obtain ⟨rest, hnamed⟩ := List.head?_eq_some_iff.mp hhead
  exact ⟨a, rest, hchild, of_decide_eq_true hkind, hnamed⟩

theorem castType?_eq_some_iff {p : Place} {t : Tree} :
    p.castType? = some t ↔ p.tree.kind? = some .asExpression ∧ p.tree.named[1]? = some t := by
  rw [castType?]
  split
  · rename_i hk
    exact (and_iff_right (of_decide_eq_true hk)).symm
  · rename_i hk
    exact ⟨fun h => absurd h (by simp), fun h => absurd (decide_eq_true h.1) hk⟩

end Place

section Readings

variable {t : Tree} (ht : t.height ≤ nestingLimit)

include ht

theorem resolveType_eq_meaning : resolveType t = meaning t :=
  resolve_eq_meaning (Nat.le_succ_of_le ht)

-- The colon in front of a type takes a level of the limit, too.
theorem resolveType_ascription {a : Tree} {rest : List Tree} (hkind : a.kind? = some .typeAscription)
    (hnamed : a.named = t :: rest) : resolveType a = meaning t := by
  have hstep : resolveType a = resolve nestingLimit t := by
    simp only [resolveType, resolve, hkind, hnamed]
  rw [hstep, resolve_eq_meaning ht]

namespace Program

variable (program : Program)

theorem parameterType_annotated {p : Place} (h : p.annotation? = some t) :
    program.parameterType p = some (meaning t) := by
  obtain ⟨a, rest, hchild, hkind, hnamed⟩ := p.exists_of_annotation? h
  rw [parameterType, hchild]
  exact congrArg some (resolveType_ascription ht hkind hnamed)

theorem lookup_bindVariable_annotated (scope : Scope) {v n : Place} (hname : v.child? .name = some n)
    (hn : n.is .identifier = true) (h : v.annotation? = some t) :
    (program.bindVariable scope v).lookup n.text = some (meaning t) := by
  obtain ⟨a, rest, hchild, hkind, hnamed⟩ := v.exists_of_annotation? h
  have hname : v.tree.child? .name = some n.tree := by rw [← v.map_tree_child?, hname, Option.map_some]
  have hn : n.tree.is .identifier = true := hn
  simp only [bindVariable, hname, hn, if_true, hchild]
  rw [Place.text, Scope.lookup_bind, if_pos rfl, resolveType_ascription ht hkind hnamed]
  rfl

omit ht in
theorem exprTypeAt_cast (scope : Scope) {e : Place} {depth : Nat} (h : e.castType? = some t)
    (hdepth : depth + t.height ≤ nestingLimit) :
    program.exprTypeAt scope depth e = some (meaning t) := by
  obtain ⟨hkind, hnamed⟩ := e.castType?_eq_some_iff.mp h
  obtain ⟨b, hb⟩ : ∃ b, nestingLimit + 1 - depth = b + 1 := ⟨nestingLimit - depth, by omega⟩
  simp only [exprTypeAt, hb, exprType, hkind, hnamed, Option.map_some]
  rw [resolve_eq_meaning (by omega)]

end Program

end Readings

theorem Listing.cut_eq_self {t : Tree} (ht : t.height ≤ nestingLimit) (s : Listing) : s.cut t = s := by
  rw [cut, typeCuts_eq_nil (Nat.lt_succ_of_le ht), List.append_nil]

/-- The members of a reference to an interface or alias are those of what its declaration means: of
the types that it extends and of its body, or of its value. -/
theorem Program.listMembers_reference (program : Program) (budget : Nat) {s : Listing} {name : String}
    {d : Tree} (hs : name ∉ s.seen) (hd : program.typeDeclaration? name = some d)
    (hclass : d.is .classDeclaration = false) (hheight : ∀ t ∈ inherited d, t.height ≤ nestingLimit) :
    program.listMembers (budget + 1) (.named name) s =
      ((inherited d).map meaning).foldl (fun s t => program.listMembers budget t s) (s.see name) := by
  have hstep : ∀ s : Listing, ∀ t ∈ inherited d,
      program.listMembers budget (resolveType t) (s.cut t) =
        program.listMembers budget (meaning t) s := fun s t ht => by
    rw [s.cut_eq_self (hheight t ht), resolveType_eq_meaning (hheight t ht)]
  rw [listMembers, if_neg hs, hd]
  simp only [hclass]
  rw [if_neg Bool.false_ne_true, List.foldl_map]
  exact List.foldl_ext _ _ _ hstep

/-- Below its limit nesting makes no difference: at every depth types have their meaning and expressions
their static type, the only readings that take the steps of resolving and of typing without a limit.
The meaning depends on the syntax alone, so that a written type is read the same wherever it stands:
with a parameter, with a variable, in a cast and in a declaration whose members are listed. -/
theorem nesting_transparent (program : Program) :
    (∀ read : Tree → Ty, (∀ t, read t = resolveWith read t) ↔ read = meaning) ∧
      (∀ t, meaning t.asSyntax = meaning t) ∧
      (∀ t d d', d + t.height ≤ nestingLimit + 1 → d' + t.height ≤ nestingLimit + 1 →
        resolveAt d t = resolveAt d' t ∧ resolveAt d t = meaning t) ∧
      (∀ scope, ∀ typed : Place → Option Ty,
        (∀ p, typed p = program.exprTypeWith scope meaning typed p) ↔
          typed = program.staticType scope) ∧
      (∀ scope p d d', d + p.height ≤ nestingLimit + 1 → d' + p.height ≤ nestingLimit + 1 →
        program.exprTypeAt scope d p = program.exprTypeAt scope d' p ∧
          program.exprTypeAt scope d p = program.staticType scope p) ∧
      (∀ t : Tree, t.height ≤ nestingLimit →
        (∀ p : Place, p.annotation? = some t → program.parameterType p = some (meaning t)) ∧
        (∀ scope, ∀ v n : Place, v.child? .name = some n → n.is .identifier = true →
          v.annotation? = some t →
          (program.bindVariable scope v).lookup n.text = some (meaning t)) ∧
        ∀ scope, ∀ e : Place, ∀ d, e.castType? = some t → d + t.height ≤ nestingLimit →
          program.exprTypeAt scope d e = some (meaning t)) ∧
      ∀ budget s name d, name ∉ s.seen → program.typeDeclaration? name = some d →
        d.is .classDeclaration = false → (∀ t ∈ inherited d, t.height ≤ nestingLimit) →
        program.listMembers (budget + 1) (.named name) s =
          ((inherited d).map meaning).foldl (fun s t => program.listMembers budget t s) (s.see name) := by
  have hmeaning : ∀ t d, d + t.height ≤ nestingLimit + 1 → resolveAt d t = meaning t :=
    fun t d h => resolve_eq_meaning (Nat.le_sub_of_add_le' h)
  have hstatic : ∀ scope p d, d + p.height ≤ nestingLimit + 1 →
      program.exprTypeAt scope d p = program.staticType scope p :=
    fun scope p d h => program.exprType_eq_staticType scope (Nat.le_sub_of_add_le' h)
  refine ⟨fun _ => forall_eq_resolveWith_iff, meaning_asSyntax, ?_,
    fun scope _ => program.forall_eq_exprTypeWith_iff scope, ?_, ?_, ?_⟩
  · intro t d d' h h'
    exact ⟨(hmeaning t d h).trans (hmeaning t d' h').symm, hmeaning t d h⟩
  · intro scope p d d' h h'
    exact ⟨(hstatic scope p d h).trans (hstatic scope p d' h').symm, hstatic scope p d h⟩
  · intro t ht
    refine ⟨fun p => program.parameterType_annotated ht, ?_, ?_⟩
    · exact fun scope v n hname hn => program.lookup_bindVariable_annotated ht scope hname hn
    · exact fun scope e d => program.exprTypeAt_cast scope
  · exact fun budget s name d hs hd => program.listMembers_reference budget hs hd

/-- An annotation of height 4 has its meaning down to depth 253, and is cut off one level below. -/
theorem nesting_transparent_at_limit :
    let program := Program.ofTree ((readProgram "interface R extends X {k:any} type X = {a:any}
      function f(p:{m():number}) { var n:{m():number} = p as {m():number} }").getD default)
    let p := ((program.declarations.flatMap Place.parameters)[0]?).getD default
    let v := (program.places.find? (·.is .variableDeclarator)).getD default
    let e := (program.places.find? (·.is .asExpression)).getD default
    let r := (program.typeDeclaration? "R").getD default
    let ofParameter := p.annotation?.getD default
    let name := (v.child? .name).getD default
    let ofVariable := v.annotation?.getD default
    let inCast := e.castType?.getD default
    (p.annotation? = some ofParameter ∧ ofParameter.height = 4) ∧
      (v.annotation? = some ofVariable ∧ ofVariable.height = 4) ∧
      (e.castType? = some inCast ∧ inCast.height = 4 ∧ e.height = 5) ∧
      (program.typeDeclaration? "R" = some r ∧ ∀ t ∈ inherited r, t.height ≤ nestingLimit) ∧
      (resolveAt 253 ofParameter = resolveAt 0 ofParameter ∧
        resolveAt 253 ofParameter = meaning ofParameter) ∧
      meaning ofParameter = .shape [("m", .function [] .number)] ∧
      resolveAt 254 ofParameter = .shape [("m", .function [] (.named "number"))] ∧
      program.parameterType p = some (meaning ofParameter) ∧
      (program.bindVariable .empty v).lookup name.text = some (meaning ofVariable) ∧
      program.exprTypeAt .empty 252 e = some (meaning inCast) ∧
      (program.exprTypeAt .empty 252 e = program.exprTypeAt .empty 0 e ∧
        program.exprTypeAt .empty 252 e = program.staticType .empty e) ∧
      (program.listMembers 17 (.named "R") {}).names = ["a", "k"] ∧
      program.listMembers 17 (.named "R") {} =
        ((inherited r).map meaning).foldl (fun s t => program.listMembers 16 t s)
          (Listing.see {} "R") := by
  intro program p v e r ofParameter name ofVariable inCast
  have hfacts : (p.annotation?.isSome = true ∧ ofParameter.height = 4) ∧
      (v.annotation?.isSome = true ∧ ofVariable.height = 4) ∧
      ((v.child? .name).isSome = true ∧ name.is .identifier = true) ∧
      (e.castType?.isSome = true ∧ inCast.height = 4 ∧ e.height = 5) ∧
      (program.typeDeclaration? "R").isSome = true ∧
      (∀ t ∈ inherited r, t.height ≤ nestingLimit) ∧ r.is .classDeclaration = false ∧
      resolveAt 0 ofParameter = .shape [("m", .function [] .number)] ∧
      resolveAt 254 ofParameter = .shape [("m", .function [] (.named "number"))] ∧
      (program.listMembers 17 (.named "R") {}).names = ["a", "k"] := by
    decide +kernel
  obtain ⟨⟨hp, hp4⟩, ⟨hv, hv4⟩, ⟨hname, hidentifier⟩, ⟨he, he4, he5⟩, hr, hinherited, hclass,
    hzero, hcut, hmembers⟩ := hfacts
  have hp := eq_some_getD (d := default) hp
  have hv := eq_some_getD (d := default) hv
  have he := eq_some_getD (d := default) he
  have hr := eq_some_getD (d := default) hr
  obtain ⟨-, -, htypes, -, hexpressions, hread, hlisting⟩ := nesting_transparent program
  have htype := htypes ofParameter 253 0 (by rw [hp4]; decide) (by rw [hp4]; decide)
  have hparameter := (hread ofParameter (by rw [hp4]; decide)).1 p hp
  have hvariable := (hread ofVariable (by rw [hv4]; decide)).2.1 .empty v name
    (eq_some_getD hname) hidentifier hv
  have hcast := (hread inCast (by rw [he4]; decide)).2.2 .empty e 252 he (by rw [he4]; decide)
  have hexpression := hexpressions .empty e 252 0 (by rw [he5]; decide) (by rw [he5]; decide)
  have hlisted := hlisting 16 {} "R" r List.not_mem_nil hr hclass hinherited
  exact ⟨⟨hp, hp4⟩, ⟨hv, hv4⟩, ⟨he, he4, he5⟩, ⟨hr, hinherited⟩, htype,
    by rw [← htype.2, htype.1, hzero], hcut, hparameter, hvariable, hcast, hexpression, hmembers,
    hlisted⟩

end UsageTypes
