import Mathlib.Data.List.Basic
import UsageTypes.Proofs.ScopeSearch
import UsageTypes.Usage

/-! Where types come from. A property that passes between a type and its parts holds of every type
that is read off a program, if it holds of the references that the texts in the program make: of the
types of ascriptions, parameters, expressions and local names, and of all types in evidence. -/

namespace UsageTypes

/-- A property of types that passes from the parts of a type to the type and back. Intersections
pass it on in normal form only. -/
structure Ty.Hereditary (P : Ty → Prop) : Prop where
  dynamic : P .dynamic
  primitive (kind : Primitive) : P (.primitive kind)
  array {x : Ty} : P (.array x) ↔ P x
  shape {fields : List (String × Ty)} : P (.shape fields) ↔ ∀ f ∈ fields, P f.2
  function {params : List Ty} {returns : Ty} :
    P (.function params returns) ↔ (∀ t ∈ params, P t) ∧ P returns
  interOf {ts : List Ty} : (∀ t ∈ ts, P t) → P (.interOf ts)
  members {ts : List Ty} : P (.inter ts) → ∀ t ∈ ts, P t

/-- Blanks, and the tokens that play no role. -/
def Tree.isFiller : Tree → Bool
  | .blank _ | .token none _ => true
  | _ => false

theorem Tree.isFiller_of_child? {t c : Tree} {l : Label} (h : t.child? l = some c) :
    c.isFiller = false := by
  have hl := List.find?_some h
  cases c with
  | blank s => simp [label?] at hl
  | token l s => cases l <;> simp_all [label?, isFiller]
  | node => rfl

theorem Tree.isFiller_of_mem_named {t c : Tree} (h : c ∈ t.named) : c.isFiller = false := by
  have hn := (List.mem_filter.mp h).2
  cases c with
  | node => rfl
  | _ => cases hn

/-- A property of trees that passes to all that stands in a tree, and makes the text of a tree that
is no filler a reference with a property of types. -/
structure Tree.Referring (P : Ty → Prop) (T : Tree → Prop) : Prop where
  child {t c : Tree} : T t → c ∈ t.children → T c
  named {t : Tree} : T t → t.isFiller = false → P (.named t.text)

namespace Tree.Referring

variable {P : Ty → Prop} {T : Tree → Prop} (hT : Tree.Referring P T)

include hT

theorem child? {t c : Tree} {l : Label} (ht : T t) (hc : t.child? l = some c) : T c :=
  hT.child ht (List.mem_of_find?_eq_some hc)

theorem of_mem_named {t c : Tree} (ht : T t) (hc : c ∈ t.named) : T c :=
  hT.child ht (List.mem_filter.mp hc).1

theorem of_mem_parameters {t p : Tree} (ht : T t) (hp : p ∈ t.parameters) : T p := by
  obtain ⟨list, hlist, hp⟩ := Tree.exists_list_of_mem_parameters hp
  exact hT.of_mem_named (hT.child ht hlist) hp

theorem arrayElement? {t c : Tree} (ht : T t) (hc : arrayElement? t = some c) :
    T c ∧ c.isFiller = false := by
  obtain ⟨list, hlist, hc⟩ := Tree.exists_list_of_arrayElement? hc
  exact ⟨hT.of_mem_named (hT.child ht hlist) hc, isFiller_of_mem_named hc⟩

end Tree.Referring

section Resolving

variable {P : Ty → Prop} (hP : Ty.Hereditary P) {T : Tree → Prop} (hT : Tree.Referring P T)

include hP hT

omit hT in
theorem keywordType_hereditary {word : String} (h : P (.named word)) : P (keywordType word) := by
  rw [keywordType]
  split
  · exact hP.dynamic
  · split
    · exact hP.primitive _
    · exact h

theorem verbatim_hereditary {t : Tree} (ht : T t) (hb : t.isFiller = false) : P (verbatim t) := by
  rw [verbatim]
  split
  · split
    · exact hP.dynamic
    · rename_i inner rest hnamed
      have hmem : inner ∈ t.named := by rw [hnamed]; exact List.mem_cons_self
      exact hT.named (hT.of_mem_named ht hmem) (Tree.isFiller_of_mem_named hmem)
  · exact hT.named ht hb

variable {read : Tree → Ty} (hread : ∀ c, T c → c.isFiller = false → P (read c))

include hread

theorem annotated_hereditary {t : Tree} (ht : T t) (l : Label) :
    P (match t.child? l with
      | some ascription => read ascription
      | none => .dynamic) := by
  split
  · rename_i ascription h
    exact hread _ (hT.child? ht h) (Tree.isFiller_of_child? h)
  · exact hP.dynamic

theorem signatureWith_hereditary {t : Tree} (ht : T t) : P (signatureWith read t) := by
  rw [signatureWith, hP.function]
  constructor
  · intro u hu
    obtain ⟨p, hp, rfl⟩ := List.mem_map.mp hu
    exact annotated_hereditary hP hT hread (hT.of_mem_parameters ht hp) .typing
  · exact annotated_hereditary hP hT hread ht .returns

theorem fieldsWith_hereditary {t : Tree} (ht : T t) : ∀ f ∈ fieldsWith read t, P f.2 := by
  intro f hf
  obtain ⟨member, hm, h⟩ := List.mem_filterMap.mp hf
  have htm : T member := hT.of_mem_named ht hm
  split at h
  · cases h
  · split at h
    · obtain rfl := Option.some.inj h
      exact annotated_hereditary hP hT hread htm .typing
    · split at h
      · obtain rfl := Option.some.inj h
        exact hread _ htm (Tree.isFiller_of_mem_named hm)
      · cases h

end Resolving

/-- Resolving a type keeps a hereditary property. -/
theorem resolve_hereditary {P : Ty → Prop} (hP : Ty.Hereditary P) {T : Tree → Prop}
    (hT : Tree.Referring P T) (budget : Nat) {t : Tree} (ht : T t) (hb : t.isFiller = false) :
    P (resolve budget t) := by
  induction budget generalizing t with
  | zero =>
    rw [resolve]
    split
    · exact signatureWith_hereditary hP hT (fun c hc hcb => verbatim_hereditary hP hT hc hcb) ht
    · exact verbatim_hereditary hP hT ht hb
  | succ budget ih =>
    have hfirst : ∀ {inner rest}, t.named = inner :: rest → P (resolve budget inner) := by
      intro inner rest hnamed
      have hmem : inner ∈ t.named := by rw [hnamed]; exact List.mem_cons_self
      exact ih (hT.of_mem_named ht hmem) (Tree.isFiller_of_mem_named hmem)
    rw [resolve]
    split
    · split
      · exact hP.dynamic
      · exact hfirst ‹_›
    · split
      · exact hP.dynamic
      · exact hfirst ‹_›
    · exact keywordType_hereditary hP (hT.named ht hb)
    · split
      · exact hP.array.mpr hP.dynamic
      · exact hP.array.mpr (hfirst ‹_›)
    · split
      · rename_i element he
        obtain ⟨hc, hcb⟩ := hT.arrayElement? ht he
        exact hP.array.mpr (ih hc hcb)
      · exact hT.named ht hb
    · exact hP.shape.mpr (fieldsWith_hereditary hP hT (fun c hc hcb => ih hc hcb) ht)
    · exact hP.shape.mpr (fieldsWith_hereditary hP hT (fun c hc hcb => ih hc hcb) ht)
    · refine hP.interOf fun u hu => ?_
      obtain ⟨c, hc, rfl⟩ := List.mem_map.mp hu
      exact ih (hT.of_mem_named ht hc) (Tree.isFiller_of_mem_named hc)
    · exact signatureWith_hereditary hP hT (fun c hc hcb => ih hc hcb) ht
    · exact signatureWith_hereditary hP hT (fun c hc hcb => ih hc hcb) ht
    · exact hT.named ht hb

/-- A place whose tree has a property, and so have all trees around it. -/
structure Place.Among (T : Tree → Prop) (p : Place) : Prop where
  tree : T p.tree
  above : ∀ a ∈ p.above, T a.1

namespace Place.Among

variable {P : Ty → Prop} {T : Tree → Prop} {p c : Place}

theorem of_mem_siblings {parent : Tree} {above : List (Tree × Nat)} {i : Nat} {ts : List Tree}
    (hparent : T parent) (habove : ∀ a ∈ above, T a.1) (hts : ∀ t ∈ ts, T t)
    (hc : c ∈ siblings parent above i ts) : c.Among T := by
  induction ts generalizing i with
  | nil => cases hc
  | cons t ts ih =>
    rcases List.mem_cons.mp hc with rfl | hc
    · refine ⟨hts t List.mem_cons_self, fun a ha => ?_⟩
      rcases List.mem_cons.mp ha with rfl | ha
      · exact hparent
      · exact habove a ha
    · exact ih (fun u hu => hts u (List.mem_cons_of_mem _ hu)) hc

variable (hT : Tree.Referring P T)

include hT

theorem of_mem_children (hp : p.Among T) (hc : c ∈ p.children) : c.Among T :=
  of_mem_siblings hp.tree hp.above (fun _ ht => hT.child hp.tree ht) hc

theorem of_mem_named (hp : p.Among T) (hc : c ∈ p.named) : c.Among T :=
  hp.of_mem_children hT (List.mem_filter.mp hc).1

theorem child? {l : Label} (hp : p.Among T) (hc : p.child? l = some c) : c.Among T :=
  hp.of_mem_children hT (List.mem_of_find?_eq_some hc)

theorem of_mem_parameters (hp : p.Among T) (hc : c ∈ p.parameters) : c.Among T := by
  rw [Place.parameters] at hc
  split at hc
  · rename_i list hlist
    exact (hp.child? hT hlist).of_mem_named hT (List.mem_filter.mp hc).1
  · cases hc

theorem of_mem_arguments {arguments : List Place} (hp : p.Among T)
    (ha : p.arguments? = some arguments) (hc : c ∈ arguments) : c.Among T := by
  rw [Place.arguments?] at ha
  split at ha
  · rename_i list hlist
    split at ha
    · obtain rfl := Option.some.inj ha
      exact (hp.child? hT hlist).of_mem_named hT (List.mem_filter.mp hc).1
    · cases ha
  · cases ha

end Place.Among

section Walks

variable {P : Ty → Prop} {T : Tree → Prop}

mutual

theorem among_of_mem_places (hT : Tree.Referring P T) (enter : Tree → Bool) {t : Tree}
    {above : List (Tree × Nat)} (ht : T t) (habove : ∀ a ∈ above, T a.1) {c : Place}
    (hc : c ∈ t.places enter above) : c.Among T := by
  cases t with
  | node l k p cs =>
    rw [Tree.places] at hc
    rcases List.mem_cons.mp hc with rfl | hc
    · exact ⟨ht, habove⟩
    · exact among_of_mem_placesAll hT enter ht habove (fun _ hu => hT.child ht hu) hc
  | _ => cases hc

theorem among_of_mem_placesAll (hT : Tree.Referring P T) (enter : Tree → Bool) {parent : Tree}
    {above : List (Tree × Nat)} {i : Nat} {ts : List Tree} (hparent : T parent)
    (habove : ∀ a ∈ above, T a.1) (hts : ∀ t ∈ ts, T t) {c : Place}
    (hc : c ∈ placesAll enter parent above i ts) : c.Among T := by
  cases ts with
  | nil => cases hc
  | cons t ts =>
    rw [placesAll] at hc
    rcases List.mem_append.mp hc with hc | hc
    · split at hc
      · refine among_of_mem_places hT enter (hts t List.mem_cons_self) ?_ hc
        exact List.forall_mem_cons.mpr ⟨hparent, habove⟩
      · cases hc
    · exact among_of_mem_placesAll hT enter hparent habove (List.forall_mem_cons.mp hts).2 hc

end

mutual

theorem among_unwrap (hT : Tree.Referring P T) {t : Tree} {above : List (Tree × Nat)} (ht : T t)
    (habove : ∀ a ∈ above, T a.1) : (t.unwrap above).Among T := by
  cases t with
  | node l k p cs =>
    rw [Tree.unwrap]
    split
    · exact among_unwrapFirst hT ht habove (fun _ hu => hT.child ht hu)
    · exact ⟨ht, habove⟩
  | _ => exact ⟨ht, habove⟩

theorem among_unwrapFirst (hT : Tree.Referring P T) {parent : Tree} {above : List (Tree × Nat)}
    {i : Nat} {ts : List Tree} (hparent : T parent) (habove : ∀ a ∈ above, T a.1)
    (hts : ∀ t ∈ ts, T t) : (unwrapFirst parent above i ts).Among T := by
  cases ts with
  | nil => exact ⟨hparent, habove⟩
  | cons t ts =>
    rw [unwrapFirst]
    split
    · exact among_unwrap hT (hts t List.mem_cons_self)
        (List.forall_mem_cons.mpr ⟨hparent, habove⟩)
    · exact among_unwrapFirst hT hparent habove (List.forall_mem_cons.mp hts).2

end

end Walks

section Scopes

variable {P : Ty → Prop} {T : Tree → Prop} (hT : Tree.Referring P T) {name : String} {f : Place}

include hT

theorem lookupFunction_among {above : List (Tree × Nat)} (habove : ∀ a ∈ above, T a.1)
    (h : lookupFunction name above = some f) : f.Among T := by
  obtain ⟨t, i, outer, hsuffix, s, hs, hbinding⟩ := exists_of_lookupFunction h
  obtain ⟨hout, houter⟩ := List.forall_mem_cons.mp fun a ha => habove a (hsuffix.subset ha)
  have hstatement : s.Among T := Place.Among.of_mem_named hT ⟨hout, houter⟩ hs
  have hd := (statementBinding_eq_function hbinding).1
  rw [declarationOf] at hd
  split at hd
  · exact hstatement.child? hT hd
  · obtain rfl := Option.some.inj hd
    exact hstatement

theorem resolveFunction_among {program : Program} {callee : Place} (hc : callee.Among T)
    (h : program.resolveFunction callee = some f) : f.Among T := by
  rw [Program.resolveFunction] at h
  split at h
  · exact lookupFunction_among hT (among_unwrap hT hc.tree hc.above).above h
  · cases h

end Scopes

/-- Every type that a scope binds has a property. -/
def Scope.All (P : Ty → Prop) (scope : Scope) : Prop :=
  ∀ b ∈ scope, P b.2

theorem Scope.All.of_lookup {P : Ty → Prop} {scope : Scope} (hscope : scope.All P) {name : String}
    {t : Ty} (h : scope.lookup name = some t) : P t := by
  rw [Scope.lookup, List.lookup_eq_some_iff] at h
  obtain ⟨pre, post, rfl, -⟩ := h
  exact hscope (name, t) (by simp)

section Typing

variable {P : Ty → Prop} (hP : Ty.Hereditary P)

include hP

theorem operatorType_hereditary {op : String} {left right : Option Ty} {t : Ty}
    (h : operatorType op left right = some t) : P t := by
  have hprimitive : ∃ kind, t = .primitive kind := by
    rw [operatorType] at h
    split at h
    · split at h
      · exact ⟨_, (Option.some.inj h).symm⟩
      · split at h
        · exact ⟨_, (Option.some.inj h).symm⟩
        · cases h
    · split at h
      · exact ⟨_, (Option.some.inj h).symm⟩
      · split at h
        · exact ⟨_, (Option.some.inj h).symm⟩
        · cases h
  obtain ⟨kind, rfl⟩ := hprimitive
  exact hP.primitive kind

theorem prefixType_hereditary {op : String} {t : Ty} (h : prefixType op = some t) : P t := by
  rw [prefixType] at h
  split at h
  · obtain rfl := Option.some.inj h
    exact hP.primitive _
  · split at h
    · obtain rfl := Option.some.inj h
      exact hP.primitive _
    · split at h
      · obtain rfl := Option.some.inj h
        exact hP.primitive _
      · cases h

theorem arrayOf_hereditary {ts : List (Option Ty)} {t : Ty} (hts : ∀ u, some u ∈ ts → P u)
    (h : arrayOf ts = some t) : P t := by
  rw [arrayOf.eq_def] at h
  split at h
  · rename_i u us
    split at h
    · obtain rfl := Option.some.inj h
      exact hP.array.mpr (hts u List.mem_cons_self)
    · cases h
  · cases h

theorem restElement_hereditary {t : Ty} (h : P t) : P (Program.restElement t) := by
  cases t with
  | array element => exact hP.array.mp h
  | _ => exact hP.dynamic

theorem getD_hereditary {o : Option Ty} (h : ∀ t, o = some t → P t) : P (o.getD .dynamic) := by
  cases o with
  | none => exact hP.dynamic
  | some t => exact h t rfl

variable {T : Tree → Prop} (hT : Tree.Referring P T) (program : Program)

include hT

theorem returnType_hereditary {call : Place} (hcall : call.Among T) {t : Ty}
    (h : program.returnType call = some t) : P t := by
  rw [Program.returnType] at h
  split at h
  · cases h
  · rename_i callee hcallee
    split at h
    · cases h
    · rename_i f hf
      obtain ⟨r, hr, rfl⟩ := Option.map_eq_some_iff.mp h
      have hfT := resolveFunction_among hT (hcall.child? hT hcallee) hf
      exact resolve_hereditary hP hT _ (hT.child? hfT.tree hr) (Tree.isFiller_of_child? hr)

theorem exprType_hereditary {scope : Scope} (hscope : scope.All P) (budget : Nat) {p : Place}
    (hp : p.Among T) {t : Ty} (h : program.exprType scope budget p = some t) : P t := by
  induction budget generalizing p t with
  | zero => cases h
  | succ budget ih =>
    rw [Program.exprType] at h
    split at h
    · obtain rfl := Option.some.inj h
      exact hP.primitive _
    · obtain rfl := Option.some.inj h
      exact hP.primitive _
    · obtain rfl := Option.some.inj h
      exact hP.primitive _
    · obtain rfl := Option.some.inj h
      exact hP.primitive _
    · obtain rfl := Option.some.inj h
      exact hP.primitive _
    · split at h
      · cases h
      · rename_i inner rest hnamed
        exact ih (hp.of_mem_named hT (by rw [hnamed]; exact List.mem_cons_self)) h
    · exact hscope.of_lookup h
    · obtain ⟨op, -, hop⟩ := Option.bind_eq_some_iff.mp h
      exact prefixType_hereditary hP hop
    · split at h
      · cases h
      · exact operatorType_hereditary hP h
    · refine arrayOf_hereditary hP (fun u hu => ?_) h
      obtain ⟨c, hc, he⟩ := List.mem_map.mp hu
      exact ih (hp.of_mem_named hT hc) he
    · obtain ⟨c, hc, rfl⟩ := Option.map_eq_some_iff.mp h
      have hmem := List.mem_of_getElem? hc
      exact resolve_hereditary hP hT _ (hT.of_mem_named hp.tree hmem) (Tree.isFiller_of_mem_named hmem)
    · split at h
      · rename_i c hc
        split at h
        · obtain rfl := Option.some.inj h
          exact hT.named (hT.child? hp.tree hc) (Tree.isFiller_of_child? hc)
        · cases h
      · cases h
    · exact returnType_hereditary hP hT program hp h
    · cases h

theorem typeOf_hereditary {scope : Scope} (hscope : scope.All P) {p : Place} (hp : p.Among T)
    {t : Ty} (h : program.typeOf scope p = some t) : P t :=
  exprType_hereditary hP hT program hscope _ hp h

theorem parameterType_hereditary {p : Place} (hp : p.Among T) {t : Ty}
    (h : program.parameterType p = some t) : P t := by
  rw [Program.parameterType] at h
  split at h
  · rename_i ascription ha
    obtain rfl := Option.some.inj h
    exact resolve_hereditary hP hT _ (hT.child? hp.tree ha) (Tree.isFiller_of_child? ha)
  · split at h
    · cases h
    · split at h
      · split at h
        · rename_i value hv
          obtain rfl := Option.some.inj h
          refine getD_hereditary hP fun u hu => ?_
          exact typeOf_hereditary hP hT program (by simp [Scope.All, Scope.empty])
            (hp.child? hT hv) hu
        · obtain rfl := Option.some.inj h
          exact hP.dynamic
      · split at h
        · obtain rfl := Option.some.inj h
          exact hP.array.mpr hP.dynamic
        · cases h

theorem declaredAt_hereditary {f : Place} (hf : f.Among T) {position : Nat} {t : Ty}
    (h : program.declaredAt f position = some t) : P t := by
  have hrest : ∀ {p : Place} {u : Ty}, p ∈ f.parameters →
      (program.parameterType p).map Program.restElement = some u → P u := by
    intro p u hp hu
    obtain ⟨v, hv, rfl⟩ := Option.map_eq_some_iff.mp hu
    exact restElement_hereditary hP
      (parameterType_hereditary hP hT program (hf.of_mem_parameters hT hp) hv)
  rw [Program.declaredAt] at h
  split at h
  · rename_i p hp
    have hmem := List.mem_of_getElem? hp
    split at h
    · exact hrest hmem h
    · exact parameterType_hereditary hP hT program (hf.of_mem_parameters hT hmem) h
  · split at h
    · rename_i last hlast
      split at h
      · exact hrest (List.mem_of_mem_getLast? hlast) h
      · cases h
    · cases h

theorem bindParameter_hereditary {scope : Scope} (hscope : scope.All P) {p : Place}
    (hp : p.Among T) : (program.bindParameter scope p).All P := by
  rw [Program.bindParameter]
  split
  · refine List.forall_mem_cons.mpr ⟨?_, hscope⟩
    exact getD_hereditary hP fun u hu => parameterType_hereditary hP hT program hp hu
  · exact hscope

theorem bindVariable_hereditary {scope : Scope} (hscope : scope.All P) {p : Place}
    (hp : p.Among T) : (program.bindVariable scope p).All P := by
  rw [Program.bindVariable]
  split
  · exact hscope
  · split
    · refine List.forall_mem_cons.mpr ⟨getD_hereditary hP fun u hu => ?_, hscope⟩
      split at hu
      · rename_i ascription ha
        obtain rfl := Option.some.inj hu
        exact resolve_hereditary hP hT _ (hT.child? hp.tree ha) (Tree.isFiller_of_child? ha)
      · obtain ⟨value, hv, hu⟩ := Option.bind_eq_some_iff.mp hu
        exact typeOf_hereditary hP hT program hscope (hp.child? hT hv) hu
    · exact hscope

/-- The local names of a function have types with the property. -/
theorem scopeOf_hereditary {f : Place} (hf : f.Among T) : (program.scopeOf f).All P := by
  have hparameters : (f.parameters.foldl program.bindParameter .empty).All P := by
    refine List.foldlRecOn f.parameters _ (motive := Scope.All P) (by simp [Scope.All, Scope.empty]) ?_
    exact fun scope hscope p hp =>
      bindParameter_hereditary hP hT program hscope (hf.of_mem_parameters hT hp)
  rw [Program.scopeOf_eq_foldl]
  refine List.foldlRecOn _ _ (motive := Scope.All P) hparameters fun scope hscope p hp => ?_
  refine bindVariable_hereditary hP hT program hscope ?_
  obtain ⟨body, hbody, hp⟩ := List.mem_flatMap.mp hp
  have hb := hf.child? hT (Option.mem_toList.mp hbody)
  exact among_of_mem_places hT _ hb.tree hb.above (List.mem_filter.mp hp).1

end Typing

end UsageTypes
