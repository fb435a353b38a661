import Mathlib.Data.Finset.Dedup
import UsageTypes.Proofs.Intersection
import UsageTypes.Proofs.MemberListing
import UsageTypes.Proofs.Uncommented

/-! The order of the types that an interface extends, and of the members of an intersection. It makes
no difference to the members of a type whose walks along references stay within the limit. Beyond the
limit it does: what is first reached too deep is not looked at again on a shorter way. -/

namespace UsageTypes

open Relation

namespace Ty

/-- What counts for the members of a type: a reference, the names of fields. -/
def outline : Ty → Ty
  | .shape fields => .shape (fields.map fun f => (f.1, .dynamic))
  | .named name => .named name
  | .inter members => .inter members
  | _ => .dynamic

/-- Whether a type is an intersection, and the outlines of what it is made of in no order. -/
def gist (t : Ty) : Bool × Multiset Ty := (t.isInter, ↑(t.parts.map outline))

theorem eq_named_of_outline {t : Ty} {name : String} (h : t.outline = .named name) :
    t = .named name := by
  cases t <;> simp_all [outline]

theorem gist_of_outline {t u : Ty} (h : t.outline = u.outline) : t.gist = u.gist := by
  cases t <;> cases u <;> simp_all [outline, gist, parts, isInter]

theorem ownFields_eq_parts (t : Ty) : t.ownFields = t.parts.flatMap ownFields := by
  cases t with
  | inter members => exact ownFields_inter members
  | _ => exact (List.flatMap_singleton _ _).symm

theorem ownFields_outline (t : Ty) : t.outline.ownFields = t.ownFields := by
  cases t with
  | shape fields => simp [outline]
  | _ => rfl

variable {t u : Ty}

theorem exists_part_of_gist (h : t.gist = u.gist) {p : Ty} (hp : p ∈ t.parts) :
    ∃ q ∈ u.parts, p.outline = q.outline := by
  have hperm : (t.parts.map outline).Perm (u.parts.map outline) :=
    Multiset.coe_eq_coe.mp (congrArg Prod.snd h)
  obtain ⟨q, hq, he⟩ := List.mem_map.mp (hperm.mem_iff.mp (List.mem_map_of_mem hp))
  exact ⟨q, hq, he.symm⟩

theorem eq_named_of_gist {name : String} (h : (named name).gist = u.gist) : u = .named name := by
  obtain ⟨q, hq, he⟩ := exists_part_of_gist h (List.mem_singleton_self (named name))
  have hq' := eq_named_of_outline he.symm
  cases u with
  | inter members => cases congrArg Prod.fst h
  | _ => rw [← hq', List.mem_singleton.mp hq]

theorem exists_member_of_gist {members : List Ty} (h : (inter members).gist = u.gist) :
    ∃ others, u = .inter others ∧ ∀ p ∈ members, ∃ q ∈ others, p.gist = q.gist := by
  cases u with
  | inter others =>
    refine ⟨others, rfl, fun p hp => ?_⟩
    obtain ⟨q, hq, he⟩ := exists_part_of_gist h hp
    exact ⟨q, hq, gist_of_outline he⟩
  | _ => cases congrArg Prod.fst h

theorem ownFields_subset_of_gist (h : t.gist = u.gist) : t.ownFields ⊆ u.ownFields := by
  intro name hname
  rw [ownFields_eq_parts] at hname ⊢
  obtain ⟨p, hp, hname⟩ := List.mem_flatMap.mp hname
  obtain ⟨q, hq, he⟩ := exists_part_of_gist h hp
  rw [← ownFields_outline, he, ownFields_outline] at hname
  exact List.mem_flatMap_of_mem hq hname

theorem reference?_of_gist (h : t.gist = u.gist) : t.reference? = u.reference? := by
  cases ht : t.reference? with
  | some name =>
    cases t <;> cases ht
    rw [eq_named_of_gist h]
    rfl
  | none =>
    cases u with
    | named name =>
      rw [eq_named_of_gist h.symm] at ht
      cases ht
    | _ => rfl

end Ty

namespace Tree

/-- Whether two declarations of a name differ at most in the order of the types that an interface
extends, in the order of the members of intersections, and in types of fields. -/
structure Permuted (d d' : Tree) : Prop where
  kind : d.kind? = d'.kind?
  name : d.declaredName? = d'.declaredName?
  types : ((inherited d).map fun u => (resolveType u).gist).Perm
    ((inherited d').map fun u => (resolveType u).gist)
  members : d.is .classDeclaration = true → (classMembers d).Perm (classMembers d')

instance (d d' : Tree) : Decidable (d.Permuted d') :=
  decidable_of_iff (d.kind? = d'.kind? ∧ d.declaredName? = d'.declaredName? ∧
      ((inherited d).map fun u => (resolveType u).gist).Perm
        ((inherited d').map fun u => (resolveType u).gist) ∧
      (d.is .classDeclaration = true → (classMembers d).Perm (classMembers d')))
    ⟨fun ⟨hk, hn, ht, hm⟩ => ⟨hk, hn, ht, hm⟩, fun h => ⟨h.kind, h.name, h.types, h.members⟩⟩

/-- Whether the types that two programs declare are the same in document order, up to the order inside
each of them. -/
def Reordered (root root' : Tree) : Prop :=
  List.Forall₂ Permuted (root.nodes.filter Program.isTypeDeclaration)
    (root'.nodes.filter Program.isTypeDeclaration)

instance (root root' : Tree) : Decidable (root.Reordered root') :=
  inferInstanceAs (Decidable (List.Forall₂ _ _ _))

variable {root root' d d' : Tree}

theorem Permuted.is_eq (h : d.Permuted d') (k : Kind) : d.is k = d'.is k := by
  rw [Tree.is, Tree.is, h.kind]

theorem Permuted.symm (h : d.Permuted d') : d'.Permuted d :=
  ⟨h.kind.symm, h.name.symm, h.types.symm, fun hc => (h.members (h.is_eq _ ▸ hc)).symm⟩

/-- The types that an interface extends, in another order. -/
theorem Permuted.of_bases (hkind : d.kind? = d'.kind?) (hname : d.declaredName? = d'.declaredName?)
    (hd : d.is .interfaceDeclaration = true)
    (hbases : ((basesOf d).map resolveType).Perm ((basesOf d').map resolveType))
    (hbody : (d.child? .body).map resolveType = (d'.child? .body).map resolveType) :
    d.Permuted d' := by
  have hd' : d'.is .interfaceDeclaration = true := by rwa [Tree.is, ← hkind]
  have hclass : d.is .classDeclaration = false := by
    rw [Tree.is, of_decide_eq_true hd]
    rfl
  have hbodies : (d.child? .body).toList.map resolveType = (d'.child? .body).toList.map resolveType := by
    rw [← Option.toList_map, hbody, Option.toList_map]
  refine ⟨hkind, hname, ?_, fun hc => absurd (hclass.symm.trans hc) Bool.false_ne_true⟩
  rw [inherited, inherited, if_pos hd, if_pos hd', List.map_append, List.map_append]
  refine List.Perm.append ?_ (.of_eq ?_)
  · simpa only [List.map_map, Function.comp_def] using hbases.map Ty.gist
  · simpa only [List.map_map, Function.comp_def] using congrArg (List.map Ty.gist) hbodies

/-- The members of the intersection that an alias stands for, in another order. -/
theorem Permuted.of_intersection (hkind : d.kind? = d'.kind?) (hname : d.declaredName? = d'.declaredName?)
    (hd : d.is .typeAliasDeclaration = true) {members members' : List Ty}
    (hv : (d.child? .value).map resolveType = some (.inter members))
    (hv' : (d'.child? .value).map resolveType = some (.inter members'))
    (hmembers : members.Perm members') : d.Permuted d' := by
  have hk := of_decide_eq_true hd
  have hgist : (Ty.inter members).gist = (Ty.inter members').gist :=
    Prod.ext rfl (Multiset.coe_eq_coe.mpr (hmembers.map Ty.outline))
  obtain ⟨v, hvalue, ht⟩ := Option.map_eq_some_iff.mp hv
  obtain ⟨v', hvalue', ht'⟩ := Option.map_eq_some_iff.mp hv'
  have htypes : inherited d = [v] := by simp [inherited, Tree.is, hk, hvalue]
  have htypes' : inherited d' = [v'] := by simp [inherited, Tree.is, ← hkind, hk, hvalue']
  refine ⟨hkind, hname, ?_, fun hc => by simp [Tree.is, hk] at hc⟩
  rw [htypes, htypes', List.map_singleton, List.map_singleton, ht, ht', hgist]

theorem Permuted.exists_inherited (h : d.Permuted d') {u : Tree} (hu : u ∈ inherited d) :
    ∃ u' ∈ inherited d', (resolveType u).gist = (resolveType u').gist := by
  have hmem := h.types.mem_iff.mp (List.mem_map_of_mem hu)
  obtain ⟨u', hu', he⟩ := List.mem_map.mp hmem
  exact ⟨u', hu', he.symm⟩

theorem Permuted.ownMembers_subset (h : d.Permuted d') : d.ownMembers ⊆ d'.ownMembers := by
  intro name hname
  rw [ownMembers] at hname ⊢
  rcases List.mem_append.mp hname with hname | hname
  · obtain ⟨u, hu, hname⟩ := List.mem_flatMap.mp hname
    obtain ⟨u', hu', he⟩ := h.exists_inherited hu
    exact List.mem_append_left _
      (List.mem_flatMap_of_mem hu' (Ty.ownFields_subset_of_gist he hname))
  · split at hname
    · rename_i hclass
      rw [← h.is_eq, if_pos hclass]
      exact List.mem_append_right _ ((h.members hclass).mem_iff.mp hname)
    · cases hname

theorem Reordered.symm (h : root.Reordered root') : root'.Reordered root :=
  (List.Forall₂.imp (fun _ _ h => h.symm) h).flip

theorem Reordered.firstDeclaration?_rel (h : root.Reordered root') (name : String) :
    Option.Rel Permuted (root.firstDeclaration? name) (root'.firstDeclaration? name) := by
  rw [firstDeclaration?_eq_find?, firstDeclaration?_eq_find?]
  exact find?_rel h fun _ _ hab => by rw [hab.name]

theorem Reordered.firstDeclaration? (h : root.Reordered root') {name : String}
    (hd : root.firstDeclaration? name = some d) :
    ∃ d', root'.firstDeclaration? name = some d' ∧ d.Permuted d' := by
  obtain ⟨hnone, -⟩ | ⟨_, d', hsome, hd', hab⟩ := option_rel_cases (h.firstDeclaration?_rel name)
  · cases hd.symm.trans hnone
  · cases hd.symm.trans hsome
    exact ⟨d', hd', hab⟩

theorem Reordered.isSome_firstDeclaration? (h : root.Reordered root') (name : String) :
    (root.firstDeclaration? name).isSome = (root'.firstDeclaration? name).isSome := by
  obtain ⟨hd, hd'⟩ | ⟨_, _, hd, hd', -⟩ := option_rel_cases (h.firstDeclaration?_rel name)
  · rw [hd, hd']
  · rw [hd, hd', Option.isSome_some, Option.isSome_some]

theorem Reordered.inherits (h : root.Reordered root') {t t' u : Ty} (ht : t.gist = t'.gist)
    (hu : root.Inherits t u) : ∃ u', root'.Inherits t' u' ∧ u.gist = u'.gist := by
  cases hu with
  | member hmem =>
    obtain ⟨others, rfl, hothers⟩ := Ty.exists_member_of_gist ht
    obtain ⟨u', hu', he⟩ := hothers u hmem
    exact ⟨u', .member hu', he⟩
  | declared hd hmem =>
    obtain rfl := Ty.eq_named_of_gist ht
    obtain ⟨d', hd', hab⟩ := h.firstDeclaration? hd
    obtain ⟨v', hv', he⟩ := hab.exists_inherited hmem
    exact ⟨_, .declared hd' hv', he⟩

theorem Reordered.reaches (h : root.Reordered root') {t u : Ty} (hu : ReflTransGen root.Inherits t u) :
    ∃ u', ReflTransGen root'.Inherits t u' ∧ u.gist = u'.gist := by
  induction hu with
  | refl => exact ⟨t, .refl, rfl⟩
  | tail _ hstep ih =>
    obtain ⟨u', hu', he⟩ := ih
    obtain ⟨v', hv', he'⟩ := h.inherits he hstep
    exact ⟨v', hu'.tail hv', he'⟩

theorem Reordered.hasMember (h : root.Reordered root') {t : Ty} {name : String}
    (hmember : root.HasMember t name) : root'.HasMember t name := by
  rcases hmember with hown | ⟨d, ⟨n, hreach, hd⟩, hname⟩
  · exact .inl hown
  · obtain ⟨u', hu', he⟩ := h.reaches hreach
    obtain rfl := Ty.eq_named_of_gist he
    obtain ⟨d', hd', hab⟩ := h.firstDeclaration? hd
    exact .inr ⟨d', ⟨n, hu', hd'⟩, hab.ownMembers_subset hname⟩

theorem Reordered.trail (h : root.Reordered root') {t u : Ty} {names : List String} {depth : Nat}
    (hu : root.Trail t names depth u) : ∃ u', root'.Trail t names depth u' ∧ u.gist = u'.gist := by
  induction hu with
  | start => exact ⟨t, .start, rfl⟩
  | step _ hstep ih =>
    obtain ⟨u', hu', he⟩ := ih
    obtain ⟨v', hv', he'⟩ := h.inherits he hstep
    exact ⟨v', Ty.reference?_of_gist he ▸ hu'.step hv', he'⟩

theorem Reordered.staysWithin (h : root.Reordered root') {t : Ty} {limit : Nat}
    (hstays : root.StaysWithin t limit) : root'.StaysWithin t limit := by
  intro names depth u hu hn
  obtain ⟨u', hu', he⟩ := h.symm.trail hu
  exact hstays names depth u' hu' (Ty.reference?_of_gist he ▸ hn)

end Tree

namespace Program

variable {root root' : Tree}

theorem members?_toFinset (h : root.Reordered root') {t : Ty}
    (hstays : root.StaysWithin t referenceLimit) :
    ((ofTree root).members? t).map List.toFinset = ((ofTree root').members? t).map List.toFinset := by
  have hlisted : ((ofTree root).listing t).names.toFinset = ((ofTree root').listing t).names.toFinset := by
    ext name
    rw [List.mem_toFinset, List.mem_toFinset, mem_listing_iff hstays,
      mem_listing_iff (h.staysWithin hstays)]
    exact ⟨h.hasMember, h.symm.hasMember⟩
  cases t with
  | named name =>
    simp only [members?, typeDeclaration?_ofTree, h.isSome_firstDeclaration? name]
    split
    · exact congrArg some hlisted
    · rfl
  | _ => exact congrArg some hlisted

end Program

theorem combineNamed_congr {members others : MemberTable} {names : List String}
    (h : ∀ name ∈ names, (members name).map List.toFinset = (others name).map List.toFinset)
    (fields : List (String × Ty)) :
    combineNamed members names fields = combineNamed others names fields := by
  have himp : ∀ {table table' : MemberTable}, (∀ name ∈ names,
      (table name).map List.toFinset = (table' name).map List.toFinset) →
      ∀ member, Covered table names member → Covered table' names member := by
    rintro table table' hsame member ⟨name, hn, declared, hd, hm⟩
    have hset := hsame name hn
    rw [hd, Option.map_some] at hset
    obtain ⟨declared', hd', he⟩ := Option.map_eq_some_iff.mp hset.symm
    exact ⟨name, hn, declared', hd', by rwa [← List.mem_toFinset, he, List.mem_toFinset]⟩
  have hcovered : ∀ member, member ∈ (names.filterMap members).flatten ↔
      member ∈ (names.filterMap others).flatten := fun member => by
    rw [mem_flatten_filterMap_iff, mem_flatten_filterMap_iff]
    exact ⟨himp h member, himp (fun name hn => (h name hn).symm) member⟩
  simp only [combineNamed, hcovered]

namespace Program

/-- The members of a type whose walks stay within the limit do not depend on the order of the types
that an interface extends and of the members of an intersection, and neither do the fields that are
left beside references to such types. -/
theorem members_reordered {root root' : Tree} (h : root.Reordered root') :
    (∀ t, root.StaysWithin t referenceLimit →
      ((ofTree root).members? t).map List.toFinset = ((ofTree root').members? t).map List.toFinset) ∧
    ∀ names fields, (∀ name ∈ names, root.StaysWithin (.named name) referenceLimit) →
      combineNamed (ofTree root).memberTable names fields =
        combineNamed (ofTree root').memberTable names fields :=
  ⟨fun _ hstays => members?_toFinset h hstays, fun _ fields hnames =>
    combineNamed_congr (fun name hn => members?_toFinset h (hnames name hn)) fields⟩

theorem members_reordered_interface_alias :
    let root := (readProgram "interface A{a}interface B{b}interface I extends A,B{}type T=I&{m:A&B}").getD
      default
    let root' := (readProgram "interface A{a}interface B{b}interface I extends B,A{}type T={m:B&A}&I").getD
      default
    root.Reordered root' ∧ (∀ name ∈ ["I", "T"], root.StaysWithin (.named name) referenceLimit) ∧
      (ofTree root).members? (.named "T") = some ["a", "b", "m"] ∧
      (ofTree root').members? (.named "T") = some ["m", "b", "a"] ∧
      ["a", "b", "m"].toFinset = ["m", "b", "a"].toFinset ∧
      combineNamed (ofTree root).memberTable ["I", "T"] [("a", .dynamic), ("x", .dynamic)] =
        combineNamed (ofTree root').memberTable ["I", "T"] [("a", .dynamic), ("x", .dynamic)] := by
  intro root root'
  have hfacts : root.Reordered root' ∧
      (∀ name ∈ ["I", "T"], root.StaysWithin (.named name) referenceLimit) ∧
      (ofTree root).members? (.named "T") = some ["a", "b", "m"] ∧
      (ofTree root').members? (.named "T") = some ["m", "b", "a"] := by
    decide +kernel
  obtain ⟨hroot, hstays, ht, ht'⟩ := hfacts
  obtain ⟨hsets, hfields⟩ := members_reordered hroot
  have hset := hsets (.named "T") (hstays "T" (by decide))
  rw [ht, ht'] at hset
  exact ⟨hroot, hstays, ht, ht', Option.some.inj hset, hfields _ _ hstays⟩

/-- What is first reached at the end of a long way has its members cut off, and is passed over when a
short way comes to it: here two programs differ in the order of two bases only. -/
theorem members_depend_on_order :
    let root := (readProgram "interface X{x}type A=B&{};type B=C&{};type C=D&{};type D=E&{};type E=F&{};
      type F=G&{};type G=H&{};type H=X;interface R extends A,X{}").getD default
    let root' := (readProgram "interface X{x}type A=B&{};type B=C&{};type C=D&{};type D=E&{};type E=F&{};
      type F=G&{};type G=H&{};type H=X;interface R extends X,A{}").getD default
    root.Reordered root' ∧ ¬ root.StaysWithin (.named "R") referenceLimit ∧
      root.HasMember (.named "R") "x" ∧
      (ofTree root).members? (.named "R") = some [] ∧
      (ofTree root').members? (.named "R") = some ["x"] ∧
      combineNamed (ofTree root).memberTable ["R"] [("x", .dynamic)] =
        .inter [.named "R", .shape [("x", .dynamic)]] ∧
      combineNamed (ofTree root').memberTable ["R"] [("x", .dynamic)] = .named "R" := by
  intro root root'
  have hfacts : root.Reordered root' ∧ ¬ root.StaysWithin (.named "R") referenceLimit ∧
      (ofTree root).members? (.named "R") = some [] ∧
      (ofTree root').members? (.named "R") = some ["x"] ∧
      combineNamed (ofTree root).memberTable ["R"] [("x", .dynamic)] =
        .inter [.named "R", .shape [("x", .dynamic)]] ∧
      combineNamed (ofTree root').memberTable ["R"] [("x", .dynamic)] = .named "R" := by
    decide +kernel
  clear_value root root'
  obtain ⟨hroot, hdeep, hr, hr', hfields, hfields'⟩ := hfacts
  have hx := hasMember_of_members? hr' (List.mem_singleton_self "x")
  exact ⟨hroot, hdeep, hroot.symm.hasMember hx, hr, hr', hfields, hfields'⟩

end Program

end UsageTypes
