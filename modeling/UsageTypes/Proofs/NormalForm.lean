import UsageTypes.Proofs.EvidenceTypes
import UsageTypes.Proofs.Propagation
import UsageTypes.Infer

/-! Normal form of types. Intersections are flattened by one level only, and stay in normal form all
the same: every type that is read off a program is normal, and synthesis from normal types gives a
normal type whose intersections are references with at most one shape behind them. -/

namespace UsageTypes

/-- Every intersection in the type has two members at least, all different and none of them an
intersection. -/
inductive Ty.Normal : Ty → Prop
  | dynamic : Normal .dynamic
  | primitive (kind : Primitive) : Normal (.primitive kind)
  | named (text : String) : Normal (.named text)
  | array {x : Ty} : Normal x → Normal (.array x)
  | shape {fields : List (String × Ty)} : (∀ f ∈ fields, Normal f.2) → Normal (.shape fields)
  | function {params : List Ty} {returns : Ty} : (∀ t ∈ params, Normal t) → Normal returns →
    Normal (.function params returns)
  | inter {ts : List Ty} : 2 ≤ ts.length → ts.Nodup → (∀ t ∈ ts, t.isInter = false) →
    (∀ t ∈ ts, Normal t) → Normal (.inter ts)

namespace Ty.Normal

theorem array_iff {x : Ty} : (Ty.array x).Normal ↔ x.Normal := by
  constructor
  · intro h
    cases h with
    | array h => exact h
  · exact .array

theorem shape_iff {fields : List (String × Ty)} :
    (Ty.shape fields).Normal ↔ ∀ f ∈ fields, f.2.Normal := by
  constructor
  · intro h
    cases h with
    | shape h => exact h
  · exact .shape

theorem function_iff {params : List Ty} {returns : Ty} :
    (Ty.function params returns).Normal ↔ (∀ t ∈ params, t.Normal) ∧ returns.Normal := by
  constructor
  · intro h
    cases h with
    | function hp hr => exact ⟨hp, hr⟩
  · exact fun h => .function h.1 h.2

/-- What a normal type contributes to an intersection is normal and no intersection: one level of
flattening is enough. -/
theorem of_mem_parts {t u : Ty} (h : t.Normal) (hu : u ∈ t.parts) :
    u.isInter = false ∧ u.Normal := by
  cases t with
  | inter ts =>
    cases h with
    | inter _ _ hflat hnormal => exact ⟨hflat u hu, hnormal u hu⟩
  | _ =>
    obtain rfl := List.mem_singleton.mp hu
    exact ⟨rfl, h⟩

theorem interOf {ts : List Ty} (h : ∀ t ∈ ts, t.Normal) : (Ty.interOf ts).Normal := by
  have hparts : ∀ u ∈ (ts.flatMap parts).eraseDups, u.isInter = false ∧ u.Normal := by
    intro u hu
    obtain ⟨t, ht, hu⟩ := List.mem_flatMap.mp (List.mem_eraseDups.mp hu)
    exact (h t ht).of_mem_parts hu
  have hnodup := nodup_eraseDups (ts.flatMap parts)
  rw [Ty.interOf]
  split
  · exact .dynamic
  · rename_i t he
    rw [he] at hparts
    exact (hparts t List.mem_cons_self).2
  · rename_i hnil hone
    refine .inter ?_ hnodup (fun u hu => (hparts u hu).1) fun u hu => (hparts u hu).2
    rcases hts : (ts.flatMap parts).eraseDups with - | ⟨t, - | ⟨u, us⟩⟩
    · exact absurd hts hnil
    · exact absurd hts (hone t)
    · simp

theorem hereditary : Ty.Hereditary Ty.Normal where
  dynamic := .dynamic
  primitive := .primitive
  array := array_iff
  shape := shape_iff
  function := function_iff
  interOf := interOf
  members h := by
    cases h with
    | inter _ _ _ h => exact h

end Ty.Normal

/-- A type outside whose concrete claims fields are distinct, and intersections are distinct
references with at most one shape behind them, which is not empty and has no field that one of the
references declares. -/
inductive Settled (members : MemberTable) : Ty → Prop
  | dynamic : Settled members .dynamic
  | concrete {t : Ty} : t.isConcrete = true → Settled members t
  | named (text : String) : Settled members (.named text)
  | shape {fields : List (String × Ty)} : (fields.map Prod.fst).Nodup →
    (∀ f ∈ fields, Settled members f.2) → Settled members (.shape fields)
  | names {names : List String} : names.Nodup → Settled members (.inter (names.map .named))
  | namesAndShape {names : List String} {fields : List (String × Ty)} : names.Nodup → fields ≠ [] →
    (∀ f ∈ fields, ∀ name ∈ names, ∀ declared, members name = some declared → f.1 ∉ declared) →
    Settled members (.shape fields) → Settled members (.inter (names.map .named ++ [.shape fields]))

theorem settled_meet_names {members : MemberTable} {names : List String} (hn : names.Nodup) :
    Settled members (.meet (names.map .named)) := by
  match names with
  | [] => exact .names hn
  | [name] => exact .named name
  | _ :: _ :: _ => exact .names hn

theorem settled_meet_names_shape {members : MemberTable} {names : List String}
    {fields : List (String × Ty)} (hne : names ≠ []) (hn : names.Nodup) (hf : fields ≠ [])
    (hdisjoint : ∀ f ∈ fields, ¬ Covered members names f.1)
    (hshape : Settled members (.shape fields)) :
    Settled members (.meet (names.map .named ++ [.shape fields])) := by
  have huncovered : ∀ f ∈ fields, ∀ name ∈ names, ∀ declared, members name = some declared →
      f.1 ∉ declared :=
    fun f hmem name hname declared hd hmember =>
      hdisjoint f hmem ⟨name, hname, declared, hd, hmember⟩
  match names with
  | [] => exact absurd rfl hne
  | [name] => exact .namesAndShape hn hf huncovered hshape
  | _ :: _ :: _ => exact .namesAndShape hn hf huncovered hshape

theorem settled_of_inferred {members : MemberTable} {t : Ty} (h : Inferred members t) :
    Settled members t := by
  induction h with
  | dynamic => exact .dynamic
  | concrete ht => exact .concrete ht
  | shape hd _ ih => exact .shape hd ih
  | named hne hn hd _ ih =>
    rename_i names fields _
    rw [leftoverShape]
    split
    · rw [List.append_nil]
      exact settled_meet_names hn
    · rename_i hleft
      have hsub : (leftover members names fields).Sublist fields := List.filter_sublist
      refine settled_meet_names_shape hne hn hleft (fun f hf => ?_) (.shape ?_ fun f hf => ?_)
      · exact of_decide_eq_true (List.mem_filter.mp hf).2
      · exact hd.sublist (hsub.map _)
      · exact ih f (hsub.subset hf)

-- The texts of a program only make references, which are normal whatever they say.
theorem referring_normal : Tree.Referring Ty.Normal fun _ => True :=
  ⟨fun _ _ => trivial, fun _ _ => .named _⟩

theorem among_true (p : Place) : p.Among fun _ => True :=
  ⟨trivial, fun _ _ => trivial⟩

/-- Types are in normal form from one end to the other: the types of parameters, of arguments by
position, of expressions and in evidence are normal for every program, and from evidence with normal
types a built-in strategy synthesizes a normal type that is settled. -/
theorem types_normal (program : Program) (options : Options) :
    (∀ parameter t, program.parameterType parameter = some t → t.Normal) ∧
    (∀ function position t, program.declaredAt function position = some t → t.Normal) ∧
    (∀ function p t, program.typeOf (program.scopeOf function) p = some t → t.Normal) ∧
    (∀ function name limit body, ∀ e ∈ program.evidence function name limit body, ∀ t ∈ e.types,
      t.Normal) ∧
    ∀ members policy evidence, (∀ e ∈ evidence, ∀ t ∈ e.types, t.Normal) →
      (synthesize members options.methodStrategy policy evidence).Normal ∧
      Settled members (synthesize members options.methodStrategy policy evidence) := by
  have hP := Ty.Normal.hereditary
  have hT := referring_normal
  refine ⟨?_, ?_, ?_, ?_, ?_⟩
  · intro parameter t h
    exact parameterType_hereditary hP hT program (among_true parameter) h
  · intro function position t h
    exact declaredAt_hereditary hP hT program (among_true function) h
  · intro function p t h
    have hscope := scopeOf_hereditary hP hT program (among_true function)
    exact typeOf_hereditary hP hT program hscope (among_true p) h
  · intro function name limit body
    exact evidence_hereditary hP hT program (among_true function) (among_true body) name limit
  · intro members policy evidence he
    constructor
    · exact synthesize_hereditary hP members (methodStrategy_keeps hP options) policy he
    · exact settled_of_inferred (inferred_synthesize members _ policy evidence)

theorem types_normal_of_nested_intersections :
    let program := Program.ofTree ((readProgram "function g(q: (A&(B&A))[], ...r: (C&(D&C))[]) {}
      interface A { k: any }
      function f(p) { var n: A&(B&A); g(p.x, p.y); p.z = n; p.z.k; p.z.l }").getD default)
    let g := program.declarations[0]?.getD default
    let f := program.declarations[1]?.getD default
    let q := g.parameters[0]?.getD default
    let n := (program.places.filter fun p => p.is .identifier && p.text = "n").getLast?.getD default
    let evidence := program.evidence f "p" 256 ((f.child? .body).getD default)
    let both : Ty := .inter [.named "A", .named "B"]
    let rest : Ty := .inter [.named "C", .named "D"]
    let found := synthesize program.memberTable Options.default.methodStrategy .keepFirst evidence
    (program.parameterType q = some (.array both) ∧ (Ty.array both).Normal) ∧
      (program.declaredAt g 1 = some rest ∧ rest.Normal) ∧
      (program.typeOf (program.scopeOf f) n = some both ∧ both.Normal) ∧
      (.assign ["z"] both ∈ evidence ∧ ∀ e ∈ evidence, ∀ t ∈ e.types, t.Normal) ∧
      found = .shape [("x", .array both), ("y", rest),
        ("z", .inter [.named "A", .named "B", .shape [("l", .dynamic)]])] ∧
      found.Normal ∧ Settled program.memberTable found := by
  intro program g f q n evidence both rest found
  obtain ⟨hparameter, hdeclared, htype, hevidence, hsynthesize⟩ := types_normal program .default
  have hfound : program.parameterType q = some (.array both) ∧ program.declaredAt g 1 = some rest ∧
      program.typeOf (program.scopeOf f) n = some both ∧ .assign ["z"] both ∈ evidence ∧
      found = .shape [("x", .array both), ("y", rest),
        ("z", .inter [.named "A", .named "B", .shape [("l", .dynamic)]])] := by
    decide +kernel
  obtain ⟨hq, hg, hn, hassign, hshape⟩ := hfound
  have hnormal : ∀ e ∈ evidence, ∀ t ∈ e.types, t.Normal := hevidence f "p" 256 _
  exact ⟨⟨hq, hparameter q _ hq⟩, ⟨hg, hdeclared g 1 _ hg⟩, ⟨hn, htype f n _ hn⟩,
    ⟨hassign, hnormal⟩, hshape, hsynthesize program.memberTable .keepFirst evidence hnormal⟩

end UsageTypes
