import UsageTypes.Proofs.UncommentedPlaces

/-! Comments and inference. Comments that stand where nodes are read by role or by kind leave no trace
in the reports of a run; a comment in front of a node that is read by position does. -/

namespace UsageTypes

open UsageTypes.Tree (positional)

theorem basesOf_rel {t u : Tree} (h : t.Uncomments positional u) :
    List.Forall₂ (Tree.Uncomments positional) (basesOf t) (basesOf u) := by
  have hclauses := h.named_filter (·.is .extendsTypeClause) (fun _ _ hab => hab.is_eq _)
    fun _ _ => rfl
  have hkind : ∀ c ∈ t.named.filter (·.is .extendsTypeClause), c.kind? = some .extendsTypeClause := by
    intro c hc
    exact of_decide_eq_true (List.mem_filter.mp hc).2
  rw [basesOf, basesOf]
  generalize t.named.filter (·.is .extendsTypeClause) = as,
    u.named.filter (·.is .extendsTypeClause) = bs at hclauses hkind
  induction hclauses with
  | nil => exact .nil
  | cons hab _ ih =>
    rw [List.flatMap_cons, List.flatMap_cons]
    refine List.rel_append ?_ (ih fun c hc => hkind c (List.mem_cons_of_mem _ hc))
    exact hab.named_rel_of_kind (hkind _ List.mem_cons_self) (Nat.le_refl _)

theorem classMembers_eq {t u : Tree} (h : t.Uncomments positional u) :
    classMembers t = classMembers u := by
  rw [classMembers, classMembers]
  obtain ⟨ha, hb⟩ | ⟨a, b, ha, hb, hab⟩ := h.child?_cases .body
  · rw [ha, hb]
  · rw [ha, hb]
    refine filterMap_eq_of_forall₂ (hab.named_filter _ (fun c d hcd => ?_) fun _ _ => rfl)
      fun _ _ hcd => hcd.memberName?_eq
    rw [hcd.is_eq, hcd.is_eq]

theorem child?_toList_rel {t u : Tree} (h : t.Uncomments positional u) (l : Label) :
    List.Forall₂ (Tree.Uncomments positional) (t.child? l).toList (u.child? l).toList := by
  obtain ⟨ha, hb⟩ | ⟨a, b, ha, hb, hab⟩ := h.child?_cases l
  · rw [ha, hb]
    exact .nil
  · rw [ha, hb]
    exact .cons hab .nil

theorem inherited_rel {t u : Tree} (h : t.Uncomments positional u) :
    List.Forall₂ (Tree.Uncomments positional) (inherited t) (inherited u) := by
  rw [inherited, inherited, ← h.is_eq, ← h.is_eq]
  split
  · exact List.rel_append (basesOf_rel h) (child?_toList_rel h .body)
  · split
    · exact child?_toList_rel h .value
    · exact .nil

theorem cut_eq (s : Listing) {t u : Tree} (h : t.Uncomments positional u) : s.cut t = s.cut u := by
  rw [Listing.cut, Listing.cut, h.typeCuts_eq]

section Programs

variable {program other : Program} (hprogram : program.Uncomments other)

include hprogram

/-- Types have the same members. -/
theorem listMembers_eq (budget : Nat) (t : Ty) (s : Listing) :
    program.listMembers budget t s = other.listMembers budget t s := by
  induction budget generalizing t s with
  | zero => cases t <;> rfl
  | succ budget ih =>
    cases t with
    | named name =>
      rw [Program.listMembers, Program.listMembers]
      obtain ⟨ha, hb⟩ | ⟨a, b, ha, hb, hab⟩ := typeDeclaration?_cases hprogram name
      · rw [ha, hb]
      · have hinherited := foldl_eq_of_forall₂ (inherited_rel hab)
          (f := fun s t => program.listMembers budget (resolveType t) (s.cut t))
          (g := fun s t => other.listMembers budget (resolveType t) (s.cut t))
          (fun s c d hcd => by rw [ih, hcd.resolveType_eq, cut_eq s hcd]) (s.see name)
        simp only [ha, hb, hinherited, classMembers_eq hab, hab.is_eq]
    | inter members =>
      rw [Program.listMembers, Program.listMembers]
      simp only [ih]
    | _ => rfl

theorem members?_eq (t : Ty) : program.members? t = other.members? t := by
  have hlisting : program.listing t = other.listing t := listMembers_eq hprogram _ t {}
  cases t with
  | named name =>
    obtain ⟨ha, hb⟩ | ⟨a, b, ha, hb, -⟩ := typeDeclaration?_cases hprogram name
    · simp only [Program.members?, ha, hb, hlisting]
    · simp only [Program.members?, ha, hb, Option.isSome_some, hlisting]
  | _ => simp only [Program.members?, hlisting]

theorem memberTable_eq : program.memberTable = other.memberTable :=
  funext fun _ => members?_eq hprogram _

end Programs

section Reports

variable {program other : Program} (hprogram : program.Uncomments other)

include hprogram

theorem declarations_rel : List.Forall₂ Place.Uncomments program.declarations other.declarations := by
  have hw : BlindToComments (fun _ => true) (·.tree.isDeclaration) :=
    ⟨fun _ _ _ => rfl, fun _ _ h => h.tree.isDeclaration_eq, fun _ _ _ => rfl⟩
  exact places_rel hw hprogram.root .nil

theorem calls_eq : program.calls = other.calls := by
  have hw : BlindToComments (fun _ => true) (·.is .callExpression) :=
    ⟨fun _ _ _ => rfl, fun _ _ h => h.is_eq _, fun _ _ _ => rfl⟩
  have hcalls : List.Forall₂ Place.Uncomments (program.places.filter (·.is .callExpression))
      (other.places.filter (·.is .callExpression)) :=
    places_rel hw hprogram.root .nil
  -- what is no call is no call by name
  have hplain : ∀ (program : Program) (ps : List Place), ps.filterMap program.calledAt =
      (ps.filter (·.is .callExpression)).filterMap program.calledAt := by
    intro program ps
    rw [List.filterMap_filter]
    refine List.filterMap_congr fun p _ => ?_
    split
    · rfl
    · rw [Program.calledAt, Program.plainCall?, if_neg ‹_›]
      rfl
  rw [Program.calls_eq_filterMap hprogram.plainCalls_eq,
    Program.calls_eq_filterMap hprogram.other_plainCalls_eq, hplain, hplain other]
  exact filterMap_eq_of_forall₂ hcalls fun _ _ h =>
    (mirrors_of_uncomments hprogram).calledAt_eq (fun hfg => hfg.address_eq) h

theorem openFunctions_rel :
    List.Forall₂ Place.Uncomments program.openFunctions other.openFunctions :=
  filter_rel (declarations_rel hprogram) fun _ _ hfg =>
    (mirrors_of_uncomments hprogram).any_isOpen_eq hfg

theorem arities_eq {p q : Place} (h : p.Uncomments q) : program.arities p = other.arities q := by
  rw [Program.arities, Program.arities, Program.countsAt, Program.countsAt, calls_eq hprogram,
    h.address_eq]

/-- The same parameter of the same function. -/
theorem focus_mirrors {f g : Place} (h : f.Uncomments g) (name : String) (limit : Nat) :
    (program.focus f name limit).Mirrors Place.Uncomments (other.focus g name limit) where
  program := mirrors_of_uncomments hprogram
  scope_eq := scopeOf_eq hprogram h
  path?_eq h := by
    rw [Focus.path?, Focus.path?, h.tree.accessPath_eq]
    rfl
  redeclares_eq h _ := by
    rw [Focus.redeclares, Focus.redeclares, h.tree.is_eq, h.tree.declaredName?_eq,
      h.tree.boundNames_eq]
    rfl
  body h _ := h.child?_rel .body

theorem reportOf_eq (settings : Settings) {f g : Place} (h : f.Uncomments g) :
    program.reportOf settings f = other.reportOf settings g := by
  refine (mirrors_of_uncomments hprogram).reportOf_eq settings h ?_ (arities_eq hprogram h) ?_
  · intro p q hpq
    simp only [Tree.face, hpq.tree.declaredName?_eq, hpq.tree.parameterName?_eq, hpq.tree.text_eq,
      hpq.tree.start_eq]
  · intro a b i hab
    rw [Program.slotType, Program.slotType, memberTable_eq hprogram,
      Program.Mirrors.slotEvidence_eq _ (fun name => focus_mirrors hprogram h name _)
        (h.child?_rel .body) hab.tree.parameterName?_eq]

end Reports

/-- Comments that no node is read behind by its position do not influence inference: turning any of
them into blanks leaves every report as it is. -/
theorem infer_uncomments {t u : Tree} (h : t.Uncomments positional u) (settings : Settings) :
    (Program.ofTree u).infer settings = (Program.ofTree t).infer settings := by
  have hprogram := ofTree_uncomments h
  rw [Program.infer_eq, Program.infer_eq]
  exact (map_eq_of_forall₂ (openFunctions_rel hprogram)
    fun _ _ hfg => reportOf_eq hprogram settings hfg).symm

theorem infer_uncomments_everywhere :
    let t := (readProgram "function f(/* a */ p /* b */) { // c
      return /* d */ g(/* e */ p.x /* f */) /* g */ }
      function g(q: { /* h */ y: number }) {}").getD default
    (t.nodes.filter (·.is .comment)).length = 8 ∧
      ((t.uncommented positional).nodes.filter (·.is .comment)).length = 0 ∧
      t.Uncomments positional (t.uncommented positional) ∧
      (Program.ofTree (t.uncommented positional)).infer (.ofOptions .default) =
        (Program.ofTree t).infer (.ofOptions .default) := by
  intro t
  refine ⟨by decide +kernel, by decide +kernel, t.uncomments_uncommented positional, ?_⟩
  exact infer_uncomments (t.uncomments_uncommented positional) _

/-- A comment at the start of a pair of parentheses is taken for what stands in them: with it nothing
is known of the parameter, without it the field that is read. -/
theorem infer_comment_in_parentheses :
    let t := (readProgram "function f(p) { return (/* c */ p).x }").getD default
    let u := t.uncommented fun _ _ _ => 0
    t.Uncomments (fun _ _ _ => 0) u ∧
      ((Program.ofTree t).infer (.ofOptions .default)).map (fun r => r.parameters.map (·.type)) =
        [[.dynamic]] ∧
      ((Program.ofTree u).infer (.ofOptions .default)).map (fun r => r.parameters.map (·.type)) =
        [[.shape [("x", .dynamic)]]] := by
  intro t u
  exact ⟨t.uncomments_uncommented _, by decide +kernel, by decide +kernel⟩

end UsageTypes
