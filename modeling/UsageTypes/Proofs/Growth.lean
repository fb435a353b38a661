import UsageTypes.Proofs.Mirroring
import UsageTypes.Proofs.TypeSources

/-! Statements behind the ones of a program. If none of the functions, classes and variables that they
declare is named by an identifier of the program, then every callee in the program means what it meant
before, and the places of the program look the same to inference with and without them. -/

namespace UsageTypes

namespace Tree

/-- A program of the given statements. -/
def ofStatements (ts : List Tree) : Tree := .node none .program {} ts

/-- Whether a tree declares a function, a class or a variable. -/
def binds (t : Tree) : Bool :=
  t.isDeclaration || t.is .classDeclaration || t.is .variableDeclarator

/-- The functions, classes and variables that are declared anywhere in trees, by name. -/
def bindings (ts : List Tree) : List String :=
  ((nodesAll ts).filter binds).filterMap declaredName?

/-- The texts of the identifiers of a tree. -/
def identifiers (t : Tree) : List String :=
  (t.nodes.filter (·.is .identifier)).map text

theorem mem_bindings {ts : List Tree} {d : Tree} {name : String} (hd : d ∈ nodesAll ts)
    (hbinds : d.binds = true) (hname : d.declaredName? = some name) : name ∈ bindings ts :=
  List.mem_filterMap.mpr ⟨d, List.mem_filter.mpr ⟨hd, hbinds⟩, hname⟩

theorem nodesAll_append (ts us : List Tree) : nodesAll (ts ++ us) = nodesAll ts ++ nodesAll us := by
  induction ts with
  | nil => rfl
  | cons t ts ih => simp [nodesAll, ih]

theorem mem_nodesAll_of_mem {ts : List Tree} {t : Tree} (h : t ∈ ts) (hn : t.isNamed = true) :
    t ∈ nodesAll ts := by
  induction ts with
  | nil => cases h
  | cons u ts ih =>
    rw [nodesAll]
    rcases List.mem_cons.mp h with rfl | h
    · refine List.mem_append_left _ ?_
      cases t with
      | node l k p cs => exact List.mem_cons_self
      | _ => cases hn
    · exact List.mem_append_right _ (ih h)

mutual

theorem mem_nodes_of_mem_named {u t c : Tree} (h : t ∈ u.nodes) (hc : c ∈ t.named) : c ∈ u.nodes := by
  cases u with
  | node l k p cs =>
    rcases List.mem_cons.mp h with rfl | h
    · obtain ⟨hcs, hn⟩ := List.mem_filter.mp hc
      exact List.mem_cons_of_mem _ (mem_nodesAll_of_mem hcs hn)
    · exact List.mem_cons_of_mem _ (mem_nodesAll_of_mem_named h hc)
  | _ => cases h

theorem mem_nodesAll_of_mem_named {us : List Tree} {t c : Tree} (h : t ∈ nodesAll us)
    (hc : c ∈ t.named) : c ∈ nodesAll us := by
  cases us with
  | nil => cases h
  | cons u us =>
    rcases List.mem_append.mp h with h | h
    · exact List.mem_append_left _ (mem_nodes_of_mem_named h hc)
    · exact List.mem_append_right _ (mem_nodesAll_of_mem_named h hc)

end

end Tree

namespace Place

theorem siblings_append (parent : Tree) (above : List (Tree × Nat)) (i : Nat) (ts us : List Tree) :
    siblings parent above i (ts ++ us) =
      siblings parent above i ts ++ siblings parent above (i + ts.length) us := by
  induction ts generalizing i with
  | nil => rfl
  | cons t ts ih => simp [siblings, ih, Nat.add_assoc, Nat.add_comm 1]

theorem siblings_rel {R : Place → Place → Prop} {parent parent' : Tree}
    {above above' : List (Tree × Nat)} {i : Nat} {ts : List Tree}
    (h : ∀ k t, ts[k]? = some t → R ⟨t, (parent, i + k) :: above⟩ ⟨t, (parent', i + k) :: above'⟩) :
    List.Forall₂ R (siblings parent above i ts) (siblings parent' above' i ts) := by
  induction ts generalizing i with
  | nil => exact .nil
  | cons t ts ih =>
    refine .cons (h 0 t rfl) (ih fun k u hu => ?_)
    have := h (k + 1) u (by simpa using hu)
    rwa [Nat.add_comm k 1, ← Nat.add_assoc] at this

/-- A place below the root of a program, and the same place behind whose statements others were
added. -/
inductive Grown (cs added : List Tree) : Place → Place → Prop
  | top {t : Tree} {i : Nat} : cs[i]? = some t →
    Grown cs added ⟨t, [(.ofStatements cs, i)]⟩ ⟨t, [(.ofStatements (cs ++ added), i)]⟩
  | child {t u : Tree} {i : Nat} {above above' : List (Tree × Nat)} :
    Grown cs added ⟨u, above⟩ ⟨u, above'⟩ → u.children[i]? = some t →
    Grown cs added ⟨t, (u, i) :: above⟩ ⟨t, (u, i) :: above'⟩

namespace Grown

variable {cs added : List Tree} {p q : Place}

theorem tree_eq (h : Grown cs added p q) : p.tree = q.tree := by
  cases h <;> rfl

theorem address_eq (h : Grown cs added p q) : p.address = q.address := by
  induction h with
  | top => rfl
  | child _ _ ih => exact congrArg (_ :: ·) ih

theorem children_rel (h : Grown cs added p q) :
    List.Forall₂ (Grown cs added) p.children q.children := by
  obtain ⟨t, above⟩ := p
  obtain ⟨u, above'⟩ := q
  obtain rfl : t = u := h.tree_eq
  refine siblings_rel fun k c hc => ?_
  rw [Nat.zero_add]
  exact .child h hc

theorem named_rel (h : Grown cs added p q) : List.Forall₂ (Grown cs added) p.named q.named :=
  filter_rel h.children_rel fun _ _ hab => by rw [hab.tree_eq]

theorem child?_rel (h : Grown cs added p q) (l : Label) :
    Option.Rel (Grown cs added) (p.child? l) (q.child? l) :=
  UsageTypes.find?_rel h.children_rel fun a b hab => by rw [hab.tree_eq]

theorem parameters_rel (h : Grown cs added p q) :
    List.Forall₂ (Grown cs added) p.parameters q.parameters := by
  rw [parameters, parameters]
  obtain ⟨ha, hb⟩ | ⟨a, b, ha, hb, hab⟩ := option_rel_cases (h.child?_rel .parameters)
  · rw [ha, hb]
    exact .nil
  · rw [ha, hb]
    exact filter_rel hab.named_rel fun _ _ hcd => by rw [hcd.tree_eq]

/-- A property of the program that passes to all that stands in a tree holds here as well. -/
theorem among {P : Ty → Prop} {T : Tree → Prop} (hT : Tree.Referring P T)
    (hroot : T (.ofStatements cs)) (h : Grown cs added p q) : p.Among T := by
  induction h with
  | top hi =>
    exact ⟨hT.child hroot (List.mem_of_getElem? hi), by simpa using hroot⟩
  | child _ hi ih =>
    refine ⟨hT.child ih.tree (List.mem_of_getElem? hi), ?_⟩
    exact List.forall_mem_cons.mpr ⟨ih.tree, ih.above⟩

theorem mem_nodes (h : Grown cs added p q) (hn : p.tree.isNamed = true) :
    p.tree ∈ (Tree.ofStatements cs).nodes := by
  induction h with
  | top hi => exact List.mem_cons_of_mem _ (Tree.mem_nodesAll_of_mem (List.mem_of_getElem? hi) hn)
  | @child t u i above above' _ hi ih =>
    have hmem : t ∈ u.children := List.mem_of_getElem? hi
    exact Tree.mem_nodes_of_mem_named (ih (Tree.isNamed_of_mem_children hmem))
      (List.mem_filter.mpr ⟨hmem, hn⟩)

end Grown

end Place

section Names

variable {cs added : List Tree} {name : String}

theorem declarationOf_tree {s d : Place} {k : Kind} (h : declarationOf s = some d)
    (hk : d.tree.kind? = some k) (hs : s.tree ∈ added) : d.tree ∈ Tree.nodesAll added := by
  have hn : d.tree.isNamed = true := Tree.isNamed_of_kind? hk
  rw [declarationOf] at h
  split at h
  · rename_i hexport
    have hsn : s.tree.isNamed = true := Tree.isNamed_of_kind? (of_decide_eq_true hexport)
    have hd : d ∈ s.children := List.mem_of_find?_eq_some h
    refine Tree.mem_nodesAll_of_mem_named (Tree.mem_nodesAll_of_mem hs hsn) ?_
    exact List.mem_filter.mpr ⟨Place.tree_mem_children hd, hn⟩
  · obtain rfl := Option.some.inj h
    exact Tree.mem_nodesAll_of_mem hs hn

/-- Added statements bind no name that none of their declarations has. -/
theorem statementBinding_of_notMem (hname : name ∉ Tree.bindings added) {s : Place}
    (hs : s.tree ∈ added) : statementBinding name s = none := by
  have hnone : ∀ {d : Tree}, d ∈ Tree.nodesAll added → d.binds = true →
      d.declaredName? ≠ some name :=
    fun hd hbinds h => hname (Tree.mem_bindings hd hbinds h)
  have hbinds : ∀ {t : Tree} {k : Kind}, t.kind? = some k →
      k.isDeclaration = true ∨ k = .classDeclaration ∨ k = .variableDeclarator →
      t.binds = true := by
    rintro t k hk (h | rfl | rfl)
    · simp [Tree.binds, Tree.isDeclaration, hk, h]
    · simp [Tree.binds, Tree.is, hk]
    · simp [Tree.binds, Tree.is, hk]
  have hvariables : ∀ {d : Tree}, d ∈ Tree.nodesAll added →
      ¬ (d.named.any fun v => v.is .variableDeclarator && v.declaredName? = some name) = true := by
    intro d hd hany
    obtain ⟨v, hv, h⟩ := List.any_eq_true.mp hany
    rw [Bool.and_eq_true, decide_eq_true_eq] at h
    refine hnone (Tree.mem_nodesAll_of_mem_named hd hv) ?_ h.2
    exact hbinds (of_decide_eq_true h.1) (.inr (.inr rfl))
  rw [statementBinding]
  split
  · rfl
  · rename_i d hd
    split
    · rename_i hk
      exact if_neg (hnone (declarationOf_tree hd hk hs) (hbinds hk (.inl rfl)))
    · rename_i hk
      exact if_neg (hnone (declarationOf_tree hd hk hs) (hbinds hk (.inl rfl)))
    · rename_i hk
      exact if_neg (hnone (declarationOf_tree hd hk hs) (hbinds hk (.inr (.inl rfl))))
    · rename_i hk
      exact if_neg (hvariables (declarationOf_tree hd hk hs))
    · rename_i hk
      exact if_neg (hvariables (declarationOf_tree hd hk hs))
    · rfl

theorem statementBinding_grown {p q : Place} (h : p.Grown cs added q) :
    Option.Rel (Binding.Mirrors (Place.Grown cs added)) (statementBinding name p)
      (statementBinding name q) := by
  refine statementBinding_rel (declarationOf_rel h (by rw [h.tree_eq]) (h.child?_rel _))
    (fun hab => by rw [hab.tree_eq]) (fun hab => by rw [hab.tree_eq]) fun hab _ => by rw [hab.tree_eq]

/-- The statements of the program come first, and the added ones stand behind them. -/
theorem named_ofStatements (cs added : List Tree) : ∃ old new : List Place,
    Place.named ⟨.ofStatements (cs ++ added), []⟩ = old ++ new ∧
      List.Forall₂ (Place.Grown cs added) (Place.named ⟨.ofStatements cs, []⟩) old ∧
      ∀ s ∈ new, s.tree ∈ added ∧ ∃ k, cs.length ≤ k ∧ s.address = [k] := by
  refine ⟨(Place.siblings (.ofStatements (cs ++ added)) [] 0 cs).filter (·.tree.isNamed),
    (Place.siblings (.ofStatements (cs ++ added)) [] cs.length added).filter (·.tree.isNamed),
    ?_, ?_, ?_⟩
  · have happend := Place.siblings_append (.ofStatements (cs ++ added)) [] 0 cs added
    rw [Nat.zero_add] at happend
    rw [← List.filter_append, ← happend]
    rfl
  · refine filter_rel (Place.siblings_rel fun k t hk => ?_) fun _ _ hab => by rw [hab.tree_eq]
    rw [Nat.zero_add]
    exact .top hk
  · intro s hs
    obtain ⟨k, t, hk, rfl⟩ := Place.mem_siblings (List.mem_filter.mp hs).1
    exact ⟨List.mem_of_getElem? hk, cs.length + k, Nat.le_add_right _ _, rfl⟩

/-- A name that no added declaration has means the same function with and without the added
statements. -/
theorem lookupFunction_grown (hname : name ∉ Tree.bindings added) {p q : Place}
    (h : p.Grown cs added q) :
    Option.Rel (Place.Grown cs added) (lookupFunction name p.above) (lookupFunction name q.above) := by
  induction h with
  | top _ =>
    refine lookupFunction_cons_rel _ _ rfl (fun h => by cases h) (fun _ => ?_) .none
    obtain ⟨old, new, hwhole, hold, hnew⟩ := named_ofStatements cs added
    have hnone : new.findSome? (statementBinding name) = none := by
      rw [List.findSome?_eq_none_iff]
      exact fun s hs => statementBinding_of_notMem hname (hnew s hs).1
    rw [blockBinding, blockBinding, hwhole, List.findSome?_append, hnone, Option.or_none]
    exact findSome?_rel hold fun _ _ hab => statementBinding_grown hab
  | child hu _ ih =>
    refine lookupFunction_cons_rel _ _ rfl (fun _ => rfl) (fun _ => ?_) ih
    exact findSome?_rel hu.named_rel fun _ _ hab => statementBinding_grown hab

end Names

namespace Program

theorem functionNames_append (cs added : List Tree) :
    (ofTree (.ofStatements (cs ++ added))).functionNames =
      (ofTree (.ofStatements cs)).functionNames ++ (ofTree (.ofStatements added)).functionNames := by
  simp [functionNames_ofTree, Tree.ofStatements, Tree.nodes, Tree.nodesAll_append, Tree.isDeclaration,
    Tree.kind?, Kind.isDeclaration]

theorem mem_functionNames {added : List Tree} {name : String}
    (h : name ∈ (ofTree (.ofStatements added)).functionNames) : name ∈ Tree.bindings added := by
  rw [functionNames_ofTree] at h
  obtain ⟨d, hd, hname⟩ := List.mem_filterMap.mp h
  obtain ⟨hd, hdeclaration⟩ := List.mem_filter.mp hd
  refine Tree.mem_bindings (d := d) ?_ (by simp [Tree.binds, hdeclaration]) hname
  rcases List.mem_cons.mp hd with rfl | hd
  · cases hdeclaration
  · exact hd

end Program

section Mirrors

variable {cs added : List Tree}
  (hnew : ∀ name ∈ Tree.bindings added, name ∉ (Tree.ofStatements cs).identifiers)

include hnew

theorem resolveFunction_grown {p q : Place} (h : p.Grown cs added q) :
    Option.Rel (Place.Grown cs added) ((Program.ofTree (.ofStatements cs)).resolveFunction p)
      ((Program.ofTree (.ofStatements (cs ++ added))).resolveFunction q) := by
  have hu : p.unwrap.Grown cs added q.unwrap :=
    Place.unwrap_rel (fun hab => by rw [hab.tree_eq]) (fun hab _ => getElem?_rel hab.named_rel 0) h
  simp only [Program.resolveFunction, Place.is, Place.text, ← hu.tree_eq,
    Program.functionNames_append, List.contains_append]
  by_cases hid : p.unwrap.tree.is .identifier = true
  · have hnamed : p.unwrap.tree.isNamed = true := Tree.isNamed_of_kind? (of_decide_eq_true hid)
    -- the name stands in the program, so none of the added declarations has it
    have hname : p.unwrap.tree.text ∉ Tree.bindings added := fun hmem =>
      hnew _ hmem (List.mem_map_of_mem (List.mem_filter.mpr ⟨hu.mem_nodes hnamed, hid⟩))
    have hadded : (Program.ofTree (.ofStatements added)).functionNames.contains
        p.unwrap.tree.text = false := by
      rw [List.contains_eq_mem, decide_eq_false_iff_not]
      exact fun hmem => hname (Program.mem_functionNames hmem)
    simp only [hid, hadded, Bool.or_false, Bool.true_and]
    split
    · exact lookupFunction_grown hname hu
    · exact .none
  · simp only [hid, Bool.false_and, Bool.false_eq_true, if_false]
    exact .none

/-- Added statements change nothing that inference looks at in a program, if nothing that they
declare is named there. -/
theorem mirrors_of_grown : (Program.ofTree (.ofStatements cs)).Mirrors (Place.Grown cs added)
    (.ofTree (.ofStatements (cs ++ added))) where
  kind?_eq h := by rw [h.tree_eq]
  word_eq h _ := by rw [Place.text, Place.text, h.tree_eq]
  operator?_eq h := by rw [h.tree_eq]
  child h _ := h.child?_rel _
  children h _ := ⟨_, Thinned.of_forall₂ h.children_rel⟩
  first h _ := getElem?_rel h.named_rel 0
  elements h _ := h.named_rel
  parameters h := h.parameters_rel
  types h := ⟨by rw [h.tree_eq], by rw [h.tree_eq], fun _ _ _ _ => by rw [h.tree_eq]⟩
  resolve h := resolveFunction_grown hnew h

theorem focus_grown {f g : Place} (h : f.Grown cs added g) (name : String) (limit : Nat) :
    ((Program.ofTree (.ofStatements cs)).focus f name limit).Mirrors (Place.Grown cs added)
      ((Program.ofTree (.ofStatements (cs ++ added))).focus g name limit) where
  program := mirrors_of_grown hnew
  scope_eq := by
    refine (mirrors_of_grown hnew).scopeOf_eq h ?_ ?_
    · exact map_eq_of_forall₂ h.parameters_rel fun _ _ hab => by rw [hab.tree_eq]
    · obtain ⟨hb, hc⟩ | ⟨b, c, hb, hc, hbc⟩ := option_rel_cases (h.child?_rel .body)
      · rw [hb, hc]
        exact .none
      · rw [hb, hc]
        refine .some (filter_rel ?_ fun _ _ hab => by rw [Place.is, Place.is, hab.tree_eq])
        exact Place.places_mirror (fun hab => by rw [hab.tree_eq]) (fun hab => by rw [hab.tree_eq])
          (fun hab _ => hab.children_rel) hbc hbc.children_rel
  path?_eq h := by rw [Focus.path?, Focus.path?, h.tree_eq]; rfl
  redeclares_eq h _ := by rw [h.tree_eq]; rfl
  body h _ := h.child?_rel _

end Mirrors

end UsageTypes
