import Mathlib.Data.List.Forall2
import UsageTypes.Infer
import UsageTypes.Proofs.StackWalks

/-! The nodes of a tree in document order, and the reports of a run against them: there is one report
for each function declaration with an open parameter, and one entry for each open parameter. -/

namespace UsageTypes

namespace Place

/-- The places of a tree: its root, and the nodes among the children of a place. -/
inductive In (root : Tree) : Place → Prop
  | root : root.isNamed = true → In root ⟨root, []⟩
  | child {p c : Place} : In root p → c ∈ p.named → In root c

end Place

theorem eq_some_getD {α : Type} {o : Option α} {d : α} (h : o.isSome = true) : o = some (o.getD d) := by
  cases o with
  | none => cases h
  | some => rfl

theorem Tree.not_isFunctionLike_of_kind? {t : Tree} {k : Kind} (hk : t.kind? = some k)
    (h : k.isFunctionLike = false) : t.isFunctionLike = false := by
  simp [isFunctionLike, hk, h]

theorem Tree.isNamed_of_kind? {t : Tree} {k : Kind} (h : t.kind? = some k) : t.isNamed = true := by
  cases t with
  | node => rfl
  | _ => cases h

theorem Tree.isNamed_of_mem_children {t c : Tree} (h : c ∈ t.children) : t.isNamed = true := by
  cases t with
  | node => rfl
  | _ => cases h

theorem Tree.height_lt_of_mem_children {t c : Tree} (hc : c ∈ t.children) : c.height < t.height := by
  have hle : ∀ {cs : List Tree}, c ∈ cs → c.height ≤ heightAll cs := by
    intro cs hc
    induction cs with
    | nil => cases hc
    | cons d cs ih =>
      rw [heightAll]
      rcases List.mem_cons.mp hc with rfl | hc
      · exact Nat.le_max_left _ _
      · exact Nat.le_trans (ih hc) (Nat.le_max_right _ _)
  cases t with
  | node l k p cs => exact Nat.lt_succ_of_le (hle hc)
  | _ => cases hc

theorem Tree.height_pos_of_isNamed {t : Tree} (h : t.isNamed = true) : 0 < t.height := by
  cases t with
  | node l k start cs => exact Nat.succ_pos _
  | _ => cases h

theorem Tree.exists_list_of_mem_parameters {t u : Tree} (h : u ∈ t.parameters) :
    ∃ list ∈ t.children, u ∈ list.named := by
  rw [parameters] at h
  split at h
  · rename_i list hlist
    exact ⟨list, List.mem_of_find?_eq_some hlist, (List.mem_filter.mp h).1⟩
  · cases h

theorem Tree.exists_list_of_arrayElement? {t u : Tree} (h : arrayElement? t = some u) :
    ∃ list ∈ t.children, u ∈ list.named := by
  rw [arrayElement?] at h
  split at h
  · split at h
    · rename_i element he
      obtain rfl := Option.some.inj h
      obtain ⟨list, hlist, hnamed⟩ := Option.map_eq_some_iff.mp he
      exact ⟨list, List.mem_of_find?_eq_some hlist, by rw [hnamed]; exact List.mem_singleton_self _⟩
    · cases h
  · cases h

/-- What passes from the children of a tree to the tree itself holds of every tree. -/
theorem Tree.children_induction {motive : Tree → Prop}
    (step : ∀ t, (∀ c ∈ t.children, motive c) → motive t) (t : Tree) : motive t :=
  step t fun c hc =>
    have : c.size < t.size := size_lt_of_mem_children hc
    children_induction step c
termination_by t.size

namespace Place

/-- What passes from the nodes below a place to the place itself holds everywhere. -/
theorem below_induction {motive : Place → Prop}
    (step : ∀ p, (∀ c ∈ p.named, motive c) → motive p) (p : Place) : motive p :=
  step p fun c hc =>
    have : c.tree.size < p.tree.size := Tree.size_lt_of_mem_children (tree_mem_of_mem_named hc)
    below_induction step c
termination_by p.tree.size

theorem nodes_eq {p : Place} (h : p.tree.isNamed = true) : p.nodes = p :: p.named.flatMap nodes := by
  have hall : p.entered (fun _ => true) = p.named := List.filter_eq_self.mpr fun _ _ => rfl
  rw [nodes, places_eq_entered _ h, hall]
  rfl

theorem mem_nodes_iff_reflTransGen {p q : Place} : q ∈ p.nodes ↔
    p.tree.isNamed = true ∧ Relation.ReflTransGen (Enters fun _ => true) p q :=
  mem_places_iff

theorem isNamed_of_mem_nodes {p q : Place} (h : q ∈ p.nodes) : p.tree.isNamed = true :=
  (mem_nodes_iff_reflTransGen.mp h).1

/-- The walk is closed under taking children. -/
theorem child_mem_nodes {p q c : Place} (hq : q ∈ p.nodes) (hc : c ∈ q.named) : c ∈ p.nodes := by
  obtain ⟨hp, hreached⟩ := mem_nodes_iff_reflTransGen.mp hq
  exact mem_nodes_iff_reflTransGen.mpr ⟨hp, hreached.tail ⟨hc, rfl⟩⟩

theorem In.of_mem_nodes {root : Tree} {p q : Place} (hp : p.In root) (hq : q ∈ p.nodes) :
    q.In root := by
  have hreached := (mem_nodes_iff_reflTransGen.mp hq).2
  clear hq
  induction hreached with
  | refl => exact hp
  | tail _ hc ih => exact ih.child hc.1

/-- The walk from the root meets exactly the places of the tree. -/
theorem mem_nodes_iff {root : Tree} {q : Place} : q ∈ nodes ⟨root, []⟩ ↔ q.In root := by
  constructor
  · intro h
    exact (In.root (isNamed_of_mem_nodes h)).of_mem_nodes h
  · intro h
    induction h with
    | root hroot => exact mem_nodes_iff_reflTransGen.mpr ⟨hroot, .refl⟩
    | child _ hc ih => exact child_mem_nodes ih hc

/-- What passes from a tree to its children passes from the root to every place. -/
theorem In.of_children {T : Tree → Prop} (hchild : ∀ {t c : Tree}, T t → c ∈ t.children → T c)
    {root : Tree} {p : Place} (hp : p.In root) (h : T root) : T p.tree := by
  induction hp with
  | root => exact h
  | child _ hc ih => exact hchild ih (tree_mem_of_mem_named hc)

/-- What encloses a place is a place. -/
theorem In.parent {root t u : Tree} {i : Nat} {above : List (Tree × Nat)}
    (h : In root ⟨t, (u, i) :: above⟩) : In root ⟨u, above⟩ := by
  cases h with
  | child hp hc =>
    obtain ⟨k, v, -, he⟩ := mem_children (mem_named.mp hc).1
    simp only [Place.mk.injEq, List.cons.injEq, Prod.mk.injEq] at he
    obtain ⟨-, ⟨rfl, -⟩, rfl⟩ := he
    exact hp

/-- The address tells the places of a tree apart. -/
theorem In.eq_of_address {root : Tree} {p q : Place} (hp : p.In root) (hq : q.In root)
    (h : p.address = q.address) : p = q := by
  induction hp generalizing q with
  | root _ =>
    cases hq with
    | root _ => rfl
    | child _ hc =>
      obtain ⟨k, hk⟩ := address_of_mem_named hc
      rw [hk] at h
      cases h
  | @child p c hp hc ih =>
    cases hq with
    | root _ =>
      obtain ⟨k, hk⟩ := address_of_mem_named hc
      rw [hk] at h
      cases h
    | @child p' c' hp' hc' =>
      obtain ⟨k, t, ht, rfl⟩ := mem_children (mem_named.mp hc).1
      obtain ⟨k', t', ht', rfl⟩ := mem_children (mem_named.mp hc').1
      obtain ⟨rfl, ha⟩ : k = k' ∧ p.address = p'.address := by simpa [address] using h
      obtain rfl := ih hp' ha
      obtain rfl : t = t' := Option.some.inj (ht.symm.trans ht')
      rfl

theorem address_suffix_of_mem_nodes {p q : Place} (h : q ∈ p.nodes) : p.address <:+ q.address := by
  have hreached := (mem_nodes_iff_reflTransGen.mp h).2
  clear h
  induction hreached with
  | refl => exact List.suffix_refl _
  | tail _ hc ih =>
    obtain ⟨k, hk⟩ := address_of_mem_named hc.1
    exact hk ▸ ih.trans (List.suffix_cons k _)

/-- The walk meets the nodes of a tree one after the other, and none twice. -/
theorem nodes_pairwise (p : Place) : p.nodes.Pairwise Before :=
  places_pairwise _ p

end Place

theorem Program.mem_places_iff {root : Tree} {p : Place} : p ∈ (ofTree root).places ↔ p.In root :=
  Place.mem_nodes_iff

theorem declarations_in {root : Tree} {i : Nat} {f : Place}
    (h : (Program.ofTree root).declarations[i]? = some f) : f.In root :=
  Program.mem_places_iff.mp (List.mem_filter.mp (List.mem_of_getElem? h)).1

theorem declarations_isDeclaration {program : Program} {i : Nat} {f : Place}
    (h : program.declarations[i]? = some f) : f.tree.isDeclaration = true :=
  (List.mem_filter.mp (List.mem_of_getElem? h)).2

mutual

theorem map_tree_places (above : List (Tree × Nat)) : ∀ t : Tree,
    (t.places (fun _ => true) above).map (·.tree) = t.nodes
  | .blank _ => rfl
  | .token _ _ => rfl
  | .node l k p cs => by
    rw [Tree.places, Tree.nodes, List.map_cons, map_tree_placesAll]

theorem map_tree_placesAll (parent : Tree) (above : List (Tree × Nat)) : ∀ (i : Nat) (ts : List Tree),
    (placesAll (fun _ => true) parent above i ts).map (·.tree) = Tree.nodesAll ts
  | _, [] => rfl
  | i, t :: ts => by
    rw [placesAll, Tree.nodesAll, List.map_append, map_tree_placesAll parent above (i + 1) ts]
    simp [map_tree_places _ t]

end

section Indexing

variable {p : Place}

theorem Tree.kind?_of_not_isNamed {t : Tree} (h : t.isNamed = false) : t.kind? = none := by
  cases t with
  | node => cases h
  | _ => rfl

theorem Program.plainCall?_eq_none (h : p.is .callExpression = false) : plainCall? p = none := by
  rw [plainCall?, h]
  rfl

/-- Declarations of functions are none of types, and neither are calls. -/
theorem not_isTypeDeclaration_of_isDeclaration (h : p.tree.isDeclaration = true) :
    Program.isTypeDeclaration p.tree = false ∧ p.is .callExpression = false := by
  obtain ⟨k, hk, hdeclaration⟩ := (Option.any_eq_true _ _).mp h
  simp only [Program.isTypeDeclaration, Place.is, Tree.is, hk]
  cases k <;> first | exact ⟨rfl, rfl⟩ | cases hdeclaration

theorem not_isCall_of_isTypeDeclaration (h : Program.isTypeDeclaration p.tree = true) :
    p.is .callExpression = false := by
  rw [Place.is, Tree.is, decide_eq_false_iff_not]
  intro hk
  simp [Program.isTypeDeclaration, Tree.is, hk] at h

namespace Index

/-- Of all places on the way an index keeps the names of functions, the types and the calls by name. -/
theorem foldl_note (index : Index) (ps : List Place) : ps.foldl note index = {
    functionNames := index.functionNames ++
      ((ps.map (·.tree)).filter (·.isDeclaration)).filterMap Tree.declaredName?
    typeDeclarations := index.typeDeclarations ++
      ((ps.map (·.tree)).filter Program.isTypeDeclaration).filterMap fun t => t.declaredName?.map (·, t)
    plainCalls := index.plainCalls ++ ps.filterMap Program.plainCall? } := by
  induction ps generalizing index with
  | nil => simp
  | cons p ps ih =>
    rw [List.foldl_cons, ih, note]
    cases hf : p.tree.isDeclaration with
    | true =>
      obtain ⟨ht, hc⟩ := not_isTypeDeclaration_of_isDeclaration hf
      cases hn : p.tree.declaredName? <;> simp [hf, ht, hn, Program.plainCall?_eq_none hc]
    | false =>
      cases ht : Program.isTypeDeclaration p.tree with
      | true =>
        have hc := not_isCall_of_isTypeDeclaration ht
        cases hn : p.tree.declaredName? <;> simp [hf, ht, hn, Program.plainCall?_eq_none hc]
      | false => cases hc : Program.plainCall? p <;> simp [hf, ht, hc]

theorem note_of_not_isNamed (index : Index) (h : p.tree.isNamed = false) : index.note p = index := by
  have hk := Tree.kind?_of_not_isNamed h
  have hc : p.is .callExpression = false := by simp [Place.is, Tree.is, hk]
  simp [note, Tree.isDeclaration, Program.isTypeDeclaration, Tree.is, hk, Program.plainCall?_eq_none hc]

theorem ofTree_eq (root : Tree) : ofTree root = {
    functionNames := (root.nodes.filter (·.isDeclaration)).filterMap Tree.declaredName?
    typeDeclarations :=
      (root.nodes.filter Program.isTypeDeclaration).filterMap fun t => t.declaredName?.map (·, t)
    plainCalls := (Place.nodes ⟨root, []⟩).filterMap Program.plainCall? } := by
  rw [ofTree, Place.traverse_singleton fun index p => note_of_not_isNamed index, foldl_note,
    map_tree_places]
  rfl

end Index

namespace Program

theorem functionNames_ofTree (root : Tree) : (ofTree root).functionNames =
    (root.nodes.filter (·.isDeclaration)).filterMap Tree.declaredName? :=
  congrArg Index.functionNames (Index.ofTree_eq root)

theorem typeDeclarations_ofTree (root : Tree) : (ofTree root).typeDeclarations =
    (root.nodes.filter isTypeDeclaration).filterMap fun t => t.declaredName?.map (·, t) :=
  congrArg Index.typeDeclarations (Index.ofTree_eq root)

theorem plainCalls_ofTree (root : Tree) :
    (ofTree root).plainCalls = (ofTree root).places.filterMap plainCall? :=
  congrArg Index.plainCalls (Index.ofTree_eq root)

/-- The variables of a body are bound one after the other. -/
theorem scopeOf_eq_foldl (program : Program) (f : Place) : program.scopeOf f =
    ((f.child? .body).toList.flatMap variablesOf).foldl program.bindVariable
      (f.parameters.foldl program.bindParameter .empty) := by
  have hvisit : ∀ scope (p : Place), p.tree.isNamed = false → program.bindNode scope p = scope := by
    intro scope p hp
    simp [bindNode, Place.is, Tree.is, Tree.kind?_of_not_isNamed hp]
  rw [scopeOf]
  cases f.child? .body with
  | none => rfl
  | some body =>
    dsimp only
    rw [Place.traverse_singleton hvisit, Option.toList_some, List.flatMap_singleton, variablesOf,
      List.foldl_filter]
    rfl

end Program

end Indexing

namespace Program

def HasOpenParameter (program : Program) (f : Place) : Prop :=
  ∃ p ∈ f.parameters, program.parameterType p = some .dynamic

/-- The open parameters of a function with their positions. -/
def openParameters (program : Program) (f : Place) : List (Place × Nat) :=
  f.parameters.zipIdx.filter fun (p, _) => program.parameterType p = some .dynamic

/-- The function declarations with an open parameter, in document order. -/
def openFunctions (program : Program) : List Place :=
  program.declarations.filter fun f => f.parameters.any program.isOpen

theorem isOpen_iff {program : Program} {p : Place} :
    program.isOpen p = true ↔ program.parameterType p = some .dynamic := by
  rw [isOpen]
  cases program.parameterType p with
  | none => simp
  | some t => cases t <;> simp [Ty.isDynamic]

theorem mem_openFunctions_iff {root : Tree} {f : Place} :
    f ∈ (ofTree root).openFunctions ↔
      f.In root ∧ f.tree.isDeclaration = true ∧ (ofTree root).HasOpenParameter f := by
  simp only [openFunctions, declarations, places, List.mem_filter, Place.mem_nodes_iff,
    List.any_eq_true, isOpen_iff, HasOpenParameter, and_assoc]
  rfl

theorem openFunctions_pairwise (program : Program) : program.openFunctions.Pairwise Place.Before :=
  ((Place.nodes_pairwise _).filter _).filter _

theorem qualify?_eq (program : Program) (f : Place) : program.qualify? f =
    if f.parameters.any program.isOpen then some (program.candidate f) else none := by
  have hany : ((program.candidate f).slots.any fun s => s.isOpen) = f.parameters.any program.isOpen := by
    conv_rhs => rw [← List.zipIdx_map_fst 0 f.parameters, List.any_map]
    rw [candidate, List.any_map]
    rfl
  rw [qualify?]
  simp only [hany]

theorem foldl_collect (program : Program) (found : List Candidate) (ps : List Place) :
    ps.foldl program.collect found = found ++ ((ps.filter (·.tree.isDeclaration)).filter
      fun f => f.parameters.any program.isOpen).map program.candidate := by
  induction ps generalizing found with
  | nil => simp
  | cons p ps ih =>
    rw [List.foldl_cons, ih, collect, qualify?_eq]
    by_cases hp : p.tree.isDeclaration = true
    · by_cases hopen : p.parameters.any program.isOpen = true <;> simp [hp, hopen]
    · simp [hp]

theorem scan_eq (program : Program) : program.scan = program.openFunctions.map program.candidate := by
  have hvisit : ∀ found p, p.tree.isNamed = false → program.collect found p = found := by
    intro found p hp
    simp [collect, Tree.isDeclaration, Tree.kind?_of_not_isNamed hp]
  rw [scan, Place.traverse_singleton hvisit, foldl_collect, List.nil_append]
  rfl

/-- A parameter at a position, as it takes part in inference. -/
def slotAt (program : Program) (p : Place × Nat) : Slot :=
  ⟨p.2, p.1, p.1.tree.parameterName?, program.isOpen p.1⟩

theorem openSlots_candidate (program : Program) (f : Place) :
    (program.candidate f).openSlots = (program.openParameters f).map program.slotAt := by
  have hopen : ∀ p : Place × Nat, (program.slotAt p).isOpen =
      decide (program.parameterType p.1 = some .dynamic) := by
    intro p
    rw [Bool.eq_iff_iff, decide_eq_true_iff]
    exact isOpen_iff
  have hslots : (program.candidate f).slots = f.parameters.zipIdx.map program.slotAt := rfl
  rw [Candidate.openSlots, hslots, List.filter_map, openParameters]
  exact congrArg _ (List.filter_congr fun p _ => hopen p)

/-- The report about a function: one entry for each open parameter. -/
def reportOf (program : Program) (settings : Settings) (f : Place) : FunctionReport where
  name := f.tree.declaredName?
  line := f.tree.line
  parameters := (program.openParameters f).map fun p =>
    program.inferSlot settings f (program.arities f) (program.slotAt p)

theorem infer_eq (program : Program) (settings : Settings) :
    program.infer settings = program.openFunctions.map (program.reportOf settings) := by
  rw [infer, scan_eq, List.map_map]
  refine List.map_congr_left fun f _ => ?_
  simp only [Function.comp_apply, inferFunction, openSlots_candidate, List.map_map, reportOf]
  rfl

end Program

/-- An entry is about the parameter that stands at a position. -/
def ParameterReport.IsFor (r : ParameterReport) (p : Place × Nat) : Prop :=
  r.index = p.2 ∧ r.name = p.1.tree.parameterName?.getD p.1.text ∧
    r.startByte = p.1.tree.start.byte ∧ r.endByte = p.1.tree.stop

/-- A report is about a function, and has one entry for each of its open parameters. -/
def FunctionReport.IsFor (program : Program) (r : FunctionReport) (f : Place) : Prop :=
  r.name = f.tree.declaredName? ∧ r.line = f.tree.line ∧
    List.Forall₂ ParameterReport.IsFor r.parameters (program.openParameters f)

theorem Program.reportOf_isFor (program : Program) (settings : Settings) (f : Place) :
    (program.reportOf settings f).IsFor program f := by
  refine ⟨rfl, rfl, ?_⟩
  rw [reportOf, List.forall₂_map_left_iff, List.forall₂_same]
  exact fun p _ => ⟨rfl, rfl, rfl, rfl⟩

/-- The reports of a run are about exactly the function declarations with an open parameter, wherever
they stand, in document order and each once; their entries are the open parameters by position. -/
theorem infer_reports_open_parameters (root : Tree) (settings : Settings) :
    let program := Program.ofTree root
    ∃ fs : List Place,
      (∀ f, f ∈ fs ↔ f.In root ∧ f.tree.isDeclaration = true ∧
        ∃ p ∈ f.parameters, program.parameterType p = some .dynamic) ∧
      fs.Pairwise Place.Before ∧
      List.Forall₂ (FunctionReport.IsFor program) (program.infer settings) fs := by
  intro program
  refine ⟨program.openFunctions, fun f => Program.mem_openFunctions_iff,
    program.openFunctions_pairwise, ?_⟩
  rw [Program.infer_eq, List.forall₂_map_left_iff, List.forall₂_same]
  exact fun f _ => program.reportOf_isFor settings f

end UsageTypes
