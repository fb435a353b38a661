import UsageTypes.Proofs.EvidenceTypes
import UsageTypes.Proofs.Growth

/-! Additions that do not interfere. Statements behind a program leave its reports as they are, if
what they declare is not named in it and no call in them reaches a function of it: callees mean what
they meant, the references in types have the members that they had, and functions are called by the
same calls. -/

namespace UsageTypes

namespace Ty

mutual

/-- The texts of the references in a type. -/
def mentions : Ty → List String
  | .dynamic | .primitive _ => []
  | .array x => x.mentions
  | .shape fields => mentionsFields fields
  | .named text => [text]
  | .inter members => mentionsAll members
  | .function params returns => mentionsAll params ++ returns.mentions

def mentionsFields : List (String × Ty) → List String
  | [] => []
  | (_, t) :: fields => t.mentions ++ mentionsFields fields

def mentionsAll : List Ty → List String
  | [] => []
  | t :: ts => t.mentions ++ mentionsAll ts

end

/-- A type that refers to none of the given names. -/
def Avoids (names : List String) (t : Ty) : Prop :=
  ∀ name ∈ names, name ∉ t.mentions

theorem mem_mentionsAll {text : String} {ts : List Ty} :
    text ∈ mentionsAll ts ↔ ∃ t ∈ ts, text ∈ t.mentions := by
  induction ts with
  | nil => simp [mentionsAll]
  | cons t ts ih => simp [mentionsAll, ih]

theorem mem_mentionsFields {text : String} {fields : List (String × Ty)} :
    text ∈ mentionsFields fields ↔ ∃ f ∈ fields, text ∈ f.2.mentions := by
  induction fields with
  | nil => simp [mentionsFields]
  | cons f fields ih => simp [mentionsFields, ih]

theorem mentions_of_mem_parts {t u : Ty} (h : u ∈ t.parts) : u.mentions ⊆ t.mentions := by
  cases t with
  | inter members => exact fun _ hs => mem_mentionsAll.mpr ⟨u, h, hs⟩
  | _ =>
    obtain rfl := List.mem_singleton.mp h
    exact List.Subset.refl _

namespace Avoids

variable {names : List String}

theorem all_iff {ts : List Ty} :
    (∀ name ∈ names, name ∉ mentionsAll ts) ↔ ∀ t ∈ ts, t.Avoids names := by
  simp only [mem_mentionsAll, not_exists, not_and, Avoids]
  exact ⟨fun h t ht name hname => h name hname t ht, fun h name hname t ht => h t ht name hname⟩

theorem named_iff {text : String} : (Ty.named text).Avoids names ↔ text ∉ names := by
  simp only [Avoids, mentions, List.mem_singleton]
  exact ⟨fun h hmem => h text hmem rfl, fun h name hname he => h (he ▸ hname)⟩

theorem interOf {ts : List Ty} (h : ∀ t ∈ ts, t.Avoids names) : (Ty.interOf ts).Avoids names := by
  have hparts : ∀ u ∈ (ts.flatMap parts).eraseDups, u.Avoids names := by
    intro u hu name hname hmem
    obtain ⟨t, ht, hu⟩ := List.mem_flatMap.mp (List.mem_eraseDups.mp hu)
    exact h t ht name hname (mentions_of_mem_parts hu hmem)
  rw [Ty.interOf]
  split
  · simp [Avoids, mentions]
  · rename_i t he
    exact hparts t (by rw [he]; exact List.mem_cons_self)
  · exact all_iff.mpr hparts

theorem hereditary (names : List String) : Ty.Hereditary (Avoids names) where
  dynamic := by simp [Avoids, mentions]
  primitive kind := by simp [Avoids, mentions]
  array := Iff.rfl
  shape {fields} := by
    simp only [Avoids, mentions, mem_mentionsFields, not_exists, not_and]
    exact ⟨fun h f hf name hname => h name hname f hf, fun h name hname f hf => h f hf name hname⟩
  function {params returns} := by
    rw [← all_iff]
    simp only [Avoids, mentions, List.mem_append, not_or]
    exact ⟨fun h => ⟨fun name hname => (h name hname).1, fun name hname => (h name hname).2⟩,
      fun h name hname => ⟨h.1 name hname, h.2 name hname⟩⟩
  interOf := interOf
  members := all_iff.mp

end Avoids

end Ty

section Tables

variable {P : Ty → Prop} (hP : Ty.Hereditary P)

theorem unclaimed_congr {members others : MemberTable}
    (hmembers : ∀ name, P (.named name) → members name = others name) {leaves : List Leaf}
    (hl : ∀ leaf ∈ leaves, leaf.All P) (fields : List (String × Ty)) :
    unclaimed members leaves fields = unclaimed others leaves fields := by
  have hnames : (namesOf leaves).filterMap members = (namesOf leaves).filterMap others :=
    List.filterMap_congr fun text htext => hmembers text (hl _ (mem_namesOf_iff.mp htext))
  simp only [unclaimed, combineNamed, hnames]

include hP

/-- Synthesis looks up only what the evidence and the strategy refer to. -/
theorem synthesize_congr {members others : MemberTable}
    (hmembers : ∀ name, P (.named name) → members name = others name) {strategy : Strategy}
    (hs : strategy.Keeps P) (policy : ConflictPolicy) {evidence : List Evidence}
    (he : ∀ e ∈ evidence, ∀ t ∈ e.types, P t) :
    synthesize members strategy policy evidence = synthesize others strategy policy evidence := by
  rw [synthesize, synthesize, Trie.resolve_ofEvidence, Trie.resolve_ofEvidence]
  have hatoms := atomsOf_hereditary hP hs he
  generalize atomsOf strategy evidence = atoms at hatoms
  generalize Path.root = p
  induction p using reference.induct atoms with
  | case1 p ih =>
    have hleaves : ∀ leaf ∈ leavesAt p atoms, leaf.All P :=
      fun leaf hl => hatoms _ (mem_leavesAt_iff.mp hl)
    have hfields : ((segmentsBelow p atoms).map fun s =>
          (s, reference members policy atoms (p.child s))) =
        (segmentsBelow p atoms).map fun s => (s, reference others policy atoms (p.child s)) :=
      List.map_congr_left fun s hs => by rw [ih ⟨s, hs⟩]
    rw [reference_eq, reference_eq, hfields]
    simp only [outcome, unclaimed_congr hmembers hleaves]

variable {T : Tree → Prop} (hT : Tree.Referring P T)

include hT

omit hP in
theorem inherited_referring {d t : Tree} (hd : T d) (ht : t ∈ inherited d) :
    T t ∧ t.isFiller = false := by
  have hchild : ∀ l : Label, t ∈ (d.child? l).toList → T t ∧ t.isFiller = false :=
    fun l h => ⟨hT.child? hd (Option.mem_toList.mp h), Tree.isFiller_of_child? (Option.mem_toList.mp h)⟩
  rw [inherited] at ht
  split at ht
  · rcases List.mem_append.mp ht with ht | ht
    · obtain ⟨clause, hclause, ht⟩ := List.mem_flatMap.mp ht
      have hTc := hT.of_mem_named hd (List.mem_filter.mp hclause).1
      exact ⟨hT.of_mem_named hTc ht, Tree.isFiller_of_mem_named ht⟩
    · exact hchild .body ht
  · split at ht
    · exact hchild .value ht
    · cases ht

variable {program other : Program}
  (hdeclared : ∀ name, P (.named name) → program.typeDeclaration? name = other.typeDeclaration? name)
  (hsources : ∀ name d, program.typeDeclaration? name = some d → T d)

include hdeclared hsources

/-- Members are listed alike where the references on the way are declared alike. -/
theorem listMembers_congr (budget : Nat) {t : Ty} (ht : P t) (s : Listing) :
    program.listMembers budget t s = other.listMembers budget t s := by
  induction budget generalizing t s with
  | zero => cases t <;> rfl
  | succ budget ih =>
    cases t with
    | named name =>
      rw [Program.listMembers, Program.listMembers, ← hdeclared name ht]
      cases hd : program.typeDeclaration? name with
      | none => rfl
      | some d =>
        have hfold : ∀ s : Listing, (inherited d).foldl
            (fun s t => program.listMembers budget (resolveType t) (s.cut t)) s =
            (inherited d).foldl (fun s t => other.listMembers budget (resolveType t) (s.cut t)) s := by
          refine fun s => List.foldl_ext _ _ _ fun s t ht => ?_
          obtain ⟨htT, hfiller⟩ := inherited_referring hT (hsources name d hd) ht
          exact ih (resolve_hereditary hP hT _ htT hfiller) _
        simp only [hfold]
    | inter members =>
      rw [Program.listMembers, Program.listMembers]
      exact List.foldl_ext _ _ _ fun s t hmem => ih (hP.members ht t hmem) s
    | _ => rfl

theorem memberTable_congr (name : String) (h : P (.named name)) :
    program.memberTable name = other.memberTable name := by
  simp only [Program.memberTable, Program.members?, Program.listing, hdeclared name h,
    listMembers_congr hP hT hdeclared hsources _ h]

end Tables

namespace Tree

mutual

/-- The texts of the nodes of a tree, and of the tokens that play a role. -/
def texts : Tree → List String
  | .blank _ | .token none _ => []
  | .token (some _) s => [s]
  | .node _ _ _ cs => textAll cs :: textsAll cs

def textsAll : List Tree → List String
  | [] => []
  | t :: ts => t.texts ++ textsAll ts

end

/-- The interfaces, aliases and classes that are declared anywhere in trees, by name. -/
def typeNames (ts : List Tree) : List String :=
  ((nodesAll ts).filter Program.isTypeDeclaration).filterMap declaredName?

theorem mem_textsAll {ts : List Tree} {s : String} : s ∈ textsAll ts ↔ ∃ t ∈ ts, s ∈ t.texts := by
  induction ts with
  | nil => simp [textsAll]
  | cons t ts ih => simp [textsAll, ih]

theorem texts_subset_of_mem_children {t c : Tree} (h : c ∈ t.children) : c.texts ⊆ t.texts := by
  cases t with
  | node l k p cs => exact fun s hs => List.mem_cons_of_mem _ (mem_textsAll.mpr ⟨c, h, hs⟩)
  | _ => cases h

theorem text_mem_texts {t : Tree} (h : t.isFiller = false) : t.text ∈ t.texts := by
  cases t with
  | blank s => cases h
  | token l s =>
    cases l with
    | none => cases h
    | some l => exact List.mem_singleton_self s
  | node l k p cs => exact List.mem_cons_self

/-- Trees without the given names refer to none of them. -/
theorem referring_avoids (names : List String) :
    Referring (Ty.Avoids names) fun t => ∀ name ∈ names, name ∉ t.texts where
  child ht hc name hname hmem := ht name hname (texts_subset_of_mem_children hc hmem)
  named ht hfiller := Ty.Avoids.named_iff.mpr fun hmem => ht _ hmem (text_mem_texts hfiller)

theorem Referring.of_mem_nodes {P : Ty → Prop} {T : Tree → Prop} (hT : Referring P T) {t d : Tree}
    (ht : T t) (hd : d ∈ t.nodes) : T d := by
  rw [← map_tree_places [] t] at hd
  obtain ⟨p, hp, rfl⟩ := List.mem_map.mp hd
  exact (Place.mem_nodes_iff.mp hp).of_children hT.child ht

end Tree

section Types

theorem typeDeclarations_append (cs added : List Tree) :
    (Program.ofTree (.ofStatements (cs ++ added))).typeDeclarations =
      (Program.ofTree (.ofStatements cs)).typeDeclarations ++
        (Program.ofTree (.ofStatements added)).typeDeclarations := by
  simp [Program.typeDeclarations_ofTree, Tree.ofStatements, Tree.nodes, Tree.nodesAll_append,
    Program.isTypeDeclaration, Tree.is, Tree.kind?]

theorem typeDeclaration?_eq_none {added : List Tree} {name : String}
    (h : name ∉ Tree.typeNames added) :
    (Program.ofTree (.ofStatements added)).typeDeclaration? name = none := by
  rw [Program.typeDeclaration?, List.lookup_eq_none_iff]
  intro entry hentry
  rw [Program.typeDeclarations_ofTree] at hentry
  obtain ⟨d, hd, hname⟩ := List.mem_filterMap.mp hentry
  obtain ⟨hd, htype⟩ := List.mem_filter.mp hd
  obtain ⟨found, hfound, rfl⟩ := Option.map_eq_some_iff.mp hname
  rcases List.mem_cons.mp hd with rfl | hd
  · cases htype
  · rw [bne_iff_ne]
    refine fun he => h ?_
    exact List.mem_filterMap.mpr ⟨d, List.mem_filter.mpr ⟨hd, htype⟩, he ▸ hfound⟩

theorem typeDeclaration?_append {added : List Tree} (cs : List Tree) {name : String}
    (h : name ∉ Tree.typeNames added) :
    (Program.ofTree (.ofStatements cs)).typeDeclaration? name =
      (Program.ofTree (.ofStatements (cs ++ added))).typeDeclaration? name := by
  have hadded := typeDeclaration?_eq_none h
  rw [Program.typeDeclaration?] at hadded
  rw [Program.typeDeclaration?, Program.typeDeclaration?, typeDeclarations_append,
    List.lookup_append, hadded, Option.or_none]

theorem mem_nodes_of_typeDeclaration? {root d : Tree} {name : String}
    (h : (Program.ofTree root).typeDeclaration? name = some d) : d ∈ root.nodes := by
  obtain ⟨pre, post, he, -⟩ := List.lookup_eq_some_iff.mp h
  have hentry : (name, d) ∈ (Program.ofTree root).typeDeclarations := by simp [he]
  rw [Program.typeDeclarations_ofTree] at hentry
  obtain ⟨u, hu, hname⟩ := List.mem_filterMap.mp hentry
  obtain ⟨found, -, heq⟩ := Option.map_eq_some_iff.mp hname
  obtain ⟨-, rfl⟩ := Prod.mk.inj heq
  exact (List.mem_filter.mp hu).1

/-- References that avoid the added types have the members that they had. -/
theorem memberTable_grown {cs added : List Tree}
    (hnew : ∀ name ∈ Tree.typeNames added, name ∉ (Tree.ofStatements cs).texts) (name : String)
    (h : (Ty.named name).Avoids (Tree.typeNames added)) :
    (Program.ofTree (.ofStatements cs)).memberTable name =
      (Program.ofTree (.ofStatements (cs ++ added))).memberTable name := by
  have hT := Tree.referring_avoids (Tree.typeNames added)
  refine memberTable_congr (Ty.Avoids.hereditary _) hT (fun name hname => ?_) (fun name d hd => ?_)
    name h
  · exact typeDeclaration?_append cs (Ty.Avoids.named_iff.mp hname)
  · exact hT.of_mem_nodes hnew (mem_nodes_of_typeDeclaration? hd)

end Types

namespace Place

/-- Whether a place belongs to the statements of its program from a position on. -/
def isBehind (n : Nat) (p : Place) : Bool :=
  p.address.getLast?.any (n ≤ ·)

variable {cs added : List Tree}

theorem isBehind_eq_false_of_grown {p q : Place} (h : p.Grown cs added q) :
    q.isBehind cs.length = false := by
  have haddress : ∃ l i, q.address = l ++ [i] ∧ i < cs.length := by
    induction h with
    | @top t i hi => exact ⟨[], i, rfl, (List.getElem?_eq_some_iff.mp hi).1⟩
    | @child t u i above above' _ hi ih =>
      obtain ⟨l, j, hl, hj⟩ := ih
      exact ⟨i :: l, j, congrArg (i :: ·) hl, hj⟩
  obtain ⟨l, i, hl, hi⟩ := haddress
  simp [isBehind, hl, hi]

/-- The places of the program come first, and those of the added statements stand behind them. -/
theorem nodes_ofStatements (cs added : List Tree) : ∃ old new : List Place,
    nodes ⟨.ofStatements (cs ++ added), []⟩ = ⟨.ofStatements (cs ++ added), []⟩ :: (old ++ new) ∧
      (∀ p ∈ new, p.isBehind cs.length = true) ∧
      ∃ before, nodes ⟨.ofStatements cs, []⟩ = ⟨.ofStatements cs, []⟩ :: before ∧
        List.Forall₂ (Grown cs added) before old := by
  obtain ⟨old, new, hwhole, hold, hnew⟩ := named_ofStatements cs added
  refine ⟨old.flatMap nodes, new.flatMap nodes, ?_, ?_, _, nodes_eq rfl, ?_⟩
  · rw [nodes_eq rfl, hwhole, List.flatMap_append]
  · intro p hp
    obtain ⟨s, hs, hp⟩ := List.mem_flatMap.mp hp
    obtain ⟨-, k, hk, haddress⟩ := hnew s hs
    obtain ⟨l, hl⟩ := address_suffix_of_mem_nodes hp
    rw [haddress] at hl
    simp [isBehind, ← hl, hk]
  · exact flatMap_rel hold fun a _ b hab =>
      places_mirror (fun hcd => by rw [hcd.tree_eq]) (fun _ => rfl)
        (fun hcd _ => hcd.children_rel) hab hab.children_rel

end Place

namespace Program

/-- The functions that the calls behind a position reach. -/
def calledBehind (program : Program) (n : Nat) : List Place :=
  ((program.places.filter fun p => p.is .callExpression && p.isBehind n).filterMap
    (·.child? .callee)).filterMap program.resolveFunction

theorem mem_calledBehind {program : Program} {n : Nat} {p : Place} (hp : p ∈ program.places)
    (hbehind : p.isBehind n = true) {address : List Nat} {count : Nat}
    (h : program.calledAt p = some (address, count)) :
    ∃ f ∈ program.calledBehind n, f.address = address := by
  rw [calledAt, plainCall?] at h
  split at h
  · rename_i hcall
    split at h
    · rename_i callee arguments hcallee _
      split at h
      · obtain ⟨f, hf, he⟩ := Option.map_eq_some_iff.mp h
        obtain ⟨rfl, -⟩ := Prod.mk.inj he
        refine ⟨f, List.mem_filterMap.mpr ⟨callee, List.mem_filterMap.mpr ⟨p, ?_, hcallee⟩, hf⟩, rfl⟩
        exact List.mem_filter.mpr ⟨hp, by simp [hcall, hbehind]⟩
      · cases h
    · cases h
  · cases h

end Program

section Additions

variable {cs added : List Tree}
  (hnames : ∀ name ∈ Tree.bindings added, name ∉ (Tree.ofStatements cs).identifiers)

include hnames

/-- The calls of the program come first, and those of the added statements stand behind them. -/
theorem calls_grown : ∃ late : List (List Nat × Nat),
    (Program.ofTree (.ofStatements (cs ++ added))).calls =
      (Program.ofTree (.ofStatements cs)).calls ++ late ∧
    ∀ called ∈ late, ∃ f ∈ (Program.ofTree (.ofStatements (cs ++ added))).calledBehind cs.length,
      f.address = called.1 := by
  obtain ⟨old, new, hwhole, hnew, before, hbefore, hold⟩ := Place.nodes_ofStatements cs added
  refine ⟨new.filterMap (Program.ofTree (.ofStatements (cs ++ added))).calledAt, ?_, ?_⟩
  · have hroot : ∀ ts, (Program.ofTree (.ofStatements ts)).calledAt ⟨.ofStatements ts, []⟩ = none :=
      fun _ => rfl
    have hsame : before.filterMap (Program.ofTree (.ofStatements cs)).calledAt =
        old.filterMap (Program.ofTree (.ofStatements (cs ++ added))).calledAt :=
      filterMap_eq_of_forall₂ hold fun _ _ hab =>
        (mirrors_of_grown hnames).calledAt_eq (fun hfg => hfg.address_eq) hab
    have hplaces : (Program.ofTree (.ofStatements (cs ++ added))).places =
        ⟨.ofStatements (cs ++ added), []⟩ :: (old ++ new) := hwhole
    have hplaces' : (Program.ofTree (.ofStatements cs)).places = ⟨.ofStatements cs, []⟩ :: before :=
      hbefore
    rw [Program.calls_eq_filterMap (Program.plainCalls_ofTree _),
      Program.calls_eq_filterMap (Program.plainCalls_ofTree _), hplaces, hplaces',
      List.filterMap_cons_none (hroot _), List.filterMap_cons_none (hroot _),
      List.filterMap_append, hsame]
  · rintro ⟨address, count⟩ hmem
    obtain ⟨p, hp, hcalled⟩ := List.mem_filterMap.mp hmem
    have hplace : p ∈ (Program.ofTree (.ofStatements (cs ++ added))).places := by
      rw [Program.places, Program.ofTree, hwhole]
      exact List.mem_cons_of_mem _ (List.mem_append_right _ hp)
    exact Program.mem_calledBehind hplace (hnew p hp) hcalled

variable (hcalls : ∀ f ∈ (Program.ofTree (.ofStatements (cs ++ added))).calledBehind cs.length,
  f.isBehind cs.length = true)

include hcalls

/-- A function is called as before by the program, and by nothing that was added. -/
theorem arities_grown {f g : Place} (h : f.Grown cs added g) :
    (Program.ofTree (.ofStatements cs)).arities f =
      (Program.ofTree (.ofStatements (cs ++ added))).arities g := by
  obtain ⟨late, hwhole, hlate⟩ := calls_grown hnames
  have hnone : Program.countsAt late g = [] := by
    rw [Program.countsAt, List.filterMap_eq_nil_iff]
    rintro called hmem
    obtain ⟨called', hf, haddress⟩ := hlate called hmem
    refine if_neg fun he => ?_
    have hbehind := hcalls called' hf
    rw [Place.isBehind, haddress, he, ← Place.isBehind, Place.isBehind_eq_false_of_grown h] at hbehind
    cases hbehind
  have happend : ∀ calls, Program.countsAt (calls ++ late) g = Program.countsAt calls g := by
    intro calls
    rw [Program.countsAt, List.filterMap_append, ← Program.countsAt, ← Program.countsAt, hnone,
      List.append_nil]
  rw [Program.arities, Program.arities, hwhole, happend, Program.countsAt, Program.countsAt,
    h.address_eq]

variable {settings : Settings}
  (htypes : ∀ name ∈ Tree.typeNames added, name ∉ (Tree.ofStatements cs).texts)
  (hstrategy : settings.strategy.Keeps (Ty.Avoids (Tree.typeNames added)))

include htypes hstrategy

omit hcalls in
/-- The evidence about a parameter refers to nothing that was added. -/
theorem slotType_grown {f g : Place} (h : f.Grown cs added g) {a b : Place} (i : Nat)
    (hab : a.Grown cs added b) :
    (Program.ofTree (.ofStatements cs)).slotType settings f
        ((Program.ofTree (.ofStatements cs)).slotAt (a, i)) =
      (Program.ofTree (.ofStatements (cs ++ added))).slotType settings g
        ((Program.ofTree (.ofStatements (cs ++ added))).slotAt (b, i)) := by
  have hP := Ty.Avoids.hereditary (Tree.typeNames added)
  have hT := Tree.referring_avoids (Tree.typeNames added)
  have hf : f.Among _ := h.among hT htypes
  have hevidence : ∀ e ∈ (Program.ofTree (.ofStatements cs)).slotEvidence settings.options.maxDepth f
      ((Program.ofTree (.ofStatements cs)).slotAt (a, i)), ∀ t ∈ e.types,
      t.Avoids (Tree.typeNames added) := by
    rw [Program.slotEvidence]
    split
    · rename_i name body _ hbody
      exact evidence_hereditary hP hT _ hf (hf.child? hT hbody) _ _
    · simp
  rw [Program.slotType, Program.slotType,
    ← Program.Mirrors.slotEvidence_eq _ (fun name => focus_grown hnames h name _)
      (h.child?_rel .body) (by rw [hab.tree_eq]) i]
  exact synthesize_congr hP (memberTable_grown htypes) hstrategy _ hevidence

theorem reportOf_grown {f g : Place} (h : f.Grown cs added g) :
    (Program.ofTree (.ofStatements cs)).reportOf settings f =
      (Program.ofTree (.ofStatements (cs ++ added))).reportOf settings g :=
  (mirrors_of_grown hnames).reportOf_eq settings h (fun hpq => by rw [hpq.tree_eq])
    (arities_grown hnames hcalls h) fun i hab => slotType_grown hnames htypes hstrategy h i hab

omit hcalls htypes hstrategy in
/-- The functions with open parameters of the program come first. -/
theorem openFunctions_grown : ∃ early,
    (Program.ofTree (.ofStatements (cs ++ added))).openFunctions = early ++
      (Program.ofTree (.ofStatements (cs ++ added))).openFunctions.filter (·.isBehind cs.length) ∧
    List.Forall₂ (Place.Grown cs added) (Program.ofTree (.ofStatements cs)).openFunctions early := by
  obtain ⟨old, new, hwhole, hnew, before, hbefore, hold⟩ := Place.nodes_ofStatements cs added
  let isOpen (ts : List Tree) (f : Place) : Bool :=
    f.parameters.any (Program.ofTree (.ofStatements ts)).isOpen && f.tree.isDeclaration
  have hopen : ∀ ts ps, Place.nodes ⟨.ofStatements ts, []⟩ = ⟨.ofStatements ts, []⟩ :: ps →
      (Program.ofTree (.ofStatements ts)).openFunctions = ps.filter (isOpen ts) := by
    intro ts ps h
    rw [Program.openFunctions, Program.declarations, Program.places, Program.ofTree, h,
      List.filter_filter]
    exact List.filter_cons_of_neg (by simp [Tree.ofStatements, Tree.isDeclaration, Tree.kind?,
      Kind.isDeclaration])
  have hearly : (old.filter (isOpen (cs ++ added))).filter (·.isBehind cs.length) = [] := by
    refine List.filter_eq_nil_iff.mpr fun f hf => ?_
    have hgrown := forall_mem_of_forall₂ hold fun _ _ h => Place.isBehind_eq_false_of_grown h
    simp [hgrown f (List.mem_filter.mp hf).1]
  have hlate : (new.filter (isOpen (cs ++ added))).filter (·.isBehind cs.length) =
      new.filter (isOpen (cs ++ added)) :=
    List.filter_eq_self.mpr fun f hf => hnew f (List.mem_filter.mp hf).1
  refine ⟨old.filter (isOpen (cs ++ added)), ?_, ?_⟩
  · rw [hopen _ _ hwhole, List.filter_append, List.filter_append, hearly, hlate, List.nil_append]
  · rw [hopen _ _ hbefore]
    refine filter_rel hold fun f g h => ?_
    simp only [isOpen, (mirrors_of_grown hnames).any_isOpen_eq h, h.tree_eq]

end Additions

/-- Statements behind a program leave its reports as they are, and only reports of their own follow:
if no function, class or variable that they declare has the name of an identifier of the program, no
type that they declare is the text of anything in it, no call in them reaches a function of it, and
the strategy does not refer to their types by itself. -/
theorem infer_append (cs added : List Tree) (settings : Settings)
    (hnames : ∀ name ∈ Tree.bindings added, name ∉ (Tree.ofStatements cs).identifiers)
    (htypes : ∀ name ∈ Tree.typeNames added, name ∉ (Tree.ofStatements cs).texts)
    (hcalls : ∀ f ∈ (Program.ofTree (.ofStatements (cs ++ added))).calledBehind cs.length,
      f.isBehind cs.length = true)
    (hstrategy : settings.strategy.Keeps (Ty.Avoids (Tree.typeNames added))) :
    (Program.ofTree (.ofStatements (cs ++ added))).infer settings =
      (Program.ofTree (.ofStatements cs)).infer settings ++
        ((Program.ofTree (.ofStatements (cs ++ added))).openFunctions.filter
          (·.isBehind cs.length)).map
            ((Program.ofTree (.ofStatements (cs ++ added))).reportOf settings) := by
  obtain ⟨old, hwhole, hold⟩ := openFunctions_grown hnames
  rw [Program.infer_eq, Program.infer_eq, hwhole, List.map_append, ← hwhole]
  congr 1
  exact (map_eq_of_forall₂ hold fun _ _ h => reportOf_grown hnames hcalls htypes hstrategy h).symm

theorem infer_append_unrelated :
    let t := (readProgram "interface A { k: any } function g(a: A) {}
      function f(p, q) { g(p); p.k; p.l; q.m() } f(1)
      interface B { l: any } function h(r) { s(r) } function s(b: B) {} h()").getD default
    let cs := t.children.take 7
    let added := t.children.drop 7
    let program := Program.ofTree (.ofStatements cs)
    let whole := Program.ofTree (.ofStatements (cs ++ added))
    let settings := Settings.ofOptions .default
    (Tree.bindings added = ["h", "s"] ∧
        ∀ name ∈ Tree.bindings added, name ∉ (Tree.ofStatements cs).identifiers) ∧
      (Tree.typeNames added = ["B"] ∧
        ∀ name ∈ Tree.typeNames added, name ∉ (Tree.ofStatements cs).texts) ∧
      ((whole.calledBehind cs.length).map (·.tree.declaredName?) = [some "s", some "h"] ∧
        ∀ f ∈ whole.calledBehind cs.length, f.isBehind cs.length = true) ∧
      (whole.infer settings).map (·.display) =
        ["p: A & \x7b l: any; \x7d, q: \x7b m: () => any; \x7d?", "r: B?"] ∧
      whole.infer settings = program.infer settings ++
        (whole.openFunctions.filter (·.isBehind cs.length)).map (whole.reportOf settings) := by
  intro t cs added program whole settings
  have hfacts : (Tree.bindings added = ["h", "s"] ∧
        ∀ name ∈ Tree.bindings added, name ∉ (Tree.ofStatements cs).identifiers) ∧
      (Tree.typeNames added = ["B"] ∧
        ∀ name ∈ Tree.typeNames added, name ∉ (Tree.ofStatements cs).texts) ∧
      ((whole.calledBehind cs.length).map (·.tree.declaredName?) = [some "s", some "h"] ∧
        ∀ f ∈ whole.calledBehind cs.length, f.isBehind cs.length = true) ∧
      (whole.infer settings).map (·.display) =
        ["p: A & \x7b l: any; \x7d, q: \x7b m: () => any; \x7d?", "r: B?"] := by
    decide +kernel
  obtain ⟨⟨hbound, hnames⟩, ⟨hdeclared, htypes⟩, ⟨hreached, hcalls⟩, hdisplay⟩ := hfacts
  have hstrategy := methodStrategy_keeps (Ty.Avoids.hereditary (Tree.typeNames added)) .default
  exact ⟨⟨hbound, hnames⟩, ⟨hdeclared, htypes⟩, ⟨hreached, hcalls⟩, hdisplay,
    infer_append cs added settings hnames htypes hcalls hstrategy⟩

/-- A strategy may refer to a type by itself. A declaration of that type is then seen by a program in
which it is named nowhere. -/
theorem infer_append_of_table_reference :
    let t := (readProgram
      "function f(p) { p.m(); p.m.q } interface Foo { q: any }").getD default
    let cs := t.children.take 1
    let added := t.children.drop 1
    let program := Program.ofTree (.ofStatements cs)
    let whole := Program.ofTree (.ofStatements (cs ++ added))
    let settings : Settings := ⟨.default, .table [("m", .member (.named "Foo"))]⟩
    (∀ name ∈ Tree.bindings added, name ∉ (Tree.ofStatements cs).identifiers) ∧
      (∀ name ∈ Tree.typeNames added, name ∉ (Tree.ofStatements cs).texts) ∧
      (∀ f ∈ whole.calledBehind cs.length, f.isBehind cs.length = true) ∧
      (program.infer settings).map (·.display) = ["p: \x7b m: Foo & \x7b q: any; \x7d; \x7d"] ∧
      (whole.infer settings).map (·.display) = ["p: \x7b m: Foo; \x7d"] ∧
      whole.infer settings ≠ program.infer settings ++
        (whole.openFunctions.filter (·.isBehind cs.length)).map (whole.reportOf settings) := by
  decide +kernel

end UsageTypes
