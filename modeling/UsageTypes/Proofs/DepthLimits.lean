import Mathlib.Data.List.Flatten
import Mathlib.Data.List.Infix
import UsageTypes.Proofs.LongChains

/-! The depth limit. It bounds how deep the walk goes and how long the access chains are that it follows.
What a lower limit leaves out of an access chain is read off the parts of the chain instead, which say no
more than the whole chain; so a higher limit only adds evidence, and none is added beyond the height of
the body. -/

namespace UsageTypes

namespace Tree

/-- As far as a tree is high, a limit `m` is no lower than `n`. -/
def Allows (t : Tree) (n m : Nat) : Prop :=
  n ≤ m ∨ t.height ≤ m

variable {t c : Tree} {n m : Nat}

theorem Allows.of_mem_children (h : t.Allows n m) (hc : c ∈ t.children) : c.Allows n m :=
  h.imp_right fun hheight => Nat.le_trans (Nat.le_of_lt (height_lt_of_mem_children hc)) hheight

theorem Allows.below (h : t.Allows (n + 1) (m + 1)) (hc : c ∈ t.children) : c.Allows n m :=
  h.imp Nat.le_of_succ_le_succ fun hheight =>
    Nat.le_of_lt_succ (Nat.lt_of_lt_of_le (height_lt_of_mem_children hc) hheight)

end Tree

namespace Place

theorem exists_list_of_mem_arguments {p c : Place} {arguments : List Place}
    (ha : p.arguments? = some arguments) (hc : c ∈ arguments) :
    ∃ list ∈ p.tree.children, c.tree ∈ list.children := by
  rw [arguments?] at ha
  split at ha
  · rename_i list hlist
    split at ha
    · obtain rfl := Option.some.inj ha
      exact ⟨list.tree, tree_mem_of_child? hlist, tree_mem_of_mem_named (List.mem_filter.mp hc).1⟩
    · cases ha
  · cases ha

end Place

theorem sublist_flatMap_toList {α β : Type} {o : Option α} {F G : α → List β}
    (h : ∀ a, o = some a → (F a).Sublist (G a)) : (o.toList.flatMap F).Sublist (o.toList.flatMap G) :=
  List.Sublist.flatMap_right _ fun a ha => h a (Option.mem_toList.mp ha)

namespace Focus

open UsageTypes.Tree

/-- The same search with another limit. -/
def upTo (f : Focus) (limit : Nat) : Focus :=
  { f with limit }

section Operators

variable {f : Focus} {d d' : Nat} {p : Place}

/-- An access chain that is followed is followed to the same path with a higher limit. -/
theorem path?_eq_some_upTo (h : p.tree.Allows (d + 1) (d' + 1)) {path : Path}
    (hpath : (f.upTo d).path? p = some path) : (f.upTo d').path? p = some path := by
  obtain ⟨hreaches, hlength⟩ := path?_eq_some_iff.mp hpath
  have hheight := hreaches.length_lt_height
  have hlimit : path.length ≤ d' := by
    change path.length ≤ d at hlength
    rcases h with h | h <;> omega
  exact path?_eq_some_iff.mpr ⟨hreaches, hlimit⟩

theorem path?_upTo (h : p.tree.Allows (d + 1) (d' + 1)) :
    (f.upTo d).path? p = none ∨ (f.upTo d).path? p = (f.upTo d').path? p := by
  cases hpath : (f.upTo d).path? p with
  | none => exact .inl rfl
  | some path => exact .inr (path?_eq_some_upTo h hpath).symm

theorem operandEvents_sublist (h : p.tree.Allows (d + 1) (d' + 1)) (rule : OperandRule)
    (other : Option Place) : (evidenceIn ((f.upTo d).operandEvents rule p other)).Sublist
      (evidenceIn ((f.upTo d').operandEvents rule p other)) := by
  rw [operandEvents, operandEvents, evidenceIn_append, evidenceIn_append, evidenceIn_chainEvents,
    evidenceIn_chainEvents]
  rcases path?_upTo (f := f) h with hpath | hpath
  · rw [hpath]
    exact List.nil_sublist _
  · rw [hpath]
    exact List.Sublist.refl _

theorem operands_sublist (h : p.tree.Allows (d + 1) (d' + 1)) (rule : OperandRule) (l : Label)
    (other : Option Place) :
    ((p.child? l).toList.flatMap fun c => evidenceIn ((f.upTo d).operandEvents rule c other)).Sublist
      ((p.child? l).toList.flatMap fun c => evidenceIn ((f.upTo d').operandEvents rule c other)) :=
  sublist_flatMap_toList fun _ hc =>
    operandEvents_sublist (h.of_mem_children (Place.tree_mem_of_child? hc)) rule other

theorem binaryEvents_sublist (h : p.tree.Allows (d + 1) (d' + 1)) :
    (evidenceIn ((f.upTo d).binaryEvents p)).Sublist (evidenceIn ((f.upTo d').binaryEvents p)) := by
  rw [binaryEvents, binaryEvents]
  split
  · exact List.Sublist.refl _
  · simp only [evidenceIn_append, evidenceIn_flatMap]
    exact (operands_sublist h _ .left _).append (operands_sublist h _ .right _)

theorem compoundEvents_sublist (h : p.tree.Allows (d + 1) (d' + 1)) :
    (evidenceIn ((f.upTo d).compoundEvents p)).Sublist (evidenceIn ((f.upTo d').compoundEvents p)) := by
  rw [compoundEvents, compoundEvents]
  split
  · exact List.Sublist.refl _
  · split
    · exact List.Sublist.refl _
    · split
      · exact List.Sublist.refl _
      · simp only [evidenceIn_flatMap]
        exact operands_sublist h _ .left _

theorem unaryEvents_sublist (h : p.tree.Allows (d + 1) (d' + 1)) :
    (evidenceIn ((f.upTo d).unaryEvents p)).Sublist (evidenceIn ((f.upTo d').unaryEvents p)) := by
  rw [unaryEvents, unaryEvents]
  split
  · simp only [evidenceIn_flatMap]
    exact operands_sublist h _ .argument _
  · exact List.Sublist.refl _

theorem assignEvents_sublist (h : p.tree.Allows (d + 1) (d' + 1)) (right : Option Place) :
    (evidenceIn ((f.upTo d).assignEvents (p.child? .left) right)).Sublist
      (evidenceIn ((f.upTo d').assignEvents (p.child? .left) right)) := by
  cases hl : p.child? .left with
  | none => exact List.Sublist.refl _
  | some l =>
    cases right with
    | none => exact List.Sublist.refl _
    | some r =>
      rw [assignEvents, assignEvents, evidenceIn_append, evidenceIn_append, evidenceIn_chainEvents,
        evidenceIn_chainEvents]
      rcases path?_upTo (f := f) (h.of_mem_children (Place.tree_mem_of_child? hl)) with hpath | hpath
      · rw [hpath]
        exact List.nil_sublist _
      · rw [hpath]
        exact List.Sublist.refl _

theorem ownEvents_sublist (h : p.tree.Allows (d + 1) (d' + 1)) :
    (evidenceIn ((f.upTo d).ownEvents p)).Sublist (evidenceIn ((f.upTo d').ownEvents p)) := by
  rw [ownEvents, ownEvents]
  split
  · exact binaryEvents_sublist h
  · exact compoundEvents_sublist h
  · exact assignEvents_sublist h _
  · exact unaryEvents_sublist h
  · exact unaryEvents_sublist h
  · exact List.Sublist.refl _

theorem argumentEvents_sublist (h : p.tree.Allows (d + 1) (d' + 1)) (callee function : Place) (index : Nat) :
    (evidenceIn ((f.upTo d).argumentEvents callee function index p)).Sublist
      (evidenceIn ((f.upTo d').argumentEvents callee function index p)) := by
  rw [argumentEvents, argumentEvents, evidenceIn_append, evidenceIn_append, evidenceIn_chainEvents,
    evidenceIn_chainEvents]
  rcases path?_upTo (f := f) h with hpath | hpath
  · rw [hpath]
    exact List.nil_sublist _
  · rw [hpath]
    exact List.Sublist.refl _

theorem passEvents_sublist {arguments : List Place} (h : ∀ a ∈ arguments, a.tree.Allows (d + 1) (d' + 1))
    (callee : Place) : (evidenceIn ((f.upTo d).passEvents callee arguments)).Sublist
      (evidenceIn ((f.upTo d').passEvents callee arguments)) := by
  have hresolve : (f.upTo d).program.resolveFunction callee =
      (f.upTo d').program.resolveFunction callee := rfl
  rw [passEvents, passEvents, hresolve]
  split
  · exact List.Sublist.refl _
  · simp only [evidenceIn_flatMap]
    refine List.Sublist.flatMap_right _ ?_
    rintro ⟨a, i⟩ ha
    have hmem : a ∈ arguments := (List.takeWhile_sublist _).subset (List.fst_mem_of_mem_zipIdx ha)
    exact argumentEvents_sublist (h a hmem) callee _ i

end Operators

section Calls

variable {f : Focus} {p callee : Place} {arguments : List Place}

theorem receiver?_eq_some_iff {path : Path} {name : String} : f.receiver? callee = some (path, name) ↔
    ∃ object, method? callee = some (object, name) ∧ f.path? object = some path := by
  rw [receiver?, Option.bind_eq_some_iff]
  constructor
  · rintro ⟨⟨object, n⟩, hmethod, hpath⟩
    obtain ⟨q, hq, heq⟩ := Option.map_eq_some_iff.mp hpath
    obtain ⟨rfl, rfl⟩ := (Prod.mk.injEq ..).mp heq
    exact ⟨object, hmethod, hq⟩
  · rintro ⟨object, hmethod, hpath⟩
    exact ⟨(object, name), hmethod, Option.map_eq_some_iff.mpr ⟨path, hpath, rfl⟩⟩

/-- A callee whose chain is followed names no method, or the chain of its receiver is followed too. -/
theorem method?_of_path? {path : Path} (hpath : f.path? callee = some path)
    (hreceiver : f.receiver? callee = none) : method? callee = none := by
  cases hmethod : method? callee with
  | none => rfl
  | some found =>
    obtain ⟨object, n⟩ := found
    obtain ⟨hreaches, hlength⟩ := path?_eq_some_iff.mp hpath
    obtain ⟨path', hchain, rfl⟩ := (reaches_iff_of_link? (link?_of_method? hmethod).2).mp hreaches
    rw [List.length_append] at hlength
    have hobject : f.path? object = some path' :=
      path?_eq_some_iff.mpr ⟨hchain, Nat.le_trans (Nat.le_add_right _ _) hlength⟩
    rw [receiver?_eq_some_iff.mpr ⟨object, hmethod, hobject⟩] at hreceiver
    cases hreceiver

/-- Where the chain of a callee is too long, the walk through the callee says no more than that the
receiver of its method is read. -/
theorem visit_sublist_receiver (f : Focus) (budget : Nat) (hslim : callee.tree.Slim)
    (hpath : f.path? callee = none) {object : Place} {n : String} {path : Path}
    (hmethod : method? callee = some (object, n)) (hreaches : object.tree.Reaches f.name path) :
    (evidenceIn (f.visit budget callee)).Sublist (evidenceIn (accessEvents path)) := by
  obtain ⟨hk, hlink⟩ := link?_of_method? hmethod
  have hgrows : callee.tree.Reaches f.name (path.child n) := hreaches.of_link? hlink
  cases budget with
  | zero => exact List.nil_sublist _
  | succ budget =>
    obtain ⟨q, hq, path', hc, hvisit⟩ := exists_visit_of_long hslim hgrows hpath
    obtain ⟨s, hs⟩ := hc.grows (by rw [hk]; rfl)
    have hsame : path = path' := (List.append_inj' hs rfl).1
    rw [hvisit, hsame]
    exact visit_sublist_accessEvents f budget (hslim.of_mem_children hc.mem) hc.reaches

end Calls

/-- A call says no less with a higher limit, if its parts do so. -/
theorem call_sublist {f : Focus} {d d' budget budget' : Nat} {p callee : Place} {arguments : List Place}
    (hcall : p.Calls callee arguments) (hpath : (f.upTo d).path? p = none)
    (hpath' : (f.upTo d').path? p = none) (hslim : p.tree.Slim)
    (hlimit : p.tree.Allows (d + 1) (d' + 1))
    (hvisit : (evidenceIn ((f.upTo d).visit budget callee)).Sublist
      (evidenceIn ((f.upTo d').visit budget' callee)))
    (hinside : (arguments.flatMap fun a => evidenceIn ((f.upTo d).visit budget a)).Sublist
      (arguments.flatMap fun a => evidenceIn ((f.upTo d').visit budget' a))) :
    (evidenceIn ((f.upTo d).visit (budget + 1) p)).Sublist
      (evidenceIn ((f.upTo d').visit (budget' + 1) p)) := by
  have hmem := Place.tree_mem_of_child? hcall.callee?_eq
  have hcalleeLimit := hlimit.of_mem_children hmem
  have hcalleeSlim := hslim.of_mem_children hmem
  rw [visit_of_calls hcall hpath, visit_of_calls hcall hpath']
  cases hreceiver : (f.upTo d).receiver? callee with
  | some found =>
    obtain ⟨path, name⟩ := found
    obtain ⟨object, hmethod, hobject⟩ := receiver?_eq_some_iff.mp hreceiver
    have hobjectLimit := hcalleeLimit.of_mem_children (mem_children_of_link? (link?_of_method? hmethod).2)
    have hobject' := path?_eq_some_upTo hobjectLimit hobject
    rw [receiver?_eq_some_iff.mpr ⟨object, hmethod, hobject'⟩]
    exact ((List.Sublist.refl _).append hinside).append (List.Sublist.refl _)
  | none =>
    cases hinvoked : (f.upTo d).path? callee with
    | some path =>
      have hmethod := method?_of_path? hinvoked hreceiver
      have hreceiver' : (f.upTo d').receiver? callee = none := by
        rw [receiver?, hmethod]
        rfl
      rw [hreceiver', path?_eq_some_upTo hcalleeLimit hinvoked]
      exact ((List.Sublist.refl _).append hinside).append (List.Sublist.refl _)
    | none =>
      cases hreceiver' : (f.upTo d').receiver? callee with
      | some found =>
        -- The method is called on a chain that only the higher limit follows.
        obtain ⟨path, name⟩ := found
        obtain ⟨object, hmethod, hobject⟩ := receiver?_eq_some_iff.mp hreceiver'
        have hreaches := (path?_eq_some_iff.mp hobject).1
        have hcallee := hreaches.of_link? (link?_of_method? hmethod).2
        rw [passEvents_of_reaches _ hcallee (List.append_ne_nil_of_right_ne_nil _ (List.cons_ne_nil _ _))]
        have hread := visit_sublist_receiver (f.upTo d) budget hcalleeSlim hinvoked hmethod hreaches
        exact (hread.append hinside).append (List.nil_sublist _)
      | none =>
        cases hinvoked' : (f.upTo d').path? callee with
        | some path =>
          -- The callee itself is a chain that only the higher limit follows.
          have hreaches := (path?_eq_some_iff.mp hinvoked').1
          have hlong : path ≠ [] := by
            rintro rfl
            have hfollowed := (path?_eq_some_iff (f := f.upTo d)).mpr ⟨hreaches, Nat.zero_le _⟩
            rw [hinvoked] at hfollowed
            cases hfollowed
          rw [passEvents_of_reaches _ hreaches hlong]
          have hread := visit_sublist_accessEvents (f.upTo d) budget hcalleeSlim hreaches
          exact (hread.append hinside).append (List.nil_sublist _)
        | none =>
          refine (hvisit.append hinside).append (passEvents_sublist (fun a ha => ?_) callee)
          obtain ⟨list, hlist, hmem⟩ := Place.exists_list_of_mem_arguments hcall.arguments?_eq ha
          exact (hlimit.of_mem_children hlist).of_mem_children hmem

/-- A node that is no chain says no less with a higher limit, if what stands below it does so. -/
theorem visit_succ_sublist {f : Focus} {d d' budget budget' : Nat} {p : Place} (hslim : p.tree.Slim)
    (hlimit : p.tree.Allows (d + 1) (d' + 1)) (hpath : (f.upTo d).path? p = none)
    (hpath' : (f.upTo d').path? p = none)
    (hchild : ∀ c : Place, c.tree ∈ p.tree.children → (evidenceIn ((f.upTo d).visit budget c)).Sublist
      (evidenceIn ((f.upTo d').visit budget' c)))
    (hgrandchild : ∀ u ∈ p.tree.children, ∀ c : Place, c.tree ∈ u.children →
      (evidenceIn ((f.upTo d).visit budget c)).Sublist (evidenceIn ((f.upTo d').visit budget' c))) :
    (evidenceIn ((f.upTo d).visit (budget + 1) p)).Sublist
      (evidenceIn ((f.upTo d').visit (budget' + 1) p)) := by
  by_cases hcall : ∃ callee arguments, p.Calls callee arguments
  · obtain ⟨callee, arguments, hcall⟩ := hcall
    refine call_sublist hcall hpath hpath' hslim hlimit
      (hchild callee (Place.tree_mem_of_child? hcall.callee?_eq))
      (List.Sublist.flatMap_right _ fun a ha => ?_)
    obtain ⟨list, hlist, hmem⟩ := Place.exists_list_of_mem_arguments hcall.arguments?_eq ha
    exact hgrandchild list hlist a hmem
  · simp only [not_exists] at hcall
    have hparts : (f.upTo d').parts p = (f.upTo d).parts p := rfl
    rw [visit_of_not_calls hpath hcall, visit_of_not_calls hpath' hcall, hparts]
    refine List.Sublist.append (List.Sublist.flatMap_right _ fun c hc => ?_) (ownEvents_sublist hlimit)
    exact hchild c (Place.tree_mem_children (mem_children_of_mem_parts hc))

/-- The walk finds no less with a higher limit and a higher budget. -/
theorem visit_sublist (f : Focus) {d d' budget budget' : Nat} {p : Place} (hslim : p.tree.Slim)
    (hlimit : p.tree.Allows (d + 1) (d' + 1)) (hbudget : p.tree.Allows budget budget') :
    (evidenceIn ((f.upTo d).visit budget p)).Sublist (evidenceIn ((f.upTo d').visit budget' p)) := by
  induction budget generalizing budget' p with
  | zero => exact List.nil_sublist _
  | succ budget ih =>
    cases hnamed : p.tree.isNamed with
    | false =>
      rw [visit_of_not_isNamed _ _ hnamed]
      exact List.nil_sublist _
    | true =>
      obtain ⟨budget', rfl⟩ : ∃ b, budget' = b + 1 := by
        refine Nat.exists_eq_succ_of_ne_zero fun hzero => ?_
        have hheight := height_pos_of_isNamed hnamed
        rcases hbudget with h | h <;> omega
      cases hpath' : (f.upTo d').path? p with
      | some path =>
        -- Whether or not the lower limit follows this chain, it finds no more than the chain says.
        rw [visit_of_path? hpath']
        exact visit_sublist_accessEvents (f.upTo d) _ hslim (path?_eq_some_iff.mp hpath').1
      | none =>
        have hpath : (f.upTo d).path? p = none := by
          rcases path?_upTo (f := f) hlimit with hnone | hsame
          · exact hnone
          · rw [hsame, hpath']
        refine visit_succ_sublist hslim hlimit hpath hpath' (fun c hc => ?_) fun u hu c hc => ?_
        · exact ih (hslim.of_mem_children hc) (hlimit.of_mem_children hc) (hbudget.below hc)
        · exact ih ((hslim.of_mem_children hu).of_mem_children hc)
            ((hlimit.of_mem_children hu).of_mem_children hc) ((hbudget.below hu).of_mem_children hc)

end Focus

/-- A higher limit keeps all evidence in its order, and no limit beyond the height of the body makes a
difference, unless parentheses in the body hold an annotation. -/
theorem evidence_sublist_of_le {source : String} {root : Tree} (hread : readProgram source = some root)
    {f body : Place} (hf : f.In root) (hbody : f.child? .body = some body)
    (hplain : body.tree.plainParentheses = true) (name : String) :
    let evidence := fun d => (Program.ofTree root).evidence f name d body
    (∀ d d', d ≤ d' → (evidence d).Sublist (evidence d')) ∧
      ∀ d d', body.tree.height ≤ d + 1 → body.tree.height ≤ d' + 1 → evidence d = evidence d' := by
  have hroomy : f.tree.Roomy := hf.of_children Tree.Roomy.of_mem_children (roomy_of_readProgram hread)
  have hslim := (hroomy.of_mem_children (Place.tree_mem_of_child? hbody)).slim hplain
  have hsublist : ∀ d d', body.tree.Allows (d + 1) (d' + 1) →
      ((Program.ofTree root).evidence f name d body).Sublist
        ((Program.ofTree root).evidence f name d' body) := fun d d' h =>
    Focus.visit_sublist ((Program.ofTree root).focus f name 0) hslim h h
  refine ⟨fun d d' h => hsublist d d' (.inl (Nat.succ_le_succ h)), fun d d' h h' => ?_⟩
  exact (hsublist d d' (.inr h')).antisymm (hsublist d' d (.inr h))

/-- A limit of 3 leaves out the method call but not its argument, one of 5 reads part of the chain that the
method is called on, one of 6 reads it all. -/
theorem evidence_sublist_of_le_long_receiver :
    let source := "function f(p) { p.a.b.c.d.e.f.push(p.x) }"
    let root := (readProgram source).getD default
    let program := Program.ofTree root
    let f := (program.declarations[0]?).getD default
    let body := (f.child? .body).getD default
    let evidence := fun d => program.evidence f "p" d body
    (readProgram source = some root ∧ f.In root ∧ f.child? .body = some body ∧
        body.tree.plainParentheses = true ∧ body.tree.height = 11) ∧
      evidence 3 = [.access [], .access ["x"]] ∧
      evidence 5 = ["a", "b", "c", "d", "e"].inits.map .access ++ evidence 3 ∧
      evidence 6 = ["a", "b", "c", "d", "e", "f"].inits.map .access ++ evidence 3 ++
        [.method ["a", "b", "c", "d", "e", "f"] "push" [.dynamic]] ∧
      (evidence 3).Sublist (evidence 5) ∧ (evidence 5).Sublist (evidence 6) ∧
      evidence 10 = evidence 256 := by
  intro source root program f body evidence
  have hfacts : (readProgram source).isSome = true ∧ (program.declarations[0]?).isSome = true ∧
      (f.child? .body).isSome = true ∧ body.tree.plainParentheses = true ∧ body.tree.height = 11 ∧
      evidence 3 = [.access [], .access ["x"]] ∧
      evidence 5 = ["a", "b", "c", "d", "e"].inits.map .access ++ evidence 3 ∧
      evidence 6 = ["a", "b", "c", "d", "e", "f"].inits.map .access ++ evidence 3 ++
        [.method ["a", "b", "c", "d", "e", "f"] "push" [.dynamic]] := by
    decide +kernel
  obtain ⟨hread, hf, hbody, hplain, hheight, h3, h5, h6⟩ := hfacts
  have hread := eq_some_getD (d := default) hread
  have hbody := eq_some_getD (d := default) hbody
  have hin : f.In root := declarations_in (eq_some_getD (d := default) hf)
  obtain ⟨hmore, hsame⟩ := evidence_sublist_of_le hread hin hbody hplain "p"
  exact ⟨⟨hread, hin, hbody, hplain, hheight⟩, h3, h5, h6, hmore 3 5 (by decide), hmore 5 6 (by decide),
    hsame 10 256 (Nat.le_of_eq hheight) (Nat.le_trans (Nat.le_of_eq hheight) (by decide))⟩

end UsageTypes
