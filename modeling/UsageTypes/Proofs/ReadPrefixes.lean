import UsageTypes.Proofs.DepthLimits

/-! The order of discovery. Whatever is said about the value at a path, all that leads to the value was read
before, from the root on; what a callee declares comes after the value was read that is passed to it. -/

namespace UsageTypes

/-- Every path on the way to a path is read in a list of evidence, from the root on. -/
def ReadTo (path : Path) (evidence : List Evidence) : Prop :=
  (path.prefixes.map Evidence.access).Sublist evidence

/-- The evidence that passing the value at a path to a declared function gives, somewhere in a body. -/
inductive Focus.Passes (f : Focus) (body : Place) : Path → Evidence → Prop
  | argument {call callee function a : Place} {arguments : List Place} {index : Nat} {path : Path}
    {declared : Ty} {e : Evidence} (hcall : call ∈ body.nodes) (hkind : call.is .callExpression = true)
    (hcallee : call.child? .callee = some callee) (harguments : call.arguments? = some arguments)
    (hfunction : f.program.resolveFunction callee = some function) (ha : arguments[index]? = some a)
    (hpath : f.path? a = some path) (hdeclared : f.program.declaredAt function index = some declared)
    (he : e ∈ passing path declared) : Focus.Passes f body path e

/-- What has to come before a piece of evidence. -/
structure Focus.Follows (f : Focus) (body : Place) (earlier : List Evidence) (e : Evidence) : Prop where
  ownBody : e.origin = .ownBody →
    ReadTo e.path earlier ∨ e = .access e.path ∧ ReadTo e.path (earlier ++ [e])
  callArgument : e.origin = .callArgument →
    ∃ path, f.Passes body path e ∧ path <+: e.path ∧ ReadTo path earlier

/-- Evidence in which every piece follows what has to come before it. -/
def Focus.Grounded (f : Focus) (body : Place) (evidence : List Evidence) : Prop :=
  ∀ earlier e later, evidence = earlier ++ e :: later → f.Follows body earlier e

section Passing

mutual

theorem mem_passing {path : Path} {e : Evidence} {t : Ty} (h : e ∈ passing path t) :
    e.origin = .callArgument ∧ path <+: e.path := by
  cases t with
  | shape fields =>
    cases fields with
    | nil => simp_all [passing, Evidence.origin, Evidence.path]
    | cons field fields => exact mem_passingFields h
  | inter members => exact mem_passingAll h
  | _ => simp_all [passing, Evidence.origin, Evidence.path]

theorem mem_passingFields {path : Path} {e : Evidence} {fields : List (String × Ty)}
    (h : e ∈ passingFields path fields) : e.origin = .callArgument ∧ path <+: e.path := by
  cases fields with
  | nil => cases h
  | cons field fields =>
    obtain ⟨name, t⟩ := field
    rw [passingFields, List.mem_append] at h
    rcases h with h | h
    · obtain ⟨horigin, hprefix⟩ := mem_passing h
      exact ⟨horigin, (List.prefix_append path [name]).trans hprefix⟩
    · exact mem_passingFields h

theorem mem_passingAll {path : Path} {e : Evidence} {ts : List Ty} (h : e ∈ passingAll path ts) :
    e.origin = .callArgument ∧ path <+: e.path := by
  cases ts with
  | nil => cases h
  | cons t ts =>
    rw [passingAll, List.mem_append] at h
    exact h.elim mem_passing mem_passingAll

end

end Passing

section Sequences

variable {f : Focus} {body : Place} {earlier es fs : List Evidence} {e : Evidence}

theorem ReadTo.mono {path : Path} (h : ReadTo path es) (hes : es.Sublist fs) : ReadTo path fs :=
  List.Sublist.trans h hes

theorem Focus.Follows.mono (h : f.Follows body es e) (hes : es.Sublist fs) : f.Follows body fs e where
  ownBody ho := (h.ownBody ho).imp (·.mono hes) fun ⟨he, hread⟩ =>
    ⟨he, hread.mono (hes.append_right [e])⟩
  callArgument ho := by
    obtain ⟨path, hpasses, hprefix, hread⟩ := h.callArgument ho
    exact ⟨path, hpasses, hprefix, hread.mono hes⟩

namespace Focus.Grounded

theorem nil : f.Grounded body [] := fun earlier e later h => by simp at h

theorem append_of_split (h : f.Grounded body es)
    (hfs : ∀ between e later, fs = between ++ e :: later → f.Follows body (es ++ between) e) :
    f.Grounded body (es ++ fs) := by
  intro earlier e later hsplit
  rcases List.append_eq_append_iff.mp hsplit with ⟨between, rfl, hfs'⟩ | ⟨between, rfl, hes'⟩
  · exact hfs between e later hfs'
  · cases between with
    | nil => simpa using hfs [] e later hes'.symm
    | cons d between =>
      obtain ⟨rfl, -⟩ := List.cons.inj hes'
      exact h earlier e between rfl

theorem append (h : f.Grounded body es) (h' : f.Grounded body fs) : f.Grounded body (es ++ fs) :=
  h.append_of_split fun between e later hfs =>
    (h' between e later hfs).mono (List.sublist_append_right es between)

/-- Pieces that follow what came before may be added behind it. -/
theorem append_of_follows (h : f.Grounded body es) (hfs : ∀ e ∈ fs, f.Follows body es e) :
    f.Grounded body (es ++ fs) :=
  h.append_of_split fun between e later hsplit =>
    (hfs e (by simp [hsplit])).mono (List.sublist_append_left es between)

theorem flatMap {α : Type} {as : List α} {F : α → List Evidence} (h : ∀ a ∈ as, f.Grounded body (F a)) :
    f.Grounded body (as.flatMap F) := by
  induction as with
  | nil => exact nil
  | cons a as ih =>
    rw [List.flatMap_cons]
    exact (h a List.mem_cons_self).append (ih fun b hb => h b (List.mem_cons_of_mem a hb))

end Focus.Grounded

theorem prefixes_of_split {path q : Path} {earlier later : List Path}
    (h : path.prefixes = earlier ++ q :: later) : q.prefixes = earlier ++ [q] := by
  induction path generalizing earlier q later with
  | nil =>
    cases earlier with
    | nil =>
      obtain ⟨rfl, -⟩ := List.cons.inj h
      rfl
    | cons r earlier => simp [Path.prefixes] at h
  | cons s path ih =>
    cases earlier with
    | nil =>
      obtain ⟨rfl, -⟩ := List.cons.inj h
      rfl
    | cons r earlier =>
      obtain ⟨rfl, htail⟩ := List.cons.inj h
      obtain ⟨earlier, rest, hpath, rfl, hrest⟩ := List.map_eq_append_iff.mp htail
      obtain ⟨q, later, rfl, rfl, -⟩ := List.map_eq_cons_iff.mp hrest
      simp [Path.prefixes, ih hpath]

/-- A read of the value at a path reads what leads to it in the order of the path. -/
theorem Focus.grounded_accessEvents (f : Focus) (body : Place) (path : Path) :
    f.Grounded body (evidenceIn (accessEvents path)) := by
  intro earlier e later hsplit
  rw [evidenceIn_accessEvents] at hsplit
  obtain ⟨before, rest, hpath, rfl, hrest⟩ := List.map_eq_append_iff.mp hsplit
  obtain ⟨q, after, rfl, rfl, -⟩ := List.map_eq_cons_iff.mp hrest
  have hprefixes := prefixes_of_split hpath
  refine ⟨fun _ => .inr ⟨rfl, ?_⟩, fun ho => by cases ho⟩
  change (q.prefixes.map Evidence.access).Sublist (before.map .access ++ [.access q])
  rw [hprefixes, List.map_append]
  exact List.Sublist.refl _

theorem readTo_accessEvents (path : Path) : ReadTo path (evidenceIn (Focus.accessEvents path)) := by
  rw [ReadTo, evidenceIn_accessEvents]

end Sequences

section Items

variable {f : Focus} {p : Place} {e : Evidence}

/-- What a node says itself is said by the body itself, about a chain among the parts of the node. -/
theorem Focus.Says.exists_part (h : f.Says p e) :
    e.origin = .ownBody ∧ ∃ c ∈ f.parts p, f.path? c = some e.path := by
  cases h with
  | numeric hc hpath => exact ⟨rfl, _, hc, hpath⟩
  | textual hc hpath => exact ⟨rfl, _, hc, hpath⟩
  | assign hc hpath _ _ => exact ⟨rfl, _, hc, hpath⟩

theorem passes_of_mem_passEvents {body callee : Place} {arguments : List Place} (hp : p ∈ body.nodes)
    (hcall : p.Calls callee arguments) (h : e ∈ evidenceIn (f.passEvents callee arguments)) :
    e.origin = .callArgument ∧ ∃ a ∈ arguments, ∃ path, f.path? a = some path ∧ path <+: e.path ∧
      f.Passes body path e := by
  obtain ⟨function, index, a, path, declared, hfunction, ha, hpath, hdeclared, he⟩ := Focus.mem_passEvents h
  obtain ⟨horigin, hprefix⟩ := mem_passing he
  exact ⟨horigin, a, List.mem_of_getElem? ha, path, hpath, hprefix,
    .argument hp (decide_eq_true hcall.kind?_eq) hcall.callee?_eq hcall.arguments?_eq hfunction ha hpath
      hdeclared he⟩

end Items

section Walk

open UsageTypes.Tree

variable {f : Focus} {body p : Place} {es : List Evidence} {e : Evidence}

theorem Focus.follows_of_readTo (ho : e.origin = .ownBody) (hread : ReadTo e.path es) :
    f.Follows body es e := by
  refine ⟨fun _ => .inl hread, fun ho' => ?_⟩
  rw [ho] at ho'
  cases ho'

/-- A chain that is visited is read. -/
theorem readTo_visit {path : Path} {budget : Nat} (h : f.path? p = some path)
    (hheight : p.tree.height ≤ budget) : ReadTo path (evidenceIn (f.visit budget p)) := by
  obtain ⟨k, hk, -⟩ := kind?_of_reaches (path?_eq_some_iff.mp h).1
  have hpos := height_pos_of_isNamed (isNamed_of_kind? hk)
  obtain ⟨budget, rfl⟩ : ∃ b, budget = b + 1 := Nat.exists_eq_succ_of_ne_zero (by omega)
  rw [Focus.visit_of_path? h]
  exact readTo_accessEvents path

theorem readTo_flatMap_visit {path : Path} {budget : Nat} {ps : List Place} (hp : p ∈ ps)
    (h : f.path? p = some path) (hheight : p.tree.height ≤ budget) :
    ReadTo path (ps.flatMap fun c => evidenceIn (f.visit budget c)) := by
  obtain ⟨before, after, rfl⟩ := List.append_of_mem hp
  rw [List.flatMap_append, List.flatMap_cons]
  exact ((readTo_visit h hheight).mono (List.sublist_append_left _ _)).mono (List.sublist_append_right _ _)

theorem mem_nodes_of_arguments? {arguments : List Place} {a : Place} (hp : p ∈ body.nodes)
    (harguments : p.arguments? = some arguments) (ha : a ∈ arguments) : a ∈ body.nodes := by
  rw [Place.arguments?] at harguments
  split at harguments
  · rename_i list hlist
    split at harguments
    · rename_i hkind
      obtain rfl := Option.some.inj harguments
      have hn := isNamed_of_kind? (of_decide_eq_true hkind)
      have hmem := Place.mem_named.mpr ⟨List.mem_of_find?_eq_some hlist, hn⟩
      exact Place.child_mem_nodes (Place.child_mem_nodes hp hmem) (List.mem_filter.mp ha).1
    · cases harguments
  · cases harguments

/-- The evidence of a call is grounded if that of its parts is. -/
theorem grounded_call {budget : Nat} {callee : Place} {arguments : List Place} (hp : p ∈ body.nodes)
    (hcall : p.Calls callee arguments) (hpath : f.path? p = none)
    (hheight : ∀ a ∈ arguments, a.tree.height ≤ budget)
    (hvisit : f.Grounded body (evidenceIn (f.visit budget callee)))
    (hinside : ∀ a ∈ arguments, f.Grounded body (evidenceIn (f.visit budget a))) :
    f.Grounded body (evidenceIn (f.visit (budget + 1) p)) := by
  have hinside := Focus.Grounded.flatMap hinside
  have hreads : ∀ (path : Path) (e : Evidence), e.origin = .ownBody → e.path = path →
      f.Grounded body (evidenceIn (Focus.accessEvents path) ++
        (arguments.flatMap fun a => evidenceIn (f.visit budget a)) ++ [e]) := by
    rintro path e ho rfl
    refine ((f.grounded_accessEvents body e.path).append hinside).append_of_follows ?_
    rintro d hd
    obtain rfl := List.mem_singleton.mp hd
    exact Focus.follows_of_readTo ho ((readTo_accessEvents d.path).mono (List.sublist_append_left _ _))
  rw [Focus.visit_of_calls hcall hpath]
  split
  · exact hreads _ _ rfl rfl
  · exact hreads _ _ rfl rfl
  · refine (hvisit.append hinside).append_of_follows fun e he => ?_
    obtain ⟨ho, a, ha, path, hpath, hprefix, hpasses⟩ := passes_of_mem_passEvents hp hcall he
    have hread := readTo_flatMap_visit ha hpath (hheight a ha)
    refine ⟨fun ho' => ?_, fun _ => ⟨path, hpasses, hprefix, hread.mono (List.sublist_append_right _ _)⟩⟩
    rw [ho] at ho'
    cases ho'

/-- The evidence of a node that is no chain is grounded if that of the nodes below it is. -/
theorem grounded_visit_succ {budget : Nat} (hp : p ∈ body.nodes) (hpath : f.path? p = none)
    (hheight : p.tree.height ≤ budget + 1)
    (ih : ∀ c ∈ body.nodes, c.tree.height ≤ budget → f.Grounded body (evidenceIn (f.visit budget c))) :
    f.Grounded body (evidenceIn (f.visit (budget + 1) p)) := by
  have hlow : ∀ {c : Place}, c ∈ p.children → c.tree.height ≤ budget := fun hc =>
    Nat.le_of_lt_succ (Nat.lt_of_lt_of_le (height_lt_of_mem_children (Place.tree_mem_children hc)) hheight)
  have hchild : ∀ {c : Place}, c ∈ p.children → f.Grounded body (evidenceIn (f.visit budget c)) := by
    intro c hc
    cases hn : c.tree.isNamed with
    | false =>
      rw [Focus.visit_of_not_isNamed f budget hn]
      exact .nil
    | true => exact ih c (Place.child_mem_nodes hp (Place.mem_named.mpr ⟨hc, hn⟩)) (hlow hc)
  by_cases hcall : ∃ callee arguments, p.Calls callee arguments
  · obtain ⟨callee, arguments, hcall⟩ := hcall
    have hdeep : ∀ a ∈ arguments, a.tree.height ≤ budget := by
      intro a ha
      obtain ⟨list, hlist, hmem⟩ := Place.exists_list_of_mem_arguments hcall.arguments?_eq ha
      have hlt := height_lt_of_mem_children hmem
      have hlist := height_lt_of_mem_children hlist
      omega
    exact grounded_call hp hcall hpath hdeep (hchild (List.mem_of_find?_eq_some hcall.callee?_eq))
      fun a ha => ih a (mem_nodes_of_arguments? hp hcall.arguments?_eq ha) (hdeep a ha)
  · simp only [not_exists] at hcall
    rw [Focus.visit_of_not_calls hpath hcall]
    have hparts : f.Grounded body ((f.parts p).flatMap fun c => evidenceIn (f.visit budget c)) :=
      .flatMap fun c hc => hchild (Focus.mem_children_of_mem_parts hc)
    refine hparts.append_of_follows fun e he => ?_
    obtain ⟨ho, c, hc, hread⟩ := (Focus.says_of_mem_ownEvents he).exists_part
    exact Focus.follows_of_readTo ho
      (readTo_flatMap_visit hc hread (hlow (Focus.mem_children_of_mem_parts hc)))

/-- The walk over a node of a body, with budget enough for its height, gives grounded evidence. -/
theorem grounded_visit (budget : Nat) (hp : p ∈ body.nodes) (hheight : p.tree.height ≤ budget) :
    f.Grounded body (evidenceIn (f.visit budget p)) := by
  induction budget generalizing p with
  | zero => exact .nil
  | succ budget ih =>
    cases hpath : f.path? p with
    | some path =>
      rw [Focus.visit_of_path? hpath]
      exact f.grounded_accessEvents body path
    | none => exact grounded_visit_succ hp hpath hheight fun c hc => ih hc

end Walk

/-- With a limit that is no lower than the body is high, every piece of evidence comes after reads of all that
leads to it. What the body itself says about the value at a path comes after reads of every path on the way,
in order from the root on, or is itself the last of them. What a callee declares for the value at a path comes
after such reads up to the value that was passed. -/
theorem evidence_reads_prefixes (program : Program) (function : Place) (name : String) (limit : Nat)
    (body : Place) (hheight : body.tree.height ≤ limit + 1) (earlier : List Evidence) (e : Evidence)
    (later : List Evidence)
    (hsplit : program.evidence function name limit body = earlier ++ e :: later) :
    (e.origin = .ownBody →
      ReadTo e.path earlier ∨ e = .access e.path ∧ ReadTo e.path (earlier ++ [e])) ∧
    (e.origin = .callArgument → ∃ path,
      (program.focus function name limit).Passes body path e ∧ path <+: e.path ∧ ReadTo path earlier) := by
  have hgrounded : (program.focus function name limit).Grounded body
      (program.evidence function name limit body) := by
    change (program.focus function name limit).Grounded body
      (evidenceIn ((program.focus function name limit).visit (limit + 1) body))
    cases hn : body.tree.isNamed with
    | false =>
      rw [Focus.visit_of_not_isNamed _ _ hn]
      exact .nil
    | true =>
      have hbody : body ∈ body.nodes := Place.mem_nodes_iff_reflTransGen.mpr ⟨hn, .refl⟩
      exact grounded_visit (limit + 1) hbody hheight
  have hfollows := hgrounded earlier e later hsplit
  exact ⟨hfollows.ownBody, hfollows.callArgument⟩

/-- A callee's declaration reaches further into the value that is passed than the body reads it; the operand
in an argument is read after the receiver of the call. -/
theorem evidence_reads_prefixes_nested :
    let source := "function g(q: { k: { m: number } }) {} function f(p) { g(p.a); p.b.push(p.c + 1) }"
    let root := (readProgram source).getD default
    let program := Program.ofTree root
    let f := (program.declarations[1]?).getD default
    let body := (f.child? .body).getD default
    let passed : Evidence := .argument ["a", "k", "m"] .number
    let operand : Evidence := .numeric ["c"]
    let reads : List Evidence := [.access [], .access ["b"], .access [], .access ["c"]]
    readProgram source = some root ∧ body.tree.height ≤ 8 + 1 ∧
      program.evidence f "p" 8 body = [.access [], .access ["a"]] ++ passed :: (reads ++
        operand :: [.method ["b"] "push" [.dynamic]]) ∧
      (∃ path, (program.focus f "p" 8).Passes body path passed ∧ path <+: ["a", "k", "m"] ∧
        ReadTo path [.access [], .access ["a"]]) ∧
      (ReadTo ["c"] ([.access [], .access ["a"], passed] ++ reads) ∨
        operand = .access ["c"] ∧
          ReadTo ["c"] ([.access [], .access ["a"], passed] ++ reads ++ [operand])) := by
  intro source root program f body passed operand reads
  have hfacts : (readProgram source).isSome = true ∧ body.tree.height ≤ 8 + 1 ∧
      program.evidence f "p" 8 body = [.access [], .access ["a"]] ++ passed :: (reads ++
        operand :: [.method ["b"] "push" [.dynamic]]) := by
    decide +kernel
  obtain ⟨hread, hheight, hevidence⟩ := hfacts
  have hpassed := evidence_reads_prefixes program f "p" 8 body hheight _ passed _ hevidence
  have hoperand := evidence_reads_prefixes program f "p" 8 body hheight
    ([.access [], .access ["a"], passed] ++ reads) operand _ hevidence
  exact ⟨eq_some_getD (d := default) hread, hheight, hevidence, hpassed.2 rfl, hoperand.1 rfl⟩

end UsageTypes
