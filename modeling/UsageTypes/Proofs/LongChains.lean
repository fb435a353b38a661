import UsageTypes.Proofs.AccessChains
import UsageTypes.Proofs.ChainShapes
import UsageTypes.Proofs.Mirroring

/-! Access chains that are longer than a limit. The walk goes through such a chain to what it goes on with,
and there it finds no more than what the whole chain says. -/

namespace UsageTypes

namespace Tree

/-- Whether no parentheses in a tree hold an annotation. -/
def plainParentheses (t : Tree) : Bool :=
  t.nodes.all fun u => !u.is .parenthesizedExpression || u.children.all (!·.is .typeAscription)

/-- A tree in none of whose nodes there are more heavy nodes than there is room for, annotations
included. -/
inductive Slim : Tree → Prop
  | blank (s : String) : Slim (.blank s)
  | token (l : Option Label) (s : String) : Slim (.token l s)
  | node {l : Option Label} {k : Kind} {p : Position} {cs : List Tree} :
    (∀ c ∈ cs, c.Slim) → (∀ n, k.room = some n → heavyCount true cs ≤ n) → Slim (.node l k p cs)

theorem nodes_subset_nodesAll {cs : List Tree} {c : Tree} (hc : c ∈ cs) :
    ∀ t ∈ c.nodes, t ∈ nodesAll cs := by
  induction cs with
  | nil => cases hc
  | cons d cs ih =>
    intro t ht
    rw [nodesAll, List.mem_append]
    rcases List.mem_cons.mp hc with rfl | hc
    · exact .inl ht
    · exact .inr (ih hc t ht)

theorem isHeavy_true_eq {t : Tree} (h : t.is .typeAscription = false) : t.isHeavy true = t.isHeavy false := by
  cases t with
  | node l k p cs =>
    have hk : k ≠ .typeAscription := by
      rintro rfl
      cases h
    simp [isHeavy, Tree.kind?, Kind.isHeavy, hk]
  | _ => rfl

theorem Roomy.slim {t : Tree} (h : t.Roomy) (hplain : t.plainParentheses = true) : t.Slim := by
  induction h with
  | blank s => exact .blank s
  | token l s => exact .token l s
  | @node l k p cs _ hroom ih =>
    rw [plainParentheses, nodes, List.all_cons, Bool.and_eq_true] at hplain
    obtain ⟨hself, hbelow⟩ := hplain
    refine .node (fun c hc => ih c hc ?_) fun n hn => ?_
    · exact List.all_eq_true.mpr fun u hu => List.all_eq_true.mp hbelow u (nodes_subset_nodesAll hc u hu)
    · have hcount := hroom n hn
      by_cases hk : k = .parenthesizedExpression
      · subst hk
        have hall : cs.all (!·.is .typeAscription) = true := hself
        refine Nat.le_trans (Nat.le_of_eq ?_) hcount
        refine List.countP_congr fun c hc => ?_
        rw [isHeavy_true_eq (by simpa using List.all_eq_true.mp hall c hc)]
        rfl
      · rwa [Kind.countsTypes, decide_eq_true hk] at hcount

theorem Slim.of_mem_children {t c : Tree} (h : t.Slim) (hc : c ∈ t.children) : c.Slim := by
  cases h with
  | node hcs _ => exact hcs c hc
  | _ => cases hc

theorem Slim.heavyCount_le {t : Tree} (h : t.Slim) {k : Kind} {n : Nat} (hk : t.kind? = some k)
    (hn : k.room = some n) : heavyCount true t.children ≤ n := by
  cases h with
  | node _ hroom =>
    obtain rfl := Option.some.inj hk
    exact hroom n hn
  | _ => cases hk

end Tree

section Chains

open UsageTypes.Tree

variable {name : String} {t : Tree} {path : Path}

/-- Kinds of nodes that an access chain goes through. -/
def Kind.isLink (k : Kind) : Bool :=
  k = .memberExpression || k = .subscriptExpression || isWrapper k

theorem Kind.isLink_cases {k : Kind} (h : k.isLink = true) :
    k = .memberExpression ∨ k = .subscriptExpression ∨ k = .parenthesizedExpression ∨
      k = .nonNullExpression := by
  simpa [Kind.isLink, isWrapper, or_assoc] using h

/-- What a chain that is no name goes on with: the same path behind a wrapper, and a path with one segment
less in an access. In a subscript there is a literal besides. -/
structure Continues (name : String) (t c : Tree) (path path' : Path) : Prop where
  mem : c ∈ t.children
  reaches : c.Reaches name path'
  link : t.kind?.any Kind.isLink = true
  wraps : t.kind?.any isWrapper = true → path' = path
  grows : t.kind?.any isWrapper = false → ∃ s, path = path'.child s
  literal : t.is .subscriptExpression = true → c.label? = some .object ∧
    ∃ i ∈ t.children, i.label? = some .index ∧ i.is .stringLiteral = true

theorem exists_continues (h : t.Reaches name path) (hid : t.is .identifier = false) :
    ∃ c path', Continues name t c path path' := by
  rcases h.cases_link? with ⟨hname, -⟩ | ⟨segment, c, path', hlink, hc, rfl⟩
  · rw [hid] at hname
    cases hname
  · have hmem := mem_children_of_link? hlink
    obtain ⟨k, hk, ⟨hw, -, rfl⟩ | ⟨s, hs, hobject, rfl⟩⟩ := link?_cases hlink
    · have hsubscript : k ≠ .subscriptExpression := by
        rintro rfl
        cases hw
      exact ⟨c, path', hmem, hc, by simp [hk, Kind.isLink, hw], fun _ => (List.append_nil _).symm,
        by simp [hk, hw], by simp [Tree.is, hk, hsubscript]⟩
    · have hlabel : c.label? = some .object := by simpa using List.find?_some hobject
      refine ⟨c, path', hmem, hc, ?_, ?_, fun _ => ⟨s, rfl⟩, ?_⟩
      · rcases segment?_eq_some_iff.mp hs with ⟨rfl, -⟩ | ⟨rfl, -⟩ <;> rw [hk] <;> rfl
      · rcases segment?_eq_some_iff.mp hs with ⟨rfl, -⟩ | ⟨rfl, -⟩ <;> rw [hk] <;> intro hw <;> cases hw
      · intro hsubscript
        obtain rfl := Option.some.inj (hk.symm.trans (of_decide_eq_true hsubscript))
        rcases segment?_eq_some_iff.mp hs with ⟨hmember, -⟩ | ⟨-, i, hi, hliteral, -⟩
        · cases hmember
        · exact ⟨hlabel, i, List.mem_of_find?_eq_some hi, by simpa using List.find?_some hi, hliteral⟩

theorem kind?_of_reaches (h : t.Reaches name path) :
    ∃ k, t.kind? = some k ∧ (k = .identifier ∨ k.isLink = true) := by
  cases hid : t.is .identifier with
  | true => exact ⟨_, of_decide_eq_true hid, .inl rfl⟩
  | false =>
    obtain ⟨c, path', hc⟩ := exists_continues h hid
    obtain ⟨k, hk, hlink⟩ := (Option.any_eq_true _ _).mp hc.link
    exact ⟨k, hk, .inr hlink⟩

theorem isHeavy_of_reaches (h : t.Reaches name path) : t.isHeavy true = true := by
  obtain ⟨k, hk, hkind⟩ := kind?_of_reaches h
  rw [isHeavy, hk, Option.any_some]
  rcases hkind with rfl | hlink
  · rfl
  · rcases Kind.isLink_cases hlink with rfl | rfl | rfl | rfl <;> rfl

/-- A chain has fewer accesses than its tree has levels. -/
theorem Tree.Reaches.length_lt_height (h : t.Reaches name path) : path.length < t.height := by
  induction t using children_induction generalizing path with
  | step t ih =>
    rcases h.cases_link? with ⟨hid, -, rfl⟩ | ⟨segment, c, path', hlink, hc, rfl⟩
    · exact height_pos_of_isNamed (isNamed_of_kind? (of_decide_eq_true hid))
    · have hmem := mem_children_of_link? hlink
      have hlt := ih c hmem hc
      have hheight := height_lt_of_mem_children hmem
      have hone : segment.toList.length ≤ 1 := by cases segment <;> simp
      rw [List.length_append]
      omega

end Chains

/-- Kinds of nodes that the walk only goes through. -/
def Kind.isPassed (k : Kind) : Bool :=
  !(k ∈ [.binaryExpression, .augmentedAssignmentExpression, .unaryExpression, .updateExpression,
    .assignmentExpression, .callExpression]) && !k.isFunctionLike

section Silence

open UsageTypes.Tree

variable {p : Place}

theorem visit_of_isPassed (f : Focus) (budget : Nat) (hpath : f.path? p = none)
    (hpassed : p.tree.kind?.all Kind.isPassed = true) :
    evidenceIn (f.visit (budget + 1) p) = p.named.flatMap fun c => evidenceIn (f.visit budget c) := by
  have hplain : p.tree.isFunctionLike = false := by
    cases hk : p.tree.kind? with
    | none => rw [isFunctionLike, hk]; rfl
    | some k =>
      rw [hk, Option.all_some, Kind.isPassed, Bool.and_eq_true, Bool.not_eq_true'] at hpassed
      exact not_isFunctionLike_of_kind? hk (by simpa using hpassed.2)
  have hcall : ∀ callee arguments, ¬p.Calls callee arguments := by
    intro callee arguments h
    rw [h.kind?_eq] at hpassed
    cases hpassed
  have hsilent : f.parts p = p.named ∧ f.ownEvents p = [] := by
    rw [Focus.parts, Focus.ownEvents, hplain, if_neg Bool.false_ne_true]
    cases hk : p.tree.kind? with
    | none => exact ⟨rfl, rfl⟩
    | some k =>
      rw [hk, Option.all_some] at hpassed
      cases k <;> first | exact ⟨rfl, rfl⟩ | cases hpassed
  rw [Focus.visit_of_not_calls hpath hcall, hsilent.1, hsilent.2, evidenceIn_nil, List.append_nil]

theorem isPassed_of_room {t : Tree} (h : t.kind?.bind Kind.room = some 0) :
    t.kind?.all Kind.isPassed = true ∧ ∀ name path, ¬t.Reaches name path := by
  obtain ⟨k, hk, hroom⟩ := Option.bind_eq_some_iff.mp h
  have hlight : k ∈ [.comment, .optionalChain, .propertyIdentifier, .privatePropertyIdentifier,
      .stringFragment, .escapeSequence, .stringLiteral] := by
    rw [Kind.room] at hroom
    split at hroom
    · rename_i hlight
      simpa [Kind.isLight, or_assoc] using hlight
    · split at hroom
      · cases hroom
      · split at hroom <;> cases hroom
  have hall : ∀ k ∈ [Kind.comment, .optionalChain, .propertyIdentifier, .privatePropertyIdentifier,
      .stringFragment, .escapeSequence, .stringLiteral],
      k.isPassed = true ∧ k ≠ .identifier ∧ k.isLink = false := by decide
  obtain ⟨hpassed, hid, hlink⟩ := hall k hlight
  refine ⟨by rw [hk]; exact hpassed, fun name path hreaches => ?_⟩
  obtain ⟨k', hk', hkind⟩ := kind?_of_reaches hreaches
  obtain rfl := Option.some.inj (hk.symm.trans hk')
  rcases hkind with rfl | hlink'
  · exact hid rfl
  · rw [hlink] at hlink'
    cases hlink'

theorem room_of_not_isHeavy {t : Tree} (hn : t.isNamed = true) (h : t.isHeavy true = false) :
    t.kind?.bind Kind.room = some 0 := by
  cases t with
  | node l k start cs =>
    have hlight : k.isLight = true := by simpa [isHeavy, kind?, Kind.isHeavy] using h
    simp [kind?, Kind.room, hlight]
  | _ => cases hn

theorem path?_eq_some_iff {f : Focus} {path : Path} :
    f.path? p = some path ↔ p.tree.Reaches f.name path ∧ path.length ≤ f.limit :=
  accessPath_eq_some_iff

/-- Nothing is a use in a node in which there is no room for heavy ones. -/
theorem visit_of_room (f : Focus) (budget : Nat) (hslim : p.tree.Slim)
    (hroom : p.tree.kind?.bind Kind.room = some 0) : evidenceIn (f.visit budget p) = [] := by
  induction budget generalizing p with
  | zero => rfl
  | succ budget ih =>
    obtain ⟨hpassed, hreaches⟩ := isPassed_of_room hroom
    have hpath : f.path? p = none :=
      Option.eq_none_iff_forall_ne_some.mpr fun path h => hreaches _ path (path?_eq_some_iff.mp h).1
    rw [visit_of_isPassed f budget hpath hpassed, List.flatMap_eq_nil_iff]
    intro c hc
    have htree := Place.tree_mem_of_mem_named hc
    refine ih (hslim.of_mem_children htree) (room_of_not_isHeavy (Place.mem_named.mp hc).2 ?_)
    obtain ⟨k, hk, hzero⟩ := Option.bind_eq_some_iff.mp hroom
    have hnone := List.countP_eq_zero.mp (Nat.le_zero.mp (hslim.heavyCount_le hk hzero)) c.tree htree
    simpa using hnone

theorem eq_of_countP_le_one {α : Type} {q : α → Bool} {as : List α} (h : as.countP q ≤ 1) {a b : α}
    (ha : a ∈ as) (hb : b ∈ as) (hqa : q a = true) (hqb : q b = true) : a = b := by
  rw [List.countP_eq_length_filter] at h
  have ha := List.mem_filter.mpr ⟨ha, hqa⟩
  have hb := List.mem_filter.mpr ⟨hb, hqb⟩
  match as.filter q, h, ha, hb with
  | [c], _, ha, hb => rw [List.mem_singleton.mp ha, List.mem_singleton.mp hb]

theorem countP_named (p : Place) :
    p.named.countP (·.tree.isHeavy true) = heavyCount true p.tree.children := by
  have hnamed : p.named.countP (·.tree.isHeavy true) =
      (p.tree.children.filter (·.isNamed)).countP (isHeavy true) := by
    rw [← named, ← Place.map_tree_named, List.countP_map]
    rfl
  rw [hnamed, List.countP_filter, heavyCount]
  refine List.countP_congr fun t _ => ?_
  cases t <;> simp [isHeavy, isNamed, kind?]

theorem mem_named_of_tree {t : Tree} {k : Kind} (ht : t ∈ p.tree.children) (hk : t.kind? = some k) :
    ∃ q ∈ p.named, q.tree = t := by
  have hmem : t ∈ p.named.map (·.tree) := by
    rw [Place.map_tree_named]
    exact List.mem_filter.mpr ⟨ht, isNamed_of_kind? hk⟩
  exact List.mem_map.mp hmem

theorem mem_of_mem_beside {α : Type} {as before after : List α} {a x : α} (h : as = before ++ a :: after)
    (hx : x ∈ before ++ after) : x ∈ as := by
  rw [h]
  exact List.mem_append.mpr ((List.mem_append.mp hx).imp id (List.mem_cons_of_mem _))

theorem countP_beside {q : Place} {before after : List Place} {k : Kind} {n : Nat} (hslim : p.tree.Slim)
    (hk : p.tree.kind? = some k) (hn : k.room = some n) (hsplit : p.named = before ++ q :: after)
    (hq : q.tree.isHeavy true = true) : (before ++ after).countP (·.tree.isHeavy true) + 1 ≤ n := by
  have hcount := countP_named p
  have hle := hslim.heavyCount_le hk hn
  rw [hsplit, List.countP_append, List.countP_cons, if_pos hq] at hcount
  rw [List.countP_append]
  omega

theorem room_of_isLink {k : Kind} (h : k.isLink = true) (hk : k ≠ .subscriptExpression) : k.room = some 1 := by
  rcases Kind.isLink_cases h with rfl | h | rfl | rfl
  · rfl
  · exact absurd h hk
  · rfl
  · rfl

/-- What stands next to the operand of a chain is light, or it is the literal in a subscript. -/
theorem room_of_mem_beside {name : String} {q : Place} {path path' : Path} (hslim : p.tree.Slim)
    (h : Continues name p.tree q.tree path path') {before after : List Place}
    (hsplit : p.named = before ++ q :: after) :
    ∀ x ∈ before ++ after, x.tree.kind?.bind Kind.room = some 0 := by
  obtain ⟨k, hk, hlink⟩ := (Option.any_eq_true _ _).mp h.link
  have hcount : ∀ {n : Nat}, k.room = some n → (before ++ after).countP (·.tree.isHeavy true) + 1 ≤ n :=
    fun hn => countP_beside hslim hk hn hsplit (isHeavy_of_reaches h.reaches)
  intro x hx
  cases hheavy : x.tree.isHeavy true with
  | false => exact room_of_not_isHeavy (Place.mem_named.mp (mem_of_mem_beside hsplit hx)).2 hheavy
  | true =>
    by_cases hsubscript : k = .subscriptExpression
    · subst hsubscript
      obtain ⟨hlabel, i, hi, hindex, hliteral⟩ := h.literal (decide_eq_true hk)
      have hkind : i.kind? = some .stringLiteral := of_decide_eq_true hliteral
      obtain ⟨y, hy, rfl⟩ := mem_named_of_tree hi hkind
      have hybeside : y ∈ before ++ after := by
        rw [hsplit, List.mem_append, List.mem_cons] at hy
        rcases hy with hy | rfl | hy
        · exact List.mem_append_left _ hy
        · rw [hlabel] at hindex
          cases hindex
        · exact List.mem_append_right _ hy
      have hyheavy : y.tree.isHeavy true = true := by
        rw [isHeavy, hkind]
        rfl
      rw [eq_of_countP_le_one (Nat.le_of_succ_le_succ (hcount rfl)) hx hybeside hheavy hyheavy, hkind]
      rfl
    · have hpos : 0 < (before ++ after).countP (·.tree.isHeavy true) :=
        List.countP_pos_iff.mpr ⟨x, hx, hheavy⟩
      have hle := hcount (room_of_isLink hlink hsubscript)
      omega

/-- Among the nodes of a chain only the one that the chain goes on with can say something. -/
theorem exists_flatMap_named {name : String} {c : Tree} {path path' : Path} (hslim : p.tree.Slim)
    (h : Continues name p.tree c path path') : ∃ q ∈ p.named, q.tree = c ∧
      ∀ F : Place → List Evidence, (∀ x ∈ p.named, x.tree.kind?.bind Kind.room = some 0 → F x = []) →
        p.named.flatMap F = F q := by
  obtain ⟨k, hk, -⟩ := kind?_of_reaches h.reaches
  obtain ⟨q, hq, rfl⟩ := mem_named_of_tree h.mem hk
  obtain ⟨before, after, hsplit⟩ := List.append_of_mem hq
  have hbeside := room_of_mem_beside hslim h hsplit
  refine ⟨q, hq, rfl, fun F hF => ?_⟩
  have hnil : ∀ x ∈ before ++ after, F x = [] :=
    fun x hx => hF x (mem_of_mem_beside hsplit hx) (hbeside x hx)
  obtain ⟨hbefore, hafter⟩ := List.forall_mem_append.mp hnil
  rw [hsplit, List.flatMap_append, List.flatMap_cons, List.flatMap_eq_nil_iff.mpr hbefore,
    List.flatMap_eq_nil_iff.mpr hafter, List.nil_append, List.append_nil]

end Silence

section Chains

open UsageTypes.Tree

variable {p : Place} {path : Path}

theorem prefixes_child (path : Path) (s : String) :
    (path.child s).prefixes = path.prefixes ++ [path.child s] := by
  induction path with
  | nil => rfl
  | cons t path ih =>
    rw [Path.child, List.cons_append, Path.prefixes, ← Path.child, ih, Path.prefixes, List.map_append]
    rfl

/-- A chain that is too long is gone through to what it goes on with. -/
theorem exists_visit_of_long {f : Focus} (hslim : p.tree.Slim) (h : p.tree.Reaches f.name path)
    (hlong : f.path? p = none) : ∃ q ∈ p.named, ∃ path', Continues f.name p.tree q.tree path path' ∧
      ∀ budget, evidenceIn (f.visit (budget + 1) p) = evidenceIn (f.visit budget q) := by
  have hid : p.tree.is .identifier = false := by
    rw [← Bool.not_eq_true]
    intro hid
    obtain ⟨-, rfl⟩ := (reaches_iff_of_is_identifier hid).mp h
    rw [path?_eq_some_iff.mpr ⟨h, Nat.zero_le _⟩] at hlong
    cases hlong
  obtain ⟨c, path', hc⟩ := exists_continues h hid
  obtain ⟨q, hq, rfl, hflat⟩ := exists_flatMap_named hslim hc
  refine ⟨q, hq, path', hc, fun budget => ?_⟩
  have hpassed : p.tree.kind?.all Kind.isPassed = true := by
    obtain ⟨k, hk, hlink⟩ := (Option.any_eq_true _ _).mp hc.link
    rw [hk, Option.all_some]
    rcases Kind.isLink_cases hlink with rfl | rfl | rfl | rfl <;> rfl
  rw [visit_of_isPassed f budget hlong hpassed]
  refine hflat (fun x => evidenceIn (f.visit budget x)) fun x hx hroom => ?_
  exact visit_of_room f budget (hslim.of_mem_children (Place.tree_mem_of_mem_named hx)) hroom

/-- However deep it is followed, a chain says no more than that it is read. -/
theorem visit_sublist_accessEvents (f : Focus) (budget : Nat) (hslim : p.tree.Slim)
    (h : p.tree.Reaches f.name path) :
    (evidenceIn (f.visit budget p)).Sublist (evidenceIn (Focus.accessEvents path)) := by
  induction budget generalizing p path with
  | zero => exact List.nil_sublist _
  | succ budget ih =>
    cases hpath : f.path? p with
    | some read =>
      obtain rfl := (path?_eq_some_iff.mp hpath).1.unique h
      rw [Focus.visit_of_path? hpath]
    | none =>
      obtain ⟨q, hq, path', hc, hvisit⟩ := exists_visit_of_long hslim h hpath
      have hslim' := hslim.of_mem_children hc.mem
      rw [hvisit]
      refine (ih hslim' hc.reaches).trans ?_
      rw [evidenceIn_accessEvents, evidenceIn_accessEvents]
      cases hwrapper : p.tree.kind?.any isWrapper with
      | true => rw [hc.wraps hwrapper]
      | false =>
        obtain ⟨s, rfl⟩ := hc.grows hwrapper
        rw [prefixes_child, List.map_append]
        exact List.sublist_append_left _ _

/-- A name in parentheses has no accesses. -/
theorem eq_nil_of_unwrap {name : String} (h : p.unwrap.is .identifier = true)
    (hreaches : p.tree.Reaches name path) : path = [] := by
  induction p using Place.below_induction generalizing path with
  | step p ih =>
    rw [Place.unwrap_eq] at h
    split at h
    · rename_i hparens
      have hlink : p.tree.link? = (p.named.head?.map (·.tree)).map (none, ·) := by
        rw [← List.head?_map, Place.map_tree_named]
        exact link?_of_isWrapper (of_decide_eq_true hparens) rfl
      split at h
      · exact ((reaches_iff_of_is_identifier h).mp hreaches).2
      · rename_i c _ hcons
        rw [hcons] at hlink
        obtain ⟨path', hc, rfl⟩ := (reaches_iff_of_link? hlink).mp hreaches
        rw [ih c (by rw [hcons]; exact List.mem_cons_self) h hc]
        rfl
    · exact ((reaches_iff_of_is_identifier h).mp hreaches).2

/-- No function is called by an expression that reaches a field. -/
theorem passEvents_of_reaches (f : Focus) {callee : Place} {name : String}
    (h : callee.tree.Reaches name path) (hpath : path ≠ []) (arguments : List Place) :
    f.passEvents callee arguments = [] := by
  have hid : callee.unwrap.is .identifier = false := by
    rw [← Bool.not_eq_true]
    exact fun hid => hpath (eq_nil_of_unwrap hid h)
  rw [Focus.passEvents, Program.resolveFunction]
  simp only [hid, Bool.false_and, Bool.false_eq_true, if_false]

/-- A method call goes on with its receiver. -/
theorem link?_of_method? {callee object : Place} {n : String}
    (h : Focus.method? callee = some (object, n)) : callee.tree.kind? = some .memberExpression ∧
      callee.tree.link? = some (some n, object.tree) := by
  rw [Focus.method?] at h
  split at h
  · rename_i hmember
    have hk : callee.tree.kind? = some .memberExpression := of_decide_eq_true hmember
    split at h
    · rename_i property o hproperty hobject
      split at h
      · rename_i hplain
        obtain ⟨rfl, rfl⟩ := (Prod.mk.injEq ..).mp (Option.some.inj h)
        have hsegment : segment? .memberExpression callee.tree.children = some property.text :=
          segment?_eq_some_iff.mpr (.inl ⟨rfl, property, hproperty, hplain, rfl⟩)
        rw [link?_of_segment? hk hsegment, ← Place.map_tree_child?, hobject]
        exact ⟨hk, rfl⟩
      · cases h
    · cases h
  · cases h

end Chains

end UsageTypes
