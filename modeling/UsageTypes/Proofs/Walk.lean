import UsageTypes.Usage

/-! One step of the walk over a body. A node that is neither a chain nor a call says something about the
chains among its parts, behind what its parts say; a call is told apart by what it calls. -/

namespace UsageTypes

/-- The evidence among what a walk meets. -/
def evidenceIn (events : List Event) : List Evidence :=
  events.filterMap Event.evidence?

section Evidence

@[simp] theorem evidenceIn_nil : evidenceIn [] = [] := rfl

@[simp] theorem evidenceIn_append (es fs : List Event) :
    evidenceIn (es ++ fs) = evidenceIn es ++ evidenceIn fs :=
  List.filterMap_append

@[simp] theorem evidenceIn_flatMap {α : Type} (as : List α) (f : α → List Event) :
    evidenceIn (as.flatMap f) = as.flatMap fun a => evidenceIn (f a) :=
  List.filterMap_flatMap

@[simp] theorem evidenceIn_evidence (es : List Evidence) : evidenceIn (es.map .evidence) = es := by
  simp [evidenceIn, List.filterMap_map, Function.comp_def, Event.evidence?]

@[simp] theorem evidenceIn_singleton (e : Evidence) : evidenceIn [.evidence e] = [e] := rfl

@[simp] theorem evidenceIn_redeclared : evidenceIn [.redeclared] = [] := rfl

@[simp] theorem evidenceIn_openArgument (index : Nat) (callee : String) :
    evidenceIn [.openArgument index callee] = [] := rfl

@[simp] theorem evidenceIn_cuts (cuts : List Cut) : evidenceIn (cuts.map .cut) = [] := by
  simp [evidenceIn, List.filterMap_map, Function.comp_def, Event.evidence?]

@[simp] theorem evidenceIn_chainEvents (f : Focus) (p : Place) : evidenceIn (f.chainEvents p) = [] := by
  rw [Focus.chainEvents]
  split <;> rfl

@[simp] theorem evidenceIn_typeEvents (f : Focus) (p : Place) : evidenceIn (f.typeEvents p) = [] :=
  evidenceIn_cuts _

theorem evidenceIn_accessEvents (path : Path) :
    evidenceIn (Focus.accessEvents path) = path.prefixes.map .access := by
  simp [evidenceIn, Focus.accessEvents, List.filterMap_map, Function.comp_def, Event.evidence?]

end Evidence

/-- A call of something with arguments. -/
structure Place.Calls (p callee : Place) (arguments : List Place) : Prop where
  kind?_eq : p.tree.kind? = some .callExpression
  callee?_eq : p.child? .callee = some callee
  arguments?_eq : p.arguments? = some arguments

namespace Focus

/-- Where the walk goes on from a node that is neither a chain nor a call. -/
def parts (f : Focus) (p : Place) : List Place :=
  match p.tree.kind? with
  | some .binaryExpression | some .augmentedAssignmentExpression | some .assignmentExpression =>
    (p.child? .left).toList ++ (p.child? .right).toList
  | some .unaryExpression | some .updateExpression => (p.child? .argument).toList
  | _ =>
    if p.tree.isFunctionLike then
      if f.redeclares p.tree then [] else (p.child? .body).toList
    else p.named

/-- What such a node says itself. -/
def ownEvents (f : Focus) (p : Place) : List Event :=
  match p.tree.kind? with
  | some .binaryExpression => f.binaryEvents p
  | some .augmentedAssignmentExpression => f.compoundEvents p
  | some .assignmentExpression => f.assignEvents (p.child? .left) (p.child? .right)
  | some .unaryExpression | some .updateExpression => f.unaryEvents p
  | _ => []

/-- What such a node can say: how an operator uses a part that is a chain, or what is assigned to it. -/
inductive Says (f : Focus) (p : Place) : Evidence → Prop
  | numeric {c : Place} {path : Path} (hc : c ∈ f.parts p) (hpath : f.path? c = some path) :
    Says f p (.numeric path)
  | textual {c : Place} {path : Path} (hc : c ∈ f.parts p) (hpath : f.path? c = some path) :
    Says f p (.textual path)
  | assign {c r : Place} {path : Path} {t : Ty} (hc : c ∈ f.parts p) (hpath : f.path? c = some path)
    (hr : r ∈ f.parts p) (ht : f.program.typeOf f.scope r = some t) : Says f p (.assign path t)

/-- The path to the receiver of the method that a callee names, with the method's name. -/
def receiver? (f : Focus) (callee : Place) : Option (Path × String) :=
  (method? callee).bind fun (object, name) => (f.path? object).map (·, name)

section Steps

variable {f : Focus} {p : Place}

theorem visit_of_path? {path : Path} (h : f.path? p = some path) (budget : Nat) :
    evidenceIn (f.visit (budget + 1) p) = evidenceIn (accessEvents path) := by
  rw [visit, evidenceIn_append, evidenceIn_chainEvents, h]
  rfl

/-- The step of the walk at a node that is neither a chain nor a call. -/
theorem visit_of_not_calls (hpath : f.path? p = none)
    (hcall : ∀ callee arguments, ¬p.Calls callee arguments) (budget : Nat) :
    evidenceIn (f.visit (budget + 1) p) =
      (f.parts p).flatMap (fun c => evidenceIn (f.visit budget c)) ++ evidenceIn (f.ownEvents p) := by
  rw [visit, hpath, parts, ownEvents]
  simp only [evidenceIn_append, evidenceIn_chainEvents, List.nil_append]
  -- only a call and a node of no kind of its own need more than their kind
  split
  case h_6 hk =>
    have hplain : p.tree.isFunctionLike = false := by
      rw [Tree.isFunctionLike, hk]
      rfl
    split
    · rename_i hcallee harguments
      exact absurd ⟨hk, hcallee, harguments⟩ (hcall _ _)
    · simp [hk, hplain]
  case h_7 =>
    split
    · split <;> simp [*]
    · simp [*]
  all_goals
    rename_i hk
    simp [hk]

/-- The step of the walk at a call. -/
theorem visit_of_calls {callee : Place} {arguments : List Place} (h : p.Calls callee arguments)
    (hpath : f.path? p = none) (budget : Nat) :
    let inside := arguments.flatMap fun a => evidenceIn (f.visit budget a)
    evidenceIn (f.visit (budget + 1) p) =
      match f.receiver? callee, f.path? callee with
      | some (path, name), _ =>
        evidenceIn (accessEvents path) ++ inside ++ [.method path name (f.argumentTypes arguments)]
      | none, some path =>
        evidenceIn (accessEvents path) ++ inside ++ [.invoke path (f.argumentTypes arguments)]
      | none, none =>
        evidenceIn (f.visit budget callee) ++ inside ++ evidenceIn (f.passEvents callee arguments) := by
  have hsilent : ∀ {α : Type} (as : List α), (as.flatMap fun _ => ([] : List Evidence)) = [] :=
    fun as => List.flatMap_eq_nil_iff.mpr fun _ _ => rfl
  rw [visit, hpath, h.kind?_eq, receiver?]
  simp only [h.callee?_eq, h.arguments?_eq, evidenceIn_append, evidenceIn_flatMap, evidenceIn_chainEvents,
    hsilent, List.nil_append]
  split
  · rename_i hreceiver
    simp only [hreceiver, evidenceIn_append, evidenceIn_flatMap, evidenceIn_typeEvents, hsilent,
      List.append_nil, evidenceIn_singleton]
  · rename_i hreceiver
    simp only [hreceiver, evidenceIn_append, evidenceIn_chainEvents, List.nil_append]
    split
    · rename_i hinvoked
      simp only [hinvoked, evidenceIn_append, evidenceIn_flatMap, evidenceIn_typeEvents, hsilent,
        List.append_nil, evidenceIn_singleton]
    · rename_i hinvoked
      simp only [hinvoked, evidenceIn_append, evidenceIn_flatMap]

theorem visit_of_not_isNamed (f : Focus) (budget : Nat) (h : p.tree.isNamed = false) :
    evidenceIn (f.visit budget p) = [] := by
  cases budget with
  | zero => rfl
  | succ budget =>
    obtain ⟨t, above⟩ := p
    cases t with
    | node => cases h
    | _ =>
      rw [visit_of_not_calls (accessPath_eq_none rfl rfl) fun _ _ hcall => by cases hcall.kind?_eq]
      rfl

end Steps

section Inversion

variable {f : Focus} {p c : Place} {e : Evidence}

theorem mem_children_of_mem_parts (h : c ∈ f.parts p) : c ∈ p.children := by
  have hchild : ∀ {l : Label}, c ∈ (p.child? l).toList → c ∈ p.children :=
    fun h => List.mem_of_find?_eq_some (Option.mem_toList.mp h)
  rw [parts] at h
  split at h
  · exact (List.mem_append.mp h).elim hchild hchild
  · exact (List.mem_append.mp h).elim hchild hchild
  · exact (List.mem_append.mp h).elim hchild hchild
  · exact hchild h
  · exact hchild h
  · split at h
    · split at h
      · cases h
      · exact hchild h
    · exact (List.mem_filter.mp h).1

theorem mem_operandEvents {rule : OperandRule} {other : Option Place}
    (h : e ∈ evidenceIn (f.operandEvents rule c other)) :
    ∃ path, f.path? c = some path ∧ (e = .numeric path ∨ e = .textual path) := by
  rw [operandEvents, evidenceIn_append, evidenceIn_chainEvents, List.nil_append] at h
  split at h
  · cases h
  · rename_i path hpath
    refine ⟨path, hpath, ?_⟩
    split at h
    · rw [evidenceIn_append, evidenceIn_typeEvents, List.nil_append] at h
      split at h
      · exact .inr (List.mem_singleton.mp h)
      · exact .inl (List.mem_singleton.mp h)
    · exact .inl (List.mem_singleton.mp h)

theorem mem_assignEvents {left right : Option Place} (h : e ∈ evidenceIn (f.assignEvents left right)) :
    ∃ l r path t, left = some l ∧ right = some r ∧ f.path? l = some path ∧
      f.program.typeOf f.scope r = some t ∧ e = .assign path t := by
  rw [assignEvents.eq_def] at h
  split at h
  · rename_i l r
    rw [evidenceIn_append, evidenceIn_chainEvents, List.nil_append] at h
    split at h
    · cases h
    · rename_i path hpath
      rw [evidenceIn_append, evidenceIn_typeEvents, List.nil_append] at h
      split at h
      · rename_i t ht
        split at h
        · cases h
        · exact ⟨l, r, path, t, rfl, rfl, hpath, ht, List.mem_singleton.mp h⟩
      · cases h
  · cases h

theorem says_of_mem_operands {l : Label} (hparts : ∀ c, p.child? l = some c → c ∈ f.parts p)
    {rule : OperandRule} {other : Option Place}
    (h : e ∈ evidenceIn ((p.child? l).toList.flatMap (f.operandEvents rule · other))) : f.Says p e := by
  rw [evidenceIn_flatMap] at h
  obtain ⟨c, hc, he⟩ := List.mem_flatMap.mp h
  have hmem := hparts c (Option.mem_toList.mp hc)
  obtain ⟨path, hpath, rfl | rfl⟩ := mem_operandEvents he
  · exact .numeric hmem hpath
  · exact .textual hmem hpath

theorem says_of_mem_binaryEvents (hleft : ∀ c, p.child? .left = some c → c ∈ f.parts p)
    (hright : ∀ c, p.child? .right = some c → c ∈ f.parts p) (h : e ∈ evidenceIn (f.binaryEvents p)) :
    f.Says p e := by
  rw [binaryEvents] at h
  split at h
  · cases h
  · rw [evidenceIn_append] at h
    exact (List.mem_append.mp h).elim (says_of_mem_operands hleft) (says_of_mem_operands hright)

theorem says_of_mem_compoundEvents (hleft : ∀ c, p.child? .left = some c → c ∈ f.parts p)
    (h : e ∈ evidenceIn (f.compoundEvents p)) : f.Says p e := by
  rw [compoundEvents] at h
  split at h
  · cases h
  · split at h
    · cases h
    · split at h
      · cases h
      · exact says_of_mem_operands hleft h

theorem says_of_mem_unaryEvents (hargument : ∀ c, p.child? .argument = some c → c ∈ f.parts p)
    (h : e ∈ evidenceIn (f.unaryEvents p)) : f.Says p e := by
  rw [unaryEvents] at h
  split at h
  · exact says_of_mem_operands hargument h
  · cases h

/-- What a node says is about chains among its parts. -/
theorem says_of_mem_ownEvents (h : e ∈ evidenceIn (f.ownEvents p)) : f.Says p e := by
  have hleft : f.parts p = (p.child? .left).toList ++ (p.child? .right).toList →
      ∀ c, p.child? .left = some c → c ∈ f.parts p :=
    fun hparts c hc => hparts ▸ List.mem_append_left _ (Option.mem_toList.mpr hc)
  have hright : f.parts p = (p.child? .left).toList ++ (p.child? .right).toList →
      ∀ c, p.child? .right = some c → c ∈ f.parts p :=
    fun hparts c hc => hparts ▸ List.mem_append_right _ (Option.mem_toList.mpr hc)
  have hargument : f.parts p = (p.child? .argument).toList →
      ∀ c, p.child? .argument = some c → c ∈ f.parts p :=
    fun hparts c hc => hparts ▸ Option.mem_toList.mpr hc
  rw [ownEvents] at h
  split at h
  · rename_i hk
    have hparts : f.parts p = (p.child? .left).toList ++ (p.child? .right).toList := by rw [parts, hk]
    exact says_of_mem_binaryEvents (hleft hparts) (hright hparts) h
  · rename_i hk
    exact says_of_mem_compoundEvents (hleft (by rw [parts, hk])) h
  · rename_i hk
    have hparts : f.parts p = (p.child? .left).toList ++ (p.child? .right).toList := by rw [parts, hk]
    obtain ⟨l, r, path, t, hl, hr, hpath, ht, rfl⟩ := mem_assignEvents h
    exact .assign (hleft hparts l hl) hpath (hright hparts r hr) ht
  · rename_i hk
    exact says_of_mem_unaryEvents (hargument (by rw [parts, hk])) h
  · rename_i hk
    exact says_of_mem_unaryEvents (hargument (by rw [parts, hk])) h
  · cases h

/-- What a call says of an argument is what the function that is called declares for the value at the
argument's path. -/
theorem mem_passEvents {callee : Place} {arguments : List Place}
    (h : e ∈ evidenceIn (f.passEvents callee arguments)) :
    ∃ function index a path declared, f.program.resolveFunction callee = some function ∧
      arguments[index]? = some a ∧ f.path? a = some path ∧
      f.program.declaredAt function index = some declared ∧ e ∈ passing path declared := by
  rw [passEvents] at h
  split at h
  · cases h
  · rename_i function hfunction
    rw [evidenceIn_flatMap] at h
    obtain ⟨⟨a, index⟩, hmem, he⟩ := List.mem_flatMap.mp h
    have ha : arguments[index]? = some a := by
      obtain ⟨hlt, rfl⟩ := List.getElem?_eq_some_iff.mp (List.mk_mem_zipIdx_iff_getElem?.mp hmem)
      exact List.prefix_iff_getElem?.mp (List.takeWhile_prefix _) index hlt
    dsimp only at he
    rw [argumentEvents, evidenceIn_append, evidenceIn_chainEvents, List.nil_append] at he
    split at he
    · cases he
    · rename_i path hpath
      rw [evidenceIn_append, evidenceIn_cuts, List.nil_append] at he
      split at he
      · rename_i declared hdeclared
        split at he
        · cases he
        · rw [evidenceIn_evidence] at he
          exact ⟨function, index, a, path, declared, hfunction, ha, hpath, hdeclared, he⟩
      · cases he

end Inversion

end Focus

end UsageTypes
