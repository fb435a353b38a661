import UsageTypes.Proofs.Reference
import UsageTypes.Proofs.TypeSources
import UsageTypes.Proofs.Walk

/-! Types in evidence. A property that passes between a type and its parts holds of every type that
the walk over a body puts into evidence, and synthesis from such evidence keeps it. -/

namespace UsageTypes

/-- The types that an item of evidence holds. -/
def Evidence.types : Evidence → List Ty
  | .access _ | .numeric _ | .textual _ => []
  | .method _ _ arguments | .invoke _ arguments => arguments
  | .argument _ t | .assign _ t => [t]

section Passing

variable {P : Ty → Prop} (hP : Ty.Hereditary P)

mutual

theorem passing_hereditary (hP : Ty.Hereditary P) {path : Path} {t : Ty} (ht : P t) :
    ∀ e ∈ passing path t, ∀ u ∈ e.types, P u := by
  cases t with
  | shape fields =>
    cases fields with
    | nil => simpa [passing, Evidence.types] using ht
    | cons f fields => exact passingFields_hereditary hP (hP.shape.mp ht)
  | inter members => exact passingAll_hereditary hP (hP.members ht)
  | _ => simpa [passing, Evidence.types] using ht

theorem passingFields_hereditary (hP : Ty.Hereditary P) {path : Path} {fields : List (String × Ty)}
    (hf : ∀ f ∈ fields, P f.2) : ∀ e ∈ passingFields path fields, ∀ u ∈ e.types, P u := by
  cases fields with
  | nil => simp [passingFields]
  | cons f fields =>
    obtain ⟨name, t⟩ := f
    obtain ⟨ht, hf⟩ := List.forall_mem_cons.mp hf
    exact List.forall_mem_append.mpr ⟨passing_hereditary hP ht, passingFields_hereditary hP hf⟩

theorem passingAll_hereditary (hP : Ty.Hereditary P) {path : Path} {ts : List Ty}
    (hts : ∀ t ∈ ts, P t) : ∀ e ∈ passingAll path ts, ∀ u ∈ e.types, P u := by
  cases ts with
  | nil => simp [passingAll]
  | cons t ts =>
    obtain ⟨ht, hts⟩ := List.forall_mem_cons.mp hts
    exact List.forall_mem_append.mpr ⟨passing_hereditary hP ht, passingAll_hereditary hP hts⟩

end

end Passing

section Walk

variable {P : Ty → Prop} (hP : Ty.Hereditary P) {T : Tree → Prop} (hT : Tree.Referring P T)
  {f : Focus} (hscope : f.scope.All P)

include hP hT hscope

theorem argumentTypes_hereditary {arguments : List Place} (ha : ∀ a ∈ arguments, a.Among T) :
    ∀ t ∈ f.argumentTypes arguments, P t := by
  intro t ht
  obtain ⟨a, hmem, rfl⟩ := List.mem_map.mp ht
  exact getD_hereditary hP fun u hu => typeOf_hereditary hP hT f.program hscope (ha a hmem) hu

omit hscope in
theorem passEvents_hereditary {callee : Place} (hc : callee.Among T) (arguments : List Place) :
    ∀ e ∈ evidenceIn (f.passEvents callee arguments), ∀ t ∈ e.types, P t := by
  intro e he
  obtain ⟨function, index, a, path, declared, hfunction, -, -, hdeclared, he⟩ := Focus.mem_passEvents he
  have hf : function.Among T := resolveFunction_among hT hc hfunction
  exact passing_hereditary hP (declaredAt_hereditary hP hT f.program hf hdeclared) e he

theorem says_hereditary {p : Place} (hp : p.Among T) {e : Evidence} (h : f.Says p e) :
    ∀ t ∈ e.types, P t := by
  cases h with
  | numeric => simp [Evidence.types]
  | textual => simp [Evidence.types]
  | assign _ _ hr ht =>
    have hr := hp.of_mem_children hT (Focus.mem_children_of_mem_parts hr)
    simpa [Evidence.types] using typeOf_hereditary hP hT f.program hscope hr ht

/-- Every type that a walk puts into evidence has the property. -/
theorem visit_hereditary (budget : Nat) {p : Place} (hp : p.Among T) :
    ∀ e ∈ evidenceIn (f.visit budget p), ∀ t ∈ e.types, P t := by
  induction budget generalizing p with
  | zero => simp [Focus.visit, evidenceIn, Event.evidence?]
  | succ budget ih =>
    have hall {ps : List Place} (hps : ∀ c ∈ ps, c.Among T) :
        ∀ e ∈ ps.flatMap (fun c => evidenceIn (f.visit budget c)), ∀ t ∈ e.types, P t := by
      intro e he
      obtain ⟨c, hc, he⟩ := List.mem_flatMap.mp he
      exact ih (hps c hc) e he
    have haccess (path : Path) : ∀ e ∈ evidenceIn (Focus.accessEvents path), ∀ t ∈ e.types, P t := by
      simp [evidenceIn_accessEvents, Evidence.types]
    cases hpath : f.path? p with
    | some path =>
      rw [Focus.visit_of_path? hpath]
      exact haccess path
    | none =>
      by_cases hcall : ∃ callee arguments, p.Calls callee arguments
      · obtain ⟨callee, arguments, hcall⟩ := hcall
        have hcallee := hp.child? hT hcall.callee?_eq
        have harguments : ∀ a ∈ arguments, a.Among T :=
          fun a ha => hp.of_mem_arguments hT hcall.arguments?_eq ha
        have htypes := argumentTypes_hereditary hP hT hscope harguments
        rw [Focus.visit_of_calls hcall hpath]
        split
        · simp only [List.forall_mem_append, List.forall_mem_singleton]
          exact ⟨⟨haccess _, hall harguments⟩, htypes⟩
        · simp only [List.forall_mem_append, List.forall_mem_singleton]
          exact ⟨⟨haccess _, hall harguments⟩, htypes⟩
        · simp only [List.forall_mem_append]
          exact ⟨⟨ih hcallee, hall harguments⟩, passEvents_hereditary hP hT hcallee arguments⟩
      · simp only [not_exists] at hcall
        rw [Focus.visit_of_not_calls hpath hcall, List.forall_mem_append]
        refine ⟨hall fun c hc => hp.of_mem_children hT (Focus.mem_children_of_mem_parts hc), ?_⟩
        exact fun e he => says_hereditary hP hT hscope hp (Focus.says_of_mem_ownEvents he)

end Walk

theorem evidence_hereditary {P : Ty → Prop} (hP : Ty.Hereditary P) {T : Tree → Prop}
    (hT : Tree.Referring P T) (program : Program) {function body : Place} (hf : function.Among T)
    (hb : body.Among T) (name : String) (limit : Nat) :
    ∀ e ∈ program.evidence function name limit body, ∀ t ∈ e.types, P t := by
  have hscope : (program.focus function name limit).scope.All P :=
    scopeOf_hereditary hP hT program hf
  exact visit_hereditary hP hT hscope _ hb

/-- The type that an interpretation of a call speaks of. -/
def MethodUse.type : MethodUse → Ty
  | .collection t | .member t => t

/-- A strategy that passes a property from argument types to the types it gives. -/
def Strategy.Keeps (P : Ty → Prop) (strategy : Strategy) : Prop :=
  ∀ name arguments, (∀ t ∈ arguments, P t) → P (strategy.interpret name arguments).type

/-- A leaf that speaks of types with a property only. -/
def Leaf.All (P : Ty → Prop) : Leaf → Prop
  | .concrete t => P t
  | .name text => P (.named text)
  | .touch | .emptyShape => True

section Synthesis

variable {P : Ty → Prop}

theorem methodStrategy_keeps (hP : Ty.Hereditary P) (options : Options) :
    options.methodStrategy.Keeps P := by
  intro name arguments harguments
  have hcall : P (callSignature arguments) := hP.function.mpr ⟨harguments, hP.dynamic⟩
  have helement : P (Strategy.element arguments) := by
    cases arguments with
    | nil => exact hP.dynamic
    | cons t ts =>
      rw [Strategy.element]
      split
      · exact harguments t List.mem_cons_self
      · exact hP.dynamic
  rw [Options.methodStrategy]
  split
  · exact hcall
  · simp only [Strategy.refined]
    split
    · exact helement
    · exact hcall

mutual

theorem atoms_hereditary (hP : Ty.Hereditary P) {p : Path} {t : Ty} (ht : P t) :
    ∀ a ∈ t.atoms p, a.leaf.All P := by
  cases t with
  | dynamic => simp [Ty.atoms]
  | named text => simpa [Ty.atoms, Leaf.All] using ht
  | primitive kind => simpa [Ty.atoms, Leaf.All] using ht
  | array element => simpa [Ty.atoms, Leaf.All] using ht
  | function params returns => simpa [Ty.atoms, Leaf.All] using ht
  | inter members => exact atomsAll_hereditary hP (hP.members ht)
  | shape fields =>
    cases fields with
    | nil => simp [Ty.atoms, Leaf.All]
    | cons f fields => exact atomsFields_hereditary hP (hP.shape.mp ht)

theorem atomsAll_hereditary (hP : Ty.Hereditary P) {p : Path} {ts : List Ty} (hts : ∀ t ∈ ts, P t) :
    ∀ a ∈ Ty.atomsAll p ts, a.leaf.All P := by
  cases ts with
  | nil => simp [Ty.atomsAll]
  | cons t ts =>
    obtain ⟨ht, hts⟩ := List.forall_mem_cons.mp hts
    exact List.forall_mem_append.mpr ⟨atoms_hereditary hP ht, atomsAll_hereditary hP hts⟩

theorem atomsFields_hereditary (hP : Ty.Hereditary P) {p : Path} {fields : List (String × Ty)}
    (hf : ∀ f ∈ fields, P f.2) : ∀ a ∈ Ty.atomsFields p fields, a.leaf.All P := by
  cases fields with
  | nil => simp [Ty.atomsFields]
  | cons f fields =>
    obtain ⟨name, t⟩ := f
    obtain ⟨ht, hf⟩ := List.forall_mem_cons.mp hf
    refine List.forall_mem_append.mpr ⟨?_, atomsFields_hereditary hP hf⟩
    exact List.forall_mem_cons.mpr ⟨trivial, atoms_hereditary hP ht⟩

end

theorem Evidence.atoms_hereditary (hP : Ty.Hereditary P) {strategy : Strategy}
    (hs : strategy.Keeps P) {e : Evidence} (he : ∀ t ∈ e.types, P t) :
    ∀ a ∈ e.atoms strategy, a.leaf.All P := by
  refine List.forall_mem_cons.mpr ⟨trivial, ?_⟩
  cases e with
  | access p => simp
  | numeric p => exact UsageTypes.atoms_hereditary hP (hP.primitive .number)
  | textual p => exact UsageTypes.atoms_hereditary hP (hP.primitive .string)
  | method p name arguments =>
    have hkept := hs name arguments he
    dsimp only
    split
    · rename_i element huse
      rw [huse] at hkept
      exact UsageTypes.atoms_hereditary hP (hP.array.mpr hkept)
    · rename_i t huse
      rw [huse] at hkept
      exact List.forall_mem_cons.mpr ⟨trivial, UsageTypes.atoms_hereditary hP hkept⟩
  | argument p t => exact UsageTypes.atoms_hereditary hP (he t List.mem_cons_self)
  | invoke p arguments =>
    exact UsageTypes.atoms_hereditary hP (hP.function.mpr ⟨he, hP.dynamic⟩)
  | assign p t => exact UsageTypes.atoms_hereditary hP (he t List.mem_cons_self)

theorem atomsOf_hereditary (hP : Ty.Hereditary P) {strategy : Strategy} (hs : strategy.Keeps P)
    {evidence : List Evidence} (he : ∀ e ∈ evidence, ∀ t ∈ e.types, P t) :
    ∀ a ∈ atomsOf strategy evidence, a.leaf.All P := by
  intro a ha
  obtain ⟨e, hmem, ha⟩ := mem_atomsOf_iff.mp ha
  exact Evidence.atoms_hereditary hP hs (he e hmem) a ha

mutual

theorem unify_hereditary (hP : Ty.Hereditary P) {a b c : Ty} (ha : P a) (hb : P b)
    (h : unify a b = some c) : P c := by
  rw [unify.eq_def] at h
  split at h
  · exact Option.some.inj h ▸ ha
  · split at h
    · exact Option.some.inj h ▸ hb
    · exact Option.some.inj h ▸ ha
    · obtain ⟨z, hz, rfl⟩ := Option.map_eq_some_iff.mp h
      exact hP.array.mpr (unify_hereditary hP (hP.array.mp ha) (hP.array.mp hb) hz)
    · split at h
      · rename_i params returns hparams hreturns
        obtain rfl := Option.some.inj h
        obtain ⟨hps, hr⟩ := hP.function.mp ha
        obtain ⟨hqs, hs⟩ := hP.function.mp hb
        exact hP.function.mpr
          ⟨unifyAll_hereditary hP hps hqs hparams, unify_hereditary hP hr hs hreturns⟩
      · cases h
    · cases h
termination_by sizeOf a

theorem unifyAll_hereditary (hP : Ty.Hereditary P) {xs ys zs : List Ty} (hx : ∀ t ∈ xs, P t)
    (hy : ∀ t ∈ ys, P t) (h : unifyAll xs ys = some zs) : ∀ t ∈ zs, P t := by
  rw [unifyAll.eq_def] at h
  split at h
  · obtain rfl := Option.some.inj h
    exact hx
  · obtain ⟨hx, hxs⟩ := List.forall_mem_cons.mp hx
    obtain ⟨hy, hys⟩ := List.forall_mem_cons.mp hy
    split at h
    · rename_i z zs hz hzs
      obtain rfl := Option.some.inj h
      exact List.forall_mem_cons.mpr
        ⟨unify_hereditary hP hx hy hz, unifyAll_hereditary hP hxs hys hzs⟩
    · cases h
  · cases h
termination_by sizeOf xs

end

theorem unclaimed_hereditary (hP : Ty.Hereditary P) (members : MemberTable) {leaves : List Leaf}
    (hl : ∀ leaf ∈ leaves, leaf.All P) {fields : List (String × Ty)} (hf : ∀ f ∈ fields, P f.2) :
    P (unclaimed members leaves fields) := by
  have hnames : ∀ t ∈ (namesOf leaves).map Ty.named, P t := by
    intro t ht
    obtain ⟨text, htext, rfl⟩ := List.mem_map.mp ht
    exact hl _ (mem_namesOf_iff.mp htext)
  rw [unclaimed]
  split
  · rw [combineNamed]
    split
    · exact hP.interOf hnames
    · refine hP.interOf (List.forall_mem_append.mpr ⟨hnames, ?_⟩)
      refine List.forall_mem_singleton.mpr (hP.shape.mpr fun f hmem => ?_)
      exact hf f (List.mem_filter.mp hmem).1
  · split
    · exact hP.shape.mpr hf
    · exact hP.dynamic

theorem outcome_hereditary (hP : Ty.Hereditary P) (members : MemberTable) (policy : ConflictPolicy)
    {leaves : List Leaf} (hl : ∀ leaf ∈ leaves, leaf.All P) {fields : List (String × Ty)}
    (hf : ∀ f ∈ fields, P f.2) : P (outcome members policy leaves fields) := by
  rcases outcome_cases members policy leaves fields with he | hc | he
  · rw [he]
    exact unclaimed_hereditary hP members hl hf
  · refine forall_mem_mergeClaims (fun _ _ _ => unify_hereditary hP) (fun t ht => ?_) _ hc
    exact hl _ (mem_concretes_iff.mp ht)
  · rw [he]
    exact hP.dynamic

/-- Synthesis keeps a property that its strategy keeps. -/
theorem synthesize_hereditary (hP : Ty.Hereditary P) (members : MemberTable) {strategy : Strategy}
    (hs : strategy.Keeps P) (policy : ConflictPolicy) {evidence : List Evidence}
    (he : ∀ e ∈ evidence, ∀ t ∈ e.types, P t) :
    P (synthesize members strategy policy evidence) := by
  rw [synthesize, Trie.resolve_ofEvidence]
  have hatoms := atomsOf_hereditary hP hs he
  generalize atomsOf strategy evidence = atoms at hatoms
  -- Every path on the way settles leaves with the property over fields that have it.
  generalize Path.root = p
  induction p using reference.induct atoms with
  | case1 p ih =>
    rw [reference_eq]
    refine outcome_hereditary hP members policy (fun leaf hl => ?_) fun f hf => ?_
    · exact hatoms _ (mem_leavesAt_iff.mp hl)
    · obtain ⟨s, hs, rfl⟩ := List.mem_map.mp hf
      exact ih ⟨s, hs⟩

end Synthesis

end UsageTypes
