import UsageTypes.Proofs.Accounting
import UsageTypes.Proofs.Propagation

/-! Edits of the evidence that its tree does not show: an item that was there before, and a declared
type in place of the items that it is taken apart into. -/

namespace UsageTypes

/-- The first claim that does not refuse the type is one that the type refines to. -/
inductive TakenIn (t : Ty) : List Ty → Prop
  | here {c : Ty} {cs : List Ty} : t.Refines c → TakenIn t (c :: cs)
  | there {c : Ty} {cs : List Ty} : unify c t = none → TakenIn t cs → TakenIn t (c :: cs)

theorem takenIn_addClaim (t : Ty) (claims : List Ty) : TakenIn t (addClaim t claims) := by
  induction claims with
  | nil => exact .here (.refl t)
  | cons c cs ih =>
    rw [addClaim]
    cases hu : unify c t with
    | some u => exact .here (refines_of_unify hu).2
    | none => exact .there hu ih

-- A claim that refuses a type goes on refusing it, and the one that took it in only gets finer.
theorem TakenIn.addClaim {t : Ty} {claims : List Ty} (h : TakenIn t claims) (s : Ty) :
    TakenIn t (addClaim s claims) := by
  induction h with
  | @here c cs ht =>
    rw [UsageTypes.addClaim]
    cases hu : unify c s with
    | some u => exact .here (ht.trans (refines_of_unify hu).1)
    | none => exact .here ht
  | @there c cs hn h ih =>
    rw [UsageTypes.addClaim]
    cases hu : unify c s with
    | some u => exact .there (unify_eq_none_of_refines hn (refines_of_unify hu).1 (.refl t)) h
    | none => exact .there hn ih

theorem TakenIn.addClaim_self {t : Ty} {claims : List Ty} (h : TakenIn t claims) :
    UsageTypes.addClaim t claims = claims := by
  induction h with
  | here ht => rw [UsageTypes.addClaim, unify_of_refines ht]
  | there hn _ ih => rw [UsageTypes.addClaim, hn, ih]

theorem takenIn_mergeClaims {ts : List Ty} {t : Ty} (h : t ∈ ts) : TakenIn t (mergeClaims ts) := by
  induction ts using List.reverseRecOn with
  | nil => simp at h
  | append_singleton ts s ih =>
    rw [mergeClaims_append_singleton]
    rcases List.mem_append.mp h with h | h
    · exact (ih h).addClaim s
    · obtain rfl := List.mem_singleton.mp h
      exact takenIn_addClaim t _

theorem put_ofLeaves {leaves : List Leaf} {leaf : Leaf} (h : leaf ∈ leaves) :
    (Mark.ofLeaves leaves).put leaf = .ofLeaves leaves := by
  rw [ofLeaves_eq]
  cases leaf with
  | touch => rfl
  | concrete t =>
    have hclaims : addClaim t (claimsOf leaves) = claimsOf leaves :=
      (takenIn_mergeClaims (mem_concretes_iff.mpr h)).addClaim_self
    simp only [Mark.put, Mark.claim, hclaims]
  | name text =>
    have hmem : text ∈ namesOf leaves := mem_namesOf_iff.mpr h
    have hne : (namesOf leaves).isEmpty = false := by
      simpa using List.ne_nil_of_mem hmem
    simp [Mark.put, Mark.refer, hmem, hne]
  | emptyShape => simp [Mark.put, Mark.seeEmptyShape, h]

namespace Trie

theorem addAtom_ofAtoms {atoms : List Atom} {p : Path} {leaf : Leaf} (h : ⟨p, leaf⟩ ∈ atoms) :
    addAtom (ofAtoms atoms) ⟨p, leaf⟩ = ofAtoms atoms := by
  induction p generalizing atoms with
  | nil =>
    rw [ofAtoms_eq_node]
    exact congrArg (node · _) (put_ofLeaves (mem_leavesAt_iff.mpr h))
  | cons s p ih =>
    have hs : s ∈ segmentsBelow [] atoms := mem_segmentsBelow_iff.mpr ⟨p, leaf, h⟩
    have hchild : atPath p (mapMark (·.put leaf)) (ofAtoms (below [s] atoms)) =
        ofAtoms (below [s] atoms) := ih (mem_below_iff.mpr h)
    rw [ofAtoms_eq_node atoms, addAtom, atPath, atChild,
      changeChild_map (nodup_segmentsBelow [] atoms), if_pos hs, List.append_nil]
    congr 1
    apply List.map_congr_left
    intro r _
    by_cases hr : r = s
    · rw [if_pos hr, hr, hchild]
    · rw [if_neg hr]

theorem foldl_addAtom_ofAtoms {atoms atoms' : List Atom} (h : atoms' ⊆ atoms) :
    atoms'.foldl addAtom (ofAtoms atoms) = ofAtoms atoms := by
  induction atoms' with
  | nil => rfl
  | cons a atoms' ih =>
    rw [List.foldl_cons, addAtom_ofAtoms (h List.mem_cons_self)]
    exact ih fun b hb => h (List.mem_cons_of_mem _ hb)

theorem insert_foldl_insert (strategy : Strategy) {evidence : List Evidence} {item : Evidence}
    (h : item ∈ evidence) :
    insert strategy (evidence.foldl (insert strategy) empty) item =
      evidence.foldl (insert strategy) empty := by
  rw [insert_eq_foldl, foldl_insert_eq_foldl]
  exact foldl_addAtom_ofAtoms fun a ha => List.mem_flatMap.mpr ⟨item, h, ha⟩

/-- Items of one origin that stand side by side stay side by side in the order of insertion, behind
what was ahead of them and of the same origin. -/
theorem inOrder_append_append (origin : Origin) (before after : List Evidence) :
    ∃ ahead behind, (∀ e ∈ before, e.origin = origin → e ∈ ahead) ∧
      ∀ items : List Evidence, (∀ e ∈ items, e.origin = origin) →
        inOrder (before ++ items ++ after) = ahead ++ items ++ behind := by
  have hall (items : List Evidence) (h : ∀ e ∈ items, e.origin = origin) :
      items.filter (·.origin = origin) = items := by
    simpa [List.filter_eq_self] using h
  have hnone (items : List Evidence) (h : ∀ e ∈ items, e.origin = origin) (other : Origin)
      (hne : other ≠ origin) : items.filter (·.origin = other) = [] := by
    rw [List.filter_eq_nil_iff]
    intro e he
    simpa [h e he] using hne.symm
  cases origin with
  | ownBody =>
    refine ⟨before.filter (·.origin = .ownBody), after.filter (·.origin = .ownBody) ++
      (before ++ after).filter (·.origin = .callArgument), ?_, ?_⟩
    · intro e he ho
      exact List.mem_filter.mpr ⟨he, decide_eq_true ho⟩
    · intro items h
      simp [inOrder, List.filter_append, hall items h, hnone items h .callArgument (by decide)]
  | callArgument =>
    refine ⟨(before ++ after).filter (·.origin = .ownBody) ++
      before.filter (·.origin = .callArgument), after.filter (·.origin = .callArgument), ?_, ?_⟩
    · intro e he ho
      exact List.mem_append_right _ (List.mem_filter.mpr ⟨he, decide_eq_true ho⟩)
    · intro items h
      simp [inOrder, List.filter_append, hall items h, hnone items h .ownBody (by decide)]

theorem ofEvidence_repeat (strategy : Strategy) {before : List Evidence} {item : Evidence}
    (h : item ∈ before) (after : List Evidence) :
    ofEvidence strategy (before ++ item :: after) = ofEvidence strategy (before ++ after) := by
  obtain ⟨ahead, behind, hahead, horder⟩ := inOrder_append_append item.origin before after
  have hwith := horder [item] (by simp)
  have hwithout := horder [] (by simp)
  simp only [List.append_assoc, List.singleton_append, List.nil_append] at hwith hwithout
  rw [ofEvidence, ofEvidence, hwith, hwithout, List.foldl_append, List.foldl_append, List.foldl_cons,
    insert_foldl_insert strategy (hahead item h rfl)]

end Trie

/-- An item that was there before says nothing new: repeating it anywhere behind its first
occurrence leaves the type as it is. -/
theorem synthesize_repeat (members : MemberTable) (strategy : Strategy) (policy : ConflictPolicy)
    {before : List Evidence} {item : Evidence} (h : item ∈ before) (after : List Evidence) :
    synthesize members strategy policy (before ++ item :: after) =
      synthesize members strategy policy (before ++ after) := by
  rw [synthesize, synthesize, Trie.ofEvidence_repeat strategy h]

/-- The callable that is passed again meets a refined claim of its own, behind one that refuses it. -/
theorem synthesize_repeat_refined_callable :
    let item : Evidence := .argument [] (.inter [.function [.dynamic] .dynamic, .named "K"])
    let before : List Evidence := [.access ["a"], .numeric [], item]
    let after : List Evidence := [.invoke [] [.string], .argument ["b"] (.shape [])]
    let found (policy : ConflictPolicy) (evidence : List Evidence) : Ty :=
      synthesize (fun _ => none) .baseline policy evidence
    item ∈ before ∧
      (Trie.ofEvidence .baseline (before ++ after)).mark.claims =
        [.number, .function [.string] .dynamic] ∧
      found .keepFirst (before ++ item :: after) = found .keepFirst (before ++ after) ∧
      found .unresolved (before ++ item :: after) = found .unresolved (before ++ after) :=
  ⟨by decide, by decide, synthesize_repeat _ _ _ (by decide) _, synthesize_repeat _ _ _ (by decide) _⟩

mutual

/-- The types that a declared type is taken apart into on the way to its items: the type itself, and
the same of its fields or its members. -/
def Ty.takenApart : Ty → List Ty
  | .shape fields => .shape fields :: takenApartFields fields
  | .inter members => .inter members :: takenApartAll members
  | t => [t]

def Ty.takenApartFields : List (String × Ty) → List Ty
  | [] => []
  | (_, t) :: fields => t.takenApart ++ takenApartFields fields

def Ty.takenApartAll : List Ty → List Ty
  | [] => []
  | t :: ts => t.takenApart ++ takenApartAll ts

end

mutual

theorem passes_of_takenApart (strategy : Strategy) (t : Ty) (h : .inter [] ∉ t.takenApart) :
    Passes strategy t := by
  cases t with
  | shape fields =>
    rw [Ty.takenApart, List.mem_cons, not_or] at h
    exact passes_shape (passes_of_takenApartFields strategy fields h.2)
  | inter ts =>
    rw [Ty.takenApart, List.mem_cons, not_or] at h
    refine passes_inter ?_ (passes_of_takenApartAll strategy ts h.2)
    rintro rfl
    exact h.1 rfl
  | _ => exact fun p root => rfl

theorem passes_of_takenApartFields (strategy : Strategy) (fields : List (String × Ty))
    (h : .inter [] ∉ Ty.takenApartFields fields) : ∀ f ∈ fields, Passes strategy f.2 := by
  cases fields with
  | nil => simp
  | cons f fields =>
    obtain ⟨name, t⟩ := f
    rw [Ty.takenApartFields, List.mem_append, not_or] at h
    rw [List.forall_mem_cons]
    exact ⟨passes_of_takenApart strategy t h.1, passes_of_takenApartFields strategy fields h.2⟩

theorem passes_of_takenApartAll (strategy : Strategy) (ts : List Ty)
    (h : .inter [] ∉ Ty.takenApartAll ts) : ∀ t ∈ ts, Passes strategy t := by
  cases ts with
  | nil => simp
  | cons t ts =>
    rw [Ty.takenApartAll, List.mem_append, not_or] at h
    rw [List.forall_mem_cons]
    exact ⟨passes_of_takenApart strategy t h.1, passes_of_takenApartAll strategy ts h.2⟩

end

theorem Trie.ofEvidence_passing (strategy : Strategy) (before after : List Evidence) (p : Path)
    {declared : Ty} (h : .inter [] ∉ declared.takenApart) :
    ofEvidence strategy (before ++ passing p declared ++ after) =
      ofEvidence strategy (before ++ .argument p declared :: after) := by
  obtain ⟨ahead, behind, _, horder⟩ := inOrder_append_append .callArgument before after
  have hitems := horder (passing p declared) fun _ => origin_of_mem_passing
  have hwhole := horder [.argument p declared] (by simp [Evidence.origin])
  rw [List.append_assoc before, List.singleton_append] at hwhole
  rw [ofEvidence, ofEvidence, hitems, hwhole, List.foldl_append, List.foldl_append,
    passes_of_takenApart strategy declared h, List.foldl_append, List.foldl_append]
  rfl

/-- The items that a declared type is taken apart into say together what the type says as a whole,
wherever it is passed, unless it has an intersection without members. -/
theorem synthesize_passing (members : MemberTable) (strategy : Strategy) (policy : ConflictPolicy)
    (before after : List Evidence) (p : Path) {declared : Ty}
    (h : .inter [] ∉ declared.takenApart) :
    synthesize members strategy policy (before ++ passing p declared ++ after) =
      synthesize members strategy policy (before ++ .argument p declared :: after) := by
  rw [synthesize, synthesize, Trie.ofEvidence_passing strategy before after p h]

theorem synthesize_passing_nested :
    let declared : Ty := .inter [.shape [("a", .dynamic), ("b", .shape [])], .named "K",
      .inter [.shape [("c", .inter [.named "K", .shape [("a", .number)]])], .function [] .dynamic]]
    let before : List Evidence := [.argument ["q"] (.named "G"), .access ["q", "c"]]
    let after : List Evidence := [.access ["q", "e"]]
    let found (evidence : List Evidence) : Ty :=
      synthesize (fun _ => none) .baseline .keepFirst evidence
    .inter [] ∉ declared.takenApart ∧
      passing ["q"] declared = [.argument ["q", "a"] .dynamic, .argument ["q", "b"] (.shape []),
        .argument ["q"] (.named "K"), .argument ["q", "c"] (.named "K"),
        .argument ["q", "c", "a"] .number, .argument ["q"] (.function [] .dynamic)] ∧
      found (before ++ passing ["q"] declared ++ after) =
        found (before ++ .argument ["q"] declared :: after) :=
  ⟨by decide, by decide, synthesize_passing _ _ _ _ _ ["q"] (by decide)⟩

-- Without members there are no items, and nothing brings the path into being.
example :
    synthesize (fun _ => none) .baseline .unresolved [.argument ["a"] (.inter [])] =
        .shape [("a", .dynamic)] ∧
      synthesize (fun _ => none) .baseline .unresolved (passing ["a"] (.inter [])) = .dynamic := by
  decide

end UsageTypes
