import UsageTypes.Proofs.Atoms

/-! Types read off atoms without a tree. Every path settles its own leaves, and its fields are the
next segments of the atoms below it. Synthesis computes exactly this. -/

namespace UsageTypes

namespace Leaf

def concrete? : Leaf → Option Ty
  | concrete t => some t
  | _ => none

def name? : Leaf → Option String
  | name text => some text
  | _ => none

end Leaf

def nameFirst : List Leaf → Bool
  | [] => false
  | .name _ :: _ => true
  | .concrete _ :: _ => false
  | _ :: leaves => nameFirst leaves

def leavesAt (p : Path) (atoms : List Atom) : List Leaf :=
  atoms.filterMap fun a => if a.path = p then some a.leaf else none

/-- The next segments of the atoms strictly below a path, in order of first occurrence. -/
def segmentsBelow (p : Path) (atoms : List Atom) : List String :=
  (atoms.filterMap fun a => (p.isPrefixOf? a.path).bind (·.head?)).eraseDups

def claimsOf (leaves : List Leaf) : List Ty :=
  mergeClaims (leaves.filterMap Leaf.concrete?)

def namesOf (leaves : List Leaf) : List String :=
  (leaves.filterMap Leaf.name?).eraseDups

/-- The type of a value as far as no concrete type is claimed: references with the fields that they
do not declare, a shape, or nothing. -/
def unclaimed (members : MemberTable) (leaves : List Leaf) (fields : List (String × Ty)) : Ty :=
  if namesOf leaves ≠ [] then combineNamed members (namesOf leaves) fields
  else if fields ≠ [] ∨ .emptyShape ∈ leaves then .shape fields
  else .dynamic

/-- The type of a value from the leaves at its path and the types of its fields. Claims that do not
unify and a claim beside a reference conflict, which the policy settles. -/
def outcome (members : MemberTable) (policy : ConflictPolicy) (leaves : List Leaf)
    (fields : List (String × Ty)) : Ty :=
  match claimsOf leaves, namesOf leaves, policy with
  | [], _, _ => unclaimed members leaves fields
  | [claim], [], _ => claim
  | _ :: _, _, .unresolved => .dynamic
  | claim :: _, _, .keepFirst =>
    if nameFirst leaves then unclaimed members leaves fields else claim

theorem unclaimed_of_names {members : MemberTable} {leaves : List Leaf}
    (h : namesOf leaves ≠ []) (fields : List (String × Ty)) :
    unclaimed members leaves fields =
      .meet ((namesOf leaves).map .named ++ leftoverShape members (namesOf leaves) fields) := by
  rw [unclaimed, if_pos h, combineNamed_eq_meet h (nodup_eraseDups _)]

theorem unclaimed_of_shape {members : MemberTable} {leaves : List Leaf}
    {fields : List (String × Ty)} (h : namesOf leaves = [])
    (hf : fields ≠ [] ∨ .emptyShape ∈ leaves) : unclaimed members leaves fields = .shape fields := by
  rw [unclaimed, if_neg (not_not_intro h), if_pos hf]

theorem unclaimed_of_nothing {members : MemberTable} {leaves : List Leaf}
    {fields : List (String × Ty)} (h : namesOf leaves = [])
    (hf : ¬ (fields ≠ [] ∨ .emptyShape ∈ leaves)) : unclaimed members leaves fields = .dynamic := by
  rw [unclaimed, if_neg (not_not_intro h), if_neg hf]

theorem nodup_segmentsBelow (p : Path) (atoms : List Atom) : (segmentsBelow p atoms).Nodup :=
  nodup_eraseDups _

theorem length_lt_of_mem_segmentsBelow {p : Path} {atoms : List Atom} {s : String}
    (h : s ∈ segmentsBelow p atoms) : p.length < (atoms.map (·.path)).flatten.length := by
  simp only [segmentsBelow, List.mem_eraseDups, List.mem_filterMap, Option.bind_eq_some_iff] at h
  obtain ⟨a, ha, q, hq, hs⟩ := h
  have hp := List.isPrefixOf?_eq_some_iff_append_eq.mp hq
  have hl : a.path.length ≤ (atoms.map (·.path)).flatten.length :=
    (List.sublist_flatten_of_mem (List.mem_map_of_mem ha)).length_le
  cases q with
  | nil => simp at hs
  | cons r q =>
    rw [← hp, List.length_append, List.length_cons] at hl
    omega

/-- The type at a path, read off the atoms. -/
def reference (members : MemberTable) (policy : ConflictPolicy) (atoms : List Atom) (p : Path) : Ty :=
  outcome members policy (leavesAt p atoms)
    ((segmentsBelow p atoms).attach.map fun s =>
      (s.1, reference members policy atoms (p.child s.1)))
termination_by (atoms.map (·.path)).flatten.length - p.length
decreasing_by
  have hl := length_lt_of_mem_segmentsBelow s.2
  simp only [Path.child, List.length_append, List.length_singleton]
  omega

theorem reference_eq (members : MemberTable) (policy : ConflictPolicy) (atoms : List Atom)
    (p : Path) :
    reference members policy atoms p = outcome members policy (leavesAt p atoms)
      ((segmentsBelow p atoms).map fun s => (s, reference members policy atoms (p.child s))) := by
  rw [reference, List.attach_map_val (f := fun s => (s, reference members policy atoms (p.child s)))]

def below (p : Path) (atoms : List Atom) : List Atom :=
  atoms.filterMap fun a => (p.isPrefixOf? a.path).map fun q => ⟨q, a.leaf⟩

theorem isPrefixOf?_append (p q r : Path) :
    (p ++ q).isPrefixOf? r = (p.isPrefixOf? r).bind (q.isPrefixOf? ·) := by
  induction p generalizing r with
  | nil => rfl
  | cons s p ih =>
    cases r with
    | nil => rfl
    | cons t r => by_cases h : s = t <;> simp [List.isPrefixOf?, h, ih]

theorem below_append (p q : Path) (atoms : List Atom) :
    below (p ++ q) atoms = below q (below p atoms) := by
  simp only [below, List.filterMap_filterMap]
  congr 1
  funext a
  rw [isPrefixOf?_append]
  cases p.isPrefixOf? a.path <;> rfl

theorem leavesAt_below (p : Path) (atoms : List Atom) :
    leavesAt [] (below p atoms) = leavesAt p atoms := by
  simp only [below, leavesAt, List.filterMap_filterMap]
  congr 1
  funext a
  cases hq : p.isPrefixOf? a.path with
  | none =>
    have hne : a.path ≠ p := by
      intro he
      have hs : p.isPrefixOf? a.path = some [] :=
        List.isPrefixOf?_eq_some_iff_append_eq.mpr (by simp [he])
      simp [hs] at hq
    simp [hne]
  | some q =>
    have hp := List.isPrefixOf?_eq_some_iff_append_eq.mp hq
    simp [← hp]

theorem segmentsBelow_below (p : Path) (atoms : List Atom) :
    segmentsBelow [] (below p atoms) = segmentsBelow p atoms := by
  simp only [below, segmentsBelow, List.filterMap_filterMap]
  congr 2
  funext a
  cases p.isPrefixOf? a.path <;> rfl

theorem mem_leavesAt_iff {atoms : List Atom} {p : Path} {leaf : Leaf} :
    leaf ∈ leavesAt p atoms ↔ ⟨p, leaf⟩ ∈ atoms := by
  simp only [leavesAt, List.mem_filterMap, Option.ite_none_right_eq_some, Option.some.injEq]
  constructor
  · rintro ⟨a, ha, rfl, rfl⟩
    exact ha
  · intro h
    exact ⟨_, h, rfl, rfl⟩

theorem mem_below_iff {atoms : List Atom} {p q : Path} {leaf : Leaf} :
    ⟨q, leaf⟩ ∈ below p atoms ↔ ⟨p ++ q, leaf⟩ ∈ atoms := by
  simp only [below, List.mem_filterMap, Option.map_eq_some_iff, Atom.mk.injEq]
  constructor
  · rintro ⟨a, ha, r, hr, rfl, rfl⟩
    rwa [List.isPrefixOf?_eq_some_iff_append_eq.mp hr]
  · intro h
    exact ⟨_, h, q, List.isPrefixOf?_eq_some_iff_append_eq.mpr rfl, rfl, rfl⟩

theorem mem_segmentsBelow_iff {atoms : List Atom} {p : Path} {s : String} :
    s ∈ segmentsBelow p atoms ↔ ∃ q leaf, ⟨p ++ s :: q, leaf⟩ ∈ atoms := by
  simp only [segmentsBelow, List.mem_eraseDups, List.mem_filterMap, Option.bind_eq_some_iff,
    List.head?_eq_some_iff]
  constructor
  · rintro ⟨a, ha, _, hp, q, rfl⟩
    refine ⟨q, a.leaf, ?_⟩
    rwa [List.isPrefixOf?_eq_some_iff_append_eq.mp hp]
  · rintro ⟨q, leaf, h⟩
    exact ⟨_, h, s :: q, List.isPrefixOf?_eq_some_iff_append_eq.mpr rfl, q, rfl⟩

theorem mem_concretes_iff {leaves : List Leaf} {c : Ty} :
    c ∈ leaves.filterMap Leaf.concrete? ↔ .concrete c ∈ leaves := by
  rw [List.mem_filterMap]
  constructor
  · rintro ⟨leaf, h, hc⟩
    cases leaf with
    | concrete t => rwa [← Option.some.inj hc]
    | _ => cases hc
  · intro h
    exact ⟨_, h, rfl⟩

theorem mem_namesOf_iff {leaves : List Leaf} {text : String} :
    text ∈ namesOf leaves ↔ .name text ∈ leaves := by
  rw [namesOf, List.mem_eraseDups, List.mem_filterMap]
  constructor
  · rintro ⟨leaf, h, hn⟩
    cases leaf with
    | name t => rwa [← Option.some.inj hn]
    | _ => cases hn
  · intro h
    exact ⟨_, h, rfl⟩

theorem claimsOf_eq_nil_iff {leaves : List Leaf} : claimsOf leaves = [] ↔ ∀ c, .concrete c ∉ leaves := by
  rw [claimsOf, mergeClaims_eq_nil_iff, List.eq_nil_iff_forall_not_mem]
  simp only [mem_concretes_iff]

theorem namesOf_eq_nil_iff {leaves : List Leaf} : namesOf leaves = [] ↔ ∀ text, .name text ∉ leaves := by
  rw [List.eq_nil_iff_forall_not_mem]
  simp only [mem_namesOf_iff]

theorem claimsOf_leavesAt_isConcrete (strategy : Strategy) (evidence : List Evidence) (p : Path) :
    ∀ c ∈ claimsOf (leavesAt p (atomsOf strategy evidence)), c.isConcrete = true := by
  apply mergeClaims_isConcrete
  intro c hc
  rw [mem_concretes_iff, mem_leavesAt_iff] at hc
  obtain ⟨e, _, he⟩ := mem_atomsOf_iff.mp hc
  exact Evidence.isConcrete_of_mem_atoms he

def Mark.ofLeaves (leaves : List Leaf) : Mark :=
  leaves.foldl Mark.put {}

theorem nameFirst_append_singleton (leaves : List Leaf) (leaf : Leaf) :
    nameFirst (leaves ++ [leaf]) = (nameFirst leaves ||
      ((leaves.filterMap Leaf.concrete?).isEmpty && (leaves.filterMap Leaf.name?).isEmpty &&
        leaf.name?.isSome)) := by
  induction leaves with
  | nil => cases leaf <;> rfl
  | cons l leaves ih =>
    cases l <;> simp [nameFirst, ih, List.filterMap_cons, Leaf.concrete?, Leaf.name?]

theorem ofLeaves_eq (leaves : List Leaf) :
    Mark.ofLeaves leaves = ⟨claimsOf leaves, namesOf leaves, nameFirst leaves, .emptyShape ∈ leaves⟩ := by
  induction leaves using List.reverseRecOn with
  | nil => rfl
  | append_singleton leaves leaf ih =>
    have hs : Mark.ofLeaves (leaves ++ [leaf]) = (Mark.ofLeaves leaves).put leaf := by
      simp [Mark.ofLeaves]
    rw [hs, ih, nameFirst_append_singleton]
    cases leaf with
    | touch => simp [Mark.put, claimsOf, namesOf, List.filterMap_cons, Leaf.concrete?, Leaf.name?]
    | concrete t =>
      simp [Mark.put, Mark.claim, claimsOf, namesOf, List.filterMap_cons, Leaf.concrete?, Leaf.name?,
        mergeClaims_append_singleton]
    | name text =>
      have hc : (claimsOf leaves).isEmpty = (leaves.filterMap Leaf.concrete?).isEmpty := by
        rw [Bool.eq_iff_iff, List.isEmpty_iff, List.isEmpty_iff]
        exact mergeClaims_eq_nil_iff
      have hn : (namesOf leaves).isEmpty = (leaves.filterMap Leaf.name?).isEmpty := by
        rw [Bool.eq_iff_iff, List.isEmpty_iff, List.isEmpty_iff]
        exact eraseDups_eq_nil_iff
      simp only [Mark.put, Mark.refer, hc, hn]
      simp [claimsOf, namesOf, List.filterMap_cons, Leaf.concrete?, Leaf.name?, eraseDups_append_singleton]
    | emptyShape =>
      simp [Mark.put, Mark.seeEmptyShape, claimsOf, namesOf, List.filterMap_cons, Leaf.concrete?,
        Leaf.name?]

theorem conflicting_ofLeaves_iff {leaves : List Leaf} :
    (Mark.ofLeaves leaves).conflicting = true ↔
      claimsOf leaves ≠ [] ∧ ∀ claim, claimsOf leaves = [claim] → namesOf leaves ≠ [] := by
  rw [ofLeaves_eq]
  cases claimsOf leaves with
  | nil => simp [Mark.conflicting]
  | cons claim claims => cases claims <;> simp [Mark.conflicting]

theorem outcome_of_claims_eq_nil {members : MemberTable} {policy : ConflictPolicy}
    {leaves : List Leaf} {fields : List (String × Ty)} (h : claimsOf leaves = []) :
    outcome members policy leaves fields = unclaimed members leaves fields := by
  unfold outcome
  rw [h]

theorem outcome_of_claims_eq_singleton {members : MemberTable} {policy : ConflictPolicy}
    {leaves : List Leaf} {fields : List (String × Ty)} {claim : Ty} (h : claimsOf leaves = [claim])
    (hn : namesOf leaves = []) : outcome members policy leaves fields = claim := by
  unfold outcome
  rw [h, hn]

theorem outcome_of_conflicting {members : MemberTable} {leaves : List Leaf}
    {fields : List (String × Ty)} (h : (Mark.ofLeaves leaves).conflicting = true) :
    outcome members .unresolved leaves fields = .dynamic := by
  obtain ⟨hc, hn⟩ := conflicting_ofLeaves_iff.mp h
  unfold outcome
  split
  · rename_i he
    exact absurd he hc
  · rename_i claim he hnil
    exact absurd hnil (hn claim he)
  · rfl
  · rename_i hpolicy _
    cases hpolicy

theorem outcome_unresolved_cases (members : MemberTable) (leaves : List Leaf)
    (fields : List (String × Ty)) :
    (claimsOf leaves = [] ∧
      outcome members .unresolved leaves fields = unclaimed members leaves fields) ∨
    (∃ claim, claimsOf leaves = [claim] ∧ namesOf leaves = [] ∧
      outcome members .unresolved leaves fields = claim) ∨
    ((Mark.ofLeaves leaves).conflicting = true ∧
      outcome members .unresolved leaves fields = .dynamic) := by
  by_cases hconf : (Mark.ofLeaves leaves).conflicting = true
  · exact .inr (.inr ⟨hconf, outcome_of_conflicting hconf⟩)
  · by_cases hc : claimsOf leaves = []
    · exact .inl ⟨hc, outcome_of_claims_eq_nil hc⟩
    · have hone : ∃ claim, claimsOf leaves = [claim] ∧ namesOf leaves = [] := by
        simpa [conflicting_ofLeaves_iff, hc] using hconf
      obtain ⟨claim, hc, hn⟩ := hone
      exact .inr (.inl ⟨claim, hc, hn, outcome_of_claims_eq_singleton hc hn⟩)

theorem outcome_cases (members : MemberTable) (policy : ConflictPolicy) (leaves : List Leaf)
    (fields : List (String × Ty)) :
    outcome members policy leaves fields = unclaimed members leaves fields ∨
    outcome members policy leaves fields ∈ claimsOf leaves ∨
    outcome members policy leaves fields = .dynamic := by
  unfold outcome
  split
  · exact .inl rfl
  · rename_i hc _
    exact .inr (.inl (by simp [hc]))
  · exact .inr (.inr rfl)
  · rename_i claim _ hc _
    split
    · exact .inl rfl
    · exact .inr (.inl (by simp [hc]))

theorem settle_ofLeaves (members : MemberTable) (policy : ConflictPolicy) (leaves : List Leaf)
    (fields : List (String × Ty)) :
    settle members policy (Mark.ofLeaves leaves) fields = outcome members policy leaves fields := by
  have hrest : (if !(namesOf leaves).isEmpty then combineNamed members (namesOf leaves) fields
      else if !fields.isEmpty || decide (Leaf.emptyShape ∈ leaves) then .shape fields
      else .dynamic) = unclaimed members leaves fields := by
    simp [unclaimed]
  rw [ofLeaves_eq]
  unfold settle outcome
  dsimp only
  rw [hrest]
  cases hc : claimsOf leaves with
  | nil => rfl
  | cons claim claims =>
    cases hn : namesOf leaves with
    | nil => cases claims <;> cases policy <;> simp [Mark.conflicting]
    | cons name names => cases claims <;> cases policy <;> simp [Mark.conflicting]

namespace Trie

theorem changeChild_map {names : List String} (hd : names.Nodup) (child : String → Trie)
    (s : String) (f : Trie → Trie) :
    changeChild s f (names.map fun n => (n, child n)) =
      (names.map fun n => (n, if n = s then f (child n) else child n)) ++
        if s ∈ names then [] else [(s, f empty)] := by
  induction names with
  | nil => simp [changeChild]
  | cons n names ih =>
    obtain ⟨hn, hnames⟩ := List.nodup_cons.mp hd
    by_cases h : n = s
    · subst h
      have hc : names.map (fun m => (m, if m = n then f (child m) else child m)) =
          names.map fun m => (m, child m) := by
        apply List.map_congr_left
        intro m hm
        have hne : m ≠ n := fun he => hn (he ▸ hm)
        simp [hne]
      simp [changeChild, hc]
    · have hs : s ≠ n := fun he => h he.symm
      simp [changeChild, h, hs, ih hnames]

theorem segmentsBelow_append_cons (atoms : List Atom) (s : String) (q : Path) (leaf : Leaf) :
    segmentsBelow [] (atoms ++ [⟨s :: q, leaf⟩]) =
      segmentsBelow [] atoms ++ if s ∈ segmentsBelow [] atoms then [] else [s] := by
  have hs : [(⟨s :: q, leaf⟩ : Atom)].filterMap
      (fun a => (List.isPrefixOf? [] a.path).bind (·.head?)) = [s] := rfl
  rw [segmentsBelow, List.filterMap_append, hs, eraseDups_append_singleton]
  simp only [segmentsBelow, List.mem_eraseDups]
  split <;> simp

theorem ofAtoms_below_append_cons (atoms : List Atom) (s n : String) (q : Path) (leaf : Leaf) :
    ofAtoms (below [n] (atoms ++ [⟨s :: q, leaf⟩])) =
      if n = s then addAtom (ofAtoms (below [n] atoms)) ⟨q, leaf⟩
      else ofAtoms (below [n] atoms) := by
  by_cases h : n = s <;> simp [below, ofAtoms, List.isPrefixOf?, h]

theorem below_eq_nil_of_notMem {atoms : List Atom} {s : String} (h : s ∉ segmentsBelow [] atoms) :
    below [s] atoms = [] := by
  rw [below, List.filterMap_eq_nil_iff]
  intro a ha
  cases hp : a.path with
  | nil => rfl
  | cons r q =>
    have hne : s ≠ r := by
      rintro rfl
      apply h
      simp only [segmentsBelow, List.mem_eraseDups, List.mem_filterMap]
      exact ⟨a, ha, by simp [List.isPrefixOf?, hp]⟩
    simp [List.isPrefixOf?, hne]

/-- A node holds the leaves of its path, and its children are the next segments. -/
theorem ofAtoms_eq_node (atoms : List Atom) :
    ofAtoms atoms = node (.ofLeaves (leavesAt [] atoms))
      ((segmentsBelow [] atoms).map fun s => (s, ofAtoms (below [s] atoms))) := by
  induction atoms using List.reverseRecOn with
  | nil => rfl
  | append_singleton atoms a ih =>
    have hstep : ofAtoms (atoms ++ [a]) = addAtom (ofAtoms atoms) a := by simp [ofAtoms]
    obtain ⟨p, leaf⟩ := a
    rw [hstep, ih]
    cases p with
    | nil =>
      have hm : Mark.ofLeaves (leavesAt [] (atoms ++ [⟨[], leaf⟩])) =
          (Mark.ofLeaves (leavesAt [] atoms)).put leaf := by simp [leavesAt, Mark.ofLeaves]
      have hs : segmentsBelow [] (atoms ++ [⟨[], leaf⟩]) = segmentsBelow [] atoms := by
        simp [segmentsBelow, List.isPrefixOf?, List.filterMap_cons]
      have hb : ∀ s, below [s] (atoms ++ [⟨[], leaf⟩]) = below [s] atoms := by
        simp [below, List.isPrefixOf?]
      rw [hm, hs]
      simp only [hb]
      rfl
    | cons s q =>
      have hm : leavesAt [] (atoms ++ [⟨s :: q, leaf⟩]) = leavesAt [] atoms := by simp [leavesAt]
      rw [addAtom, atPath, atChild, changeChild_map (nodup_segmentsBelow [] atoms), hm,
        segmentsBelow_append_cons, List.map_append]
      simp only [ofAtoms_below_append_cons]
      congr 2
      by_cases hs : s ∈ segmentsBelow [] atoms
      · simp [hs]
      · simp only [hs, if_false, List.map_cons, List.map_nil, if_true, below_eq_nil_of_notMem hs]
        rfl

theorem resolveFields_eq_map (members : MemberTable) (policy : ConflictPolicy)
    (cs : List (String × Trie)) :
    resolveFields members policy cs = cs.map fun c => (c.1, c.2.resolve members policy) := by
  induction cs with
  | nil => rfl
  | cons c cs ih => rw [resolveFields, ih, List.map_cons]

theorem resolve_ofAtoms_below (members : MemberTable) (policy : ConflictPolicy) (atoms : List Atom)
    (p : Path) :
    (ofAtoms (below p atoms)).resolve members policy = reference members policy atoms p := by
  induction p using reference.induct atoms with
  | case1 p ih =>
    rw [ofAtoms_eq_node, resolve, reference_eq, settle_ofLeaves, leavesAt_below,
      segmentsBelow_below, resolveFields_eq_map, List.map_map]
    congr 1
    apply List.map_congr_left
    intro s hs
    simp only [Function.comp_apply, ← below_append]
    rw [← ih ⟨s, hs⟩]
    rfl

theorem resolve_ofEvidence (members : MemberTable) (strategy : Strategy) (policy : ConflictPolicy)
    (evidence : List Evidence) :
    (ofEvidence strategy evidence).resolve members policy =
      reference members policy (atomsOf strategy evidence) .root := by
  have hb : below .root (atomsOf strategy evidence) = atomsOf strategy evidence := by
    simp [below, Path.root, List.isPrefixOf?]
  rw [← resolve_ofAtoms_below, hb, ← ofEvidence_eq_ofAtoms]

end Trie

end UsageTypes
