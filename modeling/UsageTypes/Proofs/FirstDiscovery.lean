import UsageTypes.Proofs.Accounting

/-! Conflicts settled in favour of what was discovered first: at every path the first concrete type
or reference among the leaves decides, whatever other leaves follow it there or below. -/

namespace UsageTypes

/-- Whether a leaf says of what type a value is. -/
def Leaf.isType : Leaf → Bool
  | concrete _ | name _ => true
  | touch | emptyShape => false

/-- A type keeps what a leaf says: it refines a concrete type, and a reference comes first in it. -/
def Leaf.LeadsTo (t : Ty) : Leaf → Prop
  | concrete c => t.isConcrete = true ∧ c.Refines t
  | name text => t = .named text ∨ ∃ rest, t = .inter (.named text :: rest)
  | touch | emptyShape => True

theorem addClaim_head (t c : Ty) (claims : List Ty) :
    ∃ d rest, addClaim t (c :: claims) = d :: rest ∧ c.Refines d := by
  cases hu : unify c t with
  | some u => exact ⟨u, claims, by simp [addClaim, hu], (refines_of_unify hu).1⟩
  | none => exact ⟨c, addClaim t claims, by simp [addClaim, hu], .refl c⟩

/-- Later types refine the first claim, and none takes its place. -/
theorem mergeClaims_head (t : Ty) (ts : List Ty) :
    ∃ c rest, mergeClaims (t :: ts) = c :: rest ∧ t.Refines c := by
  induction ts using List.reverseRecOn with
  | nil => exact ⟨t, [], rfl, .refl t⟩
  | append_singleton ts u ih =>
    obtain ⟨c, rest, hc, htc⟩ := ih
    obtain ⟨d, rest', hd, hcd⟩ := addClaim_head u c rest
    refine ⟨d, rest', ?_, htc.trans hcd⟩
    rw [← List.cons_append, mergeClaims_append_singleton, hc, hd]

theorem concretes_of_first {leaves : List Leaf} {c : Ty}
    (h : leaves.find? Leaf.isType = some (.concrete c)) :
    nameFirst leaves = false ∧ ∃ ts, leaves.filterMap Leaf.concrete? = c :: ts := by
  induction leaves with
  | nil => cases h
  | cons leaf leaves ih =>
    cases leaf with
    | touch => exact ih h
    | emptyShape => exact ih h
    | concrete d =>
      obtain rfl : d = c := by simpa [Leaf.isType] using h
      exact ⟨rfl, _, rfl⟩
    | name text => simp [Leaf.isType] at h

theorem names_of_first {leaves : List Leaf} {text : String}
    (h : leaves.find? Leaf.isType = some (.name text)) :
    nameFirst leaves = true ∧ ∃ names, namesOf leaves = text :: names := by
  induction leaves with
  | nil => cases h
  | cons leaf leaves ih =>
    cases leaf with
    | touch => exact ih h
    | emptyShape => exact ih h
    | concrete d => simp [Leaf.isType] at h
    | name other =>
      obtain rfl : other = text := by simpa [Leaf.isType] using h
      exact ⟨rfl, _, List.eraseDups_cons⟩

theorem outcome_of_first_concrete (members : MemberTable) {leaves : List Leaf} {c : Ty}
    (h : leaves.find? Leaf.isType = some (.concrete c)) (fields : List (String × Ty)) :
    outcome members .keepFirst leaves fields ∈ claimsOf leaves ∧
      c.Refines (outcome members .keepFirst leaves fields) := by
  obtain ⟨hfirst, ts, hts⟩ := concretes_of_first h
  obtain ⟨claim, rest, hclaims, hrefines⟩ := mergeClaims_head c ts
  rw [← hts] at hclaims
  have he : outcome members .keepFirst leaves fields = claim := by
    unfold outcome claimsOf
    rw [hclaims, hfirst]
    cases rest <;> cases namesOf leaves <;> rfl
  rw [he, claimsOf, hclaims]
  exact ⟨List.mem_cons_self, hrefines⟩

theorem outcome_of_first_name (members : MemberTable) {leaves : List Leaf} {text : String}
    (h : leaves.find? Leaf.isType = some (.name text)) (fields : List (String × Ty)) :
    outcome members .keepFirst leaves fields = .named text ∨
      ∃ rest, outcome members .keepFirst leaves fields = .inter (.named text :: rest) := by
  obtain ⟨hfirst, names, hnames⟩ := names_of_first h
  have he : outcome members .keepFirst leaves fields = unclaimed members leaves fields := by
    unfold outcome
    rw [hnames, hfirst]
    cases claimsOf leaves with
    | nil => rfl
    | cons claim rest => cases rest <;> rfl
  rw [he, unclaimed_of_names (by simp [hnames]), hnames, List.map_cons, List.cons_append]
  cases names.map Ty.named ++ leftoverShape members (text :: names) fields with
  | nil => exact .inl rfl
  | cons t ts => exact .inr ⟨t :: ts, rfl⟩

/-- If conflicts are settled in favour of the first discovery, then at every path to which some item
brings a concrete type or a reference, the first of them, a function's own body ahead of its call
arguments, decides the type that is read off the node there. -/
theorem resolve_keepFirst_follows_first (members : MemberTable) (strategy : Strategy)
    (evidence : List Evidence) (item : Evidence) (hitem : item ∈ evidence) (p : Path) (leaf : Leaf)
    (hleaf : leaf.isType = true) (hmem : ⟨p, leaf⟩ ∈ item.atoms strategy) :
    ∃ first node, (leavesAt p (atomsOf strategy evidence)).find? Leaf.isType = some first ∧
      (Trie.ofEvidence strategy evidence).find? p = some node ∧
      first.LeadsTo (node.resolve members .keepFirst) := by
  have hatom : ⟨p, leaf⟩ ∈ atomsOf strategy evidence := mem_atomsOf_iff.mpr ⟨item, hitem, hmem⟩
  obtain ⟨first, hfirst⟩ : ∃ first,
      (leavesAt p (atomsOf strategy evidence)).find? Leaf.isType = some first := by
    rw [← Option.isSome_iff_exists, List.find?_isSome]
    exact ⟨leaf, mem_leavesAt_iff.mpr hatom, hleaf⟩
  have hfind := find?_ofAtoms (q := p) (p := []) (by rwa [List.append_nil])
  rw [← Trie.ofEvidence_eq_ofAtoms] at hfind
  refine ⟨first, _, hfirst, hfind, ?_⟩
  rw [Trie.resolve_ofAtoms_below, reference_eq]
  cases first with
  | concrete c =>
    obtain ⟨hclaim, hrefines⟩ := outcome_of_first_concrete members hfirst _
    exact ⟨claimsOf_leavesAt_isConcrete strategy evidence p _ hclaim, hrefines⟩
  | name text => exact outcome_of_first_name members hfirst _
  | touch => trivial
  | emptyShape => trivial

/-- A reference that a callee declares comes too late for an array that the body appends to, and a
string comes too late for both; what is appended second still fills in the element. -/
theorem resolve_keepFirst_follows_append :
    let strategy := Strategy.refined ["push"]
    let item : Evidence := .argument ["n"] (.named "K")
    let evidence : List Evidence :=
      [item, .method ["n"] "push" [], .textual ["n"], .method ["n"] "push" [.number]]
    let leaves := leavesAt ["n"] (atomsOf strategy evidence)
    item ∈ evidence ∧ (⟨["n"], .name "K"⟩ : Atom) ∈ item.atoms strategy ∧
      leaves.find? Leaf.isType = some (.concrete (.array .dynamic)) ∧
      ((Trie.ofEvidence strategy evidence).find? ["n"]).map (·.resolve (fun _ => none) .keepFirst) =
        some (.array .number) ∧
      ∃ first node, leaves.find? Leaf.isType = some first ∧
        (Trie.ofEvidence strategy evidence).find? ["n"] = some node ∧
        first.LeadsTo (node.resolve (fun _ => none) .keepFirst) :=
  ⟨by decide, by decide, by decide, by decide, resolve_keepFirst_follows_first _ _ _
    (.argument ["n"] (.named "K")) (by decide) ["n"] (.name "K") rfl (by decide)⟩

end UsageTypes
