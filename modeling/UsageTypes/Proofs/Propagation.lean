import UsageTypes.Proofs.Reference
import UsageTypes.Usage

/-! Inferred types are stable under calls: a value that is passed where a type inferred before is
declared gets that type again. Fields of an inferred type are distinct, and its references come
ahead of the fields that they do not declare, so taking it in undoes reading it off. -/

namespace UsageTypes

/-- The types that synthesis gives: fields are distinct, and distinct references stand ahead of the
fields that none of them declares. -/
inductive Inferred (members : MemberTable) : Ty → Prop
  | dynamic : Inferred members .dynamic
  | concrete {t : Ty} : t.isConcrete = true → Inferred members t
  | shape {fields : List (String × Ty)} : (fields.map Prod.fst).Nodup →
    (∀ f ∈ fields, Inferred members f.2) → Inferred members (.shape fields)
  | named {names : List String} {fields : List (String × Ty)} : names ≠ [] → names.Nodup →
    (fields.map Prod.fst).Nodup → (∀ f ∈ fields, Inferred members f.2) →
    Inferred members (.meet (names.map .named ++ leftoverShape members names fields))

theorem inferred_unclaimed {members : MemberTable} (leaves : List Leaf)
    {fields : List (String × Ty)} (hd : (fields.map Prod.fst).Nodup)
    (hf : ∀ f ∈ fields, Inferred members f.2) :
    Inferred members (unclaimed members leaves fields) := by
  by_cases hn : namesOf leaves = []
  · by_cases he : fields ≠ [] ∨ .emptyShape ∈ leaves
    · rw [unclaimed_of_shape hn he]
      exact .shape hd hf
    · rw [unclaimed_of_nothing hn he]
      exact .dynamic
  · rw [unclaimed_of_names hn]
    exact .named hn (nodup_eraseDups _) hd hf

theorem inferred_reference (members : MemberTable) (policy : ConflictPolicy) {atoms : List Atom}
    (hconcrete : ∀ q, ∀ c ∈ claimsOf (leavesAt q atoms), c.isConcrete = true) (p : Path) :
    Inferred members (reference members policy atoms p) := by
  induction p using reference.induct atoms with
  | case1 p ih =>
    rw [reference_eq]
    have hd : (((segmentsBelow p atoms).map fun s =>
        (s, reference members policy atoms (p.child s))).map Prod.fst).Nodup := by
      simpa [Function.comp_def] using nodup_segmentsBelow p atoms
    have hf : ∀ f ∈ (segmentsBelow p atoms).map fun s =>
        (s, reference members policy atoms (p.child s)), Inferred members f.2 := by
      intro f hmem
      obtain ⟨s, hs, rfl⟩ := List.mem_map.mp hmem
      exact ih ⟨s, hs⟩
    rcases outcome_cases members policy (leavesAt p atoms) _ with he | hc | he
    · rw [he]
      exact inferred_unclaimed _ hd hf
    · exact .concrete (hconcrete p _ hc)
    · rw [he]
      exact .dynamic

theorem inferred_synthesize (members : MemberTable) (strategy : Strategy) (policy : ConflictPolicy)
    (evidence : List Evidence) : Inferred members (synthesize members strategy policy evidence) := by
  rw [synthesize, Trie.resolve_ofEvidence]
  exact inferred_reference members policy (claimsOf_leavesAt_isConcrete strategy evidence) .root

theorem leftover_leftover (members : MemberTable) (names : List String)
    (fields : List (String × Ty)) :
    leftover members names (leftover members names fields) = leftover members names fields := by
  simp [leftover, List.filter_filter]

namespace Trie

theorem changeChild_of_notMem {name : String} {cs : List (String × Trie)}
    (h : name ∉ cs.map Prod.fst) (f : Trie → Trie) :
    changeChild name f cs = cs ++ [(name, f empty)] := by
  induction cs with
  | nil => rfl
  | cons c cs ih =>
    obtain ⟨n, t⟩ := c
    simp only [List.map_cons, List.mem_cons, not_or] at h
    rw [changeChild, if_neg (Ne.symm h.1), ih h.2]
    rfl

theorem absorbFields_of_nodup {fields : List (String × Ty)} (m : Mark) {cs : List (String × Trie)}
    (hd : (cs.map Prod.fst ++ fields.map Prod.fst).Nodup) :
    absorbFields fields (node m cs) =
      node m (cs ++ fields.map fun f => (f.1, absorb f.2 empty)) := by
  induction fields generalizing cs with
  | nil => simp [absorbFields]
  | cons f fields ih =>
    obtain ⟨name, t⟩ := f
    have hname : name ∉ cs.map Prod.fst := by
      intro hmem
      exact (List.nodup_append.mp hd).2.2 name hmem name (by simp) rfl
    have hstep : absorbFields ((name, t) :: fields) (node m cs) =
        absorbFields fields (node m (changeChild name (absorb t) cs)) := rfl
    rw [hstep, changeChild_of_notMem hname, ih (by simpa using hd)]
    simp

theorem foldl_refer (names : List String) (m : Mark) (hd : (m.names ++ names).Nodup) :
    (names.foldl Mark.refer m).claims = m.claims ∧
      (names.foldl Mark.refer m).names = m.names ++ names ∧
      (names.foldl Mark.refer m).emptyShape = m.emptyShape := by
  induction names generalizing m with
  | nil => simp
  | cons name names ih =>
    have hname : name ∉ m.names := by
      intro hmem
      exact (List.nodup_append.mp hd).2.2 name hmem name (by simp) rfl
    have hr : (m.refer name).names = m.names ++ [name] := if_neg hname
    obtain ⟨hclaims, hnames, hempty⟩ := ih (m.refer name) (by rw [hr]; simpa using hd)
    rw [hr, List.append_assoc] at hnames
    exact ⟨hclaims, hnames, hempty⟩

theorem absorbAll_append (ts us : List Ty) (t : Trie) :
    absorbAll (ts ++ us) t = absorbAll us (absorbAll ts t) := by
  induction ts generalizing t with
  | nil => rfl
  | cons u ts ih => exact ih _

theorem absorbAll_named (names : List String) (m : Mark) (cs : List (String × Trie)) :
    absorbAll (names.map .named) (node m cs) = node (names.foldl Mark.refer m) cs := by
  induction names generalizing m with
  | nil => rfl
  | cons name names ih => exact ih _

theorem absorb_meet {ts : List Ty} : absorb (.meet ts) = absorbAll ts := by
  match ts with
  | [] => rfl
  | [t] => rfl
  | _ :: _ :: _ => rfl

theorem resolve_absorbed {members : MemberTable} {policy : ConflictPolicy} (m : Mark)
    {fields : List (String × Ty)}
    (h : ∀ f ∈ fields, (absorb f.2 empty).resolve members policy = f.2) :
    (node m (fields.map fun f => (f.1, absorb f.2 empty))).resolve members policy =
      settle members policy m fields := by
  have hf : fields.map (fun f => (f.1, (absorb f.2 empty).resolve members policy)) = fields := by
    conv_rhs => rw [← List.map_id fields]
    apply List.map_congr_left
    intro f hmem
    rw [h f hmem]
    rfl
  rw [resolve, resolveFields_eq_map, List.map_map]
  exact congrArg _ hf

theorem absorb_shape {fields : List (String × Ty)} (h : fields ≠ []) :
    absorb (.shape fields) = absorbFields fields := by
  cases fields with
  | nil => exact absurd rfl h
  | cons f fields => rfl

theorem absorbFields_of_childless {fields : List (String × Ty)} (m : Mark)
    (hd : (fields.map Prod.fst).Nodup) :
    absorbFields fields (node m []) = node m (fields.map fun f => (f.1, absorb f.2 empty)) :=
  absorbFields_of_nodup m (by simpa using hd)

theorem resolve_absorb_shape {members : MemberTable} {policy : ConflictPolicy}
    {fields : List (String × Ty)} (hd : (fields.map Prod.fst).Nodup)
    (h : ∀ f ∈ fields, (absorb f.2 empty).resolve members policy = f.2) :
    (absorb (.shape fields) empty).resolve members policy = .shape fields := by
  by_cases hne : fields = []
  · rw [hne]
    rfl
  · rw [absorb_shape hne, empty, absorbFields_of_childless {} hd, resolve_absorbed {} h]
    simp [settle, hne]

theorem resolve_absorb_named {members : MemberTable} {policy : ConflictPolicy}
    {names : List String} {fields : List (String × Ty)} (hne : names ≠ []) (hn : names.Nodup)
    (hd : (fields.map Prod.fst).Nodup)
    (h : ∀ f ∈ fields, (absorb f.2 empty).resolve members policy = f.2) :
    (absorb (.meet (names.map .named ++ leftoverShape members names fields)) empty).resolve
        members policy =
      .meet (names.map .named ++ leftoverShape members names fields) := by
  have hsub : (leftover members names fields).Sublist fields := List.filter_sublist
  have ha : absorb (.meet (names.map .named ++ leftoverShape members names fields)) empty =
      node (names.foldl Mark.refer {})
        ((leftover members names fields).map fun f => (f.1, absorb f.2 empty)) := by
    rw [absorb_meet, absorbAll_append, empty, absorbAll_named, leftoverShape]
    split
    · rename_i he
      rw [he]
      rfl
    · rename_i he
      have hstep (t : Ty) (n : Trie) : absorbAll [t] n = absorb t n := rfl
      rw [hstep, absorb_shape he, absorbFields_of_childless _ (hd.sublist (hsub.map _))]
      rfl
  obtain ⟨hc, hm, _⟩ := foldl_refer names {} (by simpa using hn)
  have hm : (names.foldl Mark.refer {}).names = names := by simpa using hm
  have hs : settle members policy (names.foldl Mark.refer {}) (leftover members names fields) =
      combineNamed members names (leftover members names fields) := by
    simp [settle, hc, hm, hne]
  rw [ha, resolve_absorbed _ fun f hf => h f (hsub.subset hf), hs, combineNamed_eq_meet hne hn]
  simp only [leftoverShape, leftover_leftover]

/-- Taking in an inferred type and reading the node off gives the type back. -/
theorem resolve_absorb {members : MemberTable} (policy : ConflictPolicy) {t : Ty}
    (h : Inferred members t) : (absorb t empty).resolve members policy = t := by
  induction h with
  | dynamic => rfl
  | concrete ht =>
    rename_i t
    cases t with
    | primitive kind => rfl
    | array element => rfl
    | function params returns => rfl
    | _ => cases ht
  | shape hd _ ih => exact resolve_absorb_shape hd ih
  | named hne hn hd _ ih => exact resolve_absorb_named hne hn hd ih

end Trie

/-- The evidence of passing a value, item by item, does what taking in the whole type does. -/
def Passes (strategy : Strategy) (t : Ty) : Prop :=
  ∀ p root, (passing p t).foldl (Trie.insert strategy) root = Trie.atPath p (Trie.absorb t) root

section

variable {strategy : Strategy}

-- As with atoms, the path has to be there already: it is the first field that brings it into being.
theorem foldl_passingFields {fields : List (String × Ty)} (h : ∀ f ∈ fields, Passes strategy f.2)
    (p : Path) (g : Trie → Trie) (root : Trie) :
    (passingFields p fields).foldl (Trie.insert strategy) (Trie.atPath p g root) =
      Trie.atPath p (Trie.absorbFields fields ∘ g) root := by
  induction fields generalizing g with
  | nil => rfl
  | cons f fields ih =>
    obtain ⟨name, t⟩ := f
    have ht : Passes strategy t := h (name, t) (by simp)
    rw [passingFields, List.foldl_append, ht, Trie.atPath_child, Trie.atPath_atPath,
      ih fun f hf => h f (by simp [hf])]
    rfl

theorem passes_shape {fields : List (String × Ty)} (h : ∀ f ∈ fields, Passes strategy f.2) :
    Passes strategy (.shape fields) := by
  intro p root
  cases fields with
  | nil => rfl
  | cons f fields =>
    obtain ⟨name, t⟩ := f
    have ht : Passes strategy t := h (name, t) (by simp)
    rw [passing, passingFields, List.foldl_append, ht, Trie.atPath_child,
      foldl_passingFields fun f hf => h f (by simp [hf])]
    rfl

theorem foldl_passingAll {ts : List Ty} (h : ∀ t ∈ ts, Passes strategy t) (p : Path)
    (g : Trie → Trie) (root : Trie) :
    (passingAll p ts).foldl (Trie.insert strategy) (Trie.atPath p g root) =
      Trie.atPath p (Trie.absorbAll ts ∘ g) root := by
  induction ts generalizing g with
  | nil => rfl
  | cons t ts ih =>
    have ht : Passes strategy t := h t (by simp)
    rw [passingAll, List.foldl_append, ht, Trie.atPath_atPath, ih fun u hu => h u (by simp [hu])]
    rfl

theorem passes_inter {ts : List Ty} (hne : ts ≠ []) (h : ∀ t ∈ ts, Passes strategy t) :
    Passes strategy (.inter ts) := by
  intro p root
  cases ts with
  | nil => exact absurd rfl hne
  | cons t ts =>
    have ht : Passes strategy t := h t (by simp)
    rw [passing, passingAll, List.foldl_append, ht,
      foldl_passingAll fun u hu => h u (by simp [hu])]
    rfl

theorem passes_meet {ts : List Ty} (hne : ts ≠ []) (h : ∀ t ∈ ts, Passes strategy t) :
    Passes strategy (.meet ts) := by
  match ts with
  | [] => exact absurd rfl hne
  | [t] => exact h t (by simp)
  | t :: u :: ts => exact passes_inter hne h

theorem passes_of_inferred {members : MemberTable} {t : Ty} (h : Inferred members t) :
    Passes strategy t := by
  induction h with
  | dynamic => exact fun p root => rfl
  | concrete ht =>
    rename_i t
    cases t with
    | primitive kind => exact fun p root => rfl
    | array element => exact fun p root => rfl
    | function params returns => exact fun p root => rfl
    | _ => cases ht
  | shape _ _ ih => exact passes_shape ih
  | named hne _ _ _ ih =>
    rename_i names fields _
    refine passes_meet (by simp [hne]) ?_
    intro t ht
    rcases List.mem_append.mp ht with ht | ht
    · obtain ⟨name, _, rfl⟩ := List.mem_map.mp ht
      exact fun p root => rfl
    · unfold leftoverShape at ht
      split at ht
      · simp at ht
      · obtain rfl := List.mem_singleton.mp ht
        exact passes_shape fun f hf => ih f (List.mem_filter.mp hf).1

end

mutual

theorem origin_of_mem_passing {t : Ty} {p : Path} {e : Evidence} (h : e ∈ passing p t) :
    e.origin = .callArgument := by
  cases t with
  | shape fields =>
    cases fields with
    | nil => rw [List.mem_singleton.mp h]; rfl
    | cons f fields => exact origin_of_mem_passingFields h
  | inter members => exact origin_of_mem_passingAll h
  | _ => rw [List.mem_singleton.mp h]; rfl

theorem origin_of_mem_passingFields {fields : List (String × Ty)} {p : Path} {e : Evidence}
    (h : e ∈ passingFields p fields) : e.origin = .callArgument := by
  cases fields with
  | nil => simp [passingFields] at h
  | cons f fields =>
    obtain ⟨name, t⟩ := f
    rcases List.mem_append.mp h with h | h
    · exact origin_of_mem_passing h
    · exact origin_of_mem_passingFields h

theorem origin_of_mem_passingAll {ts : List Ty} {p : Path} {e : Evidence}
    (h : e ∈ passingAll p ts) : e.origin = .callArgument := by
  cases ts with
  | nil => simp [passingAll] at h
  | cons t ts =>
    rcases List.mem_append.mp h with h | h
    · exact origin_of_mem_passing h
    · exact origin_of_mem_passingAll h

end

theorem inOrder_passing (p : Path) (t : Ty) : Trie.inOrder (passing p t) = passing p t := by
  have hown : (passing p t).filter (·.origin = .ownBody) = [] := by
    simp only [List.filter_eq_nil_iff, decide_eq_true_eq]
    intro e he
    simp [origin_of_mem_passing he]
  have hcall : (passing p t).filter (·.origin = .callArgument) = passing p t := by
    simp only [List.filter_eq_self, decide_eq_true_eq]
    exact fun e he => origin_of_mem_passing he
  rw [Trie.inOrder, hown, hcall, List.nil_append]

/-- Passing a value where an inferred type is declared infers that type again, whether the type
arrives whole or item by item. -/
theorem synthesize_fixpoint (members : MemberTable) (strategy : Strategy) (policy : ConflictPolicy)
    (evidence : List Evidence) :
    let t := synthesize members strategy policy evidence
    synthesize members strategy policy [.argument .root t] = t ∧
      synthesize members strategy policy (passing .root t) = t := by
  intro t
  have ht : Inferred members t := inferred_synthesize members strategy policy evidence
  have hwhole : Trie.ofEvidence strategy [.argument .root t] = Trie.absorb t .empty := rfl
  have hitems : Trie.ofEvidence strategy (passing .root t) = Trie.absorb t .empty := by
    rw [Trie.ofEvidence, inOrder_passing, passes_of_inferred ht]
    rfl
  constructor
  · rw [synthesize, hwhole, Trie.resolve_absorb policy ht]
  · rw [synthesize, hitems, Trie.resolve_absorb policy ht]

end UsageTypes
