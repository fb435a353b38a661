import Mathlib.Data.List.Basic
import UsageTypes.Proofs.Reference
import UsageTypes.Report

/-! Every leaf of the evidence is accounted for. Walking its path through the inferred type either
reaches a type that agrees with it, or stops where a conflict, a claim or a reference that declares
the next segment stands in for everything below. -/

namespace UsageTypes

namespace Ty

/-- The fields that a walk can enter: those of a shape, also if it ends an intersection. -/
def fields : Ty → List (String × Ty)
  | .shape fields => fields
  | .inter members =>
    match members.getLast? with
    | some (.shape fields) => fields
    | _ => []
  | _ => []

/-- Follows a path as far as there are fields: the type where the walk ends, and the segments that
it could not take. -/
def walk (t : Ty) : Path → Ty × Path
  | [] => (t, [])
  | s :: p =>
    match t.fields.lookup s with
    | some u => u.walk p
    | none => (t, s :: p)

def references : Ty → List String
  | .named text => [text]
  | .inter members => members.filterMap fun
    | .named text => some text
    | _ => none
  | _ => []

end Ty

/-- A type at a leaf's own path claims no more than is verified and loses nothing that the leaf
says. -/
def Leaf.MetBy (x : Ty) : Leaf → Prop
  | .concrete c => x = .dynamic ∨ c.Refines x
  | .name text => x = .dynamic ∨ x = .named text ∨ ∃ members, x = .inter members ∧ .named text ∈ members
  | .touch | .emptyShape => True

def Trie.find? : Trie → Path → Option Trie
  | t, [] => some t
  | .node _ cs, s :: p =>
    match cs.lookup s with
    | some t => t.find? p
    | none => none

namespace Ty

theorem fields_of_isConcrete {t : Ty} (h : t.isConcrete = true) : t.fields = [] := by
  cases t with
  | primitive kind => rfl
  | array element => rfl
  | function params returns => rfl
  | _ => cases h

theorem named_of_mem_meet {ts : List Ty} {text : String} (h : .named text ∈ ts) :
    meet ts = .named text ∨ ∃ members, meet ts = .inter members ∧ .named text ∈ members := by
  by_cases hs : ∃ t, ts = [t]
  · obtain ⟨t, rfl⟩ := hs
    exact .inl (List.mem_singleton.mp h).symm
  · exact .inr ⟨ts, meet_eq_inter fun t ht => hs ⟨t, ht⟩, h⟩

theorem mem_references_meet {ts : List Ty} {text : String} (h : .named text ∈ ts) :
    text ∈ (meet ts).references := by
  rcases named_of_mem_meet h with hm | ⟨members, hm, hmem⟩
  · rw [hm]
    exact List.mem_singleton_self text
  · rw [hm]
    exact List.mem_filterMap.mpr ⟨_, hmem, rfl⟩

theorem fields_meet_leftoverShape {members : MemberTable} {names : List String} (hne : names ≠ [])
    (fields : List (String × Ty)) :
    (meet (names.map .named ++ leftoverShape members names fields)).fields =
      leftover members names fields := by
  unfold leftoverShape
  split
  · rename_i hl
    rw [List.append_nil, hl]
    by_cases hs : ∃ t, names.map Ty.named = [t]
    · obtain ⟨t, ht⟩ := hs
      obtain ⟨name, _, rfl⟩ : ∃ name, name ∈ names ∧ Ty.named name = t := by
        apply List.mem_map.mp
        simp [ht]
      rw [ht]
      rfl
    · rw [meet_eq_inter fun t ht => hs ⟨t, ht⟩, Ty.fields, List.getLast?_map]
      cases names.getLast? <;> rfl
  · rw [meet_concat (by simpa using hne), Ty.fields, List.getLast?_concat]

end Ty

theorem lookup_outcome (members : MemberTable) {leaves : List Leaf}
    (hconcrete : ∀ c ∈ claimsOf leaves, c.isConcrete = true)
    {segments : List String} (type : String → Ty) {s : String} (hs : s ∈ segments) :
    let x := outcome members .unresolved leaves (segments.map fun s => (s, type s))
    x.fields.lookup s = some (type s) ∨
    (x.fields.lookup s = none ∧
      ((x = .dynamic ∧ (Mark.ofLeaves leaves).conflicting = true) ∨
        (x.isConcrete = true ∧ claimsOf leaves = [x]) ∨ Covered members x.references s)) := by
  have hf : segments.map (fun s => (s, type s)) ≠ [] := by
    intro he
    rw [List.map_eq_nil_iff.mp he] at hs
    simp at hs
  dsimp only
  rcases outcome_unresolved_cases members leaves (segments.map fun s => (s, type s)) with
    ⟨_, he⟩ | ⟨claim, hc, _, he⟩ | ⟨hconflict, he⟩
  · rw [he]
    by_cases hn : namesOf leaves = []
    · rw [unclaimed_of_shape hn (.inl hf)]
      exact .inl (List.lookup_graph type hs)
    · rw [unclaimed_of_names hn, Ty.fields_meet_leftoverShape hn, leftover_map]
      by_cases hcov : Covered members (namesOf leaves) s
      · refine .inr ⟨?_, .inr (.inr ?_)⟩
        · rw [List.lookup_eq_none_iff]
          intro f hmem
          obtain ⟨r, hr, rfl⟩ := List.mem_map.mp hmem
          have hrs : s ≠ r := by
            rintro rfl
            simp [hcov] at hr
          simpa using hrs
        · obtain ⟨name, hname, declared, hd, hm⟩ := hcov
          refine ⟨name, Ty.mem_references_meet ?_, declared, hd, hm⟩
          exact List.mem_append_left _ (List.mem_map_of_mem hname)
      · exact .inl (List.lookup_graph type (by simp [hs, hcov]))
  · have hx := hconcrete claim (by simp [hc])
    rw [he, Ty.fields_of_isConcrete hx]
    exact .inr ⟨rfl, .inr (.inl ⟨hx, hc⟩)⟩
  · rw [he]
    exact .inr ⟨rfl, .inl ⟨rfl, hconflict⟩⟩

/-- A conflict, a claim or a reference that declares a segment hides what is below it. -/
def Hides (members : MemberTable) (mark : Mark) (x : Ty) (s : String) : Prop :=
  (x = .dynamic ∧ mark.conflicting = true) ∨ (x.isConcrete = true ∧ mark.claims = [x]) ∨
    Covered members x.references s

theorem walk_reference (members : MemberTable) {atoms : List Atom}
    (hconcrete : ∀ q, ∀ c ∈ claimsOf (leavesAt q atoms), c.isConcrete = true)
    {p q : Path} {leaf : Leaf} (h : ⟨q ++ p, leaf⟩ ∈ atoms) :
    (reference members .unresolved atoms q).walk p =
      (reference members .unresolved atoms (q ++ p), []) ∨
    ∃ r s rest, p = r ++ s :: rest ∧
      (reference members .unresolved atoms q).walk p =
        (reference members .unresolved atoms (q ++ r), s :: rest) ∧
      Hides members (.ofLeaves (leavesAt (q ++ r) atoms))
        (reference members .unresolved atoms (q ++ r)) s := by
  induction p generalizing q with
  | nil =>
    rw [List.append_nil]
    exact .inl rfl
  | cons s p ih =>
    have hfield := lookup_outcome members (hconcrete q)
      (fun s => reference members .unresolved atoms (q.child s)) (mem_segmentsBelow_iff.mpr ⟨p, leaf, h⟩)
    rw [← reference_eq] at hfield
    rcases hfield with hsome | ⟨hnone, hstop⟩
    · have hassoc : q ++ s :: p = q.child s ++ p := by simp [Path.child]
      rw [hassoc] at h ⊢
      rw [Ty.walk, hsome]
      rcases ih h with hreach | ⟨r, s', rest, hp, hw, hb⟩
      · exact .inl hreach
      · refine .inr ⟨s :: r, s', rest, by rw [hp]; rfl, ?_⟩
        have hr : q ++ s :: r = q.child s ++ r := by simp [Path.child]
        rw [hr]
        exact ⟨hw, hb⟩
    · refine .inr ⟨[], s, p, rfl, ?_⟩
      rw [List.append_nil]
      refine ⟨by rw [Ty.walk, hnone], ?_⟩
      rw [Hides, ofLeaves_eq]
      rw [ofLeaves_eq] at hstop
      exact hstop

theorem metBy_outcome {members : MemberTable} {leaves : List Leaf} {leaf : Leaf}
    (h : leaf ∈ leaves) (fields : List (String × Ty)) :
    leaf.MetBy (outcome members .unresolved leaves fields) := by
  rcases outcome_unresolved_cases members leaves fields with
    ⟨hc, he⟩ | ⟨claim, hc, hn, he⟩ | ⟨_, he⟩
  · rw [he]
    cases leaf with
    | concrete c =>
      have hmem : c ∈ leaves.filterMap Leaf.concrete? := mem_concretes_iff.mpr h
      rw [mergeClaims_eq_nil_iff.mp hc] at hmem
      simp at hmem
    | name text =>
      have hmem : text ∈ namesOf leaves := mem_namesOf_iff.mpr h
      rw [unclaimed_of_names (List.ne_nil_of_mem hmem)]
      exact .inr (Ty.named_of_mem_meet (List.mem_append_left _ (List.mem_map_of_mem hmem)))
    | touch => trivial
    | emptyShape => trivial
  · rw [he]
    cases leaf with
    | concrete c =>
      have hmem : c ∈ leaves.filterMap Leaf.concrete? := mem_concretes_iff.mpr h
      exact .inr ((mergeClaims_eq_singleton_iff.mp hc).2.1 c hmem)
    | name text =>
      have hmem : text ∈ namesOf leaves := mem_namesOf_iff.mpr h
      simp [hn] at hmem
    | touch => trivial
    | emptyShape => trivial
  · rw [he]
    cases leaf with
    | concrete c => exact .inl rfl
    | name text => exact .inl rfl
    | touch => trivial
    | emptyShape => trivial

theorem find?_ofAtoms {atoms : List Atom} {q p : Path} {leaf : Leaf}
    (h : ⟨q ++ p, leaf⟩ ∈ atoms) :
    (Trie.ofAtoms atoms).find? q = some (Trie.ofAtoms (below q atoms)) := by
  induction q generalizing atoms with
  | nil => simp [Trie.find?, below, List.isPrefixOf?]
  | cons s q ih =>
    have hs : s ∈ segmentsBelow [] atoms := mem_segmentsBelow_iff.mpr ⟨q ++ p, leaf, h⟩
    have hb : ⟨q ++ p, leaf⟩ ∈ below [s] atoms := mem_below_iff.mpr h
    have happ : below (s :: q) atoms = below q (below [s] atoms) := below_append [s] q atoms
    rw [Trie.ofAtoms_eq_node atoms, Trie.find?, List.lookup_graph _ hs, happ]
    exact ih hb

/-- A node stands at every path on the way to an atom, and holds what is below. -/
theorem find?_ofAtoms_eq_some_iff {atoms : List Atom} {p : Path} {node : Trie} :
    (Trie.ofAtoms atoms).find? p = some node ↔
      (p = [] ∨ ∃ q leaf, ⟨p ++ q, leaf⟩ ∈ atoms) ∧ node = Trie.ofAtoms (below p atoms) := by
  constructor
  · intro h
    induction p generalizing atoms with
    | nil => exact ⟨.inl rfl, by simpa [Trie.find?, below, List.isPrefixOf?] using h.symm⟩
    | cons s p ih =>
      rw [Trie.ofAtoms_eq_node, Trie.find?] at h
      by_cases hs : s ∈ segmentsBelow [] atoms
      · rw [List.lookup_graph _ hs] at h
        obtain ⟨hbelow, hnode⟩ := ih h
        refine ⟨.inr ?_, by rw [hnode, ← below_append]; rfl⟩
        rcases hbelow with rfl | ⟨q, leaf, hb⟩
        · exact mem_segmentsBelow_iff.mp hs
        · have hmem : ⟨[s] ++ (p ++ q), leaf⟩ ∈ atoms := mem_below_iff.mp hb
          exact ⟨q, leaf, hmem⟩
      · have hnone : ((segmentsBelow [] atoms).map fun r =>
            (r, Trie.ofAtoms (below [r] atoms))).lookup s = none := by
          rw [List.lookup_eq_none_iff]
          intro c hc
          obtain ⟨r, hr, rfl⟩ := List.mem_map.mp hc
          have hne : s ≠ r := fun he => hs (he ▸ hr)
          simpa using hne
        simp [hnone] at h
  · rintro ⟨rfl | ⟨q, leaf, h⟩, rfl⟩
    · simp [Trie.find?, below, List.isPrefixOf?]
    · exact find?_ofAtoms h

namespace Report

theorem mem_synthesisAll {program : Program} {policy : ConflictPolicy} {path : Path}
    {cs : List (String × Trie)} {s : String} {t : Trie} (h : cs.lookup s = some t) {r : LogRecord}
    (hr : r ∈ synthesis program policy (path.child s) t) :
    r ∈ synthesisAll program policy path cs := by
  induction cs with
  | nil => simp at h
  | cons c cs ih =>
    obtain ⟨n, u⟩ := c
    rw [synthesisAll]
    by_cases hn : s = n
    · subst hn
      rw [List.lookup_cons_self] at h
      obtain rfl := Option.some.inj h
      exact List.mem_append_left _ hr
    · have hb : (s == n) = false := by simpa using hn
      rw [List.lookup_cons, hb] at h
      exact List.mem_append_right _ (ih h)

theorem conflict_mem_synthesis (program : Program) (policy : ConflictPolicy) {t node : Trie}
    {q : Path} (h : t.find? q = some node) (hc : node.mark.conflicting = true) (p : Path) :
    conflict (p ++ q) node.mark ∈ synthesis program policy p t := by
  induction q generalizing t p with
  | nil =>
    obtain rfl := Option.some.inj h
    obtain ⟨m, cs⟩ := t
    have hm : m.conflicting = true := hc
    simp [synthesis, settling, Trie.mark, hm]
  | cons s q ih =>
    obtain ⟨m, cs⟩ := t
    rw [Trie.find?] at h
    split at h
    · rename_i u hu
      have hmem := ih h (p.child s)
      have hassoc : p.child s ++ q = p ++ s :: q := by simp [Path.child]
      rw [hassoc] at hmem
      rw [synthesis]
      exact List.mem_append_left _ (mem_synthesisAll hu hmem)
    · cases h

end Report

/-- The walk along an atom's path ends at a type that agrees with its leaf, or stops at a node that
hides the rest of the path; a conflict that does so is reported. -/
def Accounted (members : MemberTable) (strategy : Strategy) (evidence : List Evidence) (a : Atom) :
    Prop :=
  let t := synthesize members strategy .unresolved evidence
  let tree := Trie.ofEvidence strategy evidence
  (∃ x, t.walk a.path = (x, []) ∧ a.leaf.MetBy x) ∨
    ∃ q s rest x node, a.path = q ++ s :: rest ∧ t.walk a.path = (x, s :: rest) ∧
      tree.find? q = some node ∧ Hides members node.mark x s ∧
      (node.mark.conflicting = true → ∀ program,
        Report.conflict q node.mark ∈ Report.synthesis program .unresolved .root tree)

/-- Without a preference between conflicting types, every leaf of every item is accounted for. -/
theorem synthesize_accounts_for_leaves (members : MemberTable) (strategy : Strategy)
    (evidence : List Evidence) (item : Evidence) (hitem : item ∈ evidence) (a : Atom)
    (ha : a ∈ item.atoms strategy) : Accounted members strategy evidence a := by
  obtain ⟨p, leaf⟩ := a
  have hmem : ⟨p, leaf⟩ ∈ atomsOf strategy evidence := mem_atomsOf_iff.mpr ⟨item, hitem, ha⟩
  have ht : synthesize members strategy .unresolved evidence =
      reference members .unresolved (atomsOf strategy evidence) [] :=
    Trie.resolve_ofEvidence members strategy .unresolved evidence
  unfold Accounted
  dsimp only
  rw [ht, Trie.ofEvidence_eq_ofAtoms]
  have hwalk := walk_reference members (claimsOf_leavesAt_isConcrete strategy evidence)
    (p := p) (q := []) hmem
  rcases hwalk with hreach | ⟨q, s, rest, hp, hw, hh⟩
  · refine .inl ⟨_, hreach, ?_⟩
    rw [List.nil_append, reference_eq]
    exact metBy_outcome (mem_leavesAt_iff.mpr hmem) _
  · have hfind := find?_ofAtoms (q := q) (p := s :: rest) (hp ▸ hmem)
    have hmark : (Trie.ofAtoms (below q (atomsOf strategy evidence))).mark =
        .ofLeaves (leavesAt q (atomsOf strategy evidence)) := by
      rw [Trie.ofAtoms_eq_node, Trie.mark, leavesAt_below]
    refine .inr ⟨q, s, rest, _, _, hp, hw, hfind, by rw [hmark]; exact hh, ?_⟩
    intro hc program
    exact Report.conflict_mem_synthesis program .unresolved hfind hc .root

theorem synthesize_accounts_for_hidden_access :
    let evidence : List Evidence := [.access ["n", "x"], .numeric ["n"]]
    Evidence.access ["n", "x"] ∈ evidence ∧
      (⟨["n", "x"], .touch⟩ : Atom) ∈ (Evidence.access ["n", "x"]).atoms .baseline ∧
      (synthesize (fun _ => none) .baseline .unresolved evidence).walk ["n", "x"] =
        (.number, ["x"]) ∧
      Accounted (fun _ => none) .baseline evidence ⟨["n", "x"], .touch⟩ :=
  ⟨by decide, by decide, by decide,
    synthesize_accounts_for_leaves _ _ _ (.access ["n", "x"]) (by decide) _ (by decide)⟩

end UsageTypes
