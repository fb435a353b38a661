import Mathlib.Data.List.Induction
import UsageTypes.Proofs.ClaimMerge
import UsageTypes.Proofs.Intersection

/-! Evidence taken apart into atoms: a path and what is said about the value there. The tree that
evidence builds is the tree that its atoms build one by one, and each of its nodes holds exactly the
atoms of its path, with its children in order of first occurrence. -/

namespace UsageTypes

/-- What an atom says about the value at its path. A touch only says that the path is there. -/
inductive Leaf where
  | touch
  | concrete (t : Ty)
  | name (text : String)
  | emptyShape
  deriving DecidableEq

structure Atom where
  path : Path
  leaf : Leaf
  deriving DecidableEq

mutual

/-- The atoms of a type at a path: members of an intersection add up, fields go to their own path,
and anything else leaves a leaf or, if it is open, nothing. -/
def Ty.atoms (p : Path) : Ty → List Atom
  | .dynamic => []
  | .named text => [⟨p, .name text⟩]
  | .inter members => atomsAll p members
  | .shape [] => [⟨p, .emptyShape⟩]
  | .shape (field :: fields) => atomsFields p (field :: fields)
  | .primitive kind => [⟨p, .concrete (.primitive kind)⟩]
  | .array element => [⟨p, .concrete (.array element)⟩]
  | .function params returns => [⟨p, .concrete (.function params returns)⟩]

def Ty.atomsAll (p : Path) : List Ty → List Atom
  | [] => []
  | t :: ts => t.atoms p ++ atomsAll p ts

def Ty.atomsFields (p : Path) : List (String × Ty) → List Atom
  | [] => []
  | (name, t) :: fields => ⟨p.child name, .touch⟩ :: t.atoms (p.child name) ++ atomsFields p fields

end

/-- The atoms of an item of evidence, which touches its path whatever else it says. -/
def Evidence.atoms (strategy : Strategy) (e : Evidence) : List Atom :=
  ⟨e.path, .touch⟩ :: match e with
    | .access _ => []
    | .numeric p => Ty.number.atoms p
    | .textual p => Ty.string.atoms p
    | .method p name arguments =>
      match strategy.interpret name arguments with
      | .collection element => (Ty.array element).atoms p
      | .member t => ⟨p.child name, .touch⟩ :: t.atoms (p.child name)
    | .argument p declared => declared.atoms p
    | .invoke p arguments => (callSignature arguments).atoms p
    | .assign p assigned => assigned.atoms p

/-- The atoms of all evidence, those of a function's own body ahead of those of call arguments. -/
def atomsOf (strategy : Strategy) (evidence : List Evidence) : List Atom :=
  (evidence.filter (·.origin = .ownBody)).flatMap (·.atoms strategy) ++
    (evidence.filter (·.origin = .callArgument)).flatMap (·.atoms strategy)

mutual

theorem Ty.isConcrete_of_mem_atoms {t : Ty} {p q : Path} {c : Ty}
    (h : ⟨q, .concrete c⟩ ∈ t.atoms p) : c.isConcrete = true := by
  cases t with
  | dynamic => simp [Ty.atoms] at h
  | named text => simp [Ty.atoms] at h
  | inter members => exact Ty.isConcrete_of_mem_atomsAll h
  | primitive kind =>
    obtain ⟨_, rfl⟩ : q = p ∧ c = .primitive kind := by simpa [Ty.atoms] using h
    rfl
  | array element =>
    obtain ⟨_, rfl⟩ : q = p ∧ c = .array element := by simpa [Ty.atoms] using h
    rfl
  | function params returns =>
    obtain ⟨_, rfl⟩ : q = p ∧ c = .function params returns := by simpa [Ty.atoms] using h
    rfl
  | shape fields =>
    cases fields with
    | nil => simp [Ty.atoms] at h
    | cons field fields => exact Ty.isConcrete_of_mem_atomsFields h

theorem Ty.isConcrete_of_mem_atomsAll {ts : List Ty} {p q : Path} {c : Ty}
    (h : ⟨q, .concrete c⟩ ∈ Ty.atomsAll p ts) : c.isConcrete = true := by
  cases ts with
  | nil => simp [Ty.atomsAll] at h
  | cons t ts =>
    rcases List.mem_append.mp h with h | h
    · exact Ty.isConcrete_of_mem_atoms h
    · exact Ty.isConcrete_of_mem_atomsAll h

theorem Ty.isConcrete_of_mem_atomsFields {fields : List (String × Ty)} {p q : Path} {c : Ty}
    (h : ⟨q, .concrete c⟩ ∈ Ty.atomsFields p fields) : c.isConcrete = true := by
  cases fields with
  | nil => simp [Ty.atomsFields] at h
  | cons field fields =>
    obtain ⟨name, t⟩ := field
    rcases List.mem_append.mp h with h | h
    · rcases List.mem_cons.mp h with h | h
      · simp at h
      · exact Ty.isConcrete_of_mem_atoms h
    · exact Ty.isConcrete_of_mem_atomsFields h

end

theorem Evidence.isConcrete_of_mem_atoms {strategy : Strategy} {e : Evidence} {q : Path} {c : Ty}
    (h : ⟨q, .concrete c⟩ ∈ e.atoms strategy) : c.isConcrete = true := by
  unfold Evidence.atoms at h
  rcases List.mem_cons.mp h with h | h
  · simp at h
  · cases e with
    | access p => simp at h
    | numeric p => exact Ty.isConcrete_of_mem_atoms h
    | textual p => exact Ty.isConcrete_of_mem_atoms h
    | method p name arguments =>
      dsimp only at h
      split at h
      · exact Ty.isConcrete_of_mem_atoms h
      · rcases List.mem_cons.mp h with h | h
        · simp at h
        · exact Ty.isConcrete_of_mem_atoms h
    | argument p declared => exact Ty.isConcrete_of_mem_atoms h
    | invoke p arguments => exact Ty.isConcrete_of_mem_atoms h
    | assign p assigned => exact Ty.isConcrete_of_mem_atoms h

theorem mem_atomsOf_iff {strategy : Strategy} {evidence : List Evidence} {a : Atom} :
    a ∈ atomsOf strategy evidence ↔ ∃ e ∈ evidence, a ∈ e.atoms strategy := by
  simp only [atomsOf, List.mem_append, List.mem_flatMap, List.mem_filter, decide_eq_true_eq]
  constructor
  · rintro (⟨e, he, ha⟩ | ⟨e, he, ha⟩) <;> exact ⟨e, he.1, ha⟩
  · rintro ⟨e, he, ha⟩
    cases ho : e.origin with
    | ownBody => exact .inl ⟨e, ⟨he, ho⟩, ha⟩
    | callArgument => exact .inr ⟨e, ⟨he, ho⟩, ha⟩

def Mark.put (m : Mark) : Leaf → Mark
  | .touch => m
  | .concrete t => m.claim t
  | .name text => m.refer text
  | .emptyShape => m.seeEmptyShape

namespace Trie

theorem changeChild_changeChild (name : String) (f g : Trie → Trie) (cs : List (String × Trie)) :
    changeChild name g (changeChild name f cs) = changeChild name (g ∘ f) cs := by
  induction cs with
  | nil => simp [changeChild]
  | cons c cs ih =>
    obtain ⟨n, t⟩ := c
    by_cases h : n = name <;> simp [changeChild, h, ih]

theorem atChild_atChild (name : String) (f g : Trie → Trie) (t : Trie) :
    atChild name g (atChild name f t) = atChild name (g ∘ f) t := by
  obtain ⟨m, cs⟩ := t
  simp only [atChild, changeChild_changeChild]

theorem atPath_atPath (p : Path) (f g : Trie → Trie) (t : Trie) :
    atPath p g (atPath p f t) = atPath p (g ∘ f) t := by
  induction p generalizing t with
  | nil => rfl
  | cons s p ih =>
    have hc : atPath p g ∘ atPath p f = atPath p (g ∘ f) := funext ih
    simp only [atPath, atChild_atChild, hc]

theorem atPath_child (p : Path) (name : String) (f : Trie → Trie) :
    atPath (p.child name) f = atPath p (atChild name f) := by
  induction p with
  | nil => rfl
  | cons s p ih =>
    have hc : Path.child (s :: p) name = s :: Path.child p name := rfl
    simp only [hc, atPath, ih]

def addAtom (root : Trie) (a : Atom) : Trie :=
  root.atPath a.path (mapMark (·.put a.leaf))

def ofAtoms (atoms : List Atom) : Trie :=
  atoms.foldl addAtom empty

theorem addAtom_touch (root : Trie) (p : Path) : addAtom root ⟨p, .touch⟩ = atPath p id root := by
  have hid : mapMark (·.put .touch) = id := funext fun | .node _ _ => rfl
  rw [addAtom, hid]

theorem addAtom_atPath (p : Path) (f : Trie → Trie) (root : Trie) (leaf : Leaf) :
    addAtom (atPath p f root) ⟨p, leaf⟩ = atPath p (mapMark (·.put leaf) ∘ f) root :=
  atPath_atPath p f _ root

-- The path has to be there already: an open type has no atoms and touches nothing by itself.
mutual

theorem foldl_atoms (t : Ty) (p : Path) (f : Trie → Trie) (root : Trie) :
    (t.atoms p).foldl addAtom (atPath p f root) = atPath p (absorb t ∘ f) root := by
  cases t with
  | dynamic => rfl
  | named text => exact addAtom_atPath p f root _
  | inter members => exact foldl_atomsAll members p f root
  | primitive kind => exact addAtom_atPath p f root _
  | array element => exact addAtom_atPath p f root _
  | function params returns => exact addAtom_atPath p f root _
  | shape fields =>
    cases fields with
    | nil => exact addAtom_atPath p f root _
    | cons field fields => exact foldl_atomsFields (field :: fields) p f root

theorem foldl_atomsAll (ts : List Ty) (p : Path) (f : Trie → Trie) (root : Trie) :
    (Ty.atomsAll p ts).foldl addAtom (atPath p f root) = atPath p (absorbAll ts ∘ f) root := by
  cases ts with
  | nil => rfl
  | cons t ts =>
    rw [Ty.atomsAll, List.foldl_append, foldl_atoms t p f root, foldl_atomsAll ts p _ root]
    rfl

theorem foldl_atomsFields (fields : List (String × Ty)) (p : Path) (f : Trie → Trie)
    (root : Trie) :
    (Ty.atomsFields p fields).foldl addAtom (atPath p f root) =
      atPath p (absorbFields fields ∘ f) root := by
  cases fields with
  | nil => rfl
  | cons field fields =>
    obtain ⟨name, t⟩ := field
    rw [Ty.atomsFields, List.cons_append, List.foldl_cons, List.foldl_append, addAtom_touch,
      foldl_atoms t (p.child name) id, atPath_child, atPath_atPath,
      foldl_atomsFields fields p _ root]
    rfl

end

theorem insert_eq_foldl (strategy : Strategy) (root : Trie) (e : Evidence) :
    insert strategy root e = (e.atoms strategy).foldl addAtom root := by
  unfold Evidence.atoms
  rw [List.foldl_cons, addAtom_touch]
  cases e with
  | access p => rfl
  | numeric p => exact (foldl_atoms .number p id root).symm
  | textual p => exact (foldl_atoms .string p id root).symm
  | method p name arguments =>
    rw [insert]
    dsimp only [Evidence.path]
    cases strategy.interpret name arguments with
    | collection element => exact (foldl_atoms (.array element) p id root).symm
    | member t =>
      dsimp only
      rw [List.foldl_cons, addAtom_touch, foldl_atoms t (p.child name) id, atPath_child,
        atPath_atPath]
      rfl
  | argument p declared => exact (foldl_atoms declared p id root).symm
  | invoke p arguments => exact (foldl_atoms (callSignature arguments) p id root).symm
  | assign p assigned => exact (foldl_atoms assigned p id root).symm

theorem foldl_insert_eq_foldl (strategy : Strategy) (root : Trie) (evidence : List Evidence) :
    evidence.foldl (insert strategy) root =
      (evidence.flatMap (·.atoms strategy)).foldl addAtom root := by
  induction evidence generalizing root with
  | nil => rfl
  | cons e evidence ih =>
    rw [List.foldl_cons, List.flatMap_cons, List.foldl_append, ih, insert_eq_foldl]

theorem ofEvidence_eq_ofAtoms (strategy : Strategy) (evidence : List Evidence) :
    ofEvidence strategy evidence = ofAtoms (atomsOf strategy evidence) := by
  rw [ofEvidence, inOrder, foldl_insert_eq_foldl, List.flatMap_append]
  rfl

end Trie

end UsageTypes
