import Mathlib.Data.List.Forall2
import UsageTypes.Access
import UsageTypes.Resolve

/-! Trees with some of their comments turned into blanks. The text stays, and so does what is read by
role or by kind; what is read by position stays as long as no comment is taken away in front of it. -/

namespace UsageTypes

/-- Two lists side by side. Corresponding elements are kept, or the one is gone in the other; the
first so many elements that count are kept. -/
inductive Thinned {α : Type} (Kept Gone : α → α → Prop) (counts : α → Bool) :
    Nat → List α → List α → Prop
  | nil {n : Nat} : Thinned Kept Gone counts n [] []
  | keep {n : Nat} {a b : α} {as bs : List α} : Kept a b →
    Thinned Kept Gone counts (n - if counts a then 1 else 0) as bs →
    Thinned Kept Gone counts n (a :: as) (b :: bs)
  | drop {a b : α} {as bs : List α} : Gone a b → Thinned Kept Gone counts 0 as bs →
    Thinned Kept Gone counts 0 (a :: as) (b :: bs)

section Lists

variable {α β γ : Type} {R : α → β → Prop} {as : List α} {bs : List β}

theorem map_eq_of_forall₂ (h : List.Forall₂ R as bs) {f : α → γ} {g : β → γ}
    (hfg : ∀ a b, R a b → f a = g b) : as.map f = bs.map g := by
  induction h with
  | nil => rfl
  | cons hab _ ih => rw [List.map_cons, List.map_cons, hfg _ _ hab, ih]

theorem filterMap_eq_of_forall₂ (h : List.Forall₂ R as bs) {f : α → Option γ} {g : β → Option γ}
    (hfg : ∀ a b, R a b → f a = g b) : as.filterMap f = bs.filterMap g := by
  induction h with
  | nil => rfl
  | cons hab _ ih => rw [List.filterMap_cons, List.filterMap_cons, hfg _ _ hab, ih]

theorem flatMap_eq_of_forall₂ (h : List.Forall₂ R as bs) {f : α → List γ} {g : β → List γ}
    (hfg : ∀ a b, R a b → f a = g b) : as.flatMap f = bs.flatMap g := by
  induction h with
  | nil => rfl
  | cons hab _ ih => rw [List.flatMap_cons, List.flatMap_cons, hfg _ _ hab, ih]

theorem flatMap_rel {δ : Type} {S : γ → δ → Prop} (h : List.Forall₂ R as bs) {f : α → List γ}
    {g : β → List δ} (hfg : ∀ a ∈ as, ∀ b, R a b → List.Forall₂ S (f a) (g b)) :
    List.Forall₂ S (as.flatMap f) (bs.flatMap g) := by
  induction h with
  | nil => exact .nil
  | cons hab _ ih =>
    rw [List.flatMap_cons, List.flatMap_cons]
    refine List.rel_append (hfg _ List.mem_cons_self _ hab) (ih fun a ha => ?_)
    exact hfg a (List.mem_cons_of_mem _ ha)

theorem foldl_eq_of_forall₂ (h : List.Forall₂ R as bs) {f : γ → α → γ} {g : γ → β → γ}
    (hfg : ∀ c a b, R a b → f c a = g c b) (c : γ) : as.foldl f c = bs.foldl g c := by
  induction h generalizing c with
  | nil => rfl
  | cons hab _ ih => rw [List.foldl_cons, List.foldl_cons, hfg _ _ _ hab, ih]

theorem any_eq_of_forall₂ (h : List.Forall₂ R as bs) {f : α → Bool} {g : β → Bool}
    (hfg : ∀ a b, R a b → f a = g b) : as.any f = bs.any g := by
  induction h with
  | nil => rfl
  | cons hab _ ih => rw [List.any_cons, List.any_cons, hfg _ _ hab, ih]

theorem filter_rel (h : List.Forall₂ R as bs) {f : α → Bool} {g : β → Bool}
    (hfg : ∀ a b, R a b → f a = g b) : List.Forall₂ R (as.filter f) (bs.filter g) := by
  refine List.rel_filter (fun a b hab => ?_) h
  change f a = true ↔ g b = true
  rw [hfg a b hab]

theorem takeWhile_rel (h : List.Forall₂ R as bs) {f : α → Bool} {g : β → Bool}
    (hfg : ∀ a b, R a b → f a = g b) : List.Forall₂ R (as.takeWhile f) (bs.takeWhile g) := by
  induction h with
  | nil => exact .nil
  | cons hab _ ih =>
    rw [List.takeWhile_cons, List.takeWhile_cons, ← hfg _ _ hab]
    split
    · exact .cons hab ih
    · exact .nil

theorem zipIdx_rel (h : List.Forall₂ R as bs) (i : Nat) :
    List.Forall₂ (fun a b => R a.1 b.1 ∧ a.2 = b.2) (as.zipIdx i) (bs.zipIdx i) := by
  induction h generalizing i with
  | nil => exact .nil
  | cons hab _ ih => exact .cons ⟨hab, rfl⟩ (ih (i + 1))

theorem option_rel_cases {o : Option α} {o' : Option β} (h : Option.Rel R o o') :
    (o = none ∧ o' = none) ∨ ∃ a b, o = some a ∧ o' = some b ∧ R a b := by
  cases h with
  | none => exact .inl ⟨rfl, rfl⟩
  | some hab => exact .inr ⟨_, _, rfl, rfl, hab⟩

theorem option_rel_imp {S : α → β → Prop} {o : Option α} {o' : Option β} (h : Option.Rel R o o')
    (hS : ∀ a b, R a b → S a b) : Option.Rel S o o' := by
  cases h with
  | none => exact .none
  | some hab => exact .some (hS _ _ hab)

theorem find?_rel (h : List.Forall₂ R as bs) {f : α → Bool} {g : β → Bool}
    (hfg : ∀ a b, R a b → f a = g b) : Option.Rel R (as.find? f) (bs.find? g) := by
  induction h with
  | nil => exact .none
  | cons hab _ ih =>
    rw [List.find?_cons, List.find?_cons, ← hfg _ _ hab]
    split
    · exact .some hab
    · exact ih

theorem findSome?_rel {δ : Type} {S : γ → δ → Prop} (h : List.Forall₂ R as bs) {f : α → Option γ}
    {g : β → Option δ} (hfg : ∀ a b, R a b → Option.Rel S (f a) (g b)) :
    Option.Rel S (as.findSome? f) (bs.findSome? g) := by
  induction h with
  | nil => exact .none
  | cons hab _ ih =>
    rw [List.findSome?_cons, List.findSome?_cons]
    obtain ⟨hx, hy⟩ | ⟨x, y, hx, hy, hxy⟩ := option_rel_cases (hfg _ _ hab)
    · rw [hx, hy]
      exact ih
    · rw [hx, hy]
      exact .some hxy

theorem forall_mem_of_forall₂ (h : List.Forall₂ R as bs) {p : β → Prop}
    (hp : ∀ a b, R a b → p b) : ∀ b ∈ bs, p b := by
  induction h with
  | nil => simp
  | cons hab _ ih => exact List.forall_mem_cons.mpr ⟨hp _ _ hab, ih⟩

theorem rel_of_forall₂ {S : α → β → Prop} (h : List.Forall₂ R as bs)
    (hS : ∀ a ∈ as, ∀ b, R a b → S a b) : List.Forall₂ S as bs := by
  induction h with
  | nil => exact .nil
  | cons hab _ ih =>
    obtain ⟨ha, has⟩ := List.forall_mem_cons.mp hS
    exact .cons (ha _ hab) (ih has)

theorem getElem?_rel (h : List.Forall₂ R as bs) (i : Nat) : Option.Rel R as[i]? bs[i]? := by
  induction h generalizing i with
  | nil => exact .none
  | cons hab _ ih =>
    cases i with
    | zero => exact .some hab
    | succ i => simpa using ih i

theorem getElem?_rel_of_take {m i : Nat} (h : List.Forall₂ R (as.take m) (bs.take m)) (hi : i < m) :
    Option.Rel R as[i]? bs[i]? := by
  have := getElem?_rel h i
  rwa [List.getElem?_take_of_lt hi, List.getElem?_take_of_lt hi] at this

theorem cons_cases_of_rel (h : Option.Rel R as[0]? bs[0]?) :
    (as = [] ∧ bs = []) ∨ ∃ a as' b bs', as = a :: as' ∧ bs = b :: bs' ∧ R a b := by
  cases as <;> cases bs <;> cases h
  · exact .inl ⟨rfl, rfl⟩
  · exact .inr ⟨_, _, _, _, rfl, rfl, ‹_›⟩

end Lists

namespace Thinned

variable {α β : Type} {Kept Gone : α → α → Prop} {counts : α → Bool} {n : Nat} {as bs : List α}

theorem find?_rel (h : Thinned Kept Gone counts n as bs) {test : α → Bool}
    (hkept : ∀ a b, Kept a b → test a = test b)
    (hgone : ∀ a b, Gone a b → test a = false ∧ test b = false) :
    Option.Rel Kept (as.find? test) (bs.find? test) := by
  induction h with
  | nil => exact .none
  | keep hab _ ih =>
    rw [List.find?_cons, List.find?_cons, ← hkept _ _ hab]
    split
    · exact .some hab
    · exact ih
  | drop hab _ ih =>
    rw [List.find?_cons, List.find?_cons, (hgone _ _ hab).1, (hgone _ _ hab).2]
    exact ih

/-- Elements that stand side by side are kept or gone. -/
theorem getElem?_cases (h : Thinned Kept Gone counts n as bs) {k : Nat} {a b : α}
    (ha : as[k]? = some a) (hb : bs[k]? = some b) : Kept a b ∨ Gone a b := by
  induction h generalizing k with
  | nil => cases ha
  | keep hab _ ih =>
    cases k with
    | zero =>
      obtain ⟨rfl, rfl⟩ := And.intro (Option.some.inj ha) (Option.some.inj hb)
      exact .inl hab
    | succ k => exact ih ha hb
  | drop hab _ ih =>
    cases k with
    | zero =>
      obtain ⟨rfl, rfl⟩ := And.intro (Option.some.inj ha) (Option.some.inj hb)
      exact .inr hab
    | succ k => exact ih ha hb

/-- If nothing is gone, all is kept. -/
theorem forall₂_of_not_gone (h : Thinned Kept Gone counts n as bs) (hgone : ∀ a b, ¬ Gone a b) :
    List.Forall₂ Kept as bs := by
  induction h with
  | nil => exact .nil
  | keep hab _ ih => exact .cons hab ih
  | drop hab _ _ => exact absurd hab (hgone _ _)

/-- What is not gone is kept. -/
theorem exists_of_mem (h : Thinned Kept Gone counts n as bs) {a : α} (ha : a ∈ as)
    (hgone : ∀ b, ¬ Gone a b) : ∃ b ∈ bs, Kept a b := by
  induction h with
  | nil => cases ha
  | keep hab _ ih =>
    rcases List.mem_cons.mp ha with rfl | ha
    · exact ⟨_, List.mem_cons_self, hab⟩
    · obtain ⟨b, hb, hab⟩ := ih ha
      exact ⟨b, List.mem_cons_of_mem _ hb, hab⟩
  | drop hab _ ih =>
    rcases List.mem_cons.mp ha with rfl | ha
    · exact absurd hab (hgone _)
    · obtain ⟨b, hb, hab⟩ := ih ha
      exact ⟨b, List.mem_cons_of_mem _ hb, hab⟩

theorem filter_rel (h : Thinned Kept Gone counts n as bs) {test : α → Bool}
    (hkept : ∀ a b, Kept a b → test a = test b)
    (hgone : ∀ a b, Gone a b → test a = false ∧ test b = false) :
    List.Forall₂ Kept (as.filter test) (bs.filter test) := by
  induction h with
  | nil => exact .nil
  | keep hab _ ih =>
    rw [List.filter_cons, List.filter_cons, ← hkept _ _ hab]
    split
    · exact .cons hab ih
    · exact ih
  | drop hab _ ih =>
    rw [List.filter_cons, List.filter_cons, (hgone _ _ hab).1, (hgone _ _ hab).2]
    exact ih

/-- The first elements that count are the same, as far as they are fixed. -/
theorem take_rel (h : Thinned Kept Gone counts n as bs) {m : Nat} (hm : m ≤ n)
    (hkept : ∀ a b, Kept a b → counts a = counts b) :
    List.Forall₂ Kept ((as.filter counts).take m) ((bs.filter counts).take m) := by
  induction h generalizing m with
  | nil => simp
  | @keep n a b as bs hab _ ih =>
    rw [List.filter_cons, List.filter_cons, ← hkept _ _ hab]
    cases hc : counts a with
    | false =>
      simp only [hc, Bool.false_eq_true, if_false, Nat.sub_zero] at ih ⊢
      exact ih hm
    | true =>
      simp only [hc, if_true] at ih ⊢
      cases m with
      | zero => exact .nil
      | succ m => exact .cons hab (ih (by omega))
  | drop _ _ _ =>
    obtain rfl : m = 0 := by omega
    exact .nil

theorem of_forall₂ (h : List.Forall₂ Kept as bs) : Thinned Kept Gone counts 0 as bs := by
  induction h with
  | nil => exact .nil
  | cons hab _ ih => exact .keep hab (by rwa [Nat.zero_sub])

theorem forall₂ (h : Thinned Kept Gone counts n as bs) (hn : as.length ≤ n) :
    List.Forall₂ Kept as bs := by
  induction h with
  | nil => exact .nil
  | keep hab _ ih =>
    refine .cons hab (ih ?_)
    rw [List.length_cons] at hn
    split <;> omega
  | drop _ _ _ => simp at hn

theorem flatMap_eq (h : Thinned Kept Gone counts n as bs) {f g : α → List β}
    (hkept : ∀ a b, Kept a b → counts a = counts b ∧ f a = g b)
    (hgone : ∀ a b, Gone a b → f a = [] ∧ counts b = false) :
    (as.filter counts).flatMap f = (bs.filter counts).flatMap g := by
  induction h with
  | nil => rfl
  | @keep n a b as bs hab _ ih =>
    obtain ⟨hc, hfg⟩ := hkept _ _ hab
    rw [List.filter_cons, List.filter_cons, ← hc]
    split
    · rw [List.flatMap_cons, List.flatMap_cons, hfg, ih]
    · exact ih
  | @drop a b as bs hab _ ih =>
    obtain ⟨hf, hc⟩ := hgone _ _ hab
    rw [List.filter_cons, List.filter_cons, hc]
    split
    · rw [List.flatMap_cons, hf, ih]
      rfl
    · exact ih

theorem findSome?_rel {γ : Type} {S : β → γ → Prop} (h : Thinned Kept Gone counts n as bs)
    {f : α → Option β} {g : α → Option γ}
    (hkept : ∀ a b, Kept a b → counts a = counts b ∧ Option.Rel S (f a) (g b))
    (hgone : ∀ a b, Gone a b → f a = none ∧ counts b = false) :
    Option.Rel S ((as.filter counts).findSome? f) ((bs.filter counts).findSome? g) := by
  induction h with
  | nil => exact .none
  | @keep n a b as bs hab _ ih =>
    obtain ⟨hc, hfg⟩ := hkept _ _ hab
    rw [List.filter_cons, List.filter_cons, ← hc]
    split
    · rw [List.findSome?_cons, List.findSome?_cons]
      obtain ⟨hf, hg⟩ | ⟨x, y, hf, hg, hxy⟩ := option_rel_cases hfg
      · rw [hf, hg]
        exact ih
      · rw [hf, hg]
        exact .some hxy
    · exact ih
  | @drop a b as bs hab _ ih =>
    obtain ⟨hf, hc⟩ := hgone _ _ hab
    rw [List.filter_cons, List.filter_cons, hc]
    split
    · rw [List.findSome?_cons, hf]
      exact ih
    · exact ih

end Thinned

namespace Tree

/-- A comment, and the blank with its text that takes its place. -/
def Blanked (c b : Tree) : Prop :=
  ∃ p cs, c = .node none .comment p cs ∧ (∀ d ∈ cs, d.isNamed = false) ∧ b = .blank (textAll cs)

/-- The second tree is the first with some of its comments turned into blanks. In every node so many
of the first nodes stay as is given for its role, its kind and its children. -/
inductive Uncomments (fixed : Option Label → Kind → List Tree → Nat) : Tree → Tree → Prop
  | blank (s : String) : Uncomments fixed (.blank s) (.blank s)
  | token (l : Option Label) (s : String) : Uncomments fixed (.token l s) (.token l s)
  | node {l : Option Label} {k : Kind} {p : Position} {cs ds : List Tree} :
    Thinned (Uncomments fixed) Blanked isNamed (fixed l k cs) cs ds →
    Uncomments fixed (.node l k p cs) (.node l k p ds)

def isBareComment : Tree → Bool
  | .node none .comment _ cs => cs.all (!·.isNamed)
  | _ => false

theorem blanked_of_isBareComment {t : Tree} (h : t.isBareComment = true) :
    t.Blanked (.blank t.text) := by
  cases t with
  | node l k p cs =>
    rw [isBareComment.eq_def] at h
    split at h
    · rename_i heq
      obtain ⟨rfl, rfl, -, rfl⟩ := (node.injEq ..).mp heq
      refine ⟨_, _, rfl, fun d hd => ?_, rfl⟩
      simpa using List.all_eq_true.mp h d hd
    · cases h
  | _ => cases h

mutual

/-- A tree with all those comments turned into blanks. -/
def uncommented (fixed : Option Label → Kind → List Tree → Nat) : Tree → Tree
  | .node l k p cs => .node l k p (uncommentedAll fixed (fixed l k cs) cs)
  | t => t

def uncommentedAll (fixed : Option Label → Kind → List Tree → Nat) : Nat → List Tree → List Tree
  | _, [] => []
  | 0, t :: ts =>
    (if t.isBareComment then .blank t.text else t.uncommented fixed) :: uncommentedAll fixed 0 ts
  | n + 1, t :: ts =>
    t.uncommented fixed :: uncommentedAll fixed (n + 1 - if t.isNamed then 1 else 0) ts

end

mutual

theorem uncomments_uncommented (fixed : Option Label → Kind → List Tree → Nat) :
    ∀ t : Tree, t.Uncomments fixed (t.uncommented fixed)
  | .blank s => .blank s
  | .token l s => .token l s
  | .node l k _ cs => .node (thinned_uncommentedAll fixed (fixed l k cs) cs)

theorem thinned_uncommentedAll (fixed : Option Label → Kind → List Tree → Nat) :
    ∀ (n : Nat) (ts : List Tree),
      Thinned (Uncomments fixed) Blanked isNamed n ts (uncommentedAll fixed n ts)
  | _, [] => .nil
  | 0, t :: ts => by
    rw [uncommentedAll]
    have hrest := thinned_uncommentedAll fixed 0 ts
    split
    · exact .drop (blanked_of_isBareComment ‹_›) hrest
    · exact .keep (uncomments_uncommented fixed t) (by rwa [Nat.zero_sub])
  | n + 1, t :: ts => .keep (uncomments_uncommented fixed t) (thinned_uncommentedAll fixed _ ts)

end

end Tree

/-- How many of the nodes in a node of a kind are read by their position: the type of an ascription,
what stands in parentheses or before a non-null mark, the type of a cast, the elements of a list. -/
def Kind.positional (children : List Tree) : Kind → Nat
  | .typeAscription | .parenthesizedType | .arrayType | .parenthesizedExpression
  | .nonNullExpression | .restPattern => 1
  | .asExpression => 2
  | .intersectionType | .arrayLiteral | .extendsTypeClause => children.length
  | _ => 0

namespace Tree

/-- The same for a role and a kind: type arguments are counted. -/
def positional (label : Option Label) (kind : Kind) (children : List Tree) : Nat :=
  max (if label = some .typeArguments then children.length else 0) (kind.positional children)

def fixedIn (fixed : Option Label → Kind → List Tree → Nat) : Tree → Nat
  | .node l k _ cs => fixed l k cs
  | _ => 0

theorem le_fixedIn {t : Tree} {k : Kind} (hk : t.kind? = some k) :
    k.positional t.children ≤ t.fixedIn positional := by
  cases t with
  | node l k' p cs =>
    obtain rfl := Option.some.inj hk
    exact Nat.le_max_right _ _
  | _ => cases hk

theorem length_le_fixedIn {t : Tree} (hl : t.label? = some .typeArguments) :
    t.children.length ≤ t.fixedIn positional := by
  cases t with
  | node l k p cs =>
    obtain rfl := hl
    exact Nat.le_max_left _ _
  | _ => exact Nat.zero_le _

section Chains

variable {R : Tree → Tree → Prop}

/-- Accesses add the same segment if the words that name it are the same. -/
theorem segment?_congr {t u : Tree}
    (hrole : ∀ l, l ≠ .body → Option.Rel R (t.child? l) (u.child? l))
    (hkind : ∀ {a b : Tree}, R a b → a.kind? = b.kind?)
    (hword : ∀ {a b : Tree}, R a b →
      a.is .propertyIdentifier = true ∨ a.is .stringLiteral = true → a.text = b.text)
    (kind : Kind) : segment? kind t.children = segment? kind u.children := by
  have his : ∀ {a b : Tree}, R a b → ∀ k, a.is k = b.is k := fun hab k => by rw [is, is, hkind hab]
  have hchild : ∀ (t : Tree) (l : Label), t.children.find? (·.label? = some l) = t.child? l :=
    fun _ _ => rfl
  rw [segment?, segment?]
  split
  · obtain ⟨ha, hb⟩ | ⟨a, b, ha, hb, hab⟩ := option_rel_cases (hrole .property (by decide))
    · rw [hchild, hchild, ha, hb]
    · simp only [hchild, ha, hb, ← his hab]
      split
      · rw [hword hab (.inl ‹_›)]
      · rfl
  · split
    · obtain ⟨ha, hb⟩ | ⟨a, b, ha, hb, hab⟩ := option_rel_cases (hrole .index (by decide))
      · rw [hchild, hchild, ha, hb]
      · simp only [hchild, ha, hb, ← his hab]
        split
        · rw [hword hab (.inr ‹_›)]
        · rfl
    · rfl

/-- Following related trees ends in the same way, if they are the same names, and if their links have
the same segments and are built on related trees. -/
theorem follow_congr {name : String} {limit : Nat}
    (hid : ∀ {t u}, R t u → t.is .identifier = u.is .identifier)
    (htext : ∀ {t u}, R t u → t.is .identifier = true → t.text = u.text)
    (hlink : ∀ {t u}, R t u → Option.Rel (fun a b => a.1 = b.1 ∧ R a.2 b.2) t.link? u.link?)
    (segments : List String) {t u : Tree} (h : R t u) :
    follow name limit segments t = follow name limit segments u := by
  have hother : ∀ {t u : Tree} {segment : Option String} {inner : Tree}, R t u →
      t.link? = some (segment, inner) → ∃ inner', u.link? = some (segment, inner') ∧ R inner inner' := by
    intro t u segment inner h hlinked
    obtain ⟨hnone, -⟩ | ⟨_, ⟨_, inner'⟩, hsome, hlinked', rfl, hinner⟩ := option_rel_cases (hlink h)
    · rw [hlinked] at hnone
      cases hnone
    · obtain rfl := Option.some.inj (hlinked.symm.trans hsome)
      exact ⟨inner', hlinked', hinner⟩
  induction segments, t using follow.induct name limit generalizing u with
  | case1 segments t hname _ | case2 segments t hname _ =>
    rw [follow_of_is_identifier hname, follow_of_is_identifier (hid h ▸ hname), htext h hname]
  | case3 segments t hname hnone =>
    obtain ⟨-, hnone'⟩ | ⟨_, _, hsome, -⟩ := option_rel_cases (hlink h)
    · rw [follow_of_no_link hname hnone, follow_of_no_link (hid h ▸ hname) hnone']
    · rw [hnone] at hsome
      cases hsome
  | case4 segments t hname segment inner hlinked hlong =>
    obtain ⟨inner', hlinked', -⟩ := hother h hlinked
    rw [follow_of_link? hname hlinked, follow_of_link? (hid h ▸ hname) hlinked', if_pos hlong,
      if_pos hlong]
  | case5 segments t hname segment inner hlinked hshort ih =>
    obtain ⟨inner', hlinked', hinner⟩ := hother h hlinked
    rw [follow_of_link? hname hlinked, follow_of_link? (hid h ▸ hname) hlinked', if_neg hshort,
      if_neg hshort, ih hinner]

/-- Related trees have the same access paths, if words and links are kept. -/
theorem accessPath_congr (hkind : ∀ {t u : Tree}, R t u → t.kind? = u.kind?)
    (hrole : ∀ {t u : Tree}, R t u → ∀ l, l ≠ .body → Option.Rel R (t.child? l) (u.child? l))
    (hfirst : ∀ {t u : Tree}, R t u → ∀ k, t.kind? = some k → isWrapper k = true →
      Option.Rel R t.named.head? u.named.head?)
    (hword : ∀ {t u : Tree}, R t u → t.is .identifier = true ∨ t.is .propertyIdentifier = true ∨
      t.is .stringLiteral = true → t.text = u.text)
    (name : String) (limit : Nat) {t u : Tree} (h : R t u) :
    accessPath name limit t = accessPath name limit u := by
  have hlink : ∀ {t u : Tree}, R t u →
      Option.Rel (fun a b => a.1 = b.1 ∧ R a.2 b.2) t.link? u.link? := by
    intro t u h
    rw [link?, link?, ← hkind h]
    cases hk : t.kind? with
    | none => exact .none
    | some k =>
      dsimp only
      rw [← segment?_congr (hrole h) hkind (fun hab hw => hword hab (.inr hw)) k]
      split
      · obtain ⟨ha, hb⟩ | ⟨a, b, ha, hb, hab⟩ := option_rel_cases (hfirst h k hk ‹_›)
        · rw [ha, hb]
          exact .none
        · rw [ha, hb]
          exact .some ⟨rfl, hab⟩
      · split
        · obtain ⟨ha, hb⟩ | ⟨a, b, ha, hb, hab⟩ := option_rel_cases (hrole h .object (by decide))
          · rw [ha, hb]
            exact .none
          · rw [ha, hb]
            exact .some ⟨rfl, hab⟩
        · exact .none
  rw [accessPath, accessPath, follow_congr (fun h => by rw [is, is, hkind h])
    (fun h hid => hword h (.inl hid)) hlink [] h]

end Chains

namespace Uncomments

section

variable {fixed : Option Label → Kind → List Tree → Nat}

mutual

theorem text_eq : ∀ {t u : Tree}, t.Uncomments fixed u → t.text = u.text
  | .blank _, _, .blank _ => rfl
  | .token _ _, _, .token _ _ => rfl
  | .node _ _ _ _, _, .node h => textAll_eq h

theorem textAll_eq : ∀ {n : Nat} {cs ds : List Tree},
    Thinned (Uncomments fixed) Blanked isNamed n cs ds → textAll cs = textAll ds
  | _, [], _, .nil => rfl
  | _, _ :: _, _, .keep h hs => by rw [textAll, textAll, h.text_eq, textAll_eq hs]
  | _, _ :: _, _, .drop h hs => by
    obtain ⟨p, cs, rfl, -, rfl⟩ := h
    rw [textAll, textAll, textAll_eq hs]
    rfl

end

variable {t u : Tree} (h : t.Uncomments fixed u)

include h

theorem kind?_eq : t.kind? = u.kind? := by
  cases h <;> rfl

theorem label?_eq : t.label? = u.label? := by
  cases h <;> rfl

theorem isNamed_eq : t.isNamed = u.isNamed := by
  cases h <;> rfl

theorem start_eq : t.start = u.start := by
  cases h <;> rfl

theorem line_eq : t.line = u.line := by
  rw [line, line, h.start_eq]

theorem is_eq (k : Kind) : t.is k = u.is k := by
  rw [is, is, h.kind?_eq]

theorem children_thinned :
    Thinned (Uncomments fixed) Blanked isNamed (t.fixedIn fixed) t.children u.children := by
  cases h with
  | node h => exact h
  | _ => exact .nil

theorem child?_cases (l : Label) : (t.child? l = none ∧ u.child? l = none) ∨
    ∃ a b, t.child? l = some a ∧ u.child? l = some b ∧ a.Uncomments fixed b := by
  refine option_rel_cases (h.children_thinned.find?_rel ?_ ?_)
  · intro a b hab
    rw [hab.label?_eq]
  · rintro a b ⟨p, cs, rfl, -, rfl⟩
    exact ⟨rfl, rfl⟩

theorem named_filter (test : Tree → Bool) (htest : ∀ a b, a.Uncomments fixed b → test a = test b)
    (hcomment : ∀ p cs, test (.node none .comment p cs) = false) :
    List.Forall₂ (Uncomments fixed) (t.named.filter test) (u.named.filter test) := by
  rw [named, named, List.filter_filter, List.filter_filter]
  refine h.children_thinned.filter_rel ?_ ?_
  · intro a b hab
    rw [htest a b hab, hab.isNamed_eq]
  · rintro a b ⟨p, cs, rfl, -, rfl⟩
    simp [hcomment, isNamed]

theorem named_any (test : Tree → Bool) (htest : ∀ a b, a.Uncomments fixed b → test a = test b)
    (hcomment : ∀ p cs, test (.node none .comment p cs) = false) :
    t.named.any test = u.named.any test := by
  have hany : ∀ ts : List Tree, ts.any test = true ↔ ts.filter test ≠ [] := by
    intro ts
    simp [List.filter_eq_nil_iff]
  rw [Bool.eq_iff_iff, hany, hany, ← List.length_pos_iff, ← List.length_pos_iff,
    (h.named_filter test htest hcomment).length_eq]

theorem named_flatMap {β : Type} {f g : Tree → List β}
    (hfg : ∀ a b, a.Uncomments fixed b → f a = g b)
    (hcomment : ∀ p cs, (∀ d ∈ cs, d.isNamed = false) → f (.node none .comment p cs) = []) :
    t.named.flatMap f = u.named.flatMap g := by
  refine h.children_thinned.flatMap_eq ?_ ?_
  · exact fun a b hab => ⟨hab.isNamed_eq, hfg a b hab⟩
  · rintro a b ⟨p, cs, rfl, hcs, rfl⟩
    exact ⟨hcomment p cs hcs, rfl⟩

theorem named_take {m : Nat} (hm : m ≤ t.fixedIn fixed) :
    List.Forall₂ (Uncomments fixed) (t.named.take m) (u.named.take m) :=
  h.children_thinned.take_rel hm fun _ _ hab => hab.isNamed_eq

theorem named_getElem? {i : Nat} (hi : i < t.fixedIn fixed) :
    Option.Rel (Uncomments fixed) t.named[i]? u.named[i]? :=
  getElem?_rel_of_take (h.named_take (Nat.le_refl _)) hi

theorem named_rel (hm : t.children.length ≤ t.fixedIn fixed) :
    List.Forall₂ (Uncomments fixed) t.named u.named := by
  have hlen : t.named.length ≤ t.fixedIn fixed := Nat.le_trans (List.length_filter_le _ _) hm
  have hlen' : u.named.length ≤ t.fixedIn fixed := by
    refine Nat.le_trans (List.length_filter_le _ _) ?_
    rwa [← (h.children_thinned.forall₂ hm).length_eq]
  have hall := h.named_take (Nat.le_refl _)
  rwa [List.take_of_length_le hlen, List.take_of_length_le hlen'] at hall

theorem declaredName?_eq : t.declaredName? = u.declaredName? := by
  obtain ⟨ha, hb⟩ | ⟨a, b, ha, hb, hab⟩ := h.child?_cases .name
  · rw [declaredName?, declaredName?, ha, hb]
  · rw [declaredName?, declaredName?, ha, hb, Option.map_some, hab.text_eq, Option.map_some]

theorem operator?_eq : t.operator? = u.operator? := by
  obtain ⟨ha, hb⟩ | ⟨a, b, ha, hb, hab⟩ := h.child?_cases .operator
  · rw [operator?, operator?, ha, hb]
  · rw [operator?, operator?, ha, hb, Option.map_some, hab.text_eq, Option.map_some]

theorem isFunctionLike_eq : t.isFunctionLike = u.isFunctionLike := by
  rw [isFunctionLike, isFunctionLike, h.kind?_eq]

theorem isDeclaration_eq : t.isDeclaration = u.isDeclaration := by
  rw [isDeclaration, isDeclaration, h.kind?_eq]

theorem child?_any_is (l : Label) (k : Kind) :
    (t.child? l).any (·.is k) = (u.child? l).any (·.is k) := by
  obtain ⟨ha, hb⟩ | ⟨a, b, ha, hb, hab⟩ := h.child?_cases l
  · rw [ha, hb]
  · rw [ha, hb, Option.any_some, Option.any_some, hab.is_eq]

theorem isPositional_eq : t.isPositional = u.isPositional := by
  rw [isPositional, isPositional, h.is_eq, h.is_eq, h.child?_any_is]

theorem parameters_rel : List.Forall₂ (Uncomments fixed) t.parameters u.parameters := by
  obtain ⟨ha, hb⟩ | ⟨a, b, ha, hb, hab⟩ := h.child?_cases .parameters
  · simp [parameters, ha, hb]
  · simp only [parameters, ha, hb]
    exact hab.named_filter isPositional (fun _ _ h => h.isPositional_eq) fun _ _ => rfl

theorem memberName?_eq : memberName? t = memberName? u := by
  obtain ⟨ha, hb⟩ | ⟨a, b, ha, hb, hab⟩ := h.child?_cases .name
  · simp [memberName?, ha, hb]
  · simp [memberName?, ha, hb, hab.kind?_eq, hab.text_eq]

end

section

variable {t u : Tree} (h : t.Uncomments positional u)

include h

theorem named_getElem?_of_kind {k : Kind} (hk : t.kind? = some k) {i : Nat}
    (hi : i < k.positional t.children) :
    Option.Rel (Uncomments positional) t.named[i]? u.named[i]? :=
  h.named_getElem? (Nat.lt_of_lt_of_le hi (le_fixedIn hk))

theorem named_cases_of_kind {k : Kind} (hk : t.kind? = some k) (h0 : 0 < k.positional t.children) :
    (t.named = [] ∧ u.named = []) ∨
      ∃ a as b bs, t.named = a :: as ∧ u.named = b :: bs ∧ a.Uncomments positional b :=
  cons_cases_of_rel (h.named_getElem?_of_kind hk h0)

theorem named_rel_of_kind {k : Kind} (hk : t.kind? = some k)
    (hall : t.children.length ≤ k.positional t.children) :
    List.Forall₂ (Uncomments positional) t.named u.named :=
  h.named_rel (Nat.le_trans hall (le_fixedIn hk))

theorem parameterName?_eq : t.parameterName? = u.parameterName? := by
  obtain ⟨ha, hb⟩ | ⟨a, b, ha, hb, hab⟩ := h.child?_cases .pattern
  · simp [parameterName?, ha, hb]
  · simp only [parameterName?, ha, hb, ← hab.is_eq, ← hab.text_eq]
    by_cases hk : a.kind? = some .restPattern
    · rw [List.head?_eq_getElem?, List.head?_eq_getElem?]
      obtain ⟨hc, hd⟩ | ⟨c, d, hc, hd, hcd⟩ :=
        option_rel_cases (hab.named_getElem?_of_kind hk Nat.zero_lt_one)
      · rw [hc, hd]
      · rw [hc, hd, Option.map_some, Option.map_some, hcd.text_eq]
    · simp [is, hk]

theorem boundNames_eq : t.boundNames = u.boundNames := by
  have hp : t.parameters.filterMap parameterName? = u.parameters.filterMap parameterName? :=
    filterMap_eq_of_forall₂ h.parameters_rel fun _ _ hab => hab.parameterName?_eq
  obtain ⟨ha, hb⟩ | ⟨a, b, ha, hb, hab⟩ := h.child?_cases .parameter
  · rw [boundNames, boundNames, hp, ha, hb]
  · rw [boundNames, boundNames, hp, ha, hb, Option.map_some, hab.text_eq, Option.map_some]

theorem arrayElement?_cases : (arrayElement? t = none ∧ arrayElement? u = none) ∨
    ∃ a b, arrayElement? t = some a ∧ arrayElement? u = some b ∧ a.Uncomments positional b := by
  rw [arrayElement?, arrayElement?, ← h.declaredName?_eq]
  split
  · obtain ⟨ha, hb⟩ | ⟨a, b, ha, hb, hab⟩ := h.child?_cases .typeArguments
    · rw [ha, hb]
      exact .inl ⟨rfl, rfl⟩
    · have hl : a.label? = some .typeArguments := by simpa using List.find?_some ha
      have hall := hab.named_rel (length_le_fixedIn hl)
      rw [ha, hb, Option.map_some, Option.map_some]
      generalize a.named = as, b.named = bs at hall
      cases hall with
      | nil => exact .inl ⟨rfl, rfl⟩
      | cons hxy hrest =>
        cases hrest with
        | nil => exact .inr ⟨_, _, rfl, rfl, hxy⟩
        | cons _ _ => exact .inl ⟨rfl, rfl⟩
  · exact .inl ⟨rfl, rfl⟩

theorem verbatim_eq : verbatim t = verbatim u := by
  rw [verbatim, verbatim, ← h.is_eq, ← h.text_eq]
  by_cases hk : t.kind? = some .typeAscription
  · rw [if_pos (by simp [is, hk]), if_pos (by simp [is, hk])]
    obtain ⟨ha, hb⟩ | ⟨a, as, b, bs, ha, hb, hab⟩ := h.named_cases_of_kind hk Nat.zero_lt_one
    · rw [ha, hb]
    · rw [ha, hb]
      exact congrArg Ty.named hab.text_eq
  · rw [if_neg (by simp [is, hk]), if_neg (by simp [is, hk])]

variable {read : Tree → Ty} (hread : ∀ a b, a.Uncomments positional b → read a = read b)

include hread

theorem annotation_eq (l : Label) :
    (match t.child? l with
      | some ascription => read ascription
      | none => .dynamic) =
    match u.child? l with
      | some ascription => read ascription
      | none => .dynamic := by
  obtain ⟨ha, hb⟩ | ⟨a, b, ha, hb, hab⟩ := h.child?_cases l
  · rw [ha, hb]
  · rw [ha, hb]
    exact hread a b hab

theorem signatureWith_eq : signatureWith read t = signatureWith read u := by
  rw [signatureWith, signatureWith]
  congr 1
  · exact map_eq_of_forall₂ h.parameters_rel fun a b hab => hab.annotation_eq hread .typing
  · exact h.annotation_eq hread .returns

theorem fieldsWith_eq : fieldsWith read t = fieldsWith read u := by
  rw [fieldsWith, fieldsWith, List.filterMap_eq_flatMap_toList, List.filterMap_eq_flatMap_toList]
  refine h.named_flatMap (fun a b hab => ?_) (fun p cs hcs => ?_)
  · obtain ⟨hc, hd⟩ | ⟨c, d, hc, hd, hcd⟩ := hab.child?_cases .typing
    · simp only [← hab.memberName?_eq, ← hab.is_eq, hread a b hab, hc, hd]
    · simp only [← hab.memberName?_eq, ← hab.is_eq, hread a b hab, hc, hd, hread c d hcd]
  · split <;> rfl

end

/-- Types are read the same, however deep they are. -/
theorem resolve_eq (budget : Nat) {t u : Tree} (h : t.Uncomments positional u) :
    resolve budget t = resolve budget u := by
  induction budget generalizing t u with
  | zero =>
    rw [resolve, resolve, ← h.is_eq, h.verbatim_eq, h.signatureWith_eq fun _ _ hab => hab.verbatim_eq]
  | succ budget ih =>
    have ih' : ∀ a b : Tree, a.Uncomments positional b → resolve budget a = resolve budget b :=
      fun _ _ hab => ih hab
    rw [resolve, resolve, ← h.kind?_eq]
    split
    · rename_i hk
      obtain ⟨ha, hb⟩ | ⟨a, as, b, bs, ha, hb, hab⟩ := h.named_cases_of_kind hk Nat.zero_lt_one
      · rw [ha, hb]
      · rw [ha, hb]
        exact ih hab
    · rename_i hk
      obtain ⟨ha, hb⟩ | ⟨a, as, b, bs, ha, hb, hab⟩ := h.named_cases_of_kind hk Nat.zero_lt_one
      · rw [ha, hb]
      · rw [ha, hb]
        exact ih hab
    · rw [h.text_eq]
    · rename_i hk
      obtain ⟨ha, hb⟩ | ⟨a, as, b, bs, ha, hb, hab⟩ := h.named_cases_of_kind hk Nat.zero_lt_one
      · rw [ha, hb]
      · rw [ha, hb]
        exact congrArg Ty.array (ih hab)
    · obtain ⟨ha, hb⟩ | ⟨a, b, ha, hb, hab⟩ := h.arrayElement?_cases
      · rw [ha, hb, h.text_eq]
      · rw [ha, hb]
        exact congrArg Ty.array (ih hab)
    · rw [h.fieldsWith_eq ih']
    · rw [h.fieldsWith_eq ih']
    · rename_i hk
      rw [map_eq_of_forall₂ (h.named_rel_of_kind hk (Nat.le_refl _)) ih']
    · rw [h.signatureWith_eq ih']
    · rw [h.signatureWith_eq ih']
    · rw [h.text_eq]

section

variable {t u : Tree} (h : t.Uncomments positional u)

include h

theorem resolveType_eq : resolveType t = resolveType u :=
  h.resolve_eq (nestingLimit + 1)

theorem cutLine_eq : cutLine t = cutLine u := by
  rw [cutLine, cutLine, ← h.is_eq, ← h.line_eq]
  by_cases hk : t.kind? = some .typeAscription
  · rw [if_pos (by simp [is, hk]), if_pos (by simp [is, hk])]
    obtain ⟨ha, hb⟩ | ⟨a, as, b, bs, ha, hb, hab⟩ := h.named_cases_of_kind hk Nat.zero_lt_one
    · rw [ha, hb]
    · rw [ha, hb]
      exact congrArg (fun line => [line]) hab.line_eq
  · rw [if_neg (by simp [is, hk]), if_neg (by simp [is, hk])]

variable {cuts : Tree → List Nat} (hcuts : ∀ a b, a.Uncomments positional b → cuts a = cuts b)

include hcuts

theorem child?_cuts_eq (l : Label) :
    (t.child? l).toList.flatMap cuts = (u.child? l).toList.flatMap cuts := by
  obtain ⟨ha, hb⟩ | ⟨a, b, ha, hb, hab⟩ := h.child?_cases l
  · rw [ha, hb]
  · rw [ha, hb]
    simp [hcuts a b hab]

theorem signatureCuts_eq : signatureCuts cuts t = signatureCuts cuts u := by
  rw [signatureCuts, signatureCuts, h.child?_cuts_eq hcuts,
    flatMap_eq_of_forall₂ h.parameters_rel fun a b hab => hab.child?_cuts_eq hcuts .typing]

theorem fieldCuts_eq : fieldCuts cuts t = fieldCuts cuts u := by
  refine h.named_flatMap (fun a b hab => ?_) (fun p cs hcs => ?_)
  · rw [← hab.memberName?_eq, ← hab.is_eq, ← hab.is_eq, hab.child?_cuts_eq hcuts, hcuts a b hab]
  · split <;> rfl

theorem head?_cuts_eq {k : Kind} (hk : t.kind? = some k) (h0 : 0 < k.positional t.children) :
    t.named.head?.toList.flatMap cuts = u.named.head?.toList.flatMap cuts := by
  rw [List.head?_eq_getElem?, List.head?_eq_getElem?]
  obtain ⟨ha, hb⟩ | ⟨a, b, ha, hb, hab⟩ := option_rel_cases (h.named_getElem?_of_kind hk h0)
  · rw [ha, hb]
  · rw [ha, hb]
    simp [hcuts a b hab]

end

theorem typeCuts_eq (budget : Nat) {t u : Tree} (h : t.Uncomments positional u) :
    typeCuts budget t = typeCuts budget u := by
  induction budget generalizing t u with
  | zero =>
    rw [typeCuts, typeCuts, ← h.is_eq, h.cutLine_eq,
      h.signatureCuts_eq fun _ _ hab => hab.cutLine_eq]
  | succ budget ih =>
    have ih' : ∀ a b : Tree, a.Uncomments positional b → typeCuts budget a = typeCuts budget b :=
      fun _ _ hab => ih hab
    rw [typeCuts, typeCuts, ← h.kind?_eq]
    split
    · rename_i hk
      exact h.head?_cuts_eq ih' hk Nat.zero_lt_one
    · rename_i hk
      exact h.head?_cuts_eq ih' hk Nat.zero_lt_one
    · rename_i hk
      exact h.head?_cuts_eq ih' hk Nat.zero_lt_one
    · obtain ⟨ha, hb⟩ | ⟨a, b, ha, hb, hab⟩ := h.arrayElement?_cases
      · rw [ha, hb]
      · rw [ha, hb]
        simp [ih hab]
    · rw [h.fieldCuts_eq ih']
    · rw [h.fieldCuts_eq ih']
    · rename_i hk
      exact flatMap_eq_of_forall₂ (h.named_rel_of_kind hk (Nat.le_refl _)) ih'
    · rw [h.signatureCuts_eq ih']
    · rw [h.signatureCuts_eq ih']
    · rfl

theorem one_le_positional {k : Kind} (h : isWrapper k = true) (cs : List Tree) :
    1 ≤ k.positional cs := by
  have hk : k = .parenthesizedExpression ∨ k = .nonNullExpression := by
    simpa [isWrapper] using h
  rcases hk with rfl | rfl
  · exact Nat.le_refl 1
  · exact Nat.le_refl 1

theorem accessPath_eq (name : String) (limit : Nat) {t u : Tree} (h : t.Uncomments positional u) :
    accessPath name limit t = accessPath name limit u := by
  refine accessPath_congr (fun h => h.kind?_eq) (fun h l _ => ?_) (fun h k hk hw => ?_)
    (fun h _ => h.text_eq) name limit h
  · obtain ⟨ha, hb⟩ | ⟨a, b, ha, hb, hab⟩ := h.child?_cases l
    · rw [ha, hb]
      exact .none
    · rw [ha, hb]
      exact .some hab
  · rw [List.head?_eq_getElem?, List.head?_eq_getElem?]
    exact h.named_getElem?_of_kind hk (one_le_positional hw _)

end Uncomments

end Tree

end UsageTypes
