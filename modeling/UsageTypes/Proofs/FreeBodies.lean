import UsageTypes.Proofs.Mirroring
import UsageTypes.Proofs.WellRead

/-! Trees with other bodies in some of their functions. What is read of such a tree by role, by kind
or as a name stays: no name is hidden in a text that changes, because every function has a mark
outside of its body that stands in no name. -/

namespace UsageTypes

namespace Tree

/-- Functions of some sort, whose bodies may be any. -/
structure Selection where
  has : Tree → Bool
  isFunctionLike : ∀ {t : Tree}, has t = true → t.isFunctionLike = true

namespace Selection

/-- All functions. -/
def functions : Selection := ⟨Tree.isFunctionLike, id⟩

theorem not_has (s : Selection) {t : Tree} (h : t.isFunctionLike = false) : s.has t = false := by
  cases hs : s.has t with
  | false => rfl
  | true =>
    rw [s.isFunctionLike hs] at h
    cases h

end Selection

mutual

/-- Whether the second tree is the first one with any bodies in the selected functions. Positions do
not matter. -/
def agrees (s : Selection) : Tree → Tree → Bool
  | .blank x, .blank y => x = y
  | .token l x, .token l' y => l = l' && x = y
  | .node l k p cs, .node l' k' _ ds =>
    l = l' && k = k' && agreesAll s (s.has (node l k p cs)) cs ds
  | _, _ => false

/-- The same for trees side by side, whose bodies are free or not. -/
def agreesAll (s : Selection) (free : Bool) : List Tree → List Tree → Bool
  | [], [] => true
  | c :: cs, d :: ds =>
    (agrees s c d || (free && c.label? = some .body && d.label? = some .body))
      && agreesAll s free cs ds
  | _, _ => false

end

/-- A body and another one in its place. -/
def Bodies (c d : Tree) : Prop :=
  c.label? = some .body ∧ d.label? = some .body

theorem Bodies.not_label {c d : Tree} (h : Bodies c d) {l : Label} (hl : l ≠ .body) :
    decide (c.label? = some l) = false ∧ decide (d.label? = some l) = false := by
  rw [h.1, h.2]
  exact ⟨decide_eq_false fun he => hl (Option.some.inj he).symm,
    decide_eq_false fun he => hl (Option.some.inj he).symm⟩

theorem agreesAll_cons {s : Selection} {free : Bool} {c d : Tree} {cs ds : List Tree} :
    agreesAll s free (c :: cs) (d :: ds) = true ↔
      (agrees s c d = true ∨ free = true ∧ Bodies c d) ∧ agreesAll s free cs ds = true := by
  simp [agreesAll, Bodies, and_assoc]

/-- What is no node stays as it is, and a node keeps its role and its kind. -/
theorem agrees_cases {s : Selection} {t u : Tree} (h : agrees s t u = true) :
    (t.isNamed = false ∧ t = u) ∨ ∃ l k p q cs ds, t = .node l k p cs ∧ u = .node l k q ds ∧
      agreesAll s (s.has t) cs ds = true := by
  cases t <;> cases u <;> simp only [agrees, Bool.and_eq_true, decide_eq_true_eq] at h
  case blank.blank => exact .inl ⟨rfl, by rw [h]⟩
  case token.token => exact .inl ⟨rfl, by rw [h.1, h.2]⟩
  case node.node l k p cs l' k' q ds =>
    obtain ⟨⟨rfl, rfl⟩, h⟩ := h
    exact .inr ⟨l, k, p, q, cs, ds, rfl, rfl, h⟩
  all_goals cases h

theorem label?_eq_of_agrees {s : Selection} {t u : Tree} (h : agrees s t u = true) :
    t.label? = u.label? := by
  obtain ⟨-, rfl⟩ | ⟨l, k, p, q, cs, ds, rfl, rfl, -⟩ := agrees_cases h <;> rfl

theorem WellRead.of_mem_children {t c : Tree} (h : t.WellRead) (hc : c ∈ t.children) : c.WellRead := by
  cases h with
  | node hcs _ => exact hcs c hc
  | _ => cases hc

theorem WellRead.guarded {t : Tree} {k : Kind} (h : t.WellRead) (hk : t.kind? = some k) :
    Guarded k t.children := by
  cases h with
  | node _ hguarded =>
    obtain rfl := Option.some.inj hk
    exact hguarded
  | _ => cases hk

/-- Well-read trees that correspond up to the bodies of selected functions. -/
structure Parallel (s : Selection) (t u : Tree) : Prop where
  agrees : t.agrees s u = true
  wellRead : t.WellRead

/-- The trees in a node with other bodies correspond, but the body of a selected function may be any. -/
theorem thinned_of_agreesAll {s : Selection} {free : Bool} {cs ds : List Tree}
    (h : agreesAll s free cs ds = true) (hcs : ∀ c ∈ cs, c.WellRead) :
    Thinned (fun c d => c.Parallel s d ∧ (free = true → c.label? ≠ some .body))
      (fun c d => free = true ∧ Bodies c d) (fun _ => true) 0 cs ds := by
  induction cs generalizing ds with
  | nil =>
    cases ds with
    | nil => exact .nil
    | cons => cases h
  | cons c cs ih =>
    cases ds with
    | nil => cases h
    | cons d ds =>
      obtain ⟨hc, hcs⟩ := List.forall_mem_cons.mp hcs
      obtain ⟨hcd, hs⟩ := agreesAll_cons.mp h
      -- a free body counts as gone even where it happens to correspond
      by_cases hbody : free = true ∧ c.label? = some .body
      · have hd : d.label? = some .body := by
          rcases hcd with hcd | hcd
          · rw [← label?_eq_of_agrees hcd, hbody.2]
          · exact hcd.2.2
        exact .drop ⟨hbody.1, hbody.2, hd⟩ (ih hs hcs)
      · have hkept := hcd.resolve_right fun h => hbody ⟨h.1, h.2.1⟩
        exact .keep ⟨⟨hkept, hc⟩, fun hfree hl => hbody ⟨hfree, hl⟩⟩ (ih hs hcs)

theorem children_eq_nil {t : Tree} (h : t.isNamed = false) : t.children = [] := by
  cases t with
  | node => cases h
  | _ => rfl

namespace Parallel

variable {s : Selection} {t u : Tree} (h : t.Parallel s u)

include h

theorem label?_eq : t.label? = u.label? := label?_eq_of_agrees h.agrees

theorem kind?_eq : t.kind? = u.kind? := by
  obtain ⟨-, rfl⟩ | ⟨l, k, p, q, cs, ds, rfl, rfl, -⟩ := agrees_cases h.agrees <;> rfl

theorem isNamed_eq : t.isNamed = u.isNamed := by
  obtain ⟨-, rfl⟩ | ⟨l, k, p, q, cs, ds, rfl, rfl, -⟩ := agrees_cases h.agrees <;> rfl

theorem is_eq (k : Kind) : t.is k = u.is k := by
  rw [is, is, h.kind?_eq]

theorem isFunctionLike_eq : t.isFunctionLike = u.isFunctionLike := by
  rw [isFunctionLike, isFunctionLike, h.kind?_eq]

theorem children_thinned :
    Thinned (fun c d => c.Parallel s d ∧ (s.has t = true → c.label? ≠ some .body))
      (fun c d => s.has t = true ∧ Bodies c d) (fun _ => true) 0 t.children u.children := by
  obtain ⟨hn, rfl⟩ | ⟨l, k, p, q, cs, ds, rfl, rfl, hs⟩ := agrees_cases h.agrees
  · rw [children_eq_nil hn]
    exact .nil
  · exact thinned_of_agreesAll hs fun c hc => h.wellRead.of_mem_children hc

theorem children_rel (hplain : s.has t = false) :
    List.Forall₂ (Parallel s) t.children u.children :=
  (h.children_thinned.forall₂_of_not_gone fun _ _ hgone => by simp [hplain] at hgone).imp
    fun _ _ hcd => hcd.1

theorem child?_rel {l : Label} (hl : l ≠ .body) :
    Option.Rel (Parallel s) (t.child? l) (u.child? l) := by
  refine option_rel_imp (h.children_thinned.find?_rel ?_ ?_) fun _ _ hab => hab.1
  · intro a b hab
    rw [hab.1.label?_eq]
  · intro a b hgone
    exact hgone.2.not_label hl

theorem child?_cases {l : Label} (hl : l ≠ .body) : (t.child? l = none ∧ u.child? l = none) ∨
    ∃ a b, t.child? l = some a ∧ u.child? l = some b ∧ a.Parallel s b :=
  option_rel_cases (h.child?_rel hl)

theorem named_rel (hplain : t.isFunctionLike = false) :
    List.Forall₂ (Parallel s) t.named u.named :=
  filter_rel (h.children_rel (s.not_has hplain)) fun _ _ hab => hab.isNamed_eq

end Parallel

section Texts

variable {s : Selection}

theorem text_eq_textAll_children {t : Tree} (h : t.isNamed = true) : t.text = textAll t.children := by
  cases t with
  | node => rfl
  | _ => cases h

theorem WellRead.not_isMarked {t : Tree} (h : t.WellRead) (hk : t.kind? = some .identifier) :
    isMarked t.text = false := by
  rw [text_eq_textAll_children (isNamed_of_kind? hk)]
  exact (h.guarded hk).name rfl

theorem textAll_eq_of_forall₂ {cs ds : List Tree}
    (h : List.Forall₂ (fun c d => c.text = d.text) cs ds) : textAll cs = textAll ds := by
  induction h with
  | nil => rfl
  | cons hcd _ ih => rw [textAll, textAll, hcd, ih]

theorem Parallel.text_eq_of_isFixed {t u : Tree} (h : t.Parallel s u) (ht : t.isFixed = true) :
    t.text = u.text := by
  have htext : ∀ c d : Tree, c.isNamed = false → c.Parallel s d → c.text = d.text := by
    intro c d hc h
    obtain ⟨-, rfl⟩ | ⟨l, k, p, q, cs, ds, rfl, rfl, -⟩ := agrees_cases h.agrees
    · rfl
    · cases hc
  cases hn : t.isNamed with
  | false => exact htext t u hn h
  | true =>
    have hrel := h.children_rel (s.not_has (isFunctionLike_of_isFixed ht))
    rw [text_eq_textAll_children hn, text_eq_textAll_children (h.isNamed_eq ▸ hn)]
    refine textAll_eq_of_forall₂ (rel_of_forall₂ hrel fun c hc d hcd => htext c d ?_ hcd)
    cases t with
    | node l k p cs =>
      simp only [isFixed, Bool.and_eq_true, List.all_eq_true, Bool.not_eq_true'] at ht
      exact ht.2 c hc
    | _ => cases hc

theorem Parallel.text_eq_of_isWord {t u : Tree} (h : t.Parallel s u) {k : Kind}
    (hk : t.kind? = some k) (hword : k.isWord = true) : t.text = u.text := by
  have hplain : t.isFunctionLike = false := by
    rw [isFunctionLike, hk]
    cases k <;> first | rfl | cases hword
  have hn : t.isNamed = true := isNamed_of_kind? hk
  rw [text_eq_textAll_children hn, text_eq_textAll_children (h.isNamed_eq ▸ hn)]
  refine textAll_eq_of_forall₂ (rel_of_forall₂ (h.children_rel (s.not_has hplain)) ?_)
  exact fun c hc d hcd => hcd.text_eq_of_isFixed ((h.wellRead.guarded hk).word hword c hc)

/-- A text that changes has a mark before and after. -/
def Alike (s s' : String) : Prop :=
  s = s' ∨ isMarked s = true ∧ isMarked s' = true

theorem isMarked_of_alike {s s' : String} (h : Alike s s') (hs : isMarked s = true) : isMarked s' = true := by
  rcases h with rfl | h
  · exact hs
  · exact h.2

/-- No change makes or unmakes a name. -/
theorem Alike.eq_iff {s s' n : String} (h : Alike s s') (hn : isMarked n = false) : s = n ↔ s' = n := by
  rcases h with rfl | ⟨hs, hs'⟩
  · exact Iff.rfl
  · constructor
    · rintro rfl
      rw [hs] at hn
      cases hn
    · rintro rfl
      rw [hs'] at hn
      cases hn

theorem alike_textAll {cs ds : List Tree}
    (h : List.Forall₂ (fun c d => Alike c.text d.text) cs ds) : Alike (textAll cs) (textAll ds) := by
  induction h with
  | nil => exact .inl rfl
  | @cons c d cs ds hcd _ ih =>
    rw [textAll, textAll]
    rcases hcd with he | ⟨hc, hd⟩
    · rcases ih with he' | ⟨hcs, hds⟩
      · exact .inl (by rw [he, he'])
      · exact .inr ⟨by simp [hcs], by simp [hds]⟩
    · exact .inr ⟨by simp [hc], by simp [hd]⟩

theorem Parallel.text_alike {t u : Tree} (h : t.Parallel s u) : Alike t.text u.text := by
  induction t using children_induction generalizing u with
  | step t ih =>
    cases hn : t.isNamed with
    | false => exact .inl (h.text_eq_of_isFixed (by cases t <;> first | rfl | cases hn))
    | true =>
      rw [text_eq_textAll_children hn, text_eq_textAll_children (h.isNamed_eq ▸ hn)]
      cases hfree : s.has t with
      | false => exact alike_textAll (rel_of_forall₂ (h.children_rel hfree) fun c hc d hcd => ih c hc hcd)
      | true =>
        -- the body may be any other one, but the mark outside of it stays a mark
        obtain ⟨k, hk, hfunction⟩ : ∃ k, t.kind? = some k ∧ k.isFunctionLike = true := by
          exact (Option.any_eq_true _ _).mp (s.isFunctionLike hfree)
        obtain ⟨c, hc, hl, hmarked⟩ := (h.wellRead.guarded hk).function hfunction
        obtain ⟨d, hd, hcd, -⟩ := h.children_thinned.exists_of_mem hc fun _ hgone => hl hgone.2.1
        exact .inr ⟨isMarked_textAll_of_mem hc hmarked,
          isMarked_textAll_of_mem hd (isMarked_of_alike (ih c hc hcd) hmarked)⟩

end Texts

theorem WellRead.guarded_of_child? {t c : Tree} {l : Label} (h : t.WellRead) (hc : t.child? l = some c) :
    ∃ k, t.kind? = some k ∧ Guarded k t.children ∧ c ∈ t.children ∧ c.label? = some l := by
  have hmem := List.mem_of_find?_eq_some hc
  have hl := List.find?_some hc
  cases h with
  | node hcs hguarded => exact ⟨_, rfl, hguarded, hmem, of_decide_eq_true hl⟩
  | _ => cases hmem

theorem WellRead.operator {t c : Tree} (h : t.WellRead) (hc : t.child? .operator = some c) :
    c.isFixed = true := by
  obtain ⟨k, -, hguarded, hmem, hl⟩ := h.guarded_of_child? hc
  exact hguarded.operator c hmem hl

theorem WellRead.parameters {t c : Tree} (h : t.WellRead) (hc : t.child? .parameters = some c) :
    c.isFunctionLike = false := by
  obtain ⟨k, -, hguarded, hmem, hl⟩ := h.guarded_of_child? hc
  exact hguarded.parameters c hmem hl

theorem WellRead.body {t c : Tree} (h : t.WellRead) (ht : t.isDeclaration = true)
    (hc : t.child? .body = some c) : c.is .statementBlock = true := by
  obtain ⟨k, hk, hguarded, hmem, hl⟩ := h.guarded_of_child? hc
  rw [isDeclaration, hk] at ht
  exact hguarded.body ht c hmem hl

namespace Parallel

variable {s : Selection} {t u : Tree} (h : t.Parallel s u)

include h

theorem operator?_eq : t.operator? = u.operator? := by
  rw [operator?, operator?]
  obtain ⟨ha, hb⟩ | ⟨a, b, ha, hb, hab⟩ := h.child?_cases (l := .operator) (by decide)
  · rw [ha, hb]
  · rw [ha, hb, Option.map_some, Option.map_some, hab.text_eq_of_isFixed (h.wellRead.operator ha)]

theorem isPositional_eq : t.isPositional = u.isPositional := by
  have hpattern : (t.child? .pattern).any (·.is .thisWord) = (u.child? .pattern).any (·.is .thisWord) := by
    obtain ⟨ha, hb⟩ | ⟨a, b, ha, hb, hab⟩ := h.child?_cases (l := .pattern) (by decide)
    · rw [ha, hb]
    · rw [ha, hb, Option.any_some, Option.any_some, hab.is_eq]
  rw [isPositional, isPositional, hpattern, h.is_eq, h.is_eq]

theorem parameters_rel : List.Forall₂ (Parallel s) t.parameters u.parameters := by
  rw [Tree.parameters, Tree.parameters]
  obtain ⟨ha, hb⟩ | ⟨a, b, ha, hb, hab⟩ := h.child?_cases (l := .parameters) (by decide)
  · rw [ha, hb]
    exact .nil
  · rw [ha, hb]
    exact filter_rel (hab.named_rel (h.wellRead.parameters ha)) fun _ _ hcd => hcd.isPositional_eq

variable {n : String} (hn : isMarked n = false)

include hn

omit h in
theorem map_text_eq_iff {o o' : Option Tree} (ho : Option.Rel (Parallel s) o o') :
    o.map text = some n ↔ o'.map text = some n := by
  cases ho with
  | none => exact Iff.rfl
  | some hab => simpa using hab.text_alike.eq_iff hn

theorem declaredName?_eq_iff : t.declaredName? = some n ↔ u.declaredName? = some n :=
  map_text_eq_iff hn (h.child?_rel (by decide))

theorem parameterName?_eq_iff : t.parameterName? = some n ↔ u.parameterName? = some n := by
  rw [parameterName?, parameterName?]
  obtain ⟨ha, hb⟩ | ⟨a, b, ha, hb, hab⟩ := h.child?_cases (l := .pattern) (by decide)
  · rw [ha, hb]
  · simp only [ha, hb, ← hab.is_eq]
    split
    · simpa using hab.text_alike.eq_iff hn
    · split
      · rename_i hrest
        have hplain := not_isFunctionLike_of_kind? (of_decide_eq_true hrest) rfl
        have hfirst := getElem?_rel (hab.named_rel hplain) 0
        rw [← List.head?_eq_getElem?, ← List.head?_eq_getElem?] at hfirst
        exact map_text_eq_iff hn hfirst
      · exact Iff.rfl

theorem contains_boundNames_eq : t.boundNames.contains n = u.boundNames.contains n := by
  have hparameters : n ∈ t.parameters.filterMap parameterName? ↔
      n ∈ u.parameters.filterMap parameterName? := by
    have hrel := h.parameters_rel
    generalize t.parameters = as, u.parameters = bs at hrel
    induction hrel with
    | nil => exact Iff.rfl
    | @cons a b as bs hab _ ih =>
      have hmem : ∀ (c : Tree) (cs : List Tree), n ∈ (c :: cs).filterMap parameterName? ↔
          c.parameterName? = some n ∨ n ∈ cs.filterMap parameterName? := by
        intro c cs
        simp [List.mem_filterMap]
      rw [hmem, hmem]
      exact or_congr (hab.parameterName?_eq_iff hn) ih
  have hbare := map_text_eq_iff hn (h.child?_rel (l := .parameter) (by decide))
  have hmem : ∀ v : Tree, n ∈ v.boundNames ↔
      n ∈ v.parameters.filterMap parameterName? ∨ (v.child? .parameter).map text = some n := by
    intro v
    rw [boundNames, List.mem_append, Option.mem_toList]
  rw [Bool.eq_iff_iff, List.contains_iff_mem, List.contains_iff_mem, hmem, hmem]
  exact or_congr hparameters hbare

theorem any_declares_eq (hplain : t.isFunctionLike = false) :
    (t.named.any fun v => v.is .variableDeclarator && v.declaredName? = some n) =
      u.named.any fun v => v.is .variableDeclarator && v.declaredName? = some n := by
  refine any_eq_of_forall₂ (h.named_rel hplain) fun c d hcd => ?_
  simp only [hcd.is_eq, hcd.declaredName?_eq_iff hn]

end Parallel

section Chains

variable {s : Selection}

theorem Parallel.accessPath_eq (word : String) (limit : Nat) {t u : Tree} (h : t.Parallel s u) :
    accessPath word limit t = accessPath word limit u := by
  refine accessPath_congr (fun h => h.kind?_eq) (fun h l hl => h.child?_rel hl)
    (fun {t u} h k hk hw => ?_) (fun h hword => ?_) word limit h
  · have hplain : k.isFunctionLike = false := by
      cases k <;> first | rfl | cases hw
    have hnamed := h.named_rel (not_isFunctionLike_of_kind? hk hplain)
    generalize t.named = ts, u.named = us at hnamed ⊢
    cases hnamed with
    | nil => exact .none
    | cons hab _ => exact .some hab
  · rcases hword with hword | hword | hword
    · exact h.text_eq_of_isWord (of_decide_eq_true hword) rfl
    · exact h.text_eq_of_isWord (of_decide_eq_true hword) rfl
    · exact h.text_eq_of_isWord (of_decide_eq_true hword) rfl

end Chains

end Tree

end UsageTypes
