import UsageTypes.Function
import UsageTypes.Proofs.Derivations
import UsageTypes.Proofs.Names

/-! What the trees of programs have in common, whatever the text. A grammar is checked once and for
all; every tree that it reads is then made as the check says. -/

namespace UsageTypes

/-- Characters that stand in no name, one of which every function has outside of its body. -/
def isFunctionMark (c : Char) : Bool := c = '(' || c = '='

def isMarked (s : String) : Bool := s.toList.any isFunctionMark

@[simp] theorem isMarked_append (s t : String) : isMarked (s ++ t) = (isMarked s || isMarked t) := by
  simp [isMarked]

section Names

theorem isFunctionMark_of_isNameChar {c : Char} (h : isNameChar c = true) : isFunctionMark c = false := by
  cases hm : isFunctionMark c with
  | false => rfl
  | true =>
    simp only [isFunctionMark, Bool.or_eq_true, decide_eq_true_eq] at hm
    rcases hm with rfl | rfl <;> exact absurd h (by decide)

/-- No mark stands in a name. -/
theorem isMarked_name {l : Lexeme} (hl : (∃ except, l = .name except) ∨ ∃ w, l = .word w) {cs : List Char}
    {n : Nat} (h : l.take? cs = some n) : (cs.take n).any isFunctionMark = false := by
  have hn : n = nameLength cs := by
    rcases hl with ⟨except, rfl⟩ | ⟨w, rfl⟩
    · simp only [Lexeme.take?] at h
      split at h
      · cases h
      · exact (Option.some.inj h).symm
    · rw [Lexeme.take?] at h
      split at h
      · rename_i hw
        rw [Bool.and_eq_true, decide_eq_true_eq] at hw
        rw [hw.2]
        simp_all [positive]
      · cases h
  rw [hn, List.any_eq_false]
  intro c hc
  simp [isFunctionMark_of_isNameChar (isNameChar_of_mem_name c hc)]

end Names

theorem Kind.isFunctionLike_of_isDeclaration {k : Kind} (h : k.isDeclaration = true) :
    k.isFunctionLike = true := by
  cases k <;> first | rfl | cases h

/-- Kinds of nodes that are read by their text. -/
def Kind.isWord : Kind → Bool
  | .identifier | .propertyIdentifier | .stringLiteral => true
  | _ => false

namespace Tree

/-- Trees in which no function stands, up to two levels. -/
def isFixed : Tree → Bool
  | .blank _ | .token _ _ => true
  | .node _ k _ cs => !k.isFunctionLike && cs.all (!·.isNamed)

/-- What is guaranteed of the children of a node. -/
structure Guarded (k : Kind) (cs : List Tree) : Prop where
  word : k.isWord = true → ∀ c ∈ cs, c.isFixed = true
  name : k = .identifier → isMarked (textAll cs) = false
  function : k.isFunctionLike = true → ∃ c ∈ cs, c.label? ≠ some .body ∧ isMarked c.text = true
  operator : ∀ c ∈ cs, c.label? = some .operator → c.isFixed = true
  parameters : ∀ c ∈ cs, c.label? = some .parameters → c.isFunctionLike = false
  body : k.isDeclaration = true → ∀ c ∈ cs, c.label? = some .body → c.is .statementBlock = true

/-- A tree all of whose nodes are guarded. -/
inductive WellRead : Tree → Prop
  | blank (s : String) : WellRead (.blank s)
  | token (l : Option Label) (s : String) : WellRead (.token l s)
  | node {l : Option Label} {k : Kind} {p : Position} {cs : List Tree} :
    (∀ c ∈ cs, c.WellRead) → Guarded k cs → WellRead (.node l k p cs)

/-- A tree that may stand in any node. -/
structure Fits (t : Tree) : Prop where
  wellRead : t.WellRead
  operator : t.label? = some .operator → t.isFixed = true
  parameters : t.label? = some .parameters → t.isFunctionLike = false

theorem isMarked_textAll_of_mem {cs : List Tree} {c : Tree} (hc : c ∈ cs) (h : isMarked c.text = true) :
    isMarked (textAll cs) = true := by
  induction cs with
  | nil => cases hc
  | cons d cs ih =>
    rw [textAll, isMarked_append, Bool.or_eq_true]
    rcases List.mem_cons.mp hc with rfl | hc
    · exact .inl h
    · exact .inr (ih hc)

theorem label?_play (l : Label) (t : Tree) : (t.play l).label? = t.label? ∨ (t.play l).label? = some l := by
  rw [play.eq_def]
  split
  · exact .inr rfl
  · split
    · exact .inl rfl
    · exact .inr rfl
  · exact .inl rfl

/-- What does not depend on the role of a tree is left alone by giving it one. -/
theorem apply_play {α : Type} (f : Tree → α) (htoken : ∀ l l' s, f (.token l s) = f (.token l' s))
    (hnode : ∀ l l' k p cs, f (.node l k p cs) = f (.node l' k p cs)) (l : Label) (t : Tree) :
    f (t.play l) = f t := by
  rw [play.eq_def]
  split
  · exact htoken _ _ _
  · split
    · rfl
    · exact hnode _ _ _ _ _
  · rfl

theorem text_play (l : Label) (t : Tree) : (t.play l).text = t.text :=
  apply_play text (fun _ _ _ => rfl) (fun _ _ _ _ _ => rfl) l t

theorem isFixed_play (l : Label) (t : Tree) : (t.play l).isFixed = t.isFixed :=
  apply_play isFixed (fun _ _ _ => rfl) (fun _ _ _ _ _ => rfl) l t

theorem kind?_play (l : Label) (t : Tree) : (t.play l).kind? = t.kind? :=
  apply_play kind? (fun _ _ _ => rfl) (fun _ _ _ _ _ => rfl) l t

theorem isFunctionLike_play (l : Label) (t : Tree) : (t.play l).isFunctionLike = t.isFunctionLike := by
  rw [isFunctionLike, isFunctionLike, kind?_play]

theorem WellRead.play {t : Tree} (h : t.WellRead) (l : Label) : (t.play l).WellRead := by
  cases h with
  | blank s => exact .blank s
  | token l' s => cases l' <;> exact .token _ s
  | @node l' k p cs hcs hguarded =>
    cases l' with
    | none =>
      rw [Tree.play]
      split <;> exact .node hcs hguarded
    | some l' => exact .node hcs hguarded

theorem Fits.play {t : Tree} (h : t.Fits) {l : Label} (hoperator : l = .operator → t.isFixed = true)
    (hparameters : l = .parameters → t.isFunctionLike = false) : (t.play l).Fits where
  wellRead := h.wellRead.play l
  operator hl := by
    rw [isFixed_play]
    rcases label?_play l t with he | he
    · exact h.operator (he ▸ hl)
    · exact hoperator (Option.some.inj (he.symm.trans hl))
  parameters hl := by
    rw [isFunctionLike_play]
    rcases label?_play l t with he | he
    · exact h.parameters (he ▸ hl)
    · exact hparameters (Option.some.inj (he.symm.trans hl))

theorem fits_token (s : String) : Fits (.token none s) where
  wellRead := .token none s
  operator _ := rfl
  parameters _ := rfl

/-- A node without a role fits if its children do and are guarded as its kind demands. -/
theorem fits_node {k : Kind} {p : Position} {cs : List Tree} (hcs : ∀ c ∈ cs, c.Fits)
    (hword : k.isWord = true → ∀ c ∈ cs, c.isFixed = true)
    (hname : k = .identifier → isMarked (textAll cs) = false)
    (hfunction : k.isFunctionLike = true → ∃ c ∈ cs, c.label? ≠ some .body ∧ isMarked c.text = true)
    (hbody : k.isDeclaration = true → ∀ c ∈ cs, c.label? = some .body → c.is .statementBlock = true) :
    Fits (.node none k p cs) where
  wellRead := .node (fun c hc => (hcs c hc).wellRead)
    ⟨hword, hname, hfunction, fun c hc => (hcs c hc).operator, fun c hc => (hcs c hc).parameters, hbody⟩
  operator h := by cases h
  parameters h := by cases h

theorem IsTrivia.fits {t : Tree} (h : t.IsTrivia) : t.Fits := by
  cases t with
  | blank s => exact ⟨.blank s, fun _ => rfl, fun _ => rfl⟩
  | token l s => cases h
  | node l k p cs =>
    obtain ⟨rfl, rfl, s, rfl⟩ := h
    refine fits_node ?_ (fun h => by cases h) (fun h => by cases h) (fun h => by cases h)
      (fun h => by cases h)
    exact List.forall_mem_singleton.mpr (fits_token s)

theorem IsTrivia.isFixed {t : Tree} (h : t.IsTrivia) : t.isFixed = true := by
  cases t with
  | blank s => rfl
  | token l s => cases h
  | node l k p cs =>
    obtain ⟨rfl, rfl, s, rfl⟩ := h
    rfl

theorem IsTrivia.not_body {t : Tree} (h : t.IsTrivia) :
    t.label? ≠ some .body ∧ (t.play .body).label? ≠ some .body := by
  cases t with
  | blank s => exact ⟨nofun, nofun⟩
  | token l s => cases h
  | node l k p cs =>
    obtain ⟨rfl, rfl, -⟩ := h
    exact ⟨nofun, nofun⟩

theorem isFunctionLike_of_isFixed {t : Tree} (h : t.isFixed = true) : t.isFunctionLike = false := by
  cases t with
  | node l k p cs =>
    simp only [Tree.isFixed, Bool.and_eq_true, Bool.not_eq_true'] at h
    simpa [isFunctionLike, kind?] using h.1
  | _ => rfl

end Tree

namespace Grammar

/-- Whether only words and nodes of one word are read. -/
def flat : Form → Bool
  | gluedLeaf k _ => !k.isFunctionLike
  | seq a b | alt a b => a.flat && b.flat
  | many a | field _ a | only _ a => a.flat
  | node _ _ | rule _ | grow _ _ | wrap _ _ _ _ => false
  | _ => true

/-- Whether no function is read side by side with other trees. -/
def plain : Form → Bool
  | gluedLeaf k _ | node k _ => !k.isFunctionLike
  | seq a b | alt a b => a.plain && b.plain
  | many a | field _ a | only _ a => a.plain
  | rule .parameters => true
  | rule _ | grow _ _ | wrap _ _ _ _ => false
  | _ => true

/-- Whether only blocks are read in the role of a body. -/
def blockBody : Form → Bool
  | seq a b | alt a b => a.blockBody && b.blockBody
  | many a | only _ a => a.blockBody
  | field .body (rule .block) => true
  | field .body _ => false
  | field _ a => a.blockBody
  | rule .parameters | rule .typeParameters => true
  | rule _ | grow _ _ | wrap _ _ _ _ => false
  | _ => true

/-- Whether a mark is read, and not in the role of a body. -/
def marks : Form → Bool
  | token (.mark m) | token (.operator m) => m.any isFunctionMark
  | seq a b => a.marks || b.marks
  | alt a b => a.marks && b.marks
  | node _ a | only _ a => a.marks
  | field l a => l ≠ .body && a.marks
  | rule .parameters => true
  | _ => false

def isName : Form → Bool
  | token (.name _) | token (.word _) => true
  | _ => false

/-- Whether every node that is read is guarded. -/
def guards : Form → Bool
  | gluedLeaf k _ => !k.isFunctionLike && k ≠ .identifier
  | seq a b | alt a b | grow a b => a.guards && b.guards
  | many a | only _ a => a.guards
  | field l a => a.guards && (l ≠ .operator || a.flat) && (l ≠ .parameters || a.plain)
  | node k a =>
    a.guards && (!k.isWord || a.flat) && (k ≠ .identifier || a.isName) && (!k.isFunctionLike || a.marks)
      && (!k.isDeclaration || a.blockBody)
  | wrap k l _ a =>
    a.guards && !k.isWord && !k.isFunctionLike && l ≠ some .operator && l ≠ some .parameters
  | rule (.members k) => !k.isWord && !k.isFunctionLike
  | _ => true

end Grammar

section Checks

open Grammar

variable {p : Form → Bool}

theorem forall_mem_ite {α : Type} {q : α → Prop} {b : Prop} [Decidable b] {as bs : List α}
    (ha : ∀ a ∈ as, q a) (hb : ∀ a ∈ bs, q a) : ∀ a ∈ if b then as else bs, q a := by
  split
  · exact ha
  · exact hb

/-- A check of what is read passes for a choice if it passes for what there is to choose. -/
theorem check_oneOf (habsent : p (absent empty) = true)
    (halt : ∀ a b, p a = true → p b = true → p (alt a b) = true) {gs : List Form}
    (h : ∀ g ∈ gs, p g = true) : p (oneOf gs) = true := by
  induction gs with
  | nil => exact habsent
  | cons g gs ih =>
    obtain ⟨hg, hgs⟩ := List.forall_mem_cons.mp h
    cases gs with
    | nil => exact hg
    | cons g' gs => exact halt _ _ hg (ih hgs)

namespace Forms

/-- All continuations of an operand, whether or not it may be continued so. -/
def continuations (c : Context) : List Form :=
  let binary (o : Nat × List String × List String) : Form :=
    let level : Level := if o.1 = 12 then .power else .binary o.1
    wrap .binaryExpression (some .left) (fun _ => true)
      (field .operator (alt (ops o.2.1) (words o.2.2)) ++ field .right (nest (.expr (c.within level))))
  accesses ++ calls
    ++ [wrap .updateExpression (some .argument) (fun _ => true) (field .operator (ops ["++", "--"]))]
    ++ [wrap .nonNullExpression none (fun _ => true) (op "!")]
    ++ assignments c ++ binaryOperators.map binary ++ casts c ++ conditionals c

theorem check_continuation (habsent : p (absent empty) = true)
    (halt : ∀ a b, p a = true → p b = true → p (alt a b) = true) {c : Context}
    (h : (continuations c).all p = true) : p (continuation c) = true := by
  have hall := List.all_eq_true.mp h
  simp only [continuations, List.forall_mem_append] at hall
  obtain ⟨⟨⟨⟨⟨⟨⟨haccesses, hcalls⟩, hupdate⟩, hnonNull⟩, hassignments⟩, hbinaries⟩, hcasts⟩,
    hconditionals⟩ := hall
  have hnil : ∀ g ∈ ([] : List Form), p g = true := fun g hg => nomatch hg
  have hbinary : ∀ g ∈ binaries c, p g = true := by
    intro g hg
    obtain ⟨o, ho, hsome⟩ := List.mem_filterMap.mp hg
    dsimp only at hsome
    split at hsome
    · obtain rfl := Option.some.inj hsome
      exact hbinaries _ (List.mem_map_of_mem ho)
    · cases hsome
  refine check_oneOf habsent halt ?_
  simp only [List.forall_mem_append]
  exact ⟨⟨⟨⟨⟨⟨⟨haccesses, forall_mem_ite hnil hcalls⟩, forall_mem_ite hupdate hnil⟩,
    forall_mem_ite hnonNull hnil⟩, forall_mem_ite hassignments hnil⟩, hbinary⟩,
    forall_mem_ite hcasts hnil⟩, forall_mem_ite hconditionals hnil⟩

/-- All continuations of a type. -/
def typeContinuations (e : Ending) : List Form :=
  [wrap .arrayType none (fun _ => true) (mark "[" ++ mark "]"),
    wrap .lookupType none (fun _ => true) (mark "[" ++ anyType ++ mark "]")]
  ++ [wrap .intersectionType none (fun _ => true) (op "&" ++ nest (.type 3 e))]
  ++ [wrap .unionType none (fun _ => true) (op "|" ++ nest (.type 2 e))]
  ++ [wrap .conditionalType (some .left) (fun _ => true)
      (word "extends" ++ field .right (nest (.type 1 .never)) ++ mark "?"
        ++ field .consequence anyType ++ mark ":" ++ field .alternative (nest (.type 0 e)))]

theorem check_typeContinuation (habsent : p (absent empty) = true)
    (halt : ∀ a b, p a = true → p b = true → p (alt a b) = true) {strength : Nat} {e : Ending}
    (h : (typeContinuations e).all p = true) : p (typeContinuation strength e) = true := by
  have hall := List.all_eq_true.mp h
  simp only [typeContinuations, List.forall_mem_append] at hall
  obtain ⟨⟨⟨hplain, hintersection⟩, hunion⟩, hconditional⟩ := hall
  have hnil : ∀ g ∈ ([] : List Form), p g = true := fun g hg => nomatch hg
  refine check_oneOf habsent halt ?_
  simp only [List.forall_mem_append]
  exact ⟨⟨⟨hplain, forall_mem_ite hintersection hnil⟩, forall_mem_ite hunion hnil⟩,
    forall_mem_ite hconditional hnil⟩

end Forms

end Checks

namespace Forms

open Grammar

theorem guards_alt (a b : Form) (ha : a.guards = true) (hb : b.guards = true) : (alt a b).guards = true := by
  rw [guards, ha, hb]
  rfl

theorem guards_expression (c : Context) : (expression c).guards = true := by
  have hoperand : (operandOf c).guards = true := by
    obtain ⟨level, ends, branch, head⟩ := c
    cases ends <;> cases branch <;> rfl
  have hguard : (if c.ends then unlessImplied else empty : Form).guards = true := by split <;> rfl
  have hcontinuation : (continuation c).guards = true := check_continuation rfl guards_alt rfl
  change ((operandOf c).guards && ((if c.ends then unlessImplied else empty : Form).guards &&
    (continuation c).guards) && true) = true
  rw [hoperand, hguard, hcontinuation]
  rfl

theorem guards_typeExpression (strength : Nat) (e : Ending) :
    (typeExpression strength e).guards = true := by
  have hguard : e.guard.guards = true := by cases e <;> rfl
  have hcontinuation : (typeContinuation strength e).guards = true :=
    check_typeContinuation rfl guards_alt rfl
  change ((typeOperand e).guards && (e.guard.guards && (typeContinuation strength e).guards)) = true
  rw [hguard, hcontinuation]
  rfl

/-- Every rule of the grammar guards what it reads. -/
theorem guards_grammar {r : Rule} (h : (rule r : Form).guards = true) : (grammar r).guards = true := by
  cases r with
  | expr c => exact guards_expression c
  | exprs c => rfl
  | type strength e => exact guards_typeExpression strength e
  | members k => cases k <;> first | rfl | cases h
  | statement => decide
  | _ => rfl

end Forms

def Task.has (trait : Form → Bool) : Task → Bool
  | form g _ => trait g
  | growth _ _ => false

namespace Reads

variable {bound : Nat} {task : Task} {g : Form} {left : List Tree} {c d : Cursor} {ts : List Tree}

open Grammar

theorem ensures_isFixed : Ensures bound flat (fun _ => True) fun t => t.isFixed = true where
  operand _ := trivial
  trivia ht := ht.isFixed
  token _ := rfl
  gluedLeaf h := by simpa [flat, Tree.isFixed, Tree.isNamed] using h
  seq h := Bool.and_eq_true_iff.mp h
  alt h := Bool.and_eq_true_iff.mp h
  many h := h
  only h := h
  rule h := by cases h
  grow h := by cases h
  node h := by cases h
  field h _ hts t ht := by rw [Tree.isFixed_play, hts h t ht]
  wrap h := by cases h

/-- Words and nodes of one word stay what they are, whatever role they get. -/
theorem forall_isFixed (h : Reads bound (.form g left) c ts d) (hflat : g.flat = true) :
    ∀ t ∈ ts, t.isFixed = true :=
  h.forall_of_ensures ensures_isFixed hflat fun _ _ => trivial

theorem ensures_not_isFunctionLike :
    Ensures bound plain (fun _ => True) fun t => t.isFunctionLike = false where
  operand _ := trivial
  trivia ht := Tree.isFunctionLike_of_isFixed ht.isFixed
  token _ := rfl
  gluedLeaf h := by simpa [plain, Tree.isFunctionLike, Tree.kind?] using h
  seq h := Bool.and_eq_true_iff.mp h
  alt h := Bool.and_eq_true_iff.mp h
  many h := h
  only h := h
  rule {r} h := by
    cases r with
    | parameters => rfl
    | _ => cases h
  grow h := by cases h
  node h _ _ _ := by simpa [plain, Tree.isFunctionLike, Tree.kind?] using h
  field h _ hts t ht := by rw [Tree.isFunctionLike_play, hts h t ht]
  wrap h := by cases h

theorem forall_not_isFunctionLike (h : Reads bound (.form g left) c ts d) (hplain : g.plain = true) :
    ∀ t ∈ ts, t.isFunctionLike = false :=
  h.forall_of_ensures ensures_not_isFunctionLike hplain fun _ _ => trivial

/-- In the role of a body a block is nothing but a block. -/
theorem is_statementBlock_of_block (h : Reads bound (.form (Grammar.rule .block) left) c ts d) :
    ∀ t ∈ ts, (t.play .body).label? = some .body → t.is .statementBlock = true := by
  cases h with
  | silent hsilent => cases hsilent
  | spaces hg => rcases hg with hg | hg | hg <;> cases hg
  | rule h =>
    cases h with
    | silent hsilent => cases hsilent
    | spaces hg => rcases hg with hg | hg | hg <;> cases hg
    | node =>
      refine List.forall_mem_append.mpr ⟨fun t ht hl => ?_, List.forall_mem_singleton.mpr fun _ => rfl⟩
      exact absurd hl (readTrivia_isTrivia _ _ t ht).not_body.2

theorem ensures_blockBody : Ensures bound blockBody (fun _ => True) fun t =>
    t.label? = some .body → t.is .statementBlock = true where
  operand _ := trivial
  trivia ht hl := absurd hl ht.not_body.1
  token _ hl := by cases hl
  gluedLeaf _ hl := by cases hl
  seq h := Bool.and_eq_true_iff.mp h
  alt h := Bool.and_eq_true_iff.mp h
  many h := h
  only h := h
  rule {r} h := by
    cases r with
    | parameters => rfl
    | typeParameters => rfl
    | _ => cases h
  grow h := by cases h
  node _ _ _ _ hl := by cases hl
  field {l a _ _ _ _} h hreads hts t ht hl := by
    rw [Tree.is, Tree.kind?_play, ← Tree.is]
    by_cases hbody : l = .body
    · subst hbody
      obtain rfl : a = Grammar.rule .block := by
        rw [blockBody.eq_def] at h
        split at h <;> simp_all
      exact hreads.is_statementBlock_of_block t ht hl
    · have hinside : a.blockBody = true := by
        rw [blockBody.eq_def] at h
        split at h <;> simp_all
      rcases Tree.label?_play l t with he | he
      · exact hts hinside t ht (he ▸ hl)
      · exact absurd (Option.some.inj (he.symm.trans hl)) hbody
  wrap h := by cases h

theorem forall_blockBody (h : Reads bound (.form g left) c ts d) (hblock : g.blockBody = true) :
    ∀ t ∈ ts, t.label? = some .body → t.is .statementBlock = true :=
  h.forall_of_ensures ensures_blockBody hblock fun _ _ => trivial

theorem take?_marks {m cs : List Char} {n : Nat} {l : Lexeme} (hl : l = .mark m ∨ l = .operator m)
    (h : l.take? cs = some n) : cs.take n = m := by
  have hstarts : startsWith cs m = true ∧ n = m.length := by
    rcases hl with rfl | rfl
    · rw [Lexeme.take?] at h
      split at h
      · exact ⟨‹_›, by simp_all [positive]⟩
      · cases h
    · rw [Lexeme.take?] at h
      split at h
      · rename_i hcs
        exact ⟨(Bool.and_eq_true_iff.mp hcs).1, by simp_all [positive]⟩
      · cases h
  rw [hstarts.2]
  exact (List.prefix_iff_eq_take.mp (startsWith_iff.mp hstarts.1)).symm

theorem exists_isMarked (h : Reads bound task c ts d) (hmarks : task.has marks = true) :
    ∃ t ∈ ts, t.label? ≠ some .body ∧ isMarked t.text = true := by
  induction h with
  | @token l _ c n htake =>
    refine ⟨_, List.mem_append_right _ (List.mem_singleton_self _), by simp [Tree.label?], ?_⟩
    cases l with
    | mark m =>
      rw [Tree.text, isMarked, Cursor.front, String.toList_ofList, take?_marks (.inl rfl) htake]
      exact hmarks
    | operator m =>
      rw [Tree.text, isMarked, Cursor.front, String.toList_ofList, take?_marks (.inr rfl) htake]
      exact hmarks
    | _ => cases hmarks
  | seq _ _ iha ihb =>
    simp only [Task.has, marks, Bool.or_eq_true] at hmarks
    rcases hmarks with hmarks | hmarks
    · obtain ⟨t, ht, h⟩ := iha hmarks
      exact ⟨t, List.mem_append_left _ ht, h⟩
    · obtain ⟨t, ht, h⟩ := ihb hmarks
      exact ⟨t, List.mem_append_right _ ht, h⟩
  | first _ ih =>
    simp only [Task.has, marks, Bool.and_eq_true] at hmarks
    exact ih hmarks.1
  | second _ ih =>
    simp only [Task.has, marks, Bool.and_eq_true] at hmarks
    exact ih hmarks.2
  | node _ _ ih =>
    obtain ⟨t, ht, -, h⟩ := ih hmarks
    refine ⟨_, List.mem_append_right _ (List.mem_singleton_self _), by simp [Tree.label?], ?_⟩
    exact Tree.isMarked_textAll_of_mem ht h
  | @field l _ _ _ _ _ _ ih =>
    simp only [Task.has, marks, Bool.and_eq_true, decide_eq_true_eq] at hmarks
    obtain ⟨t, ht, hl, h⟩ := ih hmarks.2
    refine ⟨t.play l, List.mem_map_of_mem ht, ?_, by rwa [Tree.text_play]⟩
    rcases Tree.label?_play l t with he | he
    · rwa [he]
    · rw [he]
      simpa using hmarks.1
  | only _ ih => exact ih hmarks
  | @rule r _ _ _ _ _ ih =>
    cases r with
    | parameters => exact ih rfl
    | _ => cases hmarks
  | @silent g _ _ _ hsilent _ => cases g <;> cases hsilent <;> cases hmarks
  | spaces hg => rcases hg with rfl | rfl | rfl <;> cases hmarks
  | _ => cases hmarks

/-- A name that is read without anything before it has no mark. -/
theorem not_isMarked_of_isName (h : Reads bound (.form g left) c ts d)
    (hname : g.isName = true) (hc : readTrivia bound c = ([], c)) :
    isMarked (Tree.textAll ts) = false := by
  cases h with
  | @token l _ _ n htake =>
    rw [hc] at htake ⊢
    have hl : (∃ except, l = .name except) ∨ ∃ w, l = .word w := by
      cases l with
      | name except => exact .inl ⟨except, rfl⟩
      | word w => exact .inr ⟨w, rfl⟩
      | _ => cases hname
    simpa [Tree.textAll, Tree.text, isMarked, Cursor.front] using isMarked_name hl htake
  | silent hsilent => cases g <;> cases hsilent <;> cases hname
  | spaces hg => rcases hg with rfl | rfl | rfl <;> cases hname
  | _ => cases hname

end Reads

theorem ensures_fits {bound : Nat} : Ensures bound Grammar.guards Tree.Fits Tree.Fits where
  operand h := h
  trivia ht := ht.fits
  token := Tree.fits_token
  gluedLeaf h := by
    simp only [Grammar.guards, Bool.and_eq_true, Bool.not_eq_true', decide_eq_true_eq] at h
    refine Tree.fits_node ?_ ?_ ?_ ?_ fun _ => ?_
    · exact List.forall_mem_singleton.mpr (Tree.fits_token _)
    · exact fun _ => List.forall_mem_singleton.mpr rfl
    · exact fun hk => absurd hk h.2
    · simp [h.1]
    · exact List.forall_mem_singleton.mpr fun hl => nomatch hl
  seq h := Bool.and_eq_true_iff.mp h
  alt h := Bool.and_eq_true_iff.mp h
  many h := h
  only h := h
  rule h := Forms.guards_grammar h
  grow h := Bool.and_eq_true_iff.mp h
  node h hagain hreads hus := by
    simp only [Grammar.guards, Bool.and_eq_true, Bool.or_eq_true, Bool.not_eq_true', decide_eq_true_eq] at h
    obtain ⟨⟨⟨⟨hguards, hword⟩, hname⟩, hfunction⟩, hbody⟩ := h
    refine Tree.fits_node (hus hguards) (fun hk => ?_) (fun hk => ?_) (fun hk => ?_) fun hk => ?_
    · exact hreads.forall_isFixed (hword.resolve_left (by simp [hk]))
    · exact hreads.not_isMarked_of_isName (hname.resolve_left (not_not_intro hk)) hagain
    · exact hreads.exists_isMarked (hfunction.resolve_left (by simp [hk]))
    · exact hreads.forall_blockBody (hbody.resolve_left (by simp [hk]))
  field h hreads hts t ht := by
    simp only [Grammar.guards, Bool.and_eq_true, Bool.or_eq_true, decide_eq_true_eq] at h
    obtain ⟨⟨hguards, hflat⟩, hplain⟩ := h
    refine (hts hguards t ht).play (fun hl => ?_) fun hl => ?_
    · exact hreads.forall_isFixed (hflat.resolve_left (not_not_intro hl)) t ht
    · exact hreads.forall_not_isFunctionLike (hplain.resolve_left (not_not_intro hl)) t ht
  wrap {_ _ label _ _ _ _ _ _ _ _} h _ hus hoperand := by
    simp only [Grammar.guards, Bool.and_eq_true, Bool.not_eq_true', decide_eq_true_eq] at h
    obtain ⟨⟨⟨⟨hguards, hword⟩, hfunction⟩, hoperator⟩, hparameters⟩ := h
    refine Tree.fits_node ?_ ?_ ?_ ?_ ?_
    · refine List.forall_mem_cons.mpr ⟨?_, hus hguards⟩
      cases label with
      | none => exact hoperand
      | some l' =>
        exact hoperand.play (fun hl => absurd (congrArg some hl) hoperator)
          fun hl => absurd (congrArg some hl) hparameters
    · simp [hword]
    · rintro rfl
      cases hword
    · simp [hfunction]
    · intro hk
      rw [Kind.isFunctionLike_of_isDeclaration hk] at hfunction
      cases hfunction

theorem wellRead_of_readProgram {source : String} {root : Tree} (h : readProgram source = some root) :
    root.WellRead := by
  obtain ⟨bound, ts, d, rfl, hreads⟩ := reads_readProgram h
  have hfits := hreads.forall_of_ensures ensures_fits (by decide) (by simp [Task.Begins])
  exact (Tree.fits_node hfits (fun h => by cases h) (fun h => by cases h) (fun h => by cases h)
    fun h => by cases h).wellRead

end UsageTypes
