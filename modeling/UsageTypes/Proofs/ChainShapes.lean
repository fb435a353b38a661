import UsageTypes.Access
import UsageTypes.Proofs.WellRead

/-! What stands in the nodes of access chains, whatever the text: next to the operand that a chain goes
on with there are only comments, marks and names, and the literal in a subscript. -/

namespace UsageTypes

namespace Kind

/-- Kinds of nodes in which no expression stands. -/
def isLight (k : Kind) : Bool :=
  k ∈ [.comment, .optionalChain, .propertyIdentifier, .privatePropertyIdentifier, .stringFragment,
    .escapeSequence]

/-- The other kinds, with annotations or without. -/
def isHeavy (typed : Bool) (k : Kind) : Bool :=
  !k.isLight && (typed || k ≠ .typeAscription)

/-- How many heavy nodes stand in a node at most, for the kinds that an access chain is made of. -/
def room (k : Kind) : Option Nat :=
  if k.isLight || k = .stringLiteral then some 0
  else if k = .memberExpression || isWrapper k then some 1
  else if k = .subscriptExpression then some 2
  else none

/-- Whether annotations count among the heavy nodes in a node. -/
def countsTypes (k : Kind) : Bool := k ≠ .parenthesizedExpression

theorem room_le_two {k : Kind} {n : Nat} (h : k.room = some n) : n ≤ 2 := by
  rw [room] at h
  split at h
  · cases h; decide
  · split at h
    · cases h; decide
    · split at h
      · cases h; decide
      · cases h

end Kind

namespace Tree

def isHeavy (typed : Bool) (t : Tree) : Bool := t.kind?.any (Kind.isHeavy typed)

def heavyCount (typed : Bool) (ts : List Tree) : Nat := ts.countP (isHeavy typed)

/-- A tree in none of whose nodes there are more heavy nodes than the kind has room for. -/
inductive Roomy : Tree → Prop
  | blank (s : String) : Roomy (.blank s)
  | token (l : Option Label) (s : String) : Roomy (.token l s)
  | node {l : Option Label} {k : Kind} {p : Position} {cs : List Tree} :
    (∀ c ∈ cs, c.Roomy) → (∀ n, k.room = some n → heavyCount k.countsTypes cs ≤ n) →
    Roomy (.node l k p cs)

theorem isHeavy_play (typed : Bool) (l : Label) (t : Tree) : (t.play l).isHeavy typed = t.isHeavy typed :=
  congrArg (Option.any (Kind.isHeavy typed)) (kind?_play l t)

theorem Roomy.of_mem_children {t c : Tree} (h : t.Roomy) (hc : c ∈ t.children) : c.Roomy := by
  cases h with
  | node hcs _ => exact hcs c hc
  | _ => cases hc

theorem Roomy.play {t : Tree} (h : t.Roomy) (l : Label) : (t.play l).Roomy := by
  cases h with
  | blank s => exact .blank s
  | token l' s => cases l' <;> exact .token _ s
  | @node l' k p cs hcs hroom =>
    cases l' with
    | none =>
      rw [Tree.play]
      split <;> exact .node hcs hroom
    | some l' => exact .node hcs hroom

theorem IsTrivia.isHeavy {t : Tree} (h : t.IsTrivia) (typed : Bool) : t.isHeavy typed = false := by
  cases t with
  | blank s => rfl
  | token l s => cases h
  | node l k p cs =>
    obtain ⟨-, rfl, -⟩ := h
    cases typed <;> rfl

theorem heavyCount_of_isTrivia {ts : List Tree} (h : ∀ t ∈ ts, t.IsTrivia) (typed : Bool) :
    heavyCount typed ts = 0 :=
  List.countP_eq_zero.mpr fun t ht => by rw [(h t ht).isHeavy typed]; exact Bool.false_ne_true

theorem roomy_word {k : Kind} {p : Position} {s : String} : Roomy (.node none k p [.token none s]) :=
  .node (List.forall_mem_singleton.mpr (.token _ _)) fun _ _ => Nat.zero_le _

theorem IsTrivia.roomy {t : Tree} (h : t.IsTrivia) : t.Roomy := by
  cases t with
  | blank s => exact .blank s
  | token l s => cases h
  | node l k p cs =>
    obtain ⟨rfl, rfl, s, rfl⟩ := h
    exact roomy_word

end Tree

/-- Rules that read one node and nothing next to it. -/
def Rule.isSingle : Rule → Bool
  | .expr _ | .exprs _ | .object => true
  | _ => false

namespace Grammar

/-- How many heavy nodes are read at most; three stands for any number. -/
def most (typed : Bool) : Form → Nat
  | gluedLeaf k _ | node k _ | wrap k _ _ _ => if k.isHeavy typed then 1 else 0
  | seq a b => a.most typed + b.most typed
  | alt a b | grow a b => max (a.most typed) (b.most typed)
  | many a => if a.most typed = 0 then 0 else 3
  | field _ a | only _ a => a.most typed
  | rule r => if r.isSingle then 1 else 3
  | _ => 0

/-- Whether every node that is read has room for what is read in it. -/
def spare : Form → Bool
  | seq a b | alt a b | grow a b => a.spare && b.spare
  | many a | field _ a | only _ a => a.spare
  | node k a => a.spare && k.room.all (a.most k.countsTypes ≤ ·)
  | wrap k _ _ a => a.spare && k.room.all (a.most k.countsTypes < ·)
  | rule (.members k) => k.room.isNone
  | _ => true

theorem most_alt (typed : Bool) (a b : Form) (ha : decide (a.most typed ≤ 1) = true)
    (hb : decide (b.most typed ≤ 1) = true) : decide ((alt a b).most typed ≤ 1) = true := by
  rw [decide_eq_true_eq] at ha hb ⊢
  exact Nat.max_le.mpr ⟨ha, hb⟩

theorem spare_alt (a b : Form) (ha : a.spare = true) (hb : b.spare = true) : (alt a b).spare = true := by
  rw [spare, ha, hb]
  rfl

end Grammar

namespace Forms

open Grammar

theorem most_expression (typed : Bool) (c : Context) : (expression c).most typed ≤ 1 := by
  have hoperand : decide ((operandOf c).most typed ≤ 1) = true := by
    refine check_oneOf rfl (most_alt typed) (List.all_eq_true.mp ?_)
    obtain ⟨level, ends, branch, head⟩ := c
    cases typed <;> cases branch <;> rfl
  have hcontinuation : decide ((continuation c).most typed ≤ 1) = true := by
    refine check_continuation rfl (most_alt typed) ?_
    cases typed <;> rfl
  have hguard : (if c.ends then unlessImplied else empty : Form).most typed = 0 := by split <;> rfl
  change max ((operandOf c).most typed) ((if c.ends then unlessImplied else empty : Form).most typed +
    (continuation c).most typed) + 0 ≤ 1
  rw [decide_eq_true_eq] at hoperand hcontinuation
  omega

theorem most_grammar (typed : Bool) {r : Rule} (h : r.isSingle = true) : (grammar r).most typed ≤ 1 := by
  cases r with
  | expr c => exact most_expression typed c
  | exprs c => cases typed <;> exact Nat.le_refl 1
  | object => cases typed <;> exact Nat.le_refl 1
  | _ => cases h

theorem spare_expression (c : Context) : (expression c).spare = true := by
  have hoperand : (operandOf c).spare = true := by
    obtain ⟨level, ends, branch, head⟩ := c
    cases ends <;> cases branch <;> rfl
  have hguard : (if c.ends then unlessImplied else empty : Form).spare = true := by split <;> rfl
  have hcontinuation : (continuation c).spare = true := check_continuation rfl spare_alt rfl
  change ((operandOf c).spare && ((if c.ends then unlessImplied else empty : Form).spare &&
    (continuation c).spare) && true) = true
  rw [hoperand, hguard, hcontinuation]
  rfl

theorem spare_typeExpression (strength : Nat) (e : Ending) : (typeExpression strength e).spare = true := by
  have hguard : e.guard.spare = true := by cases e <;> rfl
  have hcontinuation : (typeContinuation strength e).spare = true :=
    check_typeContinuation rfl spare_alt rfl
  change ((typeOperand e).spare && (e.guard.spare && (typeContinuation strength e).spare)) = true
  rw [hguard, hcontinuation]
  rfl

/-- Every rule of the grammar leaves room in what it reads. -/
theorem spare_grammar {r : Rule} (h : (rule r : Form).spare = true) : (grammar r).spare = true := by
  cases r with
  | expr c => exact spare_expression c
  | exprs c => rfl
  | type strength e => exact spare_typeExpression strength e
  | members k => cases k <;> first | rfl | cases h
  | statement => decide
  | _ => rfl

end Forms

/-- How many heavy nodes a task ends with at most. -/
def Task.most (typed : Bool) : Task → Nat
  | form g _ => g.most typed
  | growth g us => max (Tree.heavyCount typed us) (g.most typed)

namespace Tree

theorem heavyCount_append (typed : Bool) (ts us : List Tree) :
    heavyCount typed (ts ++ us) = heavyCount typed ts + heavyCount typed us := List.countP_append

theorem heavyCount_map_play (typed : Bool) (l : Label) (ts : List Tree) :
    heavyCount typed (ts.map (·.play l)) = heavyCount typed ts := by
  rw [heavyCount, List.countP_map]
  exact List.countP_congr fun t _ => by rw [Function.comp_apply, isHeavy_play]

theorem heavyCount_singleton (typed : Bool) (l : Option Label) (k : Kind) (p : Position) (cs : List Tree) :
    heavyCount typed [.node l k p cs] = if k.isHeavy typed then 1 else 0 := by
  rw [heavyCount, List.countP_singleton]
  rfl

theorem heavyCount_readTrivia (typed : Bool) (bound : Nat) (c : Cursor) :
    heavyCount typed (readTrivia bound c).1 = 0 :=
  heavyCount_of_isTrivia (readTrivia_isTrivia bound c) typed

end Tree

namespace Reads

open UsageTypes.Tree

variable {bound : Nat} {task : Task} {c d : Cursor} {ts : List Tree}

theorem heavyCount_le (h : Reads bound task c ts d) (typed : Bool) (hmost : task.most typed ≤ 2) :
    heavyCount typed ts ≤ task.most typed := by
  induction h with
  | silent => exact Nat.zero_le _
  | spaces _ hts _ => rw [heavyCount_of_isTrivia hts]; exact Nat.zero_le _
  | token | semicolon =>
    rw [heavyCount_append, heavyCount_readTrivia]
    exact Nat.zero_le _
  | glued => exact Nat.zero_le _
  | gluedLeaf => exact Nat.le_of_eq (heavyCount_singleton ..)
  | seq _ _ iha ihb =>
    simp only [Task.most, Grammar.most] at hmost iha ihb ⊢
    have ha := iha (by omega)
    have hb := ihb (by omega)
    rw [heavyCount_append]
    omega
  | first _ ih =>
    simp only [Task.most, Grammar.most] at hmost ih ⊢
    have ha := ih (by omega)
    omega
  | second _ ih =>
    simp only [Task.most, Grammar.most] at hmost ih ⊢
    have hb := ih (by omega)
    omega
  | none => exact Nat.zero_le _
  | more _ _ iha ihb =>
    have hb := ihb hmost
    simp only [Task.most, Grammar.most] at hmost iha hb ⊢
    split at hmost
    · have ha := iha (by omega)
      rw [heavyCount_append]
      omega
    · omega
  | node =>
    rw [heavyCount_append, heavyCount_readTrivia, Nat.zero_add]
    exact Nat.le_of_eq (heavyCount_singleton ..)
  | field _ ih =>
    rw [heavyCount_map_play]
    exact ih hmost
  | only _ ih => exact ih hmost
  | @rule r _ _ _ _ _ ih =>
    simp only [Task.most, Grammar.most] at hmost ih ⊢
    split at hmost
    · have hr := Forms.most_grammar typed ‹_›
      rw [if_pos ‹_›]
      exact Nat.le_trans (ih (Nat.le_trans hr (by decide))) hr
    · omega
  | grow _ _ iha ihb =>
    simp only [Task.most, Grammar.most] at hmost iha ihb ⊢
    have ha := iha (by omega)
    have hb := ihb (by omega)
    rw [heavyCount_append, heavyCount_readTrivia]
    omega
  | grown => exact Nat.le_max_left _ _
  | growing _ _ iha ihb =>
    simp only [Task.most] at hmost iha ihb ⊢
    have ha := iha (by omega)
    have hb := ihb (by omega)
    omega
  | wrap => exact Nat.le_of_eq (heavyCount_singleton ..)

theorem ensures_roomy : Ensures bound Grammar.spare Roomy Roomy where
  operand h := h
  trivia ht := ht.roomy
  token s := .token .none s
  gluedLeaf _ := roomy_word
  seq h := Bool.and_eq_true_iff.mp h
  alt h := Bool.and_eq_true_iff.mp h
  many h := h
  only h := h
  rule h := Forms.spare_grammar h
  grow h := Bool.and_eq_true_iff.mp h
  node h _ hreads hus := by
    obtain ⟨hspare, hroom⟩ := Bool.and_eq_true_iff.mp h
    refine .node (hus hspare) fun n hn => ?_
    rw [hn, Option.all_some, decide_eq_true_eq] at hroom
    exact Nat.le_trans (hreads.heavyCount_le _ (Nat.le_trans hroom (Kind.room_le_two hn))) hroom
  field {l _ _ _ _ _} h _ hts t ht := (hts h t ht).play l
  wrap {kind _ label _ _ _ _ _ us _ _} h hreads hus hoperand := by
    obtain ⟨hspare, hroom⟩ := Bool.and_eq_true_iff.mp h
    refine .node (List.forall_mem_cons.mpr ⟨?_, hus hspare⟩) fun n hn => ?_
    · cases label with
      | none => exact hoperand
      | some l' => exact hoperand.play l'
    · rw [hn, Option.all_some, decide_eq_true_eq] at hroom
      have hus : heavyCount kind.countsTypes us ≤ _ :=
        hreads.heavyCount_le _ (Nat.le_trans (Nat.le_of_lt hroom) (Kind.room_le_two hn))
      have hone : ∀ t : Tree, heavyCount kind.countsTypes (t :: us) ≤
          1 + heavyCount kind.countsTypes us := by
        intro t
        rw [heavyCount, List.countP_cons, heavyCount]
        split <;> omega
      refine Nat.le_trans (hone _) ?_
      simp only [Task.most] at hus
      omega

end Reads

theorem roomy_of_readProgram {source : String} {root : Tree} (h : readProgram source = some root) :
    root.Roomy := by
  obtain ⟨bound, ts, d, rfl, hreads⟩ := reads_readProgram h
  refine .node (hreads.forall_of_ensures Reads.ensures_roomy (by decide) (by simp [Task.Begins]))
    fun n hn => ?_
  cases hn

end UsageTypes
