import UsageTypes.Proofs.Combinators

/-! What a reader did, as a derivation: which alternative was taken, how often something was repeated,
and what was read. A property of everything that can be read is then proved by induction on
derivations, with no regard to the bounds of the reader. -/

namespace UsageTypes

/-- What stands between words. -/
def Tree.IsTrivia : Tree → Prop
  | .blank _ => True
  | .node l k _ cs => l = none ∧ k = .comment ∧ ∃ s, cs = [.token none s]
  | .token _ _ => False

section Trivia

theorem Cursor.length_pass_le (c : Cursor) (n : Nat) : (c.pass n).rest.length ≤ c.rest.length := by
  simp [Cursor.pass]

theorem Cursor.length_read_le (c : Cursor) (n : Nat) : (c.read n).rest.length ≤ c.rest.length :=
  c.length_pass_le n

theorem commentLength_pos {cs : List Char} {n : Nat} (h : commentLength cs = some n) : 0 < n := by
  rw [commentLength.eq_def] at h
  split at h
  · simp only [Option.some.injEq] at h
    omega
  · obtain ⟨k, -, rfl⟩ := Option.map_eq_some_iff.mp h
    omega
  · cases h

theorem countWhile_pos {p : Char → Bool} {c : Char} {cs : List Char} (h : p c = true) :
    0 < countWhile p (c :: cs) := by
  simp [countWhile, h]

theorem readTrivia_isTrivia (bound : Nat) (c : Cursor) : ∀ t ∈ (readTrivia bound c).1, t.IsTrivia := by
  induction bound generalizing c with
  | zero => simp [readTrivia]
  | succ bound ih =>
    rw [readTrivia]
    split
    · simp
    · split
      · exact List.forall_mem_cons.mpr ⟨trivial, ih _⟩
      · split
        · split
          · exact List.forall_mem_cons.mpr ⟨⟨rfl, rfl, _, rfl⟩, ih _⟩
          · simp
        · simp

theorem readTrivia_length_le (bound : Nat) (c : Cursor) :
    (readTrivia bound c).2.rest.length ≤ c.rest.length := by
  induction bound generalizing c with
  | zero => exact Nat.le_refl _
  | succ bound ih =>
    rw [readTrivia]
    split
    · exact Nat.le_refl _
    · split
      · exact Nat.le_trans (ih _) (c.length_pass_le _)
      · split
        · split
          · exact Nat.le_trans (ih _) (c.length_pass_le _)
          · exact Nat.le_refl _
        · exact Nat.le_refl _

/-- Blanks and comments are read up to the next word. -/
theorem readTrivia_again {bound : Nat} {c : Cursor} (hbound : c.rest.length < bound) (n : Nat) :
    readTrivia n (readTrivia bound c).2 = ([], (readTrivia bound c).2) := by
  cases n with
  | zero => rfl
  | succ n =>
    induction bound generalizing c with
    | zero => omega
    | succ bound ih =>
      have hpass : ∀ k, 0 < k → c.rest ≠ [] → (c.pass k).rest.length < bound := by
        intro k hk hne
        have := List.length_pos_iff.mpr hne
        simp only [Cursor.pass, List.length_drop]
        omega
      rw [readTrivia.eq_def (bound + 1) c]
      dsimp only
      split
      · rename_i hrest
        rw [readTrivia, hrest]
      · rename_i ch cs hrest
        have hne : c.rest ≠ [] := by simp [hrest]
        split
        · rename_i hblank
          exact ih (hpass _ (by rw [hrest]; exact countWhile_pos hblank) hne)
        · rename_i hblank
          split
          · rename_i hslash
            split
            · rename_i k hcomment
              exact ih (hpass _ (commentLength_pos hcomment) hne)
            · rename_i hcomment
              simp only [readTrivia, hrest, if_neg hblank, if_pos hslash]
              rw [← hrest, hcomment]
          · rename_i hslash
            simp only [readTrivia, hrest, if_neg hblank, if_neg hslash]

theorem autoSemicolon_isTrivia {bound : Nat} {c d : Cursor} {ts : List Tree}
    (h : autoSemicolon bound c = some (ts, d)) :
    (∀ t ∈ ts, t.IsTrivia) ∧ d.rest.length ≤ c.rest.length := by
  induction bound generalizing c ts d with
  | zero => cases h
  | succ bound ih =>
    have hhere : ∀ {d : Cursor} {ts : List Tree}, some (([] : List Tree), c) = some (ts, d) →
        (∀ t ∈ ts, t.IsTrivia) ∧ d.rest.length ≤ c.rest.length := by
      rintro d ts ⟨⟩
      exact ⟨by simp, Nat.le_refl _⟩
    rw [autoSemicolon] at h
    dsimp only at h
    split at h
    · exact hhere h
    · split at h
      · cases h
      · exact hhere h
    · split at h
      · exact hhere h
      · cases h
    · split at h
      · cases h
      · rename_i k _
        cases hrest : autoSemicolon bound ((c.pass (countWhile isInlineBlank c.rest)).pass k) with
        | none => simp [hrest] at h
        | some r =>
          obtain ⟨hus, hle⟩ := ih hrest
          simp only [hrest, Option.some.injEq, Prod.mk.injEq] at h
          obtain ⟨rfl, rfl⟩ := h
          refine ⟨?_, Nat.le_trans hle (Nat.le_trans (Cursor.length_pass_le _ _) (c.length_pass_le _))⟩
          refine List.forall_mem_append.mpr ⟨?_, List.forall_mem_cons.mpr ⟨⟨rfl, rfl, _, rfl⟩, hus⟩⟩
          split <;> simp [Tree.IsTrivia]

end Trivia

/-- What there is to read: a grammar, with the operand that a continuation wraps, or all that goes on
with an operand. -/
inductive Task where
  | form (g : Form) (left : List Tree)
  | growth (continuation : Form) (operand : List Tree)

open Grammar in
/-- The derivations of readings, from a cursor to trees and the cursor behind them. -/
inductive Reads (bound : Nat) : Task → Cursor → List Tree → Cursor → Prop
  | silent {g : Form} {left : List Tree} {c d : Cursor} :
    g.isSilent = true → d.rest = c.rest → Reads bound (.form g left) c [] d
  | spaces {g : Form} {left ts : List Tree} {c d : Cursor} :
    g = trivia ∨ g = semicolon ∨ g = implied → (∀ t ∈ ts, t.IsTrivia) →
    d.rest.length ≤ c.rest.length → Reads bound (.form g left) c ts d
  | token {l : Lexeme} {left : List Tree} {c : Cursor} {n : Nat} :
    l.take? (readTrivia bound c).2.rest = some n →
    Reads bound (.form (token l) left) c
      ((readTrivia bound c).1 ++ [.token none ((readTrivia bound c).2.front n)])
      ((readTrivia bound c).2.read n)
  | semicolon {left : List Tree} {c : Cursor} :
    Reads bound (.form semicolon left) c ((readTrivia bound c).1 ++ [.token none ";"])
      ((readTrivia bound c).2.read 1)
  | glued {l : Lexeme} {left : List Tree} {c : Cursor} {n : Nat} : l.take? c.rest = some n →
    Reads bound (.form (glued l) left) c [.token none (c.front n)] (c.read n)
  | gluedLeaf {k : Kind} {l : Lexeme} {left : List Tree} {c : Cursor} {n : Nat} :
    l.take? c.rest = some n →
    Reads bound (.form (gluedLeaf k l) left) c [.node none k c.place [.token none (c.front n)]]
      (c.read n)
  | seq {a b : Form} {left ts us : List Tree} {c d e : Cursor} :
    Reads bound (.form a left) c ts d → Reads bound (.form b left) d us e →
    Reads bound (.form (seq a b) left) c (ts ++ us) e
  | first {a b : Form} {left ts : List Tree} {c d : Cursor} :
    Reads bound (.form a left) c ts d → Reads bound (.form (alt a b) left) c ts d
  | second {a b : Form} {left ts : List Tree} {c d : Cursor} :
    Reads bound (.form b left) c ts d → Reads bound (.form (alt a b) left) c ts d
  | none {a : Form} {left : List Tree} {c : Cursor} : Reads bound (.form (many a) left) c [] c
  | more {a : Form} {left ts us : List Tree} {c d e : Cursor} :
    Reads bound (.form a []) c ts d → Reads bound (.form (many a) left) d us e →
    Reads bound (.form (many a) left) c (ts ++ us) e
  | node {k : Kind} {a : Form} {left us : List Tree} {c e : Cursor} :
    readTrivia bound (readTrivia bound c).2 = ([], (readTrivia bound c).2) →
    Reads bound (.form a []) (readTrivia bound c).2 us e →
    Reads bound (.form (node k a) left) c
      ((readTrivia bound c).1 ++ [.node none k (readTrivia bound c).2.place us]) e
  | field {l : Label} {a : Form} {left ts : List Tree} {c d : Cursor} :
    Reads bound (.form a left) c ts d →
    Reads bound (.form (field l a) left) c (ts.map (·.play l)) d
  | only {fits : Kind → Bool} {a : Form} {left ts : List Tree} {c d : Cursor} :
    Reads bound (.form a left) c ts d → Reads bound (.form (only fits a) left) c ts d
  | rule {r : Rule} {left ts : List Tree} {c d : Cursor} :
    Reads bound (.form (Forms.grammar r) []) c ts d → Reads bound (.form (rule r) left) c ts d
  | grow {a b : Form} {left us vs : List Tree} {c e f : Cursor} :
    Reads bound (.form a []) (readTrivia bound c).2 us e → Reads bound (.growth b us) e vs f →
    Reads bound (.form (grow a b) left) c ((readTrivia bound c).1 ++ vs) f
  | grown {b : Form} {us : List Tree} {c : Cursor} : Reads bound (.growth b us) c us c
  | growing {b : Form} {us vs ws : List Tree} {c d e : Cursor} :
    Reads bound (.form b us) c vs d → Reads bound (.growth b vs) d ws e →
    Reads bound (.growth b us) c ws e
  | wrap {k kind : Kind} {label l : Option Label} {fits : Kind → Bool} {a : Form} {p : Position}
    {cs us : List Tree} {c d : Cursor} : Reads bound (.form a []) c us d →
    Reads bound (.form (wrap kind label fits a) [.node l k p cs]) c
      [.node none kind p ((match label with
        | .none => .node l k p cs
        | .some l' => Tree.play l' (.node l k p cs)) :: us)] d

namespace Reads

variable {bound : Nat}

/-- Reading never goes back. -/
theorem length_le {task : Task} {c d : Cursor} {ts : List Tree} (h : Reads bound task c ts d) :
    d.rest.length ≤ c.rest.length := by
  induction h with
  | silent _ h => exact Nat.le_of_eq (congrArg List.length h)
  | spaces _ _ h => exact h
  | token => exact Nat.le_trans (Cursor.length_read_le _ _) (readTrivia_length_le _ _)
  | semicolon => exact Nat.le_trans (Cursor.length_read_le _ _) (readTrivia_length_le _ _)
  | glued => exact Cursor.length_read_le _ _
  | gluedLeaf => exact Cursor.length_read_le _ _
  | seq _ _ iha ihb => exact Nat.le_trans ihb iha
  | first _ ih => exact ih
  | second _ ih => exact ih
  | none => exact Nat.le_refl _
  | more _ _ iha ihb => exact Nat.le_trans ihb iha
  | node _ _ ih => exact Nat.le_trans ih (readTrivia_length_le _ _)
  | field _ ih => exact ih
  | only _ ih => exact ih
  | rule _ ih => exact ih
  | grow _ _ iha ihb => exact Nat.le_trans ihb (Nat.le_trans iha (readTrivia_length_le _ _))
  | grown => exact Nat.le_refl _
  | growing _ _ iha ihb => exact Nat.le_trans ihb iha
  | wrap _ ih => exact ih

end Reads

open Grammar in
/-- A check of grammars that ensures a property of every tree that is read. What is known of an operand
before it is wrapped may be less. -/
structure Ensures (bound : Nat) (check : Form → Bool) (Operand Read : Tree → Prop) : Prop where
  operand {t : Tree} : Read t → Operand t
  trivia {t : Tree} : t.IsTrivia → Read t
  token (s : String) : Read (.token none s)
  gluedLeaf {k : Kind} {l : Lexeme} {p : Position} {s : String} : check (gluedLeaf k l) = true →
    Read (.node none k p [.token none s])
  seq {a b : Form} : check (seq a b) = true → check a = true ∧ check b = true
  alt {a b : Form} : check (alt a b) = true → check a = true ∧ check b = true
  many {a : Form} : check (many a) = true → check a = true
  only {fits : Kind → Bool} {a : Form} : check (only fits a) = true → check a = true
  rule {r : Rule} : check (rule r) = true → check (Forms.grammar r) = true
  grow {a b : Form} : check (grow a b) = true → check a = true ∧ check b = true
  node {k : Kind} {a : Form} {us : List Tree} {c d : Cursor} : check (node k a) = true →
    readTrivia bound c = ([], c) → Reads bound (.form a []) c us d →
    (check a = true → ∀ t ∈ us, Read t) → Read (.node none k c.place us)
  field {l : Label} {a : Form} {left ts : List Tree} {c d : Cursor} : check (field l a) = true →
    Reads bound (.form a left) c ts d → (check a = true → ∀ t ∈ ts, Read t) → ∀ t ∈ ts, Read (t.play l)
  wrap {kind k : Kind} {label l : Option Label} {fits : Kind → Bool} {a : Form} {p : Position}
    {cs us : List Tree} {c d : Cursor} : check (wrap kind label fits a) = true →
    Reads bound (.form a []) c us d → (check a = true → ∀ t ∈ us, Read t) → Operand (.node l k p cs) →
    Read (.node none kind p ((match label with
      | .none => .node l k p cs
      | .some l' => Tree.play l' (.node l k p cs)) :: us))

def Task.grammar : Task → Form
  | form g _ | growth g _ => g

/-- What is known of the trees that a task begins with. -/
def Task.Begins (Operand Read : Tree → Prop) : Task → Prop
  | form _ left => ∀ t ∈ left, Operand t
  | growth _ us => ∀ t ∈ us, Read t

theorem Reads.forall_of_ensures {bound : Nat} {check : Form → Bool} {Operand Read : Tree → Prop}
    (m : Ensures bound check Operand Read) {task : Task} {c d : Cursor} {ts : List Tree}
    (h : Reads bound task c ts d) (hcheck : check task.grammar = true)
    (hbegins : task.Begins Operand Read) : ∀ t ∈ ts, Read t := by
  have htrivia : ∀ c : Cursor, ∀ t ∈ (readTrivia bound c).1, Read t :=
    fun c t ht => m.trivia (readTrivia_isTrivia _ _ t ht)
  have hnone : ∀ t ∈ ([] : List Tree), Operand t := by simp
  induction h with
  | silent | none => simp
  | spaces _ hts _ => exact fun t ht => m.trivia (hts t ht)
  | token | semicolon =>
    exact List.forall_mem_append.mpr ⟨htrivia _, List.forall_mem_singleton.mpr (m.token _)⟩
  | glued => exact List.forall_mem_singleton.mpr (m.token _)
  | gluedLeaf => exact List.forall_mem_singleton.mpr (m.gluedLeaf hcheck)
  | seq _ _ iha ihb =>
    obtain ⟨ha, hb⟩ := m.seq hcheck
    exact List.forall_mem_append.mpr ⟨iha ha hbegins, ihb hb hbegins⟩
  | first _ ih => exact ih (m.alt hcheck).1 hbegins
  | second _ ih => exact ih (m.alt hcheck).2 hbegins
  | more _ _ iha ihb =>
    exact List.forall_mem_append.mpr ⟨iha (m.many hcheck) hnone, ihb hcheck hbegins⟩
  | node hagain hreads ih =>
    refine List.forall_mem_append.mpr ⟨htrivia _, List.forall_mem_singleton.mpr ?_⟩
    exact m.node hcheck hagain hreads fun ha => ih ha hnone
  | field hreads ih =>
    exact List.forall_mem_map.mpr (m.field hcheck hreads fun ha => ih ha hbegins)
  | only _ ih => exact ih (m.only hcheck) hbegins
  | rule _ ih => exact ih (m.rule hcheck) hnone
  | grow _ _ iha ihb =>
    obtain ⟨ha, hb⟩ := m.grow hcheck
    exact List.forall_mem_append.mpr ⟨htrivia _, ihb hb (iha ha hnone)⟩
  | grown => exact hbegins
  | growing _ _ iha ihb => exact ihb hcheck (iha hcheck fun t ht => m.operand (hbegins t ht))
  | wrap hreads ih =>
    refine List.forall_mem_singleton.mpr (m.wrap hcheck hreads (fun ha => ih ha hnone) ?_)
    exact hbegins _ (List.mem_singleton_self _)

section Soundness

variable {bound : Nat}

theorem reads_many {a : Form} {body : Cursor → Reading}
    (hbody : ∀ c ts d, c.rest.length < bound → body c = some (ts, d) → Reads bound (.form a []) c ts d)
    (n : Nat) (left : List Tree) (c : Cursor) (hc : c.rest.length < bound) :
    Reads bound (.form (.many a) left) c (readMany body n c).1 (readMany body n c).2 := by
  induction n generalizing c with
  | zero => exact .none
  | succ n ih =>
    rw [readMany]
    split
    · exact .none
    · rename_i ts d hr
      split
      · exact .none
      · have ha := hbody c ts d hc hr
        exact .more ha (ih d (Nat.lt_of_le_of_lt ha.length_le hc))

theorem reads_growth {b : Form} {continuation : List Tree → Cursor → Reading}
    (hb : ∀ us c ts d, c.rest.length < bound → continuation us c = some (ts, d) →
      Reads bound (.form b us) c ts d)
    (n : Nat) (us : List Tree) (c : Cursor) (hc : c.rest.length < bound) :
    Reads bound (.growth b us) c (readGrow continuation n us c).1 (readGrow continuation n us c).2 := by
  induction n generalizing us c with
  | zero => exact .grown
  | succ n ih =>
    rw [readGrow]
    split
    · exact .grown
    · rename_i ts d hr
      have hts := hb us c ts d hc hr
      exact .growing hts (ih ts d (Nat.lt_of_le_of_lt hts.length_le hc))

open Grammar in
/-- Every reading of a grammar has a derivation, if those of the rules have. -/
theorem reads_of_read {rules : Rule → Cursor → Reading}
    (hrules : ∀ r c ts d, c.rest.length < bound → rules r c = some (ts, d) →
      Reads bound (.form (Forms.grammar r) []) c ts d) (g : Form) :
    ∀ left c ts d, c.rest.length < bound → g.read bound rules left c = some (ts, d) →
      Reads bound (.form g left) c ts d := by
  have htrivia : ∀ c : Cursor, c.rest.length < bound →
      (readTrivia bound c).2.rest.length < bound :=
    fun c hc => Nat.lt_of_le_of_lt (readTrivia_length_le _ _) hc
  induction g with
  | empty | operand | look | absent | ahead | unlessImplied =>
    intro left c ts d _ h
    obtain ⟨rfl, hrest⟩ := read_of_isSilent rfl h
    exact .silent rfl hrest
  | token l =>
    intro left c ts d _ h
    obtain ⟨n, htake, rfl, rfl⟩ := read_token_eq_some h
    exact .token htake
  | glued l =>
    intro left c ts d _ h
    obtain ⟨n, htake, rfl, rfl⟩ := read_glued_eq_some h
    exact .glued htake
  | gluedLeaf k l =>
    intro left c ts d _ h
    obtain ⟨n, htake, rfl, rfl⟩ := read_gluedLeaf_eq_some h
    exact .gluedLeaf htake
  | seq a b iha ihb =>
    intro left c ts e hc h
    obtain ⟨us, d, vs, ha, hb, rfl⟩ := read_seq_eq_some h
    have hreads := iha left c us d hc ha
    exact .seq hreads (ihb left d vs e (Nat.lt_of_le_of_lt hreads.length_le hc) hb)
  | alt a b iha ihb =>
    intro left c ts d hc h
    obtain ha | ⟨-, hb⟩ := read_alt_eq_some h
    · exact .first (iha left c ts d hc ha)
    · exact .second (ihb left c ts d hc hb)
  | many a iha =>
    intro left c ts d hc h
    rw [Grammar.read, Option.some.injEq] at h
    have hreads := reads_many (a := a) (fun c ts d => iha [] c ts d) bound left c hc
    rwa [h] at hreads
  | node k a iha =>
    intro left c ts d hc h
    obtain ⟨us, ha, rfl⟩ := read_node_eq_some h
    exact .node (readTrivia_again hc _) (iha [] _ us d (htrivia c hc) ha)
  | field l a iha =>
    intro left c ts d hc h
    obtain ⟨us, ha, rfl⟩ := read_field_eq_some h
    exact .field (iha left c us d hc ha)
  | only fits a iha =>
    exact fun left c ts d hc h => .only (iha left c ts d hc (read_only_eq_some h))
  | rule r => exact fun left c ts d hc h => .rule (hrules r c ts d hc h)
  | grow a b iha ihb =>
    intro left c ts d hc h
    obtain ⟨us, e, ha, rfl, rfl⟩ := read_grow_eq_some h
    have hreads := iha [] _ us e (htrivia c hc) ha
    exact .grow hreads (reads_growth ihb bound us e
      (Nat.lt_of_le_of_lt hreads.length_le (htrivia c hc)))
  | wrap kind label fits a iha =>
    intro left c ts d hc h
    obtain ⟨l, k, p, cs, us, rfl, ha, rfl⟩ := read_wrap_eq_some h
    exact .wrap (iha [] c us d hc ha)
  | trivia =>
    intro left c ts d _ h
    rw [Grammar.read, Option.some.injEq] at h
    have hts := readTrivia_isTrivia bound c
    have hlength := readTrivia_length_le bound c
    rw [h] at hts hlength
    exact .spaces (.inl rfl) hts hlength
  | semicolon =>
    intro left c ts d _ h
    simp only [Grammar.read] at h
    split at h
    · obtain ⟨rfl, rfl⟩ := (Prod.mk.injEq ..).mp (Option.some.inj h)
      exact .semicolon
    · obtain ⟨hts, hlength⟩ := autoSemicolon_isTrivia h
      exact .spaces (.inr (.inl rfl)) hts hlength
  | implied =>
    intro left c ts d _ h
    obtain ⟨hts, hlength⟩ := autoSemicolon_isTrivia h
    exact .spaces (.inr (.inr rfl)) hts hlength

theorem reads_readRule (depth : Nat) (r : Rule) (c : Cursor) (ts : List Tree) (d : Cursor)
    (hc : c.rest.length < bound) (h : Grammar.readRule Forms.grammar bound depth r c = some (ts, d)) :
    Reads bound (.form (Forms.grammar r) []) c ts d := by
  induction depth generalizing r c ts d with
  | zero => cases h
  | succ depth ih => exact reads_of_read ih _ [] c ts d hc h

/-- A program is read to its end or up to a statement that cannot be read, but never refused. -/
theorem read_program_isSome (bound : Nat) (rules : Rule → Cursor → Reading) (c : Cursor) :
    (Forms.program.read bound rules [] c).isSome = true := by
  have hopt : ∀ (g : Form) (left : List Tree) (c : Cursor),
      ∃ ts d, (Grammar.opt g).read bound rules left c = some (ts, d) := by
    intro g left c
    cases hg : g.read bound rules left c with
    | none => exact ⟨[], c, by simp [Grammar.opt, Grammar.read, hg]⟩
    | some r => exact ⟨r.1, r.2, by simp [Grammar.opt, Grammar.read, hg]⟩
  obtain ⟨ts, d, h⟩ := hopt (Grammar.leaf .hashBangLine .hashBang) [] c
  change ((Grammar.seq (.seq (Grammar.opt (Grammar.leaf .hashBangLine .hashBang))
    (.many (Forms.nest .statement))) .trivia).read bound rules [] c).isSome = true
  simp only [Grammar.read, h, Option.isSome_some]

/-- Every program that is read has a derivation. -/
theorem reads_readProgram {source : String} {root : Tree} (h : readProgram source = some root) :
    ∃ bound ts d, root = .node none .program {} ts ∧
      Reads bound (.form Forms.program []) { rest := source.toList } ts d := by
  have hsome := read_program_isSome (source.toList.length + 1)
    (Grammar.readRule Forms.grammar (source.toList.length + 1) (16 * (source.toList.length + 1)))
    { rest := source.toList }
  obtain ⟨⟨ts, d⟩, hr⟩ := Option.isSome_iff_exists.mp hsome
  simp only [readProgram, readStatements, hr, Option.getD_some] at h
  split at h
  · refine ⟨source.toList.length + 1, ts, d, (Option.some.inj h).symm, ?_⟩
    exact reads_of_read (fun r c ts d => reads_readRule _ r c ts d) _ [] _ ts d (Nat.lt_succ_self _) hr
  · cases h

end Soundness

end UsageTypes
