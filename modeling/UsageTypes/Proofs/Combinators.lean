import UsageTypes.Grammar.Statements

/-! What a form of a grammar has read, by the readings of its parts. Every argument about the reader that
starts from what was read goes by these. -/

namespace UsageTypes.Grammar

/-- Grammars that read nothing. -/
def isSilent : Form → Bool
  | .empty | .look _ | .absent _ | .ahead _ | .unlessImplied | .operand => true
  | _ => false

section Forms

variable {ρ : Type} {bound : Nat} {rules : ρ → Cursor → Reading} {a b : Grammar ρ} {left ts : List Tree}
  {c d : Cursor}

theorem read_token_eq_some {l : Lexeme} (h : (token l).read bound rules left c = some (ts, d)) :
    ∃ n, l.take? (readTrivia bound c).2.rest = some n ∧
      ts = (readTrivia bound c).1 ++ [.token none ((readTrivia bound c).2.front n)] ∧
      d = (readTrivia bound c).2.read n := by
  simp only [read] at h
  split at h
  · cases h
  · rename_i n htake
    obtain ⟨rfl, rfl⟩ := (Prod.mk.injEq ..).mp (Option.some.inj h)
    exact ⟨n, htake, rfl, rfl⟩

theorem read_glued_eq_some {l : Lexeme} (h : (glued l).read bound rules left c = some (ts, d)) :
    ∃ n, l.take? c.rest = some n ∧ ts = [.token none (c.front n)] ∧ d = c.read n := by
  rw [read] at h
  split at h
  · cases h
  · rename_i n htake
    obtain ⟨rfl, rfl⟩ := (Prod.mk.injEq ..).mp (Option.some.inj h)
    exact ⟨n, htake, rfl, rfl⟩

theorem read_gluedLeaf_eq_some {k : Kind} {l : Lexeme}
    (h : (gluedLeaf k l).read bound rules left c = some (ts, d)) :
    ∃ n, l.take? c.rest = some n ∧ ts = [.node none k c.place [.token none (c.front n)]] ∧
      d = c.read n := by
  rw [read] at h
  split at h
  · cases h
  · rename_i n htake
    obtain ⟨rfl, rfl⟩ := (Prod.mk.injEq ..).mp (Option.some.inj h)
    exact ⟨n, htake, rfl, rfl⟩

theorem read_seq_eq_some (h : (seq a b).read bound rules left c = some (ts, d)) :
    ∃ us e vs, a.read bound rules left c = some (us, e) ∧ b.read bound rules left e = some (vs, d) ∧
      ts = us ++ vs := by
  rw [read] at h
  split at h
  · cases h
  · rename_i us e ha
    split at h
    · cases h
    · rename_i vs f hb
      obtain ⟨rfl, rfl⟩ := (Prod.mk.injEq ..).mp (Option.some.inj h)
      exact ⟨us, e, vs, ha, hb, rfl⟩

theorem read_alt_eq_some (h : (alt a b).read bound rules left c = some (ts, d)) :
    a.read bound rules left c = some (ts, d) ∨
      a.read bound rules left c = none ∧ b.read bound rules left c = some (ts, d) := by
  rw [read] at h
  split at h
  · rename_i r ha
    exact .inl (ha.trans h)
  · rename_i ha
    exact .inr ⟨ha, h⟩

theorem read_node_eq_some {k : Kind} (h : (node k a).read bound rules left c = some (ts, d)) :
    ∃ us, a.read bound rules [] (readTrivia bound c).2 = some (us, d) ∧
      ts = (readTrivia bound c).1 ++ [.node none k (readTrivia bound c).2.place us] := by
  simp only [read] at h
  split at h
  · cases h
  · rename_i us e ha
    obtain ⟨rfl, rfl⟩ := (Prod.mk.injEq ..).mp (Option.some.inj h)
    exact ⟨us, ha, rfl⟩

theorem read_field_eq_some {l : Label} (h : (field l a).read bound rules left c = some (ts, d)) :
    ∃ us, a.read bound rules left c = some (us, d) ∧ ts = us.map (·.play l) := by
  rw [read] at h
  split at h
  · cases h
  · rename_i us e ha
    obtain ⟨rfl, rfl⟩ := (Prod.mk.injEq ..).mp (Option.some.inj h)
    exact ⟨us, ha, rfl⟩

theorem read_only_eq_some {fits : Kind → Bool}
    (h : (only fits a).read bound rules left c = some (ts, d)) :
    a.read bound rules left c = some (ts, d) := by
  rw [read] at h
  split at h
  · cases h
  · rename_i us e ha
    split at h
    · exact ha.trans h
    · cases h

theorem read_grow_eq_some (h : (grow a b).read bound rules left c = some (ts, d)) :
    ∃ us e, a.read bound rules [] (readTrivia bound c).2 = some (us, e) ∧
      ts = (readTrivia bound c).1 ++ (readGrow (b.read bound rules) bound us e).1 ∧
      d = (readGrow (b.read bound rules) bound us e).2 := by
  simp only [read] at h
  split at h
  · cases h
  · rename_i us e ha
    obtain ⟨rfl, rfl⟩ := (Prod.mk.injEq ..).mp (Option.some.inj h)
    exact ⟨us, e, ha, rfl, rfl⟩

theorem read_wrap_eq_some {kind : Kind} {label : Option Label} {fits : Kind → Bool} :
    (wrap kind label fits a).read bound rules left c = some (ts, d) →
    ∃ l k p cs us, left = [.node l k p cs] ∧ a.read bound rules [] c = some (us, d) ∧
      ts = [.node none kind p ((match label with
        | none => .node l k p cs
        | some l' => Tree.play l' (.node l k p cs)) :: us)] := by
  intro h
  unfold read at h
  split at h
  · rename_i l k p cs
    split at h
    · split at h
      · cases h
      · rename_i us e ha
        obtain ⟨rfl, rfl⟩ := (Prod.mk.injEq ..).mp (Option.some.inj h)
        exact ⟨l, k, p, cs, us, rfl, ha, rfl⟩
    · cases h
  · cases h

theorem read_look_eq_some (h : (look a).read bound rules left c = some (ts, d)) :
    ∃ r, a.read bound rules left c = some r := by
  rw [read] at h
  split at h
  · cases h
  · rename_i r ha
    exact ⟨r, ha⟩

end Forms

/-- Forms that read nothing leave the text where it was. -/
theorem read_of_isSilent {bound : Nat} {rules : Rule → Cursor → Reading} {g : Form}
    (hg : g.isSilent = true) {left ts : List Tree} {c d : Cursor}
    (h : g.read bound rules left c = some (ts, d)) : ts = [] ∧ d.rest = c.rest := by
  have hhere : ∀ {e : Cursor}, e.rest = c.rest → some (([] : List Tree), e) = some (ts, d) →
      ts = [] ∧ d.rest = c.rest := by
    rintro e he ⟨⟩
    exact ⟨rfl, he⟩
  cases g with
  | empty => exact hhere rfl h
  | operand => exact hhere (e := { c with afterOperand := true }) rfl h
  | look a | absent a | ahead test | unlessImplied =>
    rw [read] at h
    split at h <;> first | exact hhere rfl h | cases h
  | _ => cases hg

end UsageTypes.Grammar
