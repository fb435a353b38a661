import UsageTypes.Proofs.MemberReadings

/-! Parameters with written types, and callables, are read back, given that the types in them are. -/

namespace UsageTypes

open Grammar Forms

/-- Words that do not stand for a parameter where its name is read. -/
def parameterWords : List (List Char) :=
  operandWords ++ ["async", "namespace", "public", "private", "protected", "override",
    "readonly"].map String.toList

section ParameterNames

variable {bound : Nat} (depth : Nat) (hbound : 0 < bound) {c : Cursor} {n k : List Char}
  (hn : isName n = true) (hn' : n ∉ parameterWords) (hc : c.rest = n ++ ':' :: k)

include hn hn' hc

theorem stands_parameterName : (Head.name parameterWords).Stands c.rest :=
  ⟨[], c.rest, .inl rfl, rfl, n, _, hc, hn, hn', rfl⟩

include hbound

/-- A name before a colon is a place by itself. -/
theorem read_target : ∃ p d, readForm bound (depth + 1) (nest (.expr { level := .target })) [] c =
    some ([.node none .identifier p [.token none (String.ofList n)]], d) ∧ c.Past n d ∧
      d.rest = ':' :: k := by
  have hstands := stands_parameterName hn hn' hc
  have hsolid : isSolid c.rest = true := by
    rw [hc]
    exact isSolid_name hn _
  have hwords : n ∉ operandWords := fun h => hn' (List.mem_append_left _ h)
  obtain ⟨ts, d, p, hr, hts, hpast, hd⟩ := read_leaf depth [] hbound hc (.inl rfl)
    (isSolid_name hn _) (take?_name hn rfl hwords) .identifier []
  obtain rfl := hts.eq_singleton
  have hcolon : (Head.mark ':').Stands d.rest := Head.stands_mark (by decide) hd
  -- the name is the parameter of no arrow, which the grammar tries first
  have harrow : readForm bound depth (node .arrowFunction (field .parameter
      (identifier { level := .target }) ++ arrowBody { level := .target })) [] c = none :=
    read_node_none (readTrivia_of_isSolid bound hsolid)
      (read_seq_none (read_field _ hr) (hcolon.read_eq_none hbound (by decide) []))
  have hoperand : readForm bound depth (operandOf { level := .target }) [] c = some (_, d) :=
    (read_alt_right harrow).trans
      ((hstands.read_behind (n := 7) hbound (by decide) []).trans (read_alt_left hr))
  have hgrow : readForm bound depth (grow (operandOf { level := .target })
      (empty ++ continuation { level := .target })) [] c = some (_, d) :=
    read_grow [] (readTrivia_of_isSolid bound hsolid) hoperand
      (readGrow_of_none (hcolon.read_eq_none hbound (by decide) _) bound)
  have hend : readForm bound depth operand [] d = some ([], { d with afterOperand := true }) := rfl
  have hexpression : readForm bound depth (expression { level := .target }) [] c = some (_, _) :=
    read_seq hgrow hend
  exact ⟨p, { d with afterOperand := true }, hexpression, ⟨hpast.rest_eq, hpast.place_eq⟩, hd⟩

theorem read_parameterHead : ∃ p d, readForm bound (depth + 2) parameterHead [] c =
    some ([.node (some .pattern) .identifier p [.token none (String.ofList n)]], d) ∧ c.Past n d ∧
      d.rest = ':' :: k := by
  have hstands := stands_parameterName hn hn' hc
  obtain ⟨p, d, hr, hpast, hd⟩ := read_target depth hbound hn hn' hc
  have hplace : readForm bound (depth + 1) (only isPlace (nest (.expr { level := .target }))) [] c =
      some (_, d) :=
    read_only hr (by rfl)
  have hpattern : readForm bound (depth + 2) (nest .pattern) [] c = some (_, d) :=
    (hstands.read_behind (n := 2) (g := pattern) hbound (by decide) []).trans hplace
  have hdecorators : readForm bound (depth + 2) (many (field .decorator (nest .decorator))) [] c =
      some ([], c) :=
    read_many_none (hstands.read_eq_none hbound (by decide) [])
  have hmodifiers : readForm bound (depth + 2) (many (oneOf [accessibility,
      node .overrideModifier (word "override"), word "readonly"]
      ++ ahead (fun cs => memberAhead cs || startsWith cs ['{']))) [] c = some ([], c) :=
    read_many_none (hstands.read_eq_none hbound (by decide) [])
  refine ⟨p, d, ?_, hpast, hd⟩
  exact read_seq (read_seq hdecorators hmodifiers) (read_field .pattern (read_alt_left hpattern))

end ParameterNames

structure IsParameter (n : Nat) (T : Ty) (t : Tree) : Prop where
  isPositional : t.isPositional = true
  isRest : t.isRest = false
  typing : ∃ a, t.child? .typing = some a ∧ IsAscription n T a

theorem IsParameter.isNamed {n : Nat} {T : Ty} {t : Tree} (h : IsParameter n T t) :
    t.isNamed = true := by
  have := h.isPositional
  cases t <;> simp_all [Tree.isPositional, Tree.is, Tree.kind?, Tree.isNamed]

theorem read_parameter {bound depth : Nat} {c : Cursor} {gap n s k : List Char} {span : Nat} {T : Ty}
    (hn : isName n = true) (hn' : n ∉ parameterWords) (hread : Readable s span T) (hgap : IsGap gap)
    (hc : c.rest = gap ++ (n ++ ':' :: ' ' :: (s ++ k))) {m : Char} (hk : (Head.mark m).Stands k)
    (hm : m ∈ [')', ',']) (hlen : c.rest.length < bound) (hdepth : 4 * s.length ≤ depth + 2) :
    ∃ ts t d, readForm bound (depth + 2) parameter [] c = some (ts, d) ∧ core ts = [t] ∧
      IsParameter span T t ∧ c.Past (gap ++ (n ++ ':' :: ' ' :: s)) d ∧ d.rest = k := by
  have hbound : 0 < bound := by omega
  obtain ⟨us, c₀, htrivia, hus, hpast₀, hc₀⟩ := readTrivia_gap hbound hc hgap (isSolid_name hn _)
  obtain ⟨p, d, hhead, hpast, hd⟩ := read_parameterHead depth hbound hn hn' hc₀
  have hcolon : (Head.mark ':').Stands d.rest := Head.stands_mark (by decide) hd
  have hshort := Nat.lt_of_le_of_lt (hpast₀.trans hpast).length_le hlen
  obtain ⟨vs, a, d₂, htyping, hvs, hasc, hpast₂, hd₂⟩ := read_typing hread .never hd hk
    (by rcases List.mem_cons.mp hm with rfl | hm
        · decide
        · rw [List.mem_singleton.mp hm]
          decide) hshort hdepth []
  have hinitializer : Head.marksBlock [')', ','] (op "=" ++ field .value (nest (.expr {}))) = true := by
    decide
  have hvalue : readForm bound (depth + 2) (initializer false) [] d₂ = some ([], d₂) := by
    rw [← hd₂] at hk
    exact read_opt_none (hk.read_eq_none hbound (Head.blocks_of_mem hinitializer hm) [])
  have hoptional : readForm bound (depth + 2) (node .optionalParameter (parameterHead ++ mark "?"
      ++ ahead endsOptional ++ typing .never ++ initializer false)) [] c = none := by
    refine read_node_none htrivia (read_seq_none_left (read_seq_none_left (read_seq_none_left ?_)))
    exact read_seq_none hhead (hcolon.read_eq_none hbound (by decide) [])
  have hcore : core ([Tree.node (some .pattern) .identifier p [.token none (String.ofList n)]] ++ vs
      ++ []) = [.node (some .pattern) .identifier p [.token none (String.ofList n)], a] := by
    rw [core_append, core_append, hvs]
    rfl
  refine ⟨_, _, d₂, (read_alt_right hoptional).trans (read_node htrivia
    (read_seq (read_seq hhead htyping) hvalue)), (hus.gives _).core_eq rfl, ⟨?_, ?_, a, ?_, hasc⟩, ?_, hd₂⟩
  · rw [Tree.isPositional, child?_eq_core, hcore]
    rfl
  · rw [Tree.isRest, child?_eq_core, hcore]
    rfl
  · obtain ⟨q, cs, rfl, -⟩ := hasc
    rw [child?_eq_core, hcore]
    rfl
  · exact hpast₀.trans (hpast.trans hpast₂)

section Lists

def typed (p : List Char × Ty) : List Char := p.1 ++ ':' :: ' ' :: p.2.written

/-- Parameters as they are written behind another one. -/
def furtherTyped (ps : List (List Char × Ty)) : List Char := ps.flatMap fun p => ',' :: ' ' :: typed p

def allTyped : List (List Char × Ty) → List Char
  | [] => []
  | p :: ps => typed p ++ furtherTyped ps

/-- Parameters whose names are free and whose types can be read back. -/
def ReadableParams (ps : List (List Char × Ty)) : Prop :=
  ∀ p ∈ ps, isName p.1 = true ∧ p.1 ∉ parameterWords ∧ Readable p.2.written p.2.span p.2

def AreParameters (ps : List (List Char × Ty)) (ts : List Tree) : Prop :=
  List.Forall₂ (fun p => IsParameter p.2.span p.2) ps ts

variable {bound depth : Nat} {c : Cursor} {k : List Char}

theorem furtherTyped_cons (p : List Char × Ty) (ps : List (List Char × Ty)) :
    furtherTyped (p :: ps) = ',' :: ' ' :: (typed p ++ furtherTyped ps) := by
  simp [furtherTyped]

theorem stands_furtherTyped (ps : List (List Char × Ty)) (k : List Char) :
    ∃ m ∈ [')', ','], (Head.mark m).Stands (furtherTyped ps ++ ')' :: k) := by
  cases ps with
  | nil => exact ⟨')', by decide, Head.stands_mark (by decide) rfl⟩
  | cons p ps =>
    rw [furtherTyped_cons]
    exact ⟨',', by decide, Head.stands_mark (by decide) rfl⟩

theorem readMany_parameters {ps : List (List Char × Ty)} (hps : ReadableParams ps) {rounds : Nat}
    (hc : c.rest = furtherTyped ps ++ ')' :: k) (hrounds : c.rest.length < rounds)
    (hlen : c.rest.length < bound) (hdepth : 4 * (furtherTyped ps).length ≤ depth + 2) :
    ∃ ts d, readMany (readForm bound (depth + 2) (mark "," ++ parameter) []) rounds c = (ts, d) ∧
      AreParameters ps (core ts) ∧ c.Past (furtherTyped ps) d ∧ d.rest = ')' :: k := by
  have hbound : 0 < bound := by omega
  -- each round reads a comma and the parameter behind it
  induction ps generalizing c rounds with
  | nil =>
    have hstands : (Head.mark ')').Stands c.rest := Head.stands_mark (by decide) hc
    refine ⟨[], c, readMany_of_none ?_ _, .nil, .refl c, hc⟩
    exact hstands.read_eq_none hbound (by decide) []
  | cons p ps ih =>
    obtain ⟨hn, hn', hread⟩ := hps p List.mem_cons_self
    have hc' : c.rest = [] ++ (',' :: ([' '] ++ (p.1 ++ ':' :: ' ' :: (p.2.written ++
        (furtherTyped ps ++ ')' :: k))))) := by
      simpa [furtherTyped_cons, typed] using hc
    simp only [furtherTyped_cons, typed, List.length_append, List.length_cons] at hdepth
    obtain ⟨ts, d, hcomma, hts, hpast, hd⟩ := read_mark (depth + 2) [] hbound hc' (.inl rfl) (by decide)
      "," (by decide) []
    have hshort := hpast.length_eq
    rw [List.nil_append, List.length_singleton] at hshort
    obtain ⟨m, hm, hk⟩ := stands_furtherTyped ps k
    obtain ⟨us, t, e, hr, hus, ht, hpast', he⟩ := read_parameter hn hn' hread (.inr rfl) hd hk hm
      (show d.rest.length < bound by omega) (show 4 * p.2.written.length ≤ depth + 2 by omega)
    have hshort' := hpast'.length_le
    obtain ⟨rounds, rfl⟩ : ∃ r, rounds = r + 1 := ⟨rounds - 1, by omega⟩
    obtain ⟨vs, f, hmany, hvs, hpast'', hf⟩ := ih (fun q hq => hps q (List.mem_cons_of_mem _ hq)) he
      (show e.rest.length < rounds by omega) (by omega) (by omega)
    refine ⟨(ts ++ us) ++ vs, f, ?_, ?_, ?_, hf⟩
    · rw [readMany_cons (read_seq hcomma hr) (hpast.trans hpast') (by simp), hmany]
    · rw [core_append, core_append, hts, hus]
      exact .cons ht hvs
    · exact ((hpast.trans hpast').trans hpast'').congr (by rw [hf, hc])

theorem read_listed {ps : List (List Char × Ty)} (hps : ReadableParams ps)
    (hc : c.rest = allTyped ps ++ ')' :: k) (hlen : c.rest.length < bound)
    (hdepth : 4 * (allTyped ps).length ≤ depth + 2) :
    ∃ ts d, readForm bound (depth + 2) (opt (commaSep parameter ++ opt (mark ","))) [] c =
        some (ts, d) ∧ AreParameters ps (core ts) ∧ c.Past (allTyped ps) d ∧ d.rest = ')' :: k := by
  have hbound : 0 < bound := by omega
  cases ps with
  | nil =>
    have hstands : (Head.mark ')').Stands c.rest := Head.stands_mark (by decide) hc
    refine ⟨[], c, read_opt_none ?_, .nil, .refl c, hc⟩
    exact hstands.read_eq_none hbound (by decide) []
  | cons p ps =>
    obtain ⟨hn, hn', hread⟩ := hps p List.mem_cons_self
    obtain ⟨m, hm, hk⟩ := stands_furtherTyped ps k
    have hc' : c.rest = [] ++ (p.1 ++ ':' :: ' ' :: (p.2.written ++ (furtherTyped ps ++ ')' :: k))) := by
      simpa [allTyped, typed] using hc
    simp only [allTyped, typed, List.length_append, List.length_cons] at hdepth
    obtain ⟨ts, t, d, hr, hts, ht, hpast, hd⟩ := read_parameter hn hn' hread (.inl rfl) hc' hk hm hlen
      (show 4 * p.2.written.length ≤ depth + 2 by omega)
    have hshort := Nat.lt_of_le_of_lt hpast.length_le hlen
    obtain ⟨us, e, hmany, hus, hpast', he⟩ := readMany_parameters
      (fun q hq => hps q (List.mem_cons_of_mem _ hq)) hd hshort hshort
      (show 4 * (furtherTyped ps).length ≤ depth + 2 by omega)
    have hmany' : readForm bound (depth + 2) (many (mark "," ++ parameter)) [] d = some (us, e) :=
      congrArg some hmany
    have hstands : (Head.mark ')').Stands e.rest := Head.stands_mark (by decide) he
    have hcomma : readForm bound (depth + 2) (opt (mark ",")) [] e = some ([], e) :=
      read_opt_none (hstands.read_eq_none hbound (by decide) [])
    refine ⟨_, e, read_opt_some (read_seq (read_seq hr hmany') hcomma), ?_, hpast.trans hpast', he⟩
    rw [List.append_nil, core_append, hts]
    exact .cons ht hus

theorem read_parameters {ps : List (List Char × Ty)} (hps : ReadableParams ps)
    (hc : c.rest = '(' :: (allTyped ps ++ ')' :: k)) (hlen : c.rest.length < bound)
    (hdepth : 4 * (allTyped ps).length ≤ depth + 2) (left : List Tree) :
    ∃ ts d, readForm bound (depth + 3) (nest .parameters) left c =
        some ([.node none .formalParameters c.place ts], d) ∧
      AreParameters ps (core ts) ∧ c.Past ('(' :: (allTyped ps ++ [')'])) d ∧ d.rest = k := by
  have hbound : 0 < bound := by omega
  have hsolid : isSolid c.rest = true := by
    rw [hc]
    rfl
  obtain ⟨ts, d₁, hopen, hts, hpast₁, hd₁⟩ := read_mark (depth + 2) [] hbound hc (.inl rfl) (by decide)
    "(" (by decide) []
  obtain ⟨us, d₂, hr, hus, hpast₂, hd₂⟩ := read_listed hps hd₁
    (Nat.lt_of_le_of_lt hpast₁.length_le hlen) hdepth
  obtain ⟨vs, d₃, hclose, hvs, hpast₃, hd₃⟩ := read_mark (depth + 2) [] hbound hd₂ (.inl rfl) (by decide)
    ")" (by decide) []
  have hnode : readForm bound (depth + 2) parameters left c = some (_, d₃) :=
    read_node (readTrivia_of_isSolid bound hsolid) (read_seq (read_seq hopen hr) hclose)
  refine ⟨_, d₃, hnode, ?_, ?_, hd₃⟩
  · rw [core_append, core_append, hts, hvs, List.nil_append, List.append_nil]
    exact hus
  · simpa using (hpast₁.trans hpast₂).trans hpast₃

end Lists

/-- A text begins as types do: with a bracket, or with a name that a mark follows if anything does. -/
def Opens (s : List Char) : Prop :=
  (∃ m ∈ ['(', '{'], ∃ k, s = m :: k) ∨
    ∃ n k, s = n ++ k ∧ isName n = true ∧ (k = [] ∨ ∃ m, (Head.mark m).Stands k)

theorem mem_plainMarks_of_opens {m : Char} (hm : m ∈ ['(', '{']) : m ∈ plainMarks := by
  rcases List.mem_cons.mp hm with rfl | hm
  · decide
  · rw [List.mem_singleton.mp hm]
    decide

theorem Head.Stands.append {m : Char} {s : List Char} (h : (Head.mark m).Stands s) (k : List Char) :
    (Head.mark m).Stands (s ++ k) := by
  obtain ⟨gap, ds, hgap, rfl, hm, s, rfl⟩ := h
  exact ⟨gap, m :: s ++ k, hgap, List.append_assoc _ _ _, hm, s ++ k, rfl⟩

theorem Opens.cases {s k : List Char} (h : Opens s) {m : Char} (hk : (Head.mark m).Stands k) :
    (∃ o ∈ ['(', '{'], ∃ k', s ++ k = o :: k') ∨
      ∃ n k' m', s ++ k = n ++ k' ∧ isName n = true ∧ (Head.mark m').Stands k' := by
  rcases h with ⟨o, ho, s, rfl⟩ | ⟨n, s, rfl, hn, rfl | ⟨m', hs⟩⟩
  · exact .inl ⟨o, ho, s ++ k, rfl⟩
  · exact .inr ⟨n, k, m, by rw [List.append_nil], hn, hk⟩
  · exact .inr ⟨n, s ++ k, m', List.append_assoc _ _ _, hn, hs.append k⟩

theorem Opens.append {s k : List Char} (h : Opens s) {m : Char} (hk : (Head.mark m).Stands k) :
    Opens (s ++ k) := by
  rcases h.cases hk with h | ⟨n, k', m', heq, hn, hk'⟩
  · exact .inl h
  · exact .inr ⟨n, k', heq, hn, .inr ⟨m', hk'⟩⟩

theorem Opens.isSolid {s : List Char} (h : Opens s) (k : List Char) : isSolid (s ++ k) = true := by
  rcases h with ⟨m, hm, s, rfl⟩ | ⟨n, s, rfl, hn, -⟩
  · exact isSolid_mark (mem_plainMarks_of_opens hm) _
  · rw [List.append_assoc]
    exact isSolid_name hn _

theorem Opens.ne_nil {s : List Char} (h : Opens s) : s ≠ [] := by
  rcases h with ⟨m, -, s, rfl⟩ | ⟨n, s, rfl, hn, -⟩
  · exact List.cons_ne_nil _ _
  · obtain ⟨c, cs, rfl, -⟩ := isName_iff.mp hn
    exact List.cons_ne_nil _ _

section Returns

variable {bound depth : Nat} {c : Cursor} {n s k : List Char}

theorem typePredicate_none (hbound : 0 < bound) (e : Ending) (hn : isName n = true) {m : Char}
    (hk : (Head.mark m).Stands k) (hc : c.rest = n ++ k) (left : List Tree) :
    readForm bound depth (typePredicate e) left c = none := by
  have hsolid : isSolid c.rest = true := by
    rw [hc]
    exact isSolid_name hn k
  have hword : Head.marksBlock plainMarks (word "is") = true := by decide
  have hname : EndsBehind bound depth (alt (leaf .thisWord (.word "this".toList))
      (leaf .identifier (.name []))) c k :=
    ((endsBehind_word hn hk.endsName hc "this").node hsolid _).alt
      ((endsBehind_name hn hk.endsName hc).node hsolid _)
  refine read_node_none (readTrivia_of_isSolid bound hsolid) (read_seq_none_left ?_)
  refine (hname.field .name).seq_none (fun left d hd => ?_) []
  exact (hd ▸ hk).read_eq_none hbound (Head.blocks_of_mem hword hk.mem_plainMarks) left

theorem assertsClause_none (hbound : 0 < bound) (e : Ending) (hn : isName n = true) {m : Char}
    (hk : (Head.mark m).Stands k) (hc : c.rest = n ++ k) (left : List Tree) :
    readForm bound depth (assertsClause e) left c = none := by
  have hsolid : isSolid c.rest = true := by
    rw [hc]
    exact isSolid_name hn k
  have hclause : Head.marksBlock plainMarks (oneOf [typePredicate e,
      leaf .thisWord (.word "this".toList), leaf .identifier (.name ["is".toList])]) = true := by
    cases e <;> decide
  refine read_node_none (readTrivia_of_isSolid bound hsolid) ?_
  refine (endsBehind_word hn hk.endsName hc "asserts").seq_none (fun left d hd => ?_) []
  exact (hd ▸ hk).read_eq_none hbound (Head.blocks_of_mem hclause hk.mem_plainMarks) left

/-- What a callable returns is no predicate. -/
theorem read_returns {e : Ending} (hbound : 0 < bound) (hs : Opens s) {m : Char}
    (hk : (Head.mark m).Stands k) (hc : c.rest = ' ' :: (s ++ k)) :
    readForm bound depth (oneOf [assertsClause e, typePredicate e, nest (.type 0 e)]) [] c =
      readForm bound depth (nest (.type 0 e)) [] c := by
  obtain ⟨us, d, htrivia, -, -, hd⟩ := readTrivia_gap hbound hc (.inr rfl) (hs.isSolid k)
  have hsolid : isSolid d.rest = true := by
    rw [hd]
    exact hs.isSolid k
  have hnone : readForm bound depth (assertsClause e) [] d = none ∧
      readForm bound depth (typePredicate e) [] d = none := by
    rcases hs.cases hk with ⟨o, ho, k', hs⟩ | ⟨n, k', m', hs, hn, hk'⟩
    · have hasserts : Head.marksBlock ['(', '{'] (assertsClause e) = true := by
        cases e <;> decide
      have hpredicate : Head.marksBlock ['(', '{'] (typePredicate e) = true := by
        cases e <;> decide
      have hstands : (Head.mark o).Stands d.rest :=
        Head.stands_mark (mem_plainMarks_of_opens ho) (hd.trans hs)
      exact ⟨hstands.read_eq_none hbound (Head.blocks_of_mem hasserts ho) [],
        hstands.read_eq_none hbound (Head.blocks_of_mem hpredicate ho) []⟩
    · exact ⟨assertsClause_none hbound e hn hk' (hd.trans hs) [],
        typePredicate_none hbound e hn hk' (hd.trans hs) []⟩
  have hasserts : readForm bound depth (assertsClause e) [] c = none :=
    (read_node_behind htrivia hsolid).trans (congrArg _ hnone.1)
  have hpredicate : readForm bound depth (typePredicate e) [] c = none :=
    (read_node_behind htrivia hsolid).trans (congrArg _ hnone.2)
  exact (read_alt_right hasserts).trans (read_alt_right hpredicate)

end Returns

section Callables

theorem resolve_parameters {ps : List (List Char × Ty)} {ts : List Tree} {b : Nat}
    (h : AreParameters ps ts) (hb : Ty.spanParams (ps.map (·.2)) ≤ b) :
    (ts.map fun p => match p.child? .typing with
      | some ascription => resolve b ascription
      | none => .dynamic) = ps.map (·.2) := by
  induction h with
  | nil => rfl
  | cons hp _ ih =>
    obtain ⟨a, ha, q, cs, rfl, hdenotes⟩ := hp.typing
    rw [List.map_cons, Ty.spanParams] at hb
    rw [List.map_cons, List.map_cons, ih (by omega), ha]
    exact congrArg (· :: _) (hdenotes b (by omega))

theorem AreParameters.positional {ps : List (List Char × Ty)} {ts : List Tree}
    (h : AreParameters ps (core ts)) (l : Option Label) (p : Position) :
    (Tree.node l .formalParameters p ts).named.filter Tree.isPositional = core ts := by
  have hall : ∀ t ∈ core ts, t.isNamed = true ∧ t.isPositional = true := by
    generalize core ts = us at h
    induction h with
    | nil => exact fun _ ht => nomatch ht
    | cons hp _ ih =>
      intro t ht
      rcases List.mem_cons.mp ht with rfl | ht
      · exact ⟨hp.isNamed, hp.isPositional⟩
      · exact ih t ht
  rw [named_eq_core, List.filter_filter, List.filter_eq_self]
  intro t ht
  rw [(hall t ht).1, (hall t ht).2]
  rfl

theorem denotes_function {ps : List (List Char × Ty)} {ts cs : List Tree} {q : Position} {n : Nat}
    {r : Tree} {T : Ty} (hps : AreParameters ps (core ts)) (hr : Denotes n r T)
    (hcs : core cs = [.node (some .parameters) .formalParameters q ts, r])
    (hlabel : r.label? = some .returns) (p : Position) :
    Denotes (1 + max (Ty.spanParams (ps.map (·.2))) n) (.node none .functionType p cs)
      (.function (ps.map (·.2)) T) := by
  intro budget hn
  obtain ⟨b, rfl, hb⟩ := succ_of_lt
    (show max (Ty.spanParams (ps.map (·.2))) n + 1 ≤ budget by omega)
  have hparameters : (Tree.node none .functionType p cs).parameters = core ts := by
    rw [Tree.parameters, child?_eq_core, hcs]
    exact hps.positional (some .parameters) q
  have hreturns : (Tree.node none .functionType p cs).child? .returns = some r := by
    have hfirst : (Tree.node (some .parameters) .formalParameters q ts).label? ≠ some .returns :=
      by simp [Tree.label?]
    rw [child?_eq_core, hcs]
    simp [hfirst, hlabel]
  rw [resolve, Tree.kind?, signatureWith, hparameters, hreturns]
  exact congrArg₂ Ty.function (resolve_parameters hps (by omega)) (hr b (by omega))

/-- A callable with the given parameters, as it is written. -/
def arrow (ps : List (List Char × Ty)) (s : List Char) : List Char :=
  '(' :: (allTyped ps ++ ')' :: ' ' :: '=' :: '>' :: ' ' :: s)

theorem operand_function {bound depth : Nat} {e : Ending} {c : Cursor} {ps : List (List Char × Ty)}
    {s k : List Char} {n : Nat} {T : Ty} (hps : ReadableParams ps) (hbalanced : Balanced (allTyped ps))
    (hread : Readable s n T) (hs : Opens s) (hc : c.rest = arrow ps s ++ k) {m : Char}
    (hk : (Head.mark m).Stands k) (hm : m ∈ closers) (hlen : c.rest.length < bound)
    (hdepth : 4 * (arrow ps s).length ≤ depth + 1) :
    ReadsType (readForm bound depth (typeOperand e) [] c) c [] (arrow ps s) k
      (1 + max (Ty.spanParams (ps.map (·.2))) n) (.function (ps.map (·.2)) T) := by
  have hbound : 0 < bound := by omega
  have hc' : c.rest = '(' :: (allTyped ps ++ ')' :: (' ' :: '=' :: '>' :: ' ' :: (s ++ k))) := by
    simpa [arrow] using hc
  have hstands : (Head.mark '(').Stands c.rest := Head.stands_mark (by decide) hc'
  have hsolid : isSolid c.rest = true := by
    rw [hc']
    rfl
  simp only [arrow, List.length_append, List.length_cons] at hdepth
  have hskip : (Head.mark '(').skips 2 (typeOperand e) = true := by
    cases e <;> decide
  have htypeParameters : readForm bound depth (opt (field .typeParameters (nest .typeParameters))) [] c =
      some ([], c) :=
    read_opt_none (hstands.read_eq_none hbound (by decide) [])
  have hahead : readForm bound depth (ahead arrowAhead) [] c = some ([], c) := by
    refine read_ahead ?_
    have harrow : arrowAhead ('(' :: (allTyped ps ++ ')' :: (' ' :: '=' :: '>' :: ' ' :: (s ++ k)))) =
        startsWith ('=' :: '>' :: ' ' :: (s ++ k)) ['=', '>'] :=
      arrowAhead_parens hbalanced (.inr rfl) rfl rfl (List.cons_ne_nil _ _)
    rw [← List.nil_append c.rest, dropTrivia_gap hbound (.inl rfl) hsolid, hc', harrow]
    rfl
  obtain ⟨d, rfl⟩ : ∃ d, depth = d + 3 := ⟨depth - 3, by omega⟩
  obtain ⟨ts, d₁, hparameters, hts, hpast₁, hd₁⟩ := read_parameters hps hc' hlen
    (show 4 * (allTyped ps).length ≤ d + 2 by omega) []
  have hshort := hpast₁.length_le
  obtain ⟨us, d₂, harrow, hus, hpast₂, hd₂⟩ := read_token (d + 3) [' '] (s := ['=', '>']) hbound hd₁
    (.inr rfl) rfl (take?_mark (by simp)) []
  have hshort₂ := hpast₂.length_le
  obtain ⟨vs, r, d₃, hr, hvs, hpast₃, hd₃, hplain, hdenotes⟩ := hread e (.inr rfl) hd₂ hk hm
    (show d₂.rest.length < bound by omega) (show 4 * s.length ≤ d + 3 by omega)
  have hreturns := (read_returns hbound hs hk hd₂).trans hr
  have hlabel : (r.play .returns).label? = some .returns ∧ (r.play .returns).isNamed = true := by
    obtain ⟨kind, p, cs, rfl, hkind⟩ := hplain
    simp [Tree.play, hkind, Tree.label?, Tree.isNamed]
  have hcore : core ([] ++ [] ++ [Tree.node none .formalParameters c.place ts].map (·.play .parameters)
      ++ us ++ vs.map (·.play .returns)) =
      [.node (some .parameters) .formalParameters c.place ts, r.play .returns] := by
    rw [core_append, core_append, hus.core_token, (hvs.play .returns).core_eq hlabel.2]
    rfl
  refine ⟨_, _, d₃, ?_, (blanks_nil _).gives _, ?_, hd₃, ⟨_, _, _, rfl, by decide⟩,
    denotes_function hts (hdenotes.play hplain .returns) hcore hlabel.1 c.place⟩
  · rw [hstands.read_behind hbound hskip]
    refine read_alt_left (read_node (readTrivia_of_isSolid bound hsolid) ?_)
    exact read_seq (read_seq (read_seq (read_seq htypeParameters hahead)
      (read_field .parameters hparameters)) harrow) (read_field .returns hreturns)
  · exact ((hpast₁.trans hpast₂).trans hpast₃).congr (by rw [hd₃, hc, List.nil_append])

end Callables

end UsageTypes
