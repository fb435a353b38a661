import UsageTypes.Proofs.Readings
import UsageTypes.Proofs.WrittenTypes

/-! Written types are read back. A type in its written form is read as an operand and what goes on
with it; the tree that is built stands for the type. -/

namespace UsageTypes

open Grammar Forms

/-- A tree stands for a type if so many nodes above one another are looked at. -/
def Denotes (n : Nat) (t : Tree) (T : Ty) : Prop :=
  ∀ budget, n ≤ budget → resolve budget t = T

section Denotations

variable {n : Nat} {t : Tree} {T : Ty}

theorem resolve_node (budget : Nat) (l l' : Option Label) (k : Kind) (p : Position) (cs : List Tree) :
    resolve budget (.node l k p cs) = resolve budget (.node l' k p cs) := by
  cases budget with
  | zero =>
    rw [resolve, resolve]
    rfl
  | succ budget =>
    rw [resolve, resolve]
    rfl

theorem Denotes.play (h : Denotes n t T) (ht : t.IsPlain) (l : Label) : Denotes n (t.play l) T := by
  obtain ⟨k, p, cs, rfl, hk⟩ := ht
  intro budget hn
  rw [Tree.play, if_neg hk, resolve_node budget (some l) none]
  exact h budget hn

theorem Denotes.mono {m : Nat} (h : Denotes n t T) (hnm : n ≤ m) : Denotes m t T :=
  fun budget hm => h budget (Nat.le_trans hnm hm)

theorem succ_of_lt {n budget : Nat} (h : n + 1 ≤ budget) : ∃ b, budget = b + 1 ∧ n ≤ b :=
  ⟨budget - 1, by omega, by omega⟩

theorem named_of_core {l : Option Label} {k : Kind} {p : Position} {cs : List Tree}
    (hcs : core cs = [t]) (ht : t.isNamed = true) : (Tree.node l k p cs).named = [t] := by
  rw [named_eq_core, hcs]
  simp [ht]

theorem denotes_wrapper (h : Denotes n t T) (ht : t.isNamed = true) {k : Kind}
    (hk : k = .typeAscription ∨ k = .parenthesizedType) (l : Option Label) (p : Position)
    {cs : List Tree} (hcs : core cs = [t]) : Denotes (n + 1) (.node l k p cs) T := by
  intro budget hn
  obtain ⟨b, rfl, hb⟩ := succ_of_lt hn
  rcases hk with rfl | rfl
  · simp only [resolve, Tree.kind?, named_of_core hcs ht, h b hb]
  · simp only [resolve, Tree.kind?, named_of_core hcs ht, h b hb]

theorem denotes_array (h : Denotes n t T) (ht : t.isNamed = true) (l : Option Label) (p : Position)
    {cs : List Tree} (hcs : core cs = [t]) : Denotes (n + 1) (.node l .arrayType p cs) (.array T) := by
  intro budget hn
  obtain ⟨b, rfl, hb⟩ := succ_of_lt hn
  simp only [resolve, Tree.kind?, named_of_core hcs ht, h b hb]

theorem denotes_inter {u : Tree} {U : Ty} (h : Denotes n t T) (hu : Denotes n u U)
    (ht : t.isNamed = true) (hu' : u.isNamed = true) (l : Option Label) (p : Position)
    {cs : List Tree} (hcs : core cs = [t, u]) :
    Denotes (n + 1) (.node l .intersectionType p cs) (.interOf [T, U]) := by
  intro budget hn
  obtain ⟨b, rfl, hb⟩ := succ_of_lt hn
  have hnamed : (Tree.node l .intersectionType p cs).named = [t, u] := by
    rw [named_eq_core, hcs]
    simp [ht, hu']
  simp only [resolve, Tree.kind?, hnamed, List.map_cons, List.map_nil, h b hb, hu b hb]

end Denotations

/-- A reading goes over a gap and a text, and gives a node that stands for a type. -/
def ReadsType (r : Reading) (c : Cursor) (gap s k : List Char) (n : Nat) (T : Ty) : Prop :=
  ∃ ts t d, r = some (ts, d) ∧ Gives gap ts t ∧ c.Past (gap ++ s) d ∧ d.rest = k ∧ t.IsPlain ∧
    Denotes n t T

theorem denotes_text {k : Kind} (hk : k ∉ [.typeAscription, .parenthesizedType, .predefinedType,
      .arrayType, .genericType, .objectType, .interfaceBody, .intersectionType, .functionType,
      .methodSignature]) (p : Position) (cs : List Tree) :
    Denotes 1 (.node none k p cs) (.named (Tree.textAll cs)) := by
  intro budget hn
  obtain ⟨b, rfl, -⟩ := succ_of_lt hn
  simp only [resolve, Tree.kind?]
  split <;> simp_all [Tree.text]

theorem denotes_keyword (w : String) (p : Position) :
    Denotes 1 (.node none .predefinedType p [.token none w]) (keywordType w) := by
  intro budget hn
  obtain ⟨b, rfl, -⟩ := succ_of_lt hn
  simp [resolve, Tree.kind?, Tree.text, Tree.textAll]

/-- Words that are types by themselves; two of them are read as the open type. -/
def typeKeywords : List String :=
  ["any", "number", "boolean", "string", "symbol", "void", "unknown", "never", "object"]

def literalWords : List (String × Kind) :=
  [("true", .trueWord), ("false", .falseWord), ("null", .nullWord), ("undefined", .undefinedWord)]

/-- Words that begin another type than a reference. -/
def operandWordsOfTypes : List (List Char) :=
  typeWords ++ (typeKeywords ++ literalWords.map (·.1) ++ ["this"]).map String.toList

section Atoms

variable {bound depth : Nat} (hbound : 0 < bound) (e : Ending) {c : Cursor} {k : List Char}

include hbound

theorem operand_keyword {w : String} (hw : w ∈ typeKeywords) (hk : endsName k = true)
    (hc : c.rest = w.toList ++ k) :
    ReadsType (readForm bound depth (typeOperand e) [] c) c [] w.toList k 1 (keywordType w) := by
  have hname : ∀ w ∈ typeKeywords, isName w.toList = true := by decide
  have hskip : ∀ w ∈ typeKeywords, (Head.word w.toList).skips 13 (typeOperand e) = true := by
    cases e <;> decide
  have hunique : ∀ w ∈ typeKeywords,
      (Head.word w.toList).blocks (word "unique" ++ word "symbol") = true := by
    decide
  have hstands := stands_word [] hc (.inl rfl) hk (hname w hw)
  have hsolid : isSolid c.rest = true := by
    rw [hc]
    exact isSolid_name (hname w hw) k
  obtain ⟨ts, d, hr, hts, hpast, hrest⟩ := read_words depth [] hbound hc
    (.inl rfl) hk (hname w hw) hw []
  obtain rfl := hts.eq_singleton
  have hunique' : readForm bound depth (word "unique" ++ word "symbol") [] c = none :=
    hstands.read_eq_none hbound (hunique w hw) []
  have hinner := (read_alt_right hunique').trans hr
  refine ⟨_, _, d, ?_, (blanks_nil _).gives _, hpast, hrest, ⟨_, c.place, _, rfl, by decide⟩,
    denotes_keyword w _⟩
  rw [hstands.read_behind hbound (hskip w hw)]
  exact read_alt_left (read_node (readTrivia_of_isSolid bound hsolid) hinner)

theorem operand_literal {w : String} {kind : Kind} (hw : (w, kind) ∈ literalWords)
    (hk : endsName k = true) (hc : c.rest = w.toList ++ k) :
    ReadsType (readForm bound depth (typeOperand e) [] c) c [] w.toList k 1 (.named w) := by
  have hname : ∀ w ∈ literalWords, isName w.1.toList = true := by decide
  have hskip : ∀ w ∈ literalWords, (Head.word w.1.toList).skips 7 (typeOperand e) = true := by
    cases e <;> decide
  have hwname := hname _ hw
  have hstands := stands_word [] hc (.inl rfl) hk hwname
  have hsolid : isSolid c.rest = true := by
    rw [hc]
    exact isSolid_name hwname k
  obtain ⟨ts, d, p, hr, hts, hpast, hrest⟩ := read_leaf depth [] hbound hc
    (.inl rfl) (isSolid_name hwname k) (take?_word_self hwname hk) kind []
  obtain rfl := hts.eq_singleton
  rw [String.ofList_toList] at hr
  have htext : Tree.textAll [.node none kind p [.token none w]] = w := by
    simp [Tree.textAll, Tree.text]
  have hdenotes := denotes_text (k := .literalType) (by decide) c.place
    [.node none kind p [.token none w]]
  rw [htext] at hdenotes
  refine ⟨_, _, d, ?_, (blanks_nil _).gives _, hpast, hrest, ⟨_, _, _, rfl, by decide⟩, hdenotes⟩
  rw [hstands.read_behind hbound (hskip _ hw)]
  refine read_alt_left (read_node (readTrivia_of_isSolid bound hsolid) ?_)
  have hcases : (w, kind) = ("true", .trueWord) ∨ (w, kind) = ("false", .falseWord) ∨
      (w, kind) = ("null", .nullWord) ∨ (w, kind) = ("undefined", .undefinedWord) := by
    simpa [literalWords] using hw
  -- a minus, numbers and strings come before the four words
  rcases hcases with h | h | h | h
  · obtain ⟨rfl, rfl⟩ := Prod.mk.inj h
    rw [hstands.read_behind (n := 3) hbound (by decide)]
    exact read_alt_left hr
  · obtain ⟨rfl, rfl⟩ := Prod.mk.inj h
    rw [hstands.read_behind (n := 4) hbound (by decide)]
    exact read_alt_left hr
  · obtain ⟨rfl, rfl⟩ := Prod.mk.inj h
    rw [hstands.read_behind (n := 5) hbound (by decide)]
    exact read_alt_left hr
  · obtain ⟨rfl, rfl⟩ := Prod.mk.inj h
    rw [hstands.read_behind (n := 6) hbound (by decide)]
    exact hr

theorem operand_this (hk : endsName k = true) (hc : c.rest = "this".toList ++ k) :
    ReadsType (readForm bound depth (typeOperand e) [] c) c [] "this".toList k 1 (.named "this") := by
  have hname : isName "this".toList = true := by decide
  have hskip : (Head.word "this".toList).skips 14 (typeOperand e) = true := by
    cases e <;> decide
  have hstands := stands_word [] hc (.inl rfl) hk hname
  obtain ⟨ts, d, p, hr, hts, hpast, hrest⟩ := read_leaf depth [] hbound hc
    (.inl rfl) (isSolid_name hname k) (take?_word_self hname hk) .thisType []
  refine ⟨ts, _, d, ?_, hts, hpast, hrest, ⟨_, _, _, rfl, by decide⟩,
    denotes_text (by decide) _ _⟩
  rw [hstands.read_behind hbound hskip]
  exact read_alt_left hr

/-- The qualified name that a reference could begin is missing its dot. -/
theorem nestedTypeName_eq_none {n : List Char} (hn : isName n = true) (hn' : n ∉ typeWords)
    {m : Char} (hk : (Head.mark m).Stands k) (hc : c.rest = n ++ k) (left : List Tree) :
    readForm bound depth nestedTypeName left c = none := by
  have hsolid : isSolid c.rest = true := by
    rw [hc]
    exact isSolid_name hn k
  have hdot : Head.marksBlock plainMarks (mark ".") = true := by decide
  have hqualified : Head.marksBlock plainMarks (wrap .nestedIdentifier none (fun _ => true)
      (mark "." ++ leaf .identifier (.name []) ++ look (mark "."))) = true := by
    decide
  have hm := hk.mem_plainMarks
  obtain ⟨ts, d, p, hr, -, -, rfl⟩ := read_leaf depth [] hbound hc
    (.inl rfl) (isSolid_name hn k) (take?_name hn hk.endsName hn') .identifier []
  have hqualifier : readForm bound depth qualifier [] c = some (ts, d) := by
    refine read_grow [] (readTrivia_of_isSolid bound hsolid) hr (readGrow_of_none ?_ bound)
    exact hk.read_eq_none hbound (Head.blocks_of_mem hqualified hm) ts
  refine read_node_none (readTrivia_of_isSolid bound hsolid) (read_seq_none_left ?_)
  exact read_seq_none (read_field _ hqualifier) (hk.read_eq_none hbound (Head.blocks_of_mem hdot hm) [])

theorem operand_named {n : List Char} (hn : isName n = true) (hn' : n ∉ operandWordsOfTypes)
    {m : Char} (hk : (Head.mark m).Stands k) (hc : c.rest = n ++ k) :
    ReadsType (readForm bound depth (typeOperand e) [] c) c [] n k 1 (.named (String.ofList n)) := by
  have hskip : (Head.name operandWordsOfTypes).skips 18 (typeOperand e) = true := by
    cases e <;> decide
  have hblocked : Head.marksBlock plainMarks (field .typeArguments (nest .typeArguments)) = true := by
    decide
  have hsolid : isSolid c.rest = true := by
    rw [hc]
    exact isSolid_name hn k
  have hstands : (Head.name operandWordsOfTypes).Stands c.rest :=
    ⟨[], c.rest, .inl rfl, rfl, n, k, hc, hn, hn', hk.endsName⟩
  have hwords : n ∉ typeWords := fun h => hn' (List.mem_append_left _ h)
  have hnested : ∀ left, readForm bound depth nestedTypeName left c = none :=
    nestedTypeName_eq_none hbound hn hwords hk hc
  obtain ⟨ts, d, p, hr, hts, hpast, rfl⟩ := read_leaf depth [] hbound hc
    (.inl rfl) (isSolid_name hn k) (take?_name hn hk.endsName hwords) .typeIdentifier []
  -- what follows the name is no list of type arguments
  have hgeneric : readForm bound depth (node .genericType (field .name (alt nestedTypeName
      (leaf .typeIdentifier (.name typeWords))) ++ field .typeArguments (nest .typeArguments))) []
      c = none := by
    have hplain := (read_alt_right (hnested [])).trans hr
    exact read_node_none (readTrivia_of_isSolid bound hsolid) (read_seq_none (read_field _ hplain)
      (hk.read_eq_none hbound (Head.blocks_of_mem hblocked hk.mem_plainMarks) []))
  refine ⟨ts, _, d, ?_, hts, hpast, rfl, ⟨_, _, _, rfl, by decide⟩, ?_⟩
  · rw [hstands.read_behind hbound hskip]
    exact (read_alt_right hgeneric).trans ((read_alt_right (hnested [])).trans hr)
  · have := denotes_text (k := .typeIdentifier) (by decide) p [.token none (String.ofList n)]
    rwa [show Tree.textAll [.token none (String.ofList n)] = String.ofList n by
      simp [Tree.textAll, Tree.text]] at this

theorem operand_reference {text : String} (h : (Ty.named text).isWritable = true) {m : Char}
    (hk : (Head.mark m).Stands k) (hc : c.rest = text.toList ++ k) :
    ReadsType (readForm bound depth (typeOperand e) [] c) c [] text.toList k 1 (.named text) := by
  rw [Ty.isWritable, Bool.and_eq_true] at h
  have htaken : text.toList ∉ takenWords := by simpa using h.2
  by_cases hkey : text ∈ typeKeywords
  · have hnamed : ∀ w ∈ typeKeywords, w.toList ∉ takenWords → keywordType w = .named w := by
      decide
    rw [← hnamed text hkey htaken]
    exact operand_keyword hbound e hkey hk.endsName hc
  · by_cases hliteral : ∃ kind, (text, kind) ∈ literalWords
    · obtain ⟨kind, hliteral⟩ := hliteral
      exact operand_literal hbound e hliteral hk.endsName hc
    · by_cases hthis : text = "this"
      · subst hthis
        exact operand_this hbound e hk.endsName hc
      · have hother : text.toList ∉ operandWordsOfTypes := by
          intro hmem
          rcases List.mem_append.mp hmem with hmem | hmem
          · exact htaken (List.mem_append_left _ hmem)
          · obtain ⟨w, hw, hwt⟩ := List.mem_map.mp hmem
            obtain rfl := String.toList_inj.mp hwt
            simp [hkey, hthis] at hw
            exact hliteral hw
        have : ReadsType (readForm bound depth (typeOperand e) [] c) c [] text.toList k 1
            (.named (String.ofList text.toList)) := operand_named hbound e h.1 hother hk hc
        rwa [String.ofList_toList] at this

end Atoms

theorem autoSemicolon_mark {m : Char} {bound : Nat} {c : Cursor} (h : (Head.mark m).Stands c.rest)
    (hm : m ≠ '}') : autoSemicolon bound c = none := by
  obtain ⟨gap, ds, hgap, hrest, hb⟩ := h
  have hsolid := hb.isSolid
  obtain ⟨hmem, k, rfl⟩ := hb
  cases bound with
  | zero => rfl
  | succ bound =>
    rw [autoSemicolon, hrest, drop_countWhile_inline hgap hsolid]
    split
    · rename_i h
      cases h
    · rename_i h
      exact absurd (List.cons.inj h).1 hm
    · exact absurd hsolid (by simp_all [isSolid, isBlank])
    · rw [commentLength_of_isSolid hsolid]

/-- Before a mark no semicolon is implied, and types may go on. -/
theorem read_guard {m : Char} {bound depth : Nat} {c : Cursor} (h : (Head.mark m).Stands c.rest)
    (hm : m ≠ '}') (e : Ending) (left : List Tree) :
    readForm bound depth e.guard left c = some ([], c) := by
  cases e with
  | never => rfl
  | declaration => simp [readForm, Ending.guard, Grammar.read, autoSemicolon_mark h hm]
  | expression =>
    have h' : (Head.mark m).Stands ({ c with afterOperand := true } : Cursor).rest := h
    simp [readForm, Ending.guard, Grammar.read, autoSemicolon_mark h' hm]

/-- What may go on with a type. -/
def growth (bound depth strength : Nat) (e : Ending) : List Tree → Cursor → Reading :=
  readForm bound depth (e.guard ++ typeContinuation strength e)

/-- A text is read as an operand and what goes on with it, and gives a node that stands for a type.
Whether more goes on with it is open. -/
def Grows (bound depth strength : Nat) (e : Ending) (c : Cursor) (gap s k : List Char) (n : Nat)
    (T : Ty) : Prop :=
  ∃ us c₀ t₀ c₁ t d rounds, readTrivia bound c = (us, c₀) ∧ Blanks gap us ∧
    readForm bound depth (typeOperand e) [] c₀ = some ([t₀], c₁) ∧
    readGrow (growth bound depth strength e) bound [t₀] c₁ =
      readGrow (growth bound depth strength e) rounds [t] d ∧
    c.Past (gap ++ s) d ∧ d.rest = k ∧ k.length < rounds ∧ t.IsPlain ∧ Denotes n t T

section Growth

variable {bound depth strength : Nat} {e : Ending} {c : Cursor} {gap s k : List Char} {n : Nat}
  {T : Ty}

theorem grows_of_operand (hc : c.rest = gap ++ (s ++ k)) (hgap : IsGap gap)
    (hsolid : isSolid (s ++ k) = true) (hlen : c.rest.length < bound)
    (h : ∀ d : Cursor, d.rest = s ++ k →
      ReadsType (readForm bound depth (typeOperand e) [] d) d [] s k n T) :
    Grows bound depth strength e c gap s k n T := by
  have hbound : 0 < bound := by omega
  obtain ⟨us, c₀, htrivia, hus, hpast, hc₀⟩ := readTrivia_gap hbound hc hgap hsolid
  obtain ⟨ts, t, d, hr, hts, hpast', hd, hplain, hdenotes⟩ := h c₀ hc₀
  obtain rfl := hts.eq_singleton
  refine ⟨us, c₀, t, d, t, d, bound, htrivia, hus, hr, rfl, ?_, hd, ?_, hplain, hdenotes⟩
  · exact hpast.trans hpast'
  · simp [hc] at hlen
    omega

theorem Grows.step {s' k' : List Char} {n' : Nat} {T' : Ty} (hk' : k'.length < k.length)
    (h : Grows bound depth strength e c gap s k n T)
    (hstep : ∀ t d, t.IsPlain → Denotes n t T → d.rest = k → ∃ t' d',
      growth bound depth strength e [t] d = some ([t'], d') ∧ d.Past s' d' ∧ d'.rest = k' ∧
        t'.IsPlain ∧ Denotes n' t' T') :
    Grows bound depth strength e c gap (s ++ s') k' n' T' := by
  obtain ⟨us, c₀, t₀, c₁, t, d, rounds, htrivia, hus, hr, hgrow, hpast, hd, hrounds, hplain,
    hdenotes⟩ := h
  obtain ⟨t', d', hstep, hpast', hd', hplain', hdenotes'⟩ := hstep t d hplain hdenotes hd
  obtain ⟨rounds, rfl⟩ : ∃ r, rounds = r + 1 := ⟨rounds - 1, by omega⟩
  refine ⟨us, c₀, t₀, c₁, t', d', rounds, htrivia, hus, hr, ?_, ?_, hd', by omega, hplain', hdenotes'⟩
  · rw [hgrow, readGrow_succ hstep]
  · rw [← List.append_assoc]
    exact hpast.trans hpast'

theorem Grows.array (hbound : 0 < bound)
    (h : Grows bound depth strength e c gap s ('[' :: ']' :: k) n T) :
    Grows bound depth strength e c gap (s ++ ['[', ']']) k (n + 1) (.array T) := by
  refine h.step (by simp only [List.length_cons]; omega) fun t d hplain hdenotes hd => ?_
  obtain ⟨kind, p, cs, rfl, hkind⟩ := hplain
  have hstands : (Head.mark '[').Stands d.rest := Head.stands_mark (by decide) hd
  obtain ⟨ts, d₁, hopen, hts, hpast₁, hd₁⟩ := read_mark depth [] hbound hd
    (.inl rfl) (by decide) "[" (by decide) []
  obtain ⟨us, d₂, hclose, hus, hpast₂, hd₂⟩ := read_mark depth [] hbound hd₁
    (.inl rfl) (by decide) "]" (by decide) []
  have hwrap := read_wrap .arrayType kind p cs (fun _ => true) rfl (read_seq hopen hclose)
  have hcore : core (.node none kind p cs :: (ts ++ us)) = [.node none kind p cs] := by
    rw [← List.singleton_append, core_append, core_append, hts, hus]
    rfl
  refine ⟨_, d₂, read_seq (read_guard hstands (by decide) e _) (read_alt_left hwrap),
    hpast₁.trans hpast₂, hd₂, ⟨_, _, _, rfl, by decide⟩, denotes_array hdenotes rfl none p hcore⟩

theorem Grows.inter (hbound : 0 < bound) {s' : List Char} {U : Ty}
    (h : Grows bound depth 0 e c gap s (' ' :: '&' :: ' ' :: (s' ++ k)) n T)
    (hu : ∀ d : Cursor, d.rest = ' ' :: (s' ++ k) →
      ReadsType (readForm bound depth (nest (.type 3 e)) [] d) d [' '] s' k n U) :
    Grows bound depth 0 e c gap (s ++ ' ' :: '&' :: ' ' :: s') k (n + 1) (.interOf [T, U]) := by
  refine h.step (by simp only [List.length_cons, List.length_append]; omega) fun t d hplain hdenotes hd => ?_
  obtain ⟨kind, p, cs, rfl, hkind⟩ := hplain
  have hstands : (Head.mark '&').Stands d.rest :=
    Head.stands_blank_mark (by decide) hd
  have hskip : (Head.mark '&').skips 2 (typeContinuation 0 e) = true := by
    cases e <;> decide
  have htake : Lexeme.take? (.operator ['&']) (['&'] ++ ' ' :: (s' ++ k)) = some 1 := rfl
  obtain ⟨ts, d₁, hop, hts, hpast₁, hd₁⟩ := read_token depth [' '] hbound hd
    (.inr rfl) rfl htake []
  obtain ⟨us, u, d₂, hr, hus, hpast₂, hd₂, ⟨kind', p', cs', rfl, -⟩, hu'⟩ := hu d₁ hd₁
  have hwrap := read_wrap .intersectionType kind p cs (fun _ => true) rfl (read_seq hop hr)
  have hcore : core (.node none kind p cs :: (ts ++ us)) =
      [.node none kind p cs, .node none kind' p' cs'] := by
    rw [← List.singleton_append, core_append, core_append, hts.core_token, hus.core_eq rfl]
    rfl
  have hgrowth : readForm bound depth (typeContinuation 0 e) [.node none kind p cs] d = _ :=
    (hstands.read_behind hbound hskip _).trans (read_alt_left hwrap)
  exact ⟨_, d₂, read_seq (read_guard hstands (by decide) e _) hgrowth, hpast₁.trans hpast₂, hd₂,
    ⟨_, _, _, rfl, by decide⟩, denotes_inter hdenotes hu' rfl rfl none p hcore⟩

/-- What may follow a type. -/
def closers : List Char := [')', ',', ';']

theorem blocks_growth {m : Char} (hm : m ∈ closers ∨ m = '&' ∧ strength = 3)
    (hstrength : strength = 0 ∨ strength = 3) :
    (Head.mark m).blocks (e.guard ++ typeContinuation strength e) = true := by
  have hloose : Head.marksBlock closers (e.guard ++ typeContinuation 0 e) = true := by
    cases e <;> decide
  have htight : Head.marksBlock closers (e.guard ++ typeContinuation 3 e) = true := by
    cases e <;> decide
  have hmember : (Head.mark '&').blocks (e.guard ++ typeContinuation 3 e) = true := by
    cases e <;> decide
  rcases hm with hm | ⟨rfl, rfl⟩
  · rcases hstrength with rfl | rfl
    · exact Head.blocks_of_mem hloose hm
    · exact Head.blocks_of_mem htight hm
  · exact hmember

theorem Grows.readsType (hbound : 0 < bound) (h : Grows bound depth strength e c gap s k n T) {m : Char}
    (hk : (Head.mark m).Stands k) (hm : m ∈ closers ∨ m = '&' ∧ strength = 3)
    (hstrength : strength = 0 ∨ strength = 3) :
    ReadsType (readForm bound (depth + 1) (nest (.type strength e)) [] c) c gap s k n T := by
  obtain ⟨us, c₀, t₀, c₁, t, d, rounds, htrivia, hus, hr, hgrow, hpast, rfl, -, hplain, hdenotes⟩ := h
  have hnone : growth bound depth strength e [t] d = none :=
    hk.read_eq_none hbound (blocks_growth hm hstrength) [t]
  rw [readGrow_of_none hnone] at hgrow
  have hread : readForm bound (depth + 1) (nest (.type strength e)) [] c = some (us ++ [t], d) :=
    read_grow [] htrivia hr hgrow
  exact ⟨_, t, d, hread, hus.gives t, hpast, rfl, hplain, hdenotes⟩

end Growth

end UsageTypes
