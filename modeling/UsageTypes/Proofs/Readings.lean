import UsageTypes.Proofs.Lookahead

/-! Readings of parts of the grammar, put together from readings of their parts. What is read is
described by the trees that matter: nodes, and what plays a role. -/

namespace UsageTypes

open Grammar Forms

/-- The reading of a part of the grammar, with that many rules within rules. -/
def readForm (bound depth : Nat) (g : Form) (left : List Tree) (c : Cursor) : Reading :=
  g.read bound (readRule grammar bound depth) left c

section Combinators

variable {bound depth : Nat} {a b g : Form} {left ts us : List Tree} {c d e : Cursor}

theorem read_seq (ha : readForm bound depth a left c = some (ts, d))
    (hb : readForm bound depth b left d = some (us, e)) :
    readForm bound depth (a ++ b) left c = some (ts ++ us, e) := by
  rw [readForm] at ha hb
  change Grammar.read bound _ (seq a b) left c = _
  simp only [Grammar.read, ha, hb]

theorem read_seq_none (ha : readForm bound depth a left c = some (ts, d))
    (hb : readForm bound depth b left d = none) :
    readForm bound depth (a ++ b) left c = none := by
  rw [readForm] at ha hb
  change Grammar.read bound _ (seq a b) left c = _
  simp only [Grammar.read, ha, hb]

theorem read_seq_none_left (ha : readForm bound depth a left c = none) :
    readForm bound depth (a ++ b) left c = none := by
  rw [readForm] at ha
  change Grammar.read bound _ (seq a b) left c = _
  simp only [Grammar.read, ha]

theorem read_alt_left {r : List Tree × Cursor} (ha : readForm bound depth a left c = some r) :
    readForm bound depth (alt a b) left c = some r := by
  rw [readForm] at ha
  simp only [readForm, Grammar.read, ha]

theorem read_alt_right (ha : readForm bound depth a left c = none) :
    readForm bound depth (alt a b) left c = readForm bound depth b left c := by
  rw [readForm] at ha
  simp only [readForm, Grammar.read, ha]

theorem read_opt_none (hg : readForm bound depth g left c = none) :
    readForm bound depth (opt g) left c = some ([], c) :=
  read_alt_right hg

theorem read_opt_some {r : List Tree × Cursor} (hg : readForm bound depth g left c = some r) :
    readForm bound depth (opt g) left c = some r :=
  read_alt_left hg

theorem read_field (l : Label) (hg : readForm bound depth g left c = some (ts, d)) :
    readForm bound depth (field l g) left c = some (ts.map (·.play l), d) := by
  rw [readForm] at hg
  simp only [readForm, Grammar.read, hg]

theorem read_node {k : Kind} (ht : readTrivia bound c = (ts, d))
    (hg : readForm bound depth g [] d = some (us, e)) :
    readForm bound depth (node k g) left c = some (ts ++ [.node none k d.place us], e) := by
  rw [readForm] at hg
  simp only [readForm, Grammar.read, ht, hg]

theorem read_node_none {k : Kind} (ht : readTrivia bound c = (ts, d))
    (hg : readForm bound depth g [] d = none) :
    readForm bound depth (node k g) left c = none := by
  rw [readForm] at hg
  simp only [readForm, Grammar.read, ht, hg]

theorem read_node_behind {k : Kind} (ht : readTrivia bound c = (ts, d)) (hd : isSolid d.rest = true) :
    readForm bound depth (node k g) left c =
      (readForm bound depth (node k g) left d).map fun r => (ts ++ r.1, r.2) := by
  have hd' := readTrivia_of_isSolid bound hd
  cases hg : readForm bound depth g [] d with
  | none => rw [read_node_none ht hg, read_node_none hd' hg, Option.map_none]
  | some r => rw [read_node ht hg, read_node hd' hg, Option.map_some, List.nil_append]

theorem read_many_none (hg : readForm bound depth g [] c = none) :
    readForm bound depth (many g) left c = some ([], c) :=
  congrArg some (readMany_of_none hg bound)

theorem read_only {fits : Kind → Bool} (hg : readForm bound depth g left c = some (ts, d))
    (hfits : (ts.getLast?.bind Tree.kind?).any fits = true) :
    readForm bound depth (only fits g) left c = some (ts, d) := by
  rw [readForm] at hg
  simp only [readForm, Grammar.read, hg, hfits, if_true]

end Combinators

/-- What is left of a choice without its first alternatives. -/
def Grammar.behind {ρ : Type} : Nat → Grammar ρ → Grammar ρ
  | n + 1, .alt _ b => b.behind n
  | _, g => g

namespace Head

/-- Whether a grammar reads nothing from a text that begins so. -/
def blocks (h : Head) (g : Form) : Bool :=
  g.verdict h (ruleVerdict h lookaheadDepth) = .blocked

/-- Whether a grammar reads nothing from a text that begins with one of the marks. -/
def marksBlock (ms : List Char) (g : Form) : Bool :=
  ms.all fun m => (mark m).blocks g

theorem blocks_of_mem {ms : List Char} {g : Form} (h : marksBlock ms g = true) {m : Char} (hm : m ∈ ms) :
    (mark m).blocks g = true :=
  List.all_eq_true.mp h m hm

/-- Whether the first alternatives of a choice read nothing from a text that begins so. -/
def skips (h : Head) : Nat → Form → Bool
  | n + 1, .alt a b => h.blocks a && h.skips n b
  | 0, _ => true
  | _ + 1, _ => false

variable {h : Head} {bound depth : Nat} {c : Cursor}

theorem Stands.read_eq_none (hc : h.Stands c.rest) (hbound : 0 < bound) {g : Form}
    (hg : h.blocks g = true) (left : List Tree) : readForm bound depth g left c = none := by
  have hv := Verdict.holds_iff.mpr (verdict_allows hbound
    (fun r c => ruleVerdict_holds h hbound lookaheadDepth depth r c) g left c hc)
  rwa [of_decide_eq_true hg] at hv

theorem Stands.read_behind (hc : h.Stands c.rest) (hbound : 0 < bound) {n : Nat} {g : Form}
    (hg : h.skips n g = true) (left : List Tree) :
    readForm bound depth g left c = readForm bound depth (g.behind n) left c := by
  induction n generalizing g with
  | zero => cases g <;> rfl
  | succ n ih =>
    cases g with
    | alt a b =>
      rw [skips, Bool.and_eq_true] at hg
      rw [read_alt_right (hc.read_eq_none hbound hg.1 left)]
      exact ih hg.2
    | _ => simp [skips] at hg

end Head

/-- The trees that matter: nodes, and what plays a role. -/
def core (ts : List Tree) : List Tree :=
  ts.filter fun t => t.isNamed || t.label?.isSome

theorem core_append (ts us : List Tree) : core (ts ++ us) = core ts ++ core us :=
  List.filter_append ts us

theorem Blanks.core_eq {gap : List Char} {ts : List Tree} (h : Blanks gap ts) : core ts = [] := by
  rw [core, List.filter_eq_nil_iff]
  intro t ht
  obtain ⟨s, rfl⟩ := h.1 t ht
  simp [Tree.isNamed, Tree.label?]

theorem named_eq_core (l : Option Label) (k : Kind) (p : Position) (cs : List Tree) :
    (Tree.node l k p cs).named = (core cs).filter Tree.isNamed := by
  rw [Tree.named, core, List.filter_filter]
  refine List.filter_congr fun t _ => ?_
  cases t <;> simp [Tree.isNamed]

theorem child?_eq_core (l : Option Label) (k : Kind) (p : Position) (cs : List Tree) (r : Label) :
    (Tree.node l k p cs).child? r = (core cs).find? (·.label? = some r) := by
  rw [Tree.child?, core, List.find?_filter]
  congr 1
  funext t
  cases t.label? <;> simp

/-- One tree behind a gap. -/
def Gives (gap : List Char) (ts : List Tree) (t : Tree) : Prop :=
  ∃ us, Blanks gap us ∧ ts = us ++ [t]

/-- A node that plays no role yet, and can play one. -/
def Tree.IsPlain (t : Tree) : Prop :=
  ∃ k p cs, t = .node none k p cs ∧ k ≠ .comment

namespace Gives

variable {gap : List Char} {ts : List Tree} {t : Tree}

theorem core_eq (h : Gives gap ts t) (ht : t.isNamed = true) : core ts = [t] := by
  obtain ⟨us, hus, rfl⟩ := h
  rw [core_append, hus.core_eq]
  simp [core, ht]

theorem core_token {s : String} (h : Gives gap ts (.token none s)) : core ts = [] := by
  obtain ⟨us, hus, rfl⟩ := h
  rw [core_append, hus.core_eq]
  rfl

theorem play (h : Gives gap ts t) (l : Label) : Gives gap (ts.map (·.play l)) (t.play l) := by
  obtain ⟨us, hus, rfl⟩ := h
  refine ⟨us, hus, ?_⟩
  rw [List.map_append, List.map_singleton]
  have hmap : us.map (·.play l) = us.map id := by
    refine List.map_congr_left fun u hu => ?_
    obtain ⟨s, rfl⟩ := hus.1 u hu
    rfl
  rw [hmap, List.map_id]

theorem eq_singleton (h : Gives [] ts t) : ts = [t] := by
  obtain ⟨us, hus, rfl⟩ := h
  rw [hus.2 rfl, List.nil_append]

end Gives

theorem Blanks.gives {gap : List Char} {us : List Tree} (h : Blanks gap us) (t : Tree) :
    Gives gap (us ++ [t]) t :=
  ⟨us, h, rfl⟩

section Tokens

variable {bound : Nat} (depth : Nat) (gap : List Char) (hbound : 0 < bound) {c : Cursor}
  {s k : List Char}
  (hc : c.rest = gap ++ (s ++ k)) (hgap : IsGap gap) (hsolid : isSolid (s ++ k) = true)

include hbound hc hgap hsolid

theorem read_token {l : Lexeme} (htake : l.take? (s ++ k) = some s.length) (left : List Tree) :
    ∃ ts d, readForm bound depth (token l) left c = some (ts, d) ∧
      Gives gap ts (.token none (String.ofList s)) ∧ c.Past (gap ++ s) d ∧ d.rest = k := by
  obtain ⟨ts, d, htrivia, hts, hpast, hd⟩ := readTrivia_gap hbound hc hgap hsolid
  obtain ⟨hpast', hrest⟩ := Cursor.past_read hd
  refine ⟨ts ++ [.token none (String.ofList s)], d.read s.length, ?_, hts.gives _, ?_, hrest⟩
  · simp only [readForm, Grammar.read, htrivia, hd, htake]
    simp [hd, Cursor.front]
  · exact hpast.trans hpast'

theorem read_leaf {l : Lexeme} (htake : l.take? (s ++ k) = some s.length) (kind : Kind)
    (left : List Tree) :
    ∃ ts d p, readForm bound depth (leaf kind l) left c = some (ts, d) ∧
      Gives gap ts (.node none kind p [.token none (String.ofList s)]) ∧
      c.Past (gap ++ s) d ∧ d.rest = k := by
  obtain ⟨ts, d, htrivia, hts, hpast, hd⟩ := readTrivia_gap hbound hc hgap hsolid
  obtain ⟨hpast', hrest⟩ := Cursor.past_read hd
  have htoken : readForm bound depth (token l) [] d =
      some ([.token none (String.ofList s)], d.read s.length) := by
    have hd' : isSolid d.rest = true := by rwa [hd]
    simp only [readForm, Grammar.read, readTrivia_of_isSolid bound hd']
    simp [hd, htake, Cursor.front]
  refine ⟨_, d.read s.length, d.place, read_node htrivia htoken, hts.gives _, ?_, hrest⟩
  exact hpast.trans hpast'

end Tokens

section Lexemes

variable {s k : List Char}

theorem take?_mark (hs : s ≠ []) : Lexeme.take? (.mark s) (s ++ k) = some s.length := by
  have hprefix : startsWith (s ++ k) s = true := startsWith_iff.mpr (List.prefix_append s k)
  simp [Lexeme.take?, hprefix, positive, hs]

theorem take?_word_self (hs : isName s = true) (hk : endsName k = true) :
    Lexeme.take? (.word s) (s ++ k) = some s.length := by
  have hprefix : startsWith (s ++ k) s = true := startsWith_iff.mpr (List.prefix_append s k)
  have hne : s ≠ [] := by
    rintro rfl
    cases hs
  simp [Lexeme.take?, hprefix, nameLength_append hs hk, positive, hne]

theorem take?_name (hs : isName s = true) (hk : endsName k = true) {except : List (List Char)}
    (he : s ∉ except) : Lexeme.take? (.name except) (s ++ k) = some s.length := by
  have hne : s ≠ [] := by
    rintro rfl
    cases hs
  simp [Lexeme.take?, nameLength_append hs hk, hne, he]

end Lexemes

theorem byte_lt_after {p : Position} {s : List Char} (hs : s ≠ []) : p.byte < (p.after s).byte := by
  have hnext : ∀ (p : Position) (c : Char), p.byte < (p.next c).byte := by
    intro p c
    have := c.utf8Size_pos
    rw [Position.next]
    split
    · exact Nat.lt_succ_self _
    · exact Nat.lt_add_of_pos_right this
  induction s generalizing p with
  | nil => exact absurd rfl hs
  | cons c s ih =>
    rw [Position.after, List.foldl_cons]
    cases s with
    | nil => exact hnext p c
    | cons d s => exact Nat.lt_trans (hnext p c) (ih (by simp))

/-- A round of a repetition that reads something is followed by the others. -/
theorem readMany_cons {body : Cursor → Reading} {n : Nat} {c d : Cursor} {ts : List Tree}
    (h : body c = some (ts, d)) {s : List Char} (hpast : c.Past s d) (hs : s ≠ []) :
    readMany body (n + 1) c = (ts ++ (readMany body n d).1, (readMany body n d).2) := by
  have hne : d.place.byte ≠ c.place.byte := by
    rw [hpast.place_eq]
    exact Nat.ne_of_gt (byte_lt_after hs)
  simp only [readMany, h, if_neg hne]

theorem read_mark {bound : Nat} (depth : Nat) (gap : List Char) (hbound : 0 < bound) {c : Cursor}
    {k : List Char} {m : Char} (hc : c.rest = gap ++ (m :: k)) (hgap : IsGap gap)
    (hm : m ∈ plainMarks) (s : String) (hs : s.toList = [m]) (left : List Tree) :
    ∃ ts d, readForm bound depth (mark s) left c = some (ts, d) ∧ core ts = [] ∧
      c.Past (gap ++ [m]) d ∧ d.rest = k := by
  obtain ⟨ts, d, hr, hts, hpast, hd⟩ := read_token depth gap (s := [m]) hbound hc hgap
    (isSolid_mark hm k) (take?_mark (by simp)) left
  refine ⟨ts, d, ?_, hts.core_token, hpast, hd⟩
  rw [mark, hs]
  exact hr

section Growing

variable {bound depth : Nat} {a b : Form} {left ts us vs : List Tree} {c d e f : Cursor}

theorem read_grow (left : List Tree) (ht : readTrivia bound c = (ts, d))
    (ha : readForm bound depth a [] d = some (us, e))
    (hb : readGrow (readForm bound depth b) bound us e = (vs, f)) :
    readForm bound depth (grow a b) left c = some (ts ++ vs, f) := by
  rw [readForm] at ha
  have hb' : readGrow (b.read bound (readRule grammar bound depth)) bound us e = (vs, f) := hb
  simp only [readForm, Grammar.read, ht, ha, hb']

theorem readGrow_of_none {continuation : List Tree → Cursor → Reading}
    (h : continuation left c = none) (n : Nat) : readGrow continuation n left c = (left, c) := by
  cases n with
  | zero => rfl
  | succ n => rw [readGrow, h]

theorem readGrow_succ {continuation : List Tree → Cursor → Reading}
    (h : continuation left c = some (ts, d)) (n : Nat) :
    readGrow continuation (n + 1) left c = readGrow continuation n ts d := by
  rw [readGrow, h]

theorem read_wrap (kind k : Kind) (p : Position) (cs : List Tree) (fits : Kind → Bool)
    (hfits : fits k = true) (ha : readForm bound depth a [] c = some (us, d)) :
    readForm bound depth (wrap kind none fits a) [.node none k p cs] c =
      some ([.node none kind p (.node none k p cs :: us)], d) := by
  rw [readForm] at ha
  simp only [readForm, Grammar.read, hfits, if_true, ha]

end Growing

section Words

variable {bound : Nat} (depth : Nat) (gap : List Char) (hbound : 0 < bound) {c : Cursor}
  {k : List Char} {w : String} (hc : c.rest = gap ++ (w.toList ++ k)) (hgap : IsGap gap) (hk : endsName k = true)

include hbound hc hgap hk

theorem read_word (hw : isName w.toList = true) (left : List Tree) :
    ∃ ts d, readForm bound depth (word w) left c = some (ts, d) ∧ Gives gap ts (.token none w) ∧
      c.Past (gap ++ w.toList) d ∧ d.rest = k := by
  have := read_token depth gap hbound hc hgap (isSolid_name hw k) (take?_word_self hw hk) left
  rwa [String.ofList_toList] at this

omit hbound in
theorem stands_word (hw : isName w.toList = true) : (Head.word w.toList).Stands c.rest :=
  ⟨gap, _, hgap, hc, hw, k, rfl, hk⟩

theorem read_words (hw : isName w.toList = true) {ws : List String} (hmem : w ∈ ws)
    (left : List Tree) :
    ∃ ts d, readForm bound depth (words ws) left c = some (ts, d) ∧ Gives gap ts (.token none w) ∧
      c.Past (gap ++ w.toList) d ∧ d.rest = k := by
  obtain ⟨ts, d, hr, hrest⟩ := read_word depth gap hbound hc hgap hk hw left
  refine ⟨ts, d, ?_, hrest⟩
  induction ws with
  | nil => cases hmem
  | cons v ws ih =>
    by_cases hv : v = w
    · subst hv
      cases ws with
      | nil => exact hr
      | cons _ _ => exact read_alt_left hr
    · have hmem' : w ∈ ws := by simpa [Ne.symm hv] using hmem
      have hblocked : (Head.word w.toList).blocks (word v) = true := by
        have : v.toList ≠ w.toList := fun h => hv (String.toList_inj.mp h)
        simp [Head.blocks, word, verdict, Head.refuses, this]
      cases ws with
      | nil => cases hmem'
      | cons u ws =>
        have hnone : readForm bound depth (word v) left c = none :=
          (stands_word gap hc hgap hk hw).read_eq_none hbound hblocked left
        exact (read_alt_right hnone).trans (ih hmem')

end Words

end UsageTypes
