import UsageTypes.Proofs.TypeReadings

/-! Types in parentheses, object types, parameters and callables are read back, given that the types
in them are. -/

namespace UsageTypes

open Grammar Forms

/-- A text is read as a type wherever a type may stand. -/
def Readable (s : List Char) (n : Nat) (T : Ty) : Prop :=
  ∀ {bound depth : Nat} {c : Cursor} {gap k : List Char} {m : Char} (e : Ending), IsGap gap →
    c.rest = gap ++ (s ++ k) → (Head.mark m).Stands k → m ∈ closers → c.rest.length < bound →
    4 * s.length ≤ depth →
    ReadsType (readForm bound depth (nest (.type 0 e)) [] c) c gap s k n T

theorem dropTrivia_gap {bound : Nat} (hbound : 0 < bound) {gap s : List Char} (hgap : IsGap gap)
    (hs : isSolid s = true) : dropTrivia bound (gap ++ s) = s := by
  obtain ⟨bound, rfl⟩ : ∃ b, bound = b + 1 := ⟨bound - 1, by omega⟩
  have hcount : (gap ++ s).drop (countWhile isBlank (gap ++ s)) = s := by
    rcases hgap with rfl | rfl
    · simp [countWhile_of_isSolid hs]
    · simp [countWhile, countWhile_of_isSolid hs, show isBlank ' ' = true from rfl]
  simp only [dropTrivia, hcount, commentLength_of_isSolid hs]

theorem read_ahead_none {bound depth : Nat} {test : List Char → Bool} {c : Cursor} {left : List Tree}
    (h : test (dropTrivia bound c.rest) = false) :
    readForm bound depth (ahead test) left c = none := by
  simp [readForm, Grammar.read, h]

theorem read_ahead {bound depth : Nat} {test : List Char → Bool} {c : Cursor} {left : List Tree}
    (h : test (dropTrivia bound c.rest) = true) :
    readForm bound depth (ahead test) left c = some ([], c) := by
  simp [readForm, Grammar.read, h]

/-- Whether an arrow follows parentheses is decided behind them. -/
theorem arrowAhead_parens {s k : List Char} (hs : Balanced s) {gap ds : List Char} (hgap : IsGap gap)
    (hk : k = gap ++ ds) (hds : isSolid ds = true) (hne : k ≠ []) :
    arrowAhead ('(' :: (s ++ ')' :: k)) = startsWith ds ['=', '>'] := by
  have hlen : 0 < k.length := List.length_pos_iff.mpr hne
  rw [arrowAhead, behindBracket_enclosed pairs_round hs k]
  simp only [hk] at hlen ⊢
  rw [dropTrivia_gap hlen hgap hds]

/-- Before the operands that begin with a parenthesis come none that could be read. -/
theorem read_behind_parens {bound depth : Nat} (hbound : 0 < bound) {e : Ending} {c : Cursor}
    {s k : List Char} (hc : c.rest = '(' :: (s ++ ')' :: k)) (hs : Balanced s) {m : Char}
    (hk : (Head.mark m).Stands k) (hm : m ≠ '=') :
    readForm bound depth (typeOperand e) [] c =
      readForm bound depth ((typeOperand e).behind 4) [] c := by
  have hstands : (Head.mark '(').Stands c.rest := Head.stands_mark (by decide) hc
  have hskip : (Head.mark '(').skips 2 (typeOperand e) = true := by
    cases e <;> decide
  have hconstructor : (Head.mark '(').blocks (constructorType e) = true := by
    cases e <;> decide
  have htypeParameters : (Head.mark '(').blocks
      (field .typeParameters (nest .typeParameters)) = true := by
    decide
  have hsolid : isSolid c.rest = true := by
    rw [hc]
    rfl
  have harrow : arrowAhead (dropTrivia bound c.rest) = false := by
    obtain ⟨gap, ds, hgap, hrest, hb⟩ := hk
    have hne : k ≠ [] := by
      obtain ⟨-, k', rfl⟩ := hb
      simp [hrest]
    rw [← List.nil_append c.rest, dropTrivia_gap hbound (.inl rfl) hsolid, hc,
      arrowAhead_parens hs hgap hrest hb.isSolid hne]
    obtain ⟨-, k', rfl⟩ := hb
    simp [startsWith, hm]
  have hfunction : readForm bound depth (functionType e) [] c = none := by
    refine read_node_none (readTrivia_of_isSolid bound hsolid) ?_
    refine read_seq_none_left (read_seq_none_left (read_seq_none_left ?_))
    exact read_seq_none (read_opt_none (hstands.read_eq_none hbound htypeParameters []))
      (read_ahead_none harrow)
  rw [hstands.read_behind hbound hskip]
  exact (read_alt_right hfunction).trans (read_alt_right (hstands.read_eq_none hbound hconstructor []))

theorem operand_parens {bound depth : Nat} {e : Ending} {c : Cursor} {s k : List Char} {n : Nat}
    {T : Ty} (hread : Readable s n T) (hs : Balanced s) (hc : c.rest = Ty.parens s ++ k) {m : Char}
    (hk : (Head.mark m).Stands k) (hm : m ≠ '=') (hlen : c.rest.length < bound)
    (hdepth : 4 * (Ty.parens s).length ≤ depth + 1) :
    ReadsType (readForm bound depth (typeOperand e) [] c) c [] (Ty.parens s) k (n + 1) T := by
  have hbound : 0 < bound := by omega
  have hc' : c.rest = '(' :: (s ++ ')' :: k) := by simpa [Ty.parens] using hc
  obtain ⟨ts, d₁, hopen, hts, hpast₁, hd₁⟩ := read_mark depth [] hbound hc' (.inl rfl) (by decide)
    "(" (by decide) []
  have hstands : (Head.mark ')').Stands (')' :: k) := Head.stands_mark (by decide) rfl
  have hinner : ReadsType (readForm bound depth anyType [] d₁) d₁ [] s (')' :: k) n T := by
    refine hread .never (.inl rfl) hd₁ hstands (by decide) ?_ ?_
    · rw [hc'] at hlen
      rw [hd₁]
      exact Nat.lt_trans (Nat.lt_succ_self _) hlen
    · simp only [Ty.parens, List.length_cons, List.length_append, List.length_nil] at hdepth
      omega
  obtain ⟨us, t, d₂, hr, hus, hpast₂, hd₂, hplain, hdenotes⟩ := hinner
  obtain rfl := hus.eq_singleton
  obtain ⟨vs, d₃, hclose, hvs, hpast₃, hd₃⟩ := read_mark depth [] hbound hd₂ (.inl rfl) (by decide)
    ")" (by decide) []
  have hsolid : isSolid c.rest = true := by
    rw [hc']
    rfl
  have ht : t.isNamed = true := by
    obtain ⟨_, _, _, rfl, -⟩ := hplain
    rfl
  have hcore : core (ts ++ [t] ++ vs) = [t] := by
    rw [core_append, core_append, hts, hvs]
    simp [core, ht]
  refine ⟨_, _, d₃, ?_, (blanks_nil _).gives _, ?_, hd₃, ⟨_, _, _, rfl, by decide⟩,
    denotes_wrapper hdenotes ht (.inr rfl) none c.place hcore⟩
  · rw [read_behind_parens hbound hc' hs hk hm]
    exact read_alt_left (read_node (readTrivia_of_isSolid bound hsolid)
      (read_seq (read_seq hopen hr) hclose))
  · simpa [Ty.parens] using (hpast₁.trans hpast₂).trans hpast₃

def IsAscription (n : Nat) (T : Ty) (t : Tree) : Prop :=
  ∃ p cs, t = .node (some .typing) .typeAscription p cs ∧ Denotes (n + 1) t T

theorem read_typing {bound depth : Nat} {c : Cursor} {s k : List Char} {n : Nat} {T : Ty}
    (hread : Readable s n T) (e : Ending) (hc : c.rest = ':' :: ' ' :: (s ++ k)) {m : Char}
    (hk : (Head.mark m).Stands k) (hm : m ∈ closers) (hlen : c.rest.length < bound)
    (hdepth : 4 * s.length ≤ depth) (left : List Tree) :
    ∃ ts t d, readForm bound depth (typing e) left c = some (ts, d) ∧ core ts = [t] ∧
      IsAscription n T t ∧ c.Past (':' :: ' ' :: s) d ∧ d.rest = k := by
  have hbound : 0 < bound := by omega
  obtain ⟨ts, d₁, hcolon, hts, hpast₁, hd₁⟩ := read_mark depth [] hbound hc (.inl rfl) (by decide)
    ":" (by decide) []
  have htype : ReadsType (readForm bound depth (nest (.type 0 e)) [] d₁) d₁ [' '] s k n T := by
    refine hread e (.inr rfl) hd₁ hk hm ?_ hdepth
    rw [hd₁]
    rw [hc] at hlen
    exact Nat.lt_trans (Nat.lt_succ_self _) hlen
  obtain ⟨us, t, d₂, hr, hus, hpast₂, hd₂, ⟨kind, p, cs, rfl, -⟩, hdenotes⟩ := htype
  have hsolid : isSolid c.rest = true := by
    rw [hc]
    rfl
  have hcore : core (ts ++ us) = [.node none kind p cs] := by
    rw [core_append, hts, hus.core_eq rfl]
    rfl
  have hnode : readForm bound depth (ascription e) left c =
      some ([.node none .typeAscription c.place (ts ++ us)], d₂) :=
    read_node (readTrivia_of_isSolid bound hsolid) (read_seq hcolon hr)
  refine ⟨_, _, d₂, read_opt_some (read_field _ hnode), rfl, ⟨c.place, ts ++ us, rfl, ?_⟩,
    hpast₁.trans hpast₂, hd₂⟩
  exact denotes_wrapper hdenotes rfl (.inl rfl) _ _ hcore

/-- A form that reads at most the name before a text. -/
def EndsBehind (bound depth : Nat) (g : Form) (c : Cursor) (k : List Char) : Prop :=
  ∀ left ts d, readForm bound depth g left c = some (ts, d) → d.rest = k

section Modifiers

variable {bound depth : Nat} {c : Cursor} {n k : List Char}

theorem endsBehind_word (hn : isName n = true) (hk : endsName k = true) (hc : c.rest = n ++ k)
    (w : String) : EndsBehind bound depth (word w) c k := by
  intro left ts d hr
  have hsolid : isSolid c.rest = true := by
    rw [hc]
    exact isSolid_name hn k
  simp only [readForm, word, Grammar.read, readTrivia_of_isSolid bound hsolid, hc] at hr
  by_cases hw : w.toList = n
  · rw [hw, take?_word_self hn hk] at hr
    obtain ⟨-, rfl⟩ := (Prod.mk.injEq ..).mp (Option.some.inj hr)
    exact (Cursor.past_read hc).2
  · simp [Head.take?_word hn hk hw] at hr

theorem EndsBehind.alt {a b : Form} (ha : EndsBehind bound depth a c k)
    (hb : EndsBehind bound depth b c k) : EndsBehind bound depth (alt a b) c k := by
  intro left ts d hr
  cases ha' : readForm bound depth a left c with
  | none =>
    rw [read_alt_right ha'] at hr
    exact hb left ts d hr
  | some r =>
    rw [read_alt_left ha'] at hr
    obtain rfl := Option.some.inj hr
    exact ha left ts d ha'

theorem EndsBehind.node {a : Form} (hsolid : isSolid c.rest = true) (ha : EndsBehind bound depth a c k)
    (kind : Kind) : EndsBehind bound depth (node kind a) c k := by
  intro left ts d hr
  cases ha' : readForm bound depth a [] c with
  | none =>
    rw [read_node_none (readTrivia_of_isSolid bound hsolid) ha'] at hr
    cases hr
  | some r =>
    rw [read_node (readTrivia_of_isSolid bound hsolid) ha'] at hr
    obtain ⟨-, rfl⟩ := (Prod.mk.injEq ..).mp (Option.some.inj hr)
    exact ha [] r.1 r.2 ha'

theorem EndsBehind.seq {a b : Form} (ha : ∀ left, readForm bound depth a left c = some ([], c))
    (hb : EndsBehind bound depth b c k) : EndsBehind bound depth (a ++ b) c k := by
  intro left ts d hr
  cases hb' : readForm bound depth b left c with
  | none =>
    rw [read_seq_none (ha left) hb'] at hr
    cases hr
  | some r =>
    rw [read_seq (ha left) hb'] at hr
    obtain ⟨-, rfl⟩ := (Prod.mk.injEq ..).mp (Option.some.inj hr)
    exact hb left r.1 r.2 hb'

theorem endsBehind_words (hn : isName n = true) (hk : endsName k = true) (hc : c.rest = n ++ k)
    (ws : List String) : EndsBehind bound depth (words ws) c k := by
  induction ws with
  | nil =>
    intro left ts d hr
    simp [readForm, words, oneOf, Grammar.read] at hr
  | cons w ws ih =>
    cases ws with
    | nil => exact endsBehind_word hn hk hc w
    | cons v ws => exact (endsBehind_word hn hk hc w).alt ih

theorem endsBehind_name (hn : isName n = true) (hk : endsName k = true) (hc : c.rest = n ++ k) :
    EndsBehind bound depth (token (.name [])) c k := by
  intro left ts d hr
  have hsolid : isSolid c.rest = true := by
    rw [hc]
    exact isSolid_name hn k
  simp only [readForm, Grammar.read, readTrivia_of_isSolid bound hsolid, hc,
    take?_name hn hk List.not_mem_nil] at hr
  obtain ⟨-, rfl⟩ := (Prod.mk.injEq ..).mp (Option.some.inj hr)
  exact (Cursor.past_read hc).2

theorem EndsBehind.field {a : Form} (ha : EndsBehind bound depth a c k) (l : Label) :
    EndsBehind bound depth (field l a) c k := by
  intro left ts d hr
  cases ha' : readForm bound depth a left c with
  | none =>
    rw [readForm] at ha' hr
    simp [Grammar.read, ha'] at hr
  | some r =>
    rw [read_field l ha'] at hr
    obtain ⟨-, rfl⟩ := (Prod.mk.injEq ..).mp (Option.some.inj hr)
    exact ha left r.1 r.2 ha'

theorem EndsBehind.seq_none {a b : Form} (ha : EndsBehind bound depth a c k)
    (hb : ∀ left (d : Cursor), d.rest = k → readForm bound depth b left d = none)
    (left : List Tree) : readForm bound depth (a ++ b) left c = none := by
  cases hr : readForm bound depth a left c with
  | none => exact read_seq_none_left hr
  | some r => exact read_seq_none hr (hb left r.2 (ha left r.1 r.2 hr))

end Modifiers

def IsField (name : String) (n : Nat) (T : Ty) (t : Tree) : Prop :=
  t.is .propertySignature = true ∧ memberName? t = some name ∧
    ∃ a, t.child? .typing = some a ∧ IsAscription n T a

theorem IsField.isNamed {name : String} {n : Nat} {T : Ty} {t : Tree} (h : IsField name n T t) :
    t.isNamed = true := by
  have := h.1
  cases t <;> simp_all [Tree.is, Tree.kind?, Tree.isNamed]

section Fields

variable {bound : Nat} {depth : Nat} (hbound : 0 < bound) {c : Cursor} {name : String}
  {k : List Char} (hname : isName name.toList = true) (hc : c.rest = name.toList ++ ':' :: k)

include hname hc

theorem stands_name : (Head.name []).Stands c.rest :=
  ⟨[], c.rest, .inl rfl, rfl, name.toList, _, hc, hname, List.not_mem_nil, rfl⟩

include hbound

omit hname hc in
theorem modifier_none {g : Form} (hg : EndsBehind bound depth g c (':' :: k))
    {test : List Char → Bool} (htest : test (':' :: k) = false) (left : List Tree) :
    readForm bound depth (g ++ ahead test) left c = none := by
  refine hg.seq_none (fun left d hd => read_ahead_none ?_) left
  rwa [hd, ← List.nil_append (':' :: k), dropTrivia_gap hbound (.inl rfl) rfl]

theorem read_memberModifiers (left : List Tree) :
    readForm bound depth memberModifiers left c = some ([], c) := by
  have hsolid : isSolid c.rest = true := by
    rw [hc]
    exact isSolid_name hname _
  refine read_many_none (modifier_none (k := k) hbound ?_ rfl [])
  exact ((endsBehind_words hname rfl hc _).node hsolid _).alt
    (((endsBehind_word hname rfl hc _).node hsolid _).alt (endsBehind_words hname rfl hc _))

theorem indexSignature_none (left : List Tree) :
    readForm bound depth indexSignature left c = none := by
  have hstands := stands_name hname hc
  have hsolid : isSolid c.rest = true := by
    rw [hc]
    exact isSolid_name hname _
  have hreadonly : EndsBehind bound depth
      (opt (field .sign (ops ["-", "+"])) ++ word "readonly") c (':' :: k) :=
    .seq (fun left => read_opt_none (hstands.read_eq_none hbound (by decide) left))
      (endsBehind_word hname rfl hc _)
  refine read_node_none (readTrivia_of_isSolid bound hsolid) ?_
  refine read_seq_none_left (read_seq_none_left (read_seq_none_left ?_))
  exact read_seq_none (read_opt_none (modifier_none hbound hreadonly rfl []))
    (hstands.read_eq_none hbound (by decide) [])

theorem constructSignature_none (left : List Tree) : readForm bound depth
    (node .constructSignature (opt (modifier (word "abstract")) ++ word "new"
      ++ opt (field .typeParameters (nest .typeParameters)) ++ field .parameters (nest .parameters)
      ++ typing .declaration)) left c = none := by
  have hsolid : isSolid c.rest = true := by
    rw [hc]
    exact isSolid_name hname _
  have habstract : readForm bound depth (opt (modifier (word "abstract"))) [] c = some ([], c) :=
    read_opt_none (modifier_none hbound (endsBehind_word hname rfl hc _) rfl [])
  refine read_node_none (readTrivia_of_isSolid bound hsolid) (read_seq_none_left ?_)
  cases hnew : readForm bound depth (word "new") [] c with
  | none => exact read_seq_none_left (read_seq_none_left (read_seq_none habstract hnew))
  | some r =>
    have hrest := endsBehind_word hname rfl hc "new" [] r.1 r.2 hnew
    have hstands : (Head.mark ':').Stands r.2.rest := Head.stands_mark (by decide) hrest
    have htypeParameters : readForm bound depth (opt (field .typeParameters (nest .typeParameters))) []
        r.2 = some ([], r.2) :=
      read_opt_none (hstands.read_eq_none hbound (by decide) [])
    exact read_seq_none (read_seq (read_seq habstract hnew) htypeParameters)
      (hstands.read_eq_none hbound (by decide) [])

theorem read_propertyName (depth : Nat) (left : List Tree) : ∃ p d, readForm bound depth propertyName left c =
    some ([.node none .propertyIdentifier p [.token none name]], d) ∧ c.Past name.toList d ∧
      d.rest = ':' :: k := by
  obtain ⟨ts, d, p, hr, hts, hpast, hd⟩ := read_leaf depth [] hbound hc (.inl rfl)
    (isSolid_name hname _) (take?_name hname rfl List.not_mem_nil) .propertyIdentifier left
  obtain rfl := hts.eq_singleton
  rw [String.ofList_toList] at hr
  exact ⟨p, d, read_alt_left hr, hpast, hd⟩

theorem methodSignature_none (left : List Tree) :
    readForm bound depth methodSignature left c = none := by
  have hsolid : isSolid c.rest = true := by
    rw [hc]
    exact isSolid_name hname _
  have hstar : readForm bound depth (opt (mark "*")) [] c = some ([], c) :=
    read_opt_none ((stands_name hname hc).read_eq_none hbound (by decide) [])
  obtain ⟨p, d, hr, -, hd⟩ := read_propertyName hbound hname hc depth []
  have hstands : (Head.mark ':').Stands d.rest := Head.stands_mark (by decide) hd
  have hquestion : readForm bound depth (opt (mark "?")) [] d = some ([], d) :=
    read_opt_none (hstands.read_eq_none hbound (by decide) [])
  refine read_node_none (readTrivia_of_isSolid bound hsolid) (read_seq_none_left ?_)
  exact read_seq_none (read_seq (read_seq (read_seq (read_memberModifiers hbound hname hc [])
    hstar) (read_field _ hr)) hquestion) (hstands.read_eq_none hbound (by decide) [])

theorem read_propertySignature {s k' : List Char} {n : Nat} {T : Ty} (hread : Readable s n T)
    (hk : k = ' ' :: (s ++ ';' :: k')) (hlen : c.rest.length < bound) (hdepth : 4 * s.length ≤ depth)
    (left : List Tree) :
    ∃ t d, readForm bound depth propertySignature left c = some ([t], d) ∧ IsField name n T t ∧
      c.Past (name.toList ++ ':' :: ' ' :: s) d ∧ d.rest = ';' :: k' := by
  have hsolid : isSolid c.rest = true := by
    rw [hc]
    exact isSolid_name hname _
  obtain ⟨p, d, hr, hpast, hd⟩ := read_propertyName hbound hname hc depth []
  have hstands : (Head.mark ':').Stands d.rest := Head.stands_mark (by decide) hd
  have hquestion : readForm bound depth (opt (mark "?")) [] d = some ([], d) :=
    read_opt_none (hstands.read_eq_none hbound (by decide) [])
  have hsemicolon : (Head.mark ';').Stands (';' :: k') := Head.stands_mark (by decide) rfl
  obtain ⟨us, a, d₂, htyping, hus, hasc, hpast₂, hd₂⟩ := read_typing hread .declaration
    (by rw [hd, hk]) hsemicolon (by decide) (Nat.lt_of_le_of_lt hpast.length_le hlen) hdepth []
  have hbody := read_seq (read_seq (read_seq (read_memberModifiers hbound hname hc [])
    (read_field .name hr)) hquestion) htyping
  have hcore : core ([] ++ [Tree.node none .propertyIdentifier p [.token none name]].map
      (·.play .name) ++ [] ++ us) =
      [.node (some .name) .propertyIdentifier p [.token none name], a] := by
    rw [core_append, hus]
    rfl
  obtain ⟨q, cs, rfl, hdenotes⟩ := hasc
  refine ⟨_, d₂, read_node (readTrivia_of_isSolid bound hsolid) hbody, ⟨rfl, ?_, _, ?_, q, cs, rfl,
    hdenotes⟩, hpast.trans hpast₂, hd₂⟩
  · rw [memberName?, child?_eq_core, hcore]
    simp [Tree.label?, Tree.kind?, Tree.text, Tree.textAll]
  · rw [child?_eq_core, hcore]
    rfl

end Fields

/-- A member of an object type with the mark that ends it. -/
def endedMember : Form := typeMember ++ oneOf [mark ",", semicolon, look (mark "\x7d")]

theorem read_typeMember {bound depth : Nat} {c : Cursor} {gap : List Char} {name : String}
    (hname : isName name.toList = true) {s k : List Char} {n : Nat} {T : Ty} (hread : Readable s n T)
    (hgap : IsGap gap) (hc : c.rest = gap ++ (name.toList ++ ':' :: ' ' :: (s ++ ';' :: k)))
    (hlen : c.rest.length < bound) (hdepth : 4 * s.length ≤ depth) (left : List Tree) :
    ∃ ts t d, readForm bound depth typeMember left c = some (ts, d) ∧ Gives gap ts t ∧
      IsField name n T t ∧ c.Past (gap ++ (name.toList ++ ':' :: ' ' :: s)) d ∧ d.rest = ';' :: k := by
  have hbound : 0 < bound := by omega
  obtain ⟨us, d, htrivia, hus, hpast, hd⟩ := readTrivia_gap hbound hc hgap (isSolid_name hname _)
  have hsolid : isSolid d.rest = true := by
    rw [hd]
    exact isSolid_name hname _
  have hlen' := Nat.lt_of_le_of_lt hpast.length_le hlen
  obtain ⟨t, e, hr, ht, hpast', he⟩ := read_propertySignature hbound hname hd hread rfl hlen' hdepth left
  have hcall : readForm bound depth (node .callSignature (look (alt (mark "(") (mark "<"))
      ++ signature .declaration)) left d = none :=
    (stands_name hname hd).read_eq_none hbound (by decide) left
  refine ⟨us ++ [t], t, e, ?_, hus.gives t, ht, hpast.trans hpast', he⟩
  rw [typeMember]
  -- an index signature, a call, a construction and a method come before a property
  refine (read_alt_right ((read_node_behind htrivia hsolid).trans ?_)).trans ?_
  · exact congrArg _ (indexSignature_none hbound hname hd left)
  refine (read_alt_right ((read_node_behind htrivia hsolid).trans (congrArg _ hcall))).trans ?_
  refine (read_alt_right ((read_node_behind htrivia hsolid).trans ?_)).trans ?_
  · exact congrArg _ (constructSignature_none hbound hname hd left)
  refine (read_alt_right ((read_node_behind htrivia hsolid).trans ?_)).trans ?_
  · exact congrArg _ (methodSignature_none hbound hname hd left)
  exact (read_node_behind htrivia hsolid).trans (congrArg _ hr)

theorem read_endedMember {bound depth : Nat} {c : Cursor} {gap : List Char} {name : String}
    (hname : isName name.toList = true) {s k : List Char} {n : Nat} {T : Ty} (hread : Readable s n T)
    (hgap : IsGap gap) (hc : c.rest = gap ++ (name.toList ++ ':' :: ' ' :: (s ++ ';' :: k)))
    (hlen : c.rest.length < bound) (hdepth : 4 * s.length ≤ depth) (left : List Tree) :
    ∃ ts t d, readForm bound depth endedMember left c = some (ts, d) ∧ core ts = [t] ∧
      IsField name n T t ∧ c.Past (gap ++ (name.toList ++ ':' :: ' ' :: (s ++ [';']))) d ∧
      d.rest = k := by
  have hbound : 0 < bound := by omega
  obtain ⟨ts, t, d, hr, hts, ht, hpast, hd⟩ := read_typeMember hname hread hgap hc hlen hdepth left
  have hstands : (Head.mark ';').Stands d.rest := Head.stands_mark (by decide) hd
  have hsolid : isSolid d.rest = true := by
    rw [hd]
    rfl
  have hcomma : readForm bound depth (mark ",") left d = none :=
    hstands.read_eq_none hbound (by decide) left
  have hsemicolon : readForm bound depth semicolon left d = some ([.token none ";"], d.read 1) := by
    simp [readForm, Grammar.read, readTrivia_of_isSolid bound hsolid, hd]
  obtain ⟨hpast', hd'⟩ := Cursor.past_read (s := [';']) hd
  refine ⟨_, t, d.read 1, read_seq hr ((read_alt_right hcomma).trans (read_alt_left hsemicolon)), ?_,
    ht, ?_, hd'⟩
  · rw [core_append, hts.core_eq ht.isNamed]
    rfl
  · simpa using hpast.trans hpast'

section ObjectTypes

/-- Fields whose names are names and whose types can be read back. -/
def ReadableFields (fields : List (String × Ty)) : Prop :=
  ∀ f ∈ fields, isName f.1.toList = true ∧ Readable f.2.written f.2.span f.2

variable {bound depth : Nat} {c : Cursor} {k : List Char}

theorem readMany_fields {fields : List (String × Ty)} (hfields : ReadableFields fields) {rounds : Nat}
    (hc : c.rest = ' ' :: (Ty.writtenFields fields ++ '}' :: k)) (hrounds : c.rest.length < rounds)
    (hlen : c.rest.length < bound) (hdepth : 4 * (Ty.writtenFields fields).length ≤ depth) :
    ∃ ts d s, readMany (readForm bound depth endedMember []) rounds c = (ts, d) ∧
      List.Forall₂ (fun f => IsField f.1 f.2.span f.2) fields (core ts) ∧ c.Past s d ∧
      d.rest = ' ' :: '}' :: k := by
  -- each round reads one field with its semicolon and leaves the blank behind it
  induction fields generalizing c rounds with
  | nil =>
    have hstands : (Head.mark '}').Stands c.rest := Head.stands_blank_mark (by decide) hc
    refine ⟨[], c, [], readMany_of_none ?_ _, .nil, .refl c, hc⟩
    exact hstands.read_eq_none (by omega) (by decide) []
  | cons f fields ih =>
    obtain ⟨name, t⟩ := f
    obtain ⟨hname, hread⟩ : isName name.toList = true ∧ Readable t.written t.span t :=
      hfields _ List.mem_cons_self
    have hc' : c.rest = [' '] ++ (name.toList ++ ':' :: ' ' :: (t.written ++ ';' ::
        (' ' :: (Ty.writtenFields fields ++ '}' :: k)))) := by
      simpa [Ty.writtenFields_cons] using hc
    simp only [Ty.writtenFields_cons, List.length_append, List.length_cons] at hdepth
    obtain ⟨ts, u, d, hr, hts, hu, hpast, hd⟩ := read_endedMember hname hread (.inr rfl) hc' hlen
      (show 4 * t.written.length ≤ depth by omega) []
    have hshort := hpast.length_eq
    simp only [List.length_append, List.length_cons] at hshort
    obtain ⟨rounds, rfl⟩ : ∃ r, rounds = r + 1 := ⟨rounds - 1, by omega⟩
    obtain ⟨us, e, s, hmany, hus, hpast', he⟩ := ih (fun g hg => hfields g (List.mem_cons_of_mem _ hg))
      hd (show d.rest.length < rounds by omega) (by omega) (by omega)
    refine ⟨ts ++ us, e, _, ?_, ?_, hpast.trans hpast', he⟩
    · rw [readMany_cons hr hpast (by simp), hmany]
    · rw [core_append, hts]
      exact .cons hu hus

theorem Cursor.Past.congr {d : Cursor} {s s' : List Char} (h : c.Past s d)
    (hc : c.rest = s' ++ d.rest) : c.Past s' d := by
  have hs : s = s' := List.append_cancel_right (h.rest_eq.symm.trans hc)
  rwa [← hs]

theorem fieldsWith_eq {fields : List (String × Ty)} {ts : List Tree} {b : Nat}
    (h : List.Forall₂ (fun f => IsField f.1 f.2.span f.2) fields ts) (hb : Ty.spanFields fields ≤ b) :
    ts.filterMap (fun member =>
      match memberName? member with
      | none => none
      | some name =>
        if member.is .propertySignature then
          some (name, match member.child? .typing with
            | some ascription => resolve b ascription
            | none => .dynamic)
        else if member.is .methodSignature then some (name, resolve b member)
        else none) = fields := by
  induction h with
  | nil => rfl
  | @cons f t fields ts hf _ ih =>
    obtain ⟨name, T⟩ := f
    obtain ⟨hkind, hname, a, ha, p, cs, rfl, hdenotes⟩ := hf
    rw [Ty.spanFields] at hb
    have hT : resolve b (.node (some .typing) .typeAscription p cs) = T := by
      refine hdenotes b ?_
      simp only at hb ⊢
      omega
    rw [List.filterMap_cons, ih (by omega)]
    simp [hname, hkind, ha, hT]

theorem isNamed_of_fields {fields : List (String × Ty)} {ts : List Tree}
    (h : List.Forall₂ (fun f => IsField f.1 f.2.span f.2) fields ts) : ∀ t ∈ ts, t.isNamed = true := by
  induction h with
  | nil => exact fun _ ht => nomatch ht
  | cons hf _ ih =>
    intro t ht
    rcases List.mem_cons.mp ht with rfl | ht
    · exact hf.isNamed
    · exact ih t ht

theorem denotes_shape {fields : List (String × Ty)} {cs : List Tree}
    (h : List.Forall₂ (fun f => IsField f.1 f.2.span f.2) fields (core cs)) (p : Position) :
    Denotes (1 + Ty.spanFields fields) (.node none .objectType p cs) (.shape fields) := by
  intro budget hn
  obtain ⟨b, rfl, hb⟩ := succ_of_lt (by omega : Ty.spanFields fields + 1 ≤ budget)
  have hnamed : (Tree.node none .objectType p cs).named = core cs := by
    rw [named_eq_core, List.filter_eq_self]
    exact isNamed_of_fields h
  rw [resolve, Tree.kind?, fieldsWith, hnamed]
  exact congrArg Ty.shape (fieldsWith_eq h hb)

/-- What stands in the braces of an object type; the first member is a case of its own. -/
def braces : Form :=
  mark "\x7b" ++ opt (opt (alt (mark ",") (mark ";")) ++ endedMember) ++ many endedMember ++ mark "\x7d"

theorem read_braces {fields : List (String × Ty)} (hfields : ReadableFields fields)
    (hc : c.rest = (Ty.shape fields).written ++ k) (hlen : c.rest.length < bound)
    (hdepth : 4 * (Ty.shape fields).written.length ≤ depth + 4) :
    ∃ ts d, readForm bound depth braces [] c = some (ts, d) ∧
      List.Forall₂ (fun f => IsField f.1 f.2.span f.2) fields (core ts) ∧
      c.Past (Ty.shape fields).written d ∧ d.rest = k := by
  have hbound : 0 < bound := by omega
  cases fields with
  | nil =>
    have hc' : c.rest = [] ++ ('{' :: '}' :: k) := by simpa [Ty.written_shape_nil] using hc
    obtain ⟨ts, d₁, hopen, hts, hpast₁, hd₁⟩ := read_mark depth [] hbound hc' (.inl rfl) (by decide)
      "\x7b" (by decide) []
    have hstands : (Head.mark '}').Stands d₁.rest := Head.stands_mark (by decide) hd₁
    obtain ⟨us, d₂, hclose, hus, hpast₂, hd₂⟩ := read_mark depth [] hbound hd₁ (.inl rfl) (by decide)
      "\x7d" (by decide) []
    have hfirst : readForm bound depth (opt (opt (alt (mark ",") (mark ";")) ++ endedMember)) [] d₁ =
        some ([], d₁) :=
      read_opt_none (hstands.read_eq_none hbound (by decide) [])
    have hmany : readForm bound depth (many endedMember) [] d₁ = some ([], d₁) :=
      read_many_none (hstands.read_eq_none hbound (by decide) [])
    refine ⟨_, d₂, read_seq (read_seq (read_seq hopen hfirst) hmany) hclose, ?_, ?_, hd₂⟩
    · simp [core_append, hts, hus]
    · exact (hpast₁.trans hpast₂).congr (by rw [hd₂, hc])
  | cons f fields =>
    obtain ⟨name, t⟩ := f
    obtain ⟨hname, hread⟩ : isName name.toList = true ∧ Readable t.written t.span t :=
      hfields _ List.mem_cons_self
    have hc' : c.rest = [] ++ ('{' :: ([' '] ++ (name.toList ++ ':' :: ' ' :: (t.written ++ ';' ::
        (' ' :: (Ty.writtenFields fields ++ '}' :: k)))))) := by
      simpa [Ty.written_shape_cons, Ty.writtenFields_cons] using hc
    simp only [Ty.written_shape_cons, Ty.writtenFields_cons, List.length_append, List.length_cons] at hdepth
    obtain ⟨ts, d₁, hopen, hts, hpast₁, hd₁⟩ := read_mark depth [] hbound hc' (.inl rfl) (by decide)
      "\x7b" (by decide) []
    have hshort₁ := hpast₁.length_le
    have hstands : (Head.name []).Stands d₁.rest :=
      ⟨[' '], _, .inr rfl, hd₁, name.toList, _, rfl, hname, List.not_mem_nil, rfl⟩
    obtain ⟨us, u, d₂, hr, hus, hu, hpast₂, hd₂⟩ := read_endedMember hname hread (.inr rfl) hd₁
      (show d₁.rest.length < bound by omega) (show 4 * t.written.length ≤ depth by omega) []
    have hshort₂ := hpast₂.length_le
    have hseparator : readForm bound depth (opt (alt (mark ",") (mark ";"))) [] d₁ = some ([], d₁) :=
      read_opt_none (hstands.read_eq_none hbound (by decide) [])
    obtain ⟨vs, d₃, s, hmany, hvs, hpast₃, hd₃⟩ := readMany_fields
      (fun g hg => hfields g (List.mem_cons_of_mem _ hg)) hd₂ (show d₂.rest.length < bound by omega)
      (show d₂.rest.length < bound by omega)
      (show 4 * (Ty.writtenFields fields).length ≤ depth by omega)
    obtain ⟨ws, d₄, hclose, hws, hpast₄, hd₄⟩ := read_mark depth [' '] hbound hd₃ (.inr rfl) (by decide)
      "\x7d" (by decide) []
    have hmany' : readForm bound depth (many endedMember) [] d₂ = some (vs, d₃) := congrArg some hmany
    refine ⟨_, d₄, read_seq (read_seq (read_seq hopen (read_opt_some (read_seq hseparator hr))) hmany')
      hclose, ?_, ?_, hd₄⟩
    · simp only [core_append, hts, hus, hws, List.nil_append, List.append_nil, List.singleton_append]
      exact .cons hu hvs
    · exact (((hpast₁.trans hpast₂).trans hpast₃).trans hpast₄).congr (by rw [hd₄, hc])

theorem operand_shape {e : Ending} {fields : List (String × Ty)} (hfields : ReadableFields fields)
    (hc : c.rest = (Ty.shape fields).written ++ k) (hlen : c.rest.length < bound)
    (hdepth : 4 * (Ty.shape fields).written.length ≤ depth + 1) :
    ReadsType (readForm bound depth (typeOperand e) [] c) c [] (Ty.shape fields).written k
      (Ty.shape fields).span (.shape fields) := by
  have hbound : 0 < bound := by omega
  have hskip : (Head.mark '{').skips 5 (typeOperand e) = true := by
    cases e <;> decide
  obtain ⟨k', hk'⟩ : ∃ k', (Ty.shape fields).written = '{' :: k' := by
    cases fields with
    | nil => exact ⟨_, Ty.written_shape_nil⟩
    | cons f fields => exact ⟨_, Ty.written_shape_cons f fields⟩
  have hrest : c.rest = '{' :: (k' ++ k) := by
    rw [hc, hk']
    rfl
  have hstands : (Head.mark '{').Stands c.rest := Head.stands_mark (by decide) hrest
  have hsolid : isSolid c.rest = true := by
    rw [hrest]
    rfl
  have hpos : 0 < (Ty.shape fields).written.length := by
    rw [hk']
    exact Nat.succ_pos _
  obtain ⟨depth, rfl⟩ : ∃ d, depth = d + 1 := ⟨depth - 1, by omega⟩
  obtain ⟨ts, d, hr, hts, hpast, hd⟩ := read_braces hfields hc hlen
    (show 4 * (Ty.shape fields).written.length ≤ depth + 4 by omega)
  refine ⟨_, .node none .objectType c.place ts, d, ?_, (blanks_nil _).gives _, hpast, hd,
    ⟨_, _, _, rfl, by decide⟩, denotes_shape hts _⟩
  have hnode : readForm bound depth (node .objectType braces) [] c =
      some ([.node none .objectType c.place ts], d) :=
    read_node (readTrivia_of_isSolid bound hsolid) hr
  have hnest : readForm bound (depth + 1) (nest (.members .objectType)) [] c =
      some ([.node none .objectType c.place ts], d) := hnode
  rw [hstands.read_behind hbound hskip]
  exact read_alt_left hnest

end ObjectTypes

end UsageTypes
