import UsageTypes.Proofs.Combinators

/-! What the first word of a text decides. A text that begins with a known word or mark is refused by
most alternatives of a grammar at once; a verdict on a grammar says so without reading the text. -/

namespace UsageTypes

def isName : List Char → Bool
  | [] => false
  | c :: cs => !c.isDigit && isNamePart c && cs.all isNamePart

/-- Whether a name cannot go on with a text. -/
def endsName : List Char → Bool
  | [] => true
  | c :: _ => !isNamePart c && c ≠ '\\'

theorem isNamePart_of_isMark {c : Char} (h : isMark c = true) : isNamePart c = false := by
  rw [isMark, decide_eq_true_eq] at h
  simpa using (List.all_eq_true (p := fun c => !isNamePart c)).mp (by decide) c h

theorem isNamePart_of_isBlank {c : Char} (h : isBlank c = true) : isNamePart c = false := by
  have hletter : ¬('a' ≤ c && c ≤ 'z' || 'A' ≤ c && c ≤ 'Z') = true := by
    intro hl
    rw [isBlank] at h
    simp only [Bool.or_eq_true, Bool.and_eq_true, decide_eq_true_eq, Char.le_def,
      UInt32.le_iff_toNat_le] at hl
    have hascii : c ≤ '\x7f' := by
      rw [Char.le_def, UInt32.le_iff_toNat_le]
      simp at hl ⊢
      omega
    rw [if_pos hascii] at h
    simp only [Bool.or_eq_true, Bool.and_eq_true, decide_eq_true_eq, Char.le_def,
      UInt32.le_iff_toNat_le] at h
    rcases h with rfl | h
    · simp at hl
    · simp at hl h
      omega
  rw [isNamePart, if_neg hletter, h]
  simp

theorem nameTail_of_endsName {k : List Char} (hk : endsName k = true) : nameTail 0 k = 0 := by
  cases k with
  | nil => rfl
  | cons c k =>
    simp only [endsName, Bool.and_eq_true, Bool.not_eq_true', decide_eq_true_eq] at hk
    have hescape : escapeLength (c :: k) = none := by
      rw [escapeLength.eq_def]
      split <;> simp_all
    simp [nameTail, hk.1, hescape]

theorem nameTail_append {n k : List Char} (hn : n.all isNamePart = true) (hk : endsName k = true) :
    nameTail 0 (n ++ k) = n.length := by
  induction n with
  | nil => exact nameTail_of_endsName hk
  | cons c n ih =>
    rw [List.all_cons, Bool.and_eq_true] at hn
    rw [List.cons_append, nameTail, if_pos hn.1, ih hn.2, List.length_cons]

theorem isName_iff {n : List Char} : isName n = true ↔
    ∃ c cs, n = c :: cs ∧ c.isDigit = false ∧ isNamePart c = true ∧ cs.all isNamePart = true := by
  cases n with
  | nil => simp [isName]
  | cons c cs => simp [isName, and_assoc]

theorem nameLength_append {n k : List Char} (hn : isName n = true) (hk : endsName k = true) :
    nameLength (n ++ k) = n.length := by
  obtain ⟨c, cs, rfl, hd, hc, hcs⟩ := isName_iff.mp hn
  have hall : (c :: cs).all isNamePart = true := by simp [hc, hcs]
  rw [← nameTail_append hall hk]
  simp [nameLength, hd]

theorem nameLength_of_endsName {k : List Char} (hk : endsName k = true) : nameLength k = 0 := by
  cases k with
  | nil => rfl
  | cons c k =>
    rw [nameLength]
    split
    · rfl
    · exact nameTail_of_endsName hk

theorem startsWith_iff {cs ds : List Char} : startsWith cs ds = true ↔ ds <+: cs := by
  induction ds generalizing cs with
  | nil => simp [startsWith]
  | cons d ds ih =>
    cases cs with
    | nil => simp [startsWith]
    | cons c cs =>
      rw [startsWith, Bool.and_eq_true, decide_eq_true_eq, ih, List.cons_prefix_cons]
      exact and_congr_left' eq_comm

/-- How a text begins. -/
inductive Head where
  | mark (c : Char)
  | word (w : List Char)
  /-- A name that is none of the given words. -/
  | name (isnt : List (List Char))
  /-- The text is at its end. -/
  | stop

/-- Marks that begin neither a comment nor a number. -/
def plainMarks : List Char := [':', ';', ',', '(', ')', '[', ']', '{', '}', '&', '=']

namespace Head

def Begins : Head → List Char → Prop
  | mark m, cs => m ∈ plainMarks ∧ ∃ k, cs = m :: k
  | word w, cs => isName w = true ∧ ∃ k, cs = w ++ k ∧ endsName k = true
  | name isnt, cs => ∃ n k, cs = n ++ k ∧ isName n = true ∧ n ∉ isnt ∧ endsName k = true
  | stop, cs => cs = []

end Head

/-- What may stand between two words of a written type: nothing or one blank. -/
def IsGap (gap : List Char) : Prop :=
  gap = [] ∨ gap = [' ']

/-- A text begins so, perhaps behind a blank. -/
def Head.Stands (h : Head) (cs : List Char) : Prop :=
  ∃ gap ds, IsGap gap ∧ cs = gap ++ ds ∧ h.Begins ds

/-- A text that begins with neither a blank nor a comment. -/
def isSolid : List Char → Bool
  | [] => true
  | c :: _ => !isBlank c && c ≠ '/'

theorem isSolid_name {n : List Char} (hn : isName n = true) (k : List Char) :
    isSolid (n ++ k) = true := by
  obtain ⟨c, cs, rfl, -, hc, -⟩ := isName_iff.mp hn
  have hblank : isBlank c = false := by
    cases hb : isBlank c with
    | false => rfl
    | true => simp [isNamePart_of_isBlank hb] at hc
  have hslash : c ≠ '/' := by
    rintro rfl
    exact absurd hc (by decide)
  simp [isSolid, hblank, hslash]

theorem isSolid_mark {m : Char} (hm : m ∈ plainMarks) (k : List Char) :
    isSolid (m :: k) = true := by
  exact (List.all_eq_true (p := fun m => !isBlank m && m ≠ '/')).mp (by decide) m hm

theorem Head.Begins.isSolid {h : Head} {cs : List Char} (hb : h.Begins cs) : isSolid cs = true := by
  cases h with
  | mark m =>
    obtain ⟨hm, k, rfl⟩ := hb
    exact isSolid_mark hm k
  | word w =>
    obtain ⟨hw, k, rfl, -⟩ := hb
    exact isSolid_name hw k
  | name isnt =>
    obtain ⟨n, k, rfl, hn, -⟩ := hb
    exact isSolid_name hn k
  | stop =>
    obtain rfl := hb
    rfl

theorem endsName_mark {m : Char} (hm : m ∈ plainMarks) (k : List Char) :
    endsName (m :: k) = true := by
  exact (List.all_eq_true (p := fun m => !isNamePart m && m ≠ '\\')).mp (by decide) m hm

theorem commentLength_of_isSolid {cs : List Char} (h : isSolid cs = true) : commentLength cs = none := by
  rw [commentLength.eq_def]
  split
  · simp [isSolid] at h
  · simp [isSolid] at h
  · rfl

theorem readTrivia_of_isSolid (bound : Nat) {c : Cursor} (h : isSolid c.rest = true) :
    readTrivia bound c = ([], c) := by
  cases bound with
  | zero => rfl
  | succ bound =>
    rw [readTrivia]
    cases hc : c.rest with
    | nil => rfl
    | cons x cs =>
      simp only [hc, isSolid, Bool.and_eq_true, Bool.not_eq_true', decide_eq_true_eq] at h
      simp [h.1, h.2]

theorem countWhile_of_isSolid {cs : List Char} (h : isSolid cs = true) : countWhile isBlank cs = 0 := by
  cases cs with
  | nil => rfl
  | cons c cs =>
    simp only [isSolid, Bool.and_eq_true, Bool.not_eq_true'] at h
    simp [countWhile, h.1]

/-- The reader has moved over a text. -/
structure Cursor.Past (c : Cursor) (s : List Char) (d : Cursor) : Prop where
  rest_eq : c.rest = s ++ d.rest
  place_eq : d.place = c.place.after s

namespace Cursor

theorem Past.refl (c : Cursor) : c.Past [] c := ⟨rfl, rfl⟩

theorem Past.trans {c d e : Cursor} {s t : List Char} (h : c.Past s d) (h' : d.Past t e) :
    c.Past (s ++ t) e := by
  refine ⟨?_, ?_⟩
  · rw [h.rest_eq, h'.rest_eq, List.append_assoc]
  · rw [h'.place_eq, h.place_eq, Position.after_append]

theorem Past.length_eq {c d : Cursor} {s : List Char} (h : c.Past s d) :
    c.rest.length = s.length + d.rest.length := by
  rw [h.rest_eq, List.length_append]

theorem Past.length_le {c d : Cursor} {s : List Char} (h : c.Past s d) :
    d.rest.length ≤ c.rest.length := by
  rw [h.length_eq]
  exact Nat.le_add_left _ _

theorem past_pass {c : Cursor} {s k : List Char} (h : c.rest = s ++ k) :
    c.Past s (c.pass s.length) ∧ (c.pass s.length).rest = k := by
  have hk : (c.pass s.length).rest = k := by simp [pass, h]
  refine ⟨⟨by rw [hk, h], ?_⟩, hk⟩
  simp [pass, h]

theorem past_read {c : Cursor} {s k : List Char} (h : c.rest = s ++ k) :
    c.Past s (c.read s.length) ∧ (c.read s.length).rest = k := by
  obtain ⟨hpast, hrest⟩ := past_pass h
  exact ⟨⟨hpast.rest_eq, hpast.place_eq⟩, hrest⟩

end Cursor

def Blanks (gap : List Char) (ts : List Tree) : Prop :=
  (∀ t ∈ ts, ∃ s, t = .blank s) ∧ (gap = [] → ts = [])

theorem blanks_nil (gap : List Char) : Blanks gap [] :=
  ⟨by simp, fun _ => rfl⟩

theorem readTrivia_gap {bound : Nat} (hbound : 0 < bound) {c : Cursor} {gap s : List Char}
    (hc : c.rest = gap ++ s) (hgap : IsGap gap) (hs : isSolid s = true) :
    ∃ ts d, readTrivia bound c = (ts, d) ∧ Blanks gap ts ∧ c.Past gap d ∧ d.rest = s := by
  rcases hgap with rfl | rfl
  · exact ⟨[], c, readTrivia_of_isSolid bound (by rwa [hc]), blanks_nil _, .refl c, hc⟩
  · obtain ⟨bound, rfl⟩ : ∃ n, bound = n + 1 := ⟨bound - 1, by omega⟩
    obtain ⟨hpast, hrest⟩ : c.Past [' '] (c.pass 1) ∧ (c.pass 1).rest = s := Cursor.past_pass hc
    have hcount : countWhile isBlank c.rest = 1 := by
      rw [hc]
      simp [countWhile, countWhile_of_isSolid hs, show isBlank ' ' = true from rfl]
    have htail := readTrivia_of_isSolid bound (c := c.pass 1) (by rwa [hrest])
    refine ⟨[.blank (c.front 1)], c.pass 1, ?_, ?_, hpast, hrest⟩
    · simp only [readTrivia, hcount, htail]
      simp [hc, show isBlank ' ' = true from rfl]
    · refine ⟨fun t ht => ?_, fun h => nomatch h⟩
      obtain rfl := List.mem_singleton.mp ht
      exact ⟨_, rfl⟩

namespace Head

/-- Whether no text that begins so begins with a lexeme. -/
def refuses : Head → Lexeme → Bool
  | mark m, .mark s | mark m, .operator s => s.head? ≠ some m
  | mark _, .word _ | mark _, .name _ | mark _, .number | mark _, .privateName => true
  | word _, .mark s | word _, .operator s | name _, .mark s | name _, .operator s =>
    s.head?.all (!isNamePart ·)
  | word w, .word v => v ≠ w
  | word w, .name except => except.contains w
  | name isnt, .word w => isnt.contains w
  | word _, .number | name _, .number | word _, .privateName | name _, .privateName => true
  | stop, _ => true
  | _, _ => false

theorem startsWith_false {c : Char} {cs s : List Char} (h : s.head? ≠ some c) (hs : s ≠ []) :
    startsWith (c :: cs) s = false := by
  cases s with
  | nil => exact absurd rfl hs
  | cons d s =>
    have : c ≠ d := fun h' => h (by simp [h'])
    simp [startsWith, this]

theorem take?_mark_of_head {c : Char} {cs s : List Char} (h : s.head? ≠ some c) :
    Lexeme.take? (.mark s) (c :: cs) = none ∧ Lexeme.take? (.operator s) (c :: cs) = none := by
  cases s with
  | nil => simp [Lexeme.take?, positive]
  | cons d s => simp [Lexeme.take?, startsWith_false h]

theorem numberLength_of_isDigit {c : Char} {cs : List Char} (h : c.isDigit = false) (h' : c ≠ '.') :
    numberLength (c :: cs) = 0 := by
  have hdigits : digitsLength Char.isDigit (c :: cs) = 0 := by
    rw [digitsLength.eq_def]
    split <;> simp_all
  have hzero : c ≠ '0' := by
    rintro rfl
    exact absurd h (by decide)
  rw [numberLength.eq_def]
  split <;> simp_all

theorem take?_word {n k v : List Char} (hn : isName n = true) (hk : endsName k = true) (h : v ≠ n) :
    Lexeme.take? (.word v) (n ++ k) = none := by
  rw [Lexeme.take?, if_neg]
  rw [nameLength_append hn hk, Bool.and_eq_true, startsWith_iff, decide_eq_true_eq]
  rintro ⟨hp, hl⟩
  refine h (List.prefix_of_prefix_length_le hp (List.prefix_append n k) (Nat.le_of_eq hl.symm) |>.eq_of_length hl.symm)

theorem take?_privateName {c : Char} {cs : List Char} (h : c ≠ '#') :
    Lexeme.take? .privateName (c :: cs) = none := by
  rw [Lexeme.take?]
  rintro ds h'
  exact h (List.cons.inj h').1

theorem take?_number_name {n k : List Char} (hn : isName n = true) :
    Lexeme.take? .number (n ++ k) = none ∧ Lexeme.take? .privateName (n ++ k) = none := by
  obtain ⟨c, cs, rfl, hd, hc, -⟩ := isName_iff.mp hn
  have hdot : c ≠ '.' := by
    rintro rfl
    exact absurd hc (by decide)
  have hsharp : c ≠ '#' := by
    rintro rfl
    exact absurd hc (by decide)
  refine ⟨by simp [Lexeme.take?, numberLength_of_isDigit hd hdot, positive], ?_⟩
  exact take?_privateName hsharp

theorem take?_mark_name {n k s : List Char} (hn : isName n = true)
    (hs : s.head?.all (!isNamePart ·) = true) :
    Lexeme.take? (.mark s) (n ++ k) = none ∧ Lexeme.take? (.operator s) (n ++ k) = none := by
  obtain ⟨c, cs, rfl, -, hc, -⟩ := isName_iff.mp hn
  refine take?_mark_of_head ?_
  intro h
  simp [h, hc] at hs

theorem Begins.take?_eq_none {h : Head} {cs : List Char} (hb : h.Begins cs) {l : Lexeme}
    (hl : h.refuses l = true) : l.take? cs = none := by
  cases h with
  | mark m =>
    obtain ⟨hm, k, rfl⟩ := hb
    have hdigit : m.isDigit = false ∧ m ≠ '.' ∧ m ≠ '#' := by
      simpa [and_assoc] using
        (List.all_eq_true (p := fun m => !m.isDigit && m ≠ '.' && m ≠ '#')).mp (by decide) m hm
    have hname := nameLength_of_endsName (endsName_mark hm k)
    cases l with
    | mark s => exact (take?_mark_of_head (of_decide_eq_true hl)).1
    | operator s => exact (take?_mark_of_head (of_decide_eq_true hl)).2
    | word w =>
      rw [Lexeme.take?, hname]
      cases w <;> simp [positive]
    | name except => simp [Lexeme.take?, hname]
    | number => simp [Lexeme.take?, numberLength_of_isDigit hdigit.1 hdigit.2.1, positive]
    | privateName => exact take?_privateName hdigit.2.2
    | _ => simp [refuses] at hl
  | word w =>
    obtain ⟨hw, k, rfl, hk⟩ := hb
    cases l with
    | mark s => exact (take?_mark_name hw hl).1
    | operator s => exact (take?_mark_name hw hl).2
    | word v => exact take?_word hw hk (of_decide_eq_true hl)
    | name except =>
      rw [Lexeme.take?, nameLength_append hw hk]
      simp only [List.take_left']
      rw [if_pos]
      simpa [refuses] using Or.inr hl
    | number => exact (take?_number_name hw).1
    | privateName => exact (take?_number_name hw).2
    | _ => simp [refuses] at hl
  | name isnt =>
    obtain ⟨n, k, rfl, hn, hisnt, hk⟩ := hb
    cases l with
    | mark s => exact (take?_mark_name hn hl).1
    | operator s => exact (take?_mark_name hn hl).2
    | word v =>
      refine take?_word hn hk ?_
      rintro rfl
      exact hisnt (List.contains_iff_mem.mp hl)
    | number => exact (take?_number_name hn).1
    | privateName => exact (take?_number_name hn).2
    | _ => simp [refuses] at hl
  | stop =>
    obtain rfl := hb
    cases l with
    | mark s => cases s <;> simp [Lexeme.take?, startsWith, positive]
    | operator s => cases s <;> simp [Lexeme.take?, startsWith, positive]
    | word s => cases s <;> simp [Lexeme.take?, startsWith, positive]
    | name except => simp [Lexeme.take?, nameLength]
    | _ => rfl

end Head

/-- What is known of a reading from the beginning of the text. -/
inductive Verdict where
  /-- Nothing is read. -/
  | blocked
  /-- What is read ends where the text still begins the same way. -/
  | idle
  | unknown
  deriving DecidableEq

namespace Verdict

def Holds (h : Head) (r : Reading) : Verdict → Prop
  | .blocked => r = none
  | .idle => ∀ ts d, r = some (ts, d) → h.Stands d.rest
  | .unknown => True

/-- Whether a reading may end at a cursor. -/
def Allows (h : Head) (d : Cursor) : Verdict → Prop
  | .blocked => False
  | .idle => h.Stands d.rest
  | .unknown => True

variable {h : Head} {v : Verdict}

theorem holds_iff {r : Reading} : v.Holds h r ↔ ∀ ts d, r = some (ts, d) → v.Allows h d := by
  cases v with
  | blocked =>
    rw [Holds, Option.eq_none_iff_forall_ne_some]
    exact ⟨fun hr ts d hts => hr _ hts, fun hr x hx => hr x.1 x.2 hx⟩
  | idle => exact Iff.rfl
  | unknown => simp [Holds, Allows]

theorem Allows.stands {d : Cursor} (hd : v.Allows h d) (hv : v ≠ .unknown) : h.Stands d.rest := by
  cases v with
  | blocked => exact hd.elim
  | idle => exact hd
  | unknown => exact absurd rfl hv

end Verdict

theorem readMany_of_none {body : Cursor → Reading} {c : Cursor} (h : body c = none) (bound : Nat) :
    readMany body bound c = ([], c) := by
  cases bound with
  | zero => rfl
  | succ bound => rw [readMany, h]

namespace Head

theorem Begins.stands {h : Head} {cs : List Char} (hb : h.Begins cs) : h.Stands cs :=
  ⟨[], cs, .inl rfl, rfl, hb⟩

theorem Stands.readTrivia {h : Head} {bound : Nat} (hbound : 0 < bound) {c : Cursor}
    (hc : h.Stands c.rest) : ∃ ts d, readTrivia bound c = (ts, d) ∧ h.Begins d.rest := by
  obtain ⟨gap, ds, hgap, hrest, hb⟩ := hc
  obtain ⟨ts, d, hr, -, -, rfl⟩ := readTrivia_gap hbound hrest hgap hb.isSolid
  exact ⟨ts, d, hr, hb⟩

theorem stands_mark {m : Char} {cs k : List Char} (hm : m ∈ plainMarks) (hcs : cs = m :: k) :
    (mark m).Stands cs :=
  ⟨[], cs, .inl rfl, rfl, hm, k, hcs⟩

theorem stands_blank_mark {m : Char} {cs k : List Char} (hm : m ∈ plainMarks) (hcs : cs = ' ' :: m :: k) :
    (mark m).Stands cs :=
  ⟨[' '], m :: k, .inr rfl, hcs, hm, k, rfl⟩

theorem Stands.mem_plainMarks {m : Char} {k : List Char} (h : (mark m).Stands k) : m ∈ plainMarks := by
  obtain ⟨_, _, -, -, hm, -⟩ := h
  exact hm

theorem Stands.endsName {m : Char} {k : List Char} (h : (mark m).Stands k) :
    UsageTypes.endsName k = true := by
  obtain ⟨gap, ds, hgap, rfl, hm, k, rfl⟩ := h
  rcases hgap with rfl | rfl
  · exact endsName_mark hm k
  · rfl

end Head

theorem countWhile_inline_of_isSolid {cs : List Char} (h : isSolid cs = true) :
    countWhile isInlineBlank cs = 0 := by
  have hinline : ∀ c, isInlineBlank c = true → isBlank c = true := by
    intro c hc
    simp only [isInlineBlank, Bool.or_eq_true, decide_eq_true_eq, or_assoc] at hc
    rcases hc with rfl | rfl | rfl | rfl | rfl <;> rfl
  cases cs with
  | nil => rfl
  | cons c cs =>
    simp only [isSolid, Bool.and_eq_true, Bool.not_eq_true'] at h
    have : isInlineBlank c = false := by
      cases hc : isInlineBlank c with
      | false => rfl
      | true => simp [hinline c hc] at h
    simp [countWhile, this]

theorem drop_countWhile_inline {gap s : List Char} (hgap : IsGap gap) (hs : isSolid s = true) :
    (gap ++ s).drop (countWhile isInlineBlank (gap ++ s)) = s := by
  rcases hgap with rfl | rfl
  · simp [countWhile_inline_of_isSolid hs]
  · have : isInlineBlank ' ' = true := rfl
    simp [countWhile, this, countWhile_inline_of_isSolid hs]

/-- Before words, marks and the end of a text no comment belongs to an implied semicolon. -/
theorem Head.Stands.autoSemicolon {h : Head} {bound : Nat} {c : Cursor} (hc : h.Stands c.rest)
    {ts : List Tree} {d : Cursor} (hr : autoSemicolon bound c = some (ts, d)) : d = c := by
  obtain ⟨gap, ds, hgap, hrest, hb⟩ := hc
  have hsolid := hb.isSolid
  cases bound with
  | zero => cases hr
  | succ bound =>
    rw [UsageTypes.autoSemicolon, hrest, drop_countWhile_inline hgap hsolid] at hr
    split at hr
    · exact ((Prod.mk.injEq ..).mp (Option.some.inj hr)).2.symm
    · dsimp only at hr
      split at hr
      · cases hr
      · exact ((Prod.mk.injEq ..).mp (Option.some.inj hr)).2.symm
    · exact absurd hsolid (by simp [isSolid, isBlank])
    · rw [commentLength_of_isSolid hsolid] at hr
      cases hr

namespace Grammar

variable {ρ : Type}

/-- The verdict on a grammar, given that on the rules. -/
def verdict (h : Head) (rules : ρ → Verdict) : Grammar ρ → Verdict
  | empty | ahead _ | trivia | implied | unlessImplied | operand | absent _ => .idle
  | glued _ | gluedLeaf _ _ | semicolon => .unknown
  | token l => if h.refuses l then .blocked else .unknown
  | seq a b =>
    match a.verdict h rules with
    | .blocked => .blocked
    | .idle => b.verdict h rules
    | .unknown => .unknown
  | alt a b =>
    match a.verdict h rules with
    | .blocked => b.verdict h rules
    | .idle => if b.verdict h rules = .unknown then .unknown else .idle
    | .unknown => .unknown
  | many a => if a.verdict h rules = .blocked then .idle else .unknown
  | node _ a | field _ a | only _ a => a.verdict h rules
  | rule r => rules r
  | grow a _ | wrap _ _ _ a => if a.verdict h rules = .blocked then .blocked else .unknown
  | look a => if a.verdict h rules = .blocked then .blocked else .idle

/-- A reading ends where the verdict allows it. -/
theorem verdict_allows {h : Head} {verdicts : Rule → Verdict} {bound : Nat} (hbound : 0 < bound)
    {rules : Rule → Cursor → Reading}
    (hrules : ∀ r c, h.Stands c.rest → (verdicts r).Holds h (rules r c)) (g : Form) :
    ∀ left c, h.Stands c.rest → ∀ ts d, g.read bound rules left c = some (ts, d) →
      (g.verdict h verdicts).Allows h d := by
  induction g with
  | empty | operand | absent | ahead | unlessImplied =>
    intro left c hc ts d hr
    change h.Stands d.rest
    rwa [(read_of_isSilent rfl hr).2]
  | glued | gluedLeaf | semicolon => exact fun _ _ _ _ _ _ => trivial
  | rule r => exact fun left c hc => Verdict.holds_iff.mp (hrules r c hc)
  | token l =>
    intro left c hc ts d hr
    obtain ⟨n, htake, -, -⟩ := read_token_eq_some hr
    obtain ⟨us, e, htrivia, hb⟩ := hc.readTrivia hbound
    rw [htrivia] at htake
    rw [verdict]
    split
    · rename_i hl
      cases htake.symm.trans (hb.take?_eq_none hl)
    · trivial
  | seq a b iha ihb =>
    intro left c hc ts d hr
    obtain ⟨us, e, vs, ha, hb, -⟩ := read_seq_eq_some hr
    have ha := iha left c hc us e ha
    rw [verdict]
    cases hv : a.verdict h verdicts with
    | blocked =>
      rw [hv] at ha
      exact ha.elim
    | idle =>
      -- the first part ends where the text still begins so, and the second one decides
      rw [hv] at ha
      exact ihb left e ha vs d hb
    | unknown => trivial
  | alt a b iha ihb =>
    intro left c hc ts d hr
    rw [verdict]
    cases hv : a.verdict h verdicts with
    | blocked =>
      obtain ha | ⟨-, hb⟩ := read_alt_eq_some hr
      · have ha := iha left c hc ts d ha
        rw [hv] at ha
        exact ha.elim
      · exact ihb left c hc ts d hb
    | idle =>
      dsimp only
      split
      · trivial
      · rename_i hknown
        change h.Stands d.rest
        obtain ha | ⟨-, hb⟩ := read_alt_eq_some hr
        · exact (iha left c hc ts d ha).stands (by simp [hv])
        · exact (ihb left c hc ts d hb).stands hknown
    | unknown => trivial
  | many a iha =>
    intro left c hc ts d hr
    rw [verdict]
    split
    · rename_i hv
      have ha := Verdict.holds_iff.mpr (iha [] c hc)
      rw [hv] at ha
      rw [read, readMany_of_none ha, Option.some.injEq, Prod.mk.injEq] at hr
      exact hr.2 ▸ hc
    · trivial
  | node k a iha =>
    intro left c hc ts d hr
    obtain ⟨us, ha, -⟩ := read_node_eq_some hr
    obtain ⟨vs, e, htrivia, hb⟩ := hc.readTrivia hbound
    rw [htrivia] at ha
    exact iha [] e hb.stands us d ha
  | field l a iha =>
    intro left c hc ts d hr
    obtain ⟨us, ha, -⟩ := read_field_eq_some hr
    exact iha left c hc us d ha
  | only fits a iha => exact fun left c hc ts d hr => iha left c hc ts d (read_only_eq_some hr)
  | grow a b iha _ =>
    intro left c hc ts d hr
    obtain ⟨us, e, ha, -, -⟩ := read_grow_eq_some hr
    obtain ⟨vs, f, htrivia, hb⟩ := hc.readTrivia hbound
    rw [htrivia] at ha
    have ha := iha [] f hb.stands us e ha
    rw [verdict]
    split
    · rename_i hv
      rw [hv] at ha
      exact ha.elim
    · trivial
  | wrap k l fits a iha =>
    intro left c hc ts d hr
    obtain ⟨_, _, _, _, us, -, ha, -⟩ := read_wrap_eq_some hr
    have ha := iha [] c hc us d ha
    rw [verdict]
    split
    · rename_i hv
      rw [hv] at ha
      exact ha.elim
    · trivial
  | look a iha =>
    intro left c hc ts d hr
    obtain ⟨⟨us, e⟩, ha⟩ := read_look_eq_some hr
    have ha := iha left c hc us e ha
    rw [verdict]
    split
    · rename_i hv
      rw [hv] at ha
      exact ha.elim
    · change h.Stands d.rest
      rwa [(read_of_isSilent rfl hr).2]
  | trivia =>
    intro left c hc ts d hr
    obtain ⟨us, e, htrivia, hb⟩ := hc.readTrivia hbound
    rw [read, htrivia] at hr
    obtain ⟨-, rfl⟩ := (Prod.mk.injEq ..).mp (Option.some.inj hr)
    exact hb.stands
  | implied =>
    intro left c hc ts d hr
    change h.Stands d.rest
    rwa [hc.autoSemicolon hr]

end Grammar

/-- The verdict on a rule, from that many rules within rules. -/
def ruleVerdict (h : Head) : Nat → Rule → Verdict
  | 0, _ => .unknown
  | n + 1, r => (Forms.grammar r).verdict h (ruleVerdict h n)

theorem ruleVerdict_holds (h : Head) {bound : Nat} (hbound : 0 < bound) (n depth : Nat) (r : Rule)
    (c : Cursor) (hc : h.Stands c.rest) :
    (ruleVerdict h n r).Holds h (Grammar.readRule Forms.grammar bound depth r c) := by
  -- the verdict looks through n rules, however deep the reader goes
  induction n generalizing depth r c with
  | zero => trivial
  | succ n ih =>
    rw [Verdict.holds_iff]
    cases depth with
    | zero => exact fun _ _ hr => nomatch hr
    | succ depth => exact Grammar.verdict_allows hbound (fun r c => ih depth r c) _ _ _ hc

/-- How many rules within rules a verdict looks through. -/
def lookaheadDepth : Nat := 6

end UsageTypes
