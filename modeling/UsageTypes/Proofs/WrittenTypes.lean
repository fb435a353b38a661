import UsageTypes.Grammar.Types
import UsageTypes.Proofs.Intersection
import UsageTypes.Proofs.Names
import UsageTypes.Resolve

/-! Types in their written form: which of them can be read back, how deep the trees of their texts
are, and that brackets are balanced in them. -/

namespace UsageTypes

/-- Words that do not stand for a declared type where a type is read. -/
def takenWords : List (List Char) :=
  Forms.typeWords ++ ["any", "unknown", "number", "string", "boolean"].map String.toList

namespace Ty

/-- Types that are written in parentheses before `[]`. -/
def isLoose (t : Ty) : Bool :=
  t.bindsLoosely || t.isInter

mutual

/-- Types that can be read back from their written form: references and fields have plain names, and
intersections are in normal form. -/
def isWritable : Ty → Bool
  | .dynamic | .primitive _ => true
  | .array element => element.isWritable
  | .shape fields => areWritableFields fields
  | .named text => isName text.toList && !takenWords.contains text.toList
  | .inter members =>
    2 ≤ members.length && members.Nodup && members.all (!·.isInter) && areWritable members
  | .function params returns => areWritable params && returns.isWritable

def areWritableFields : List (String × Ty) → Bool
  | [] => true
  | (name, t) :: fields => isName name.toList && t.isWritable && areWritableFields fields

def areWritable : List Ty → Bool
  | [] => true
  | t :: ts => t.isWritable && areWritable ts

end

mutual

/-- How many nodes stand above one another in the tree of a written type. Parentheses and ascriptions
count, and intersections nest to the left. -/
def span : Ty → Nat
  | .dynamic | .primitive _ | .named _ => 1
  | .array element => (if element.isLoose then 2 else 1) + element.span
  | .shape fields => 1 + spanFields fields
  | .inter [] => 1
  | .inter (t :: ts) => spanMembers ((if t.bindsLoosely then 1 else 0) + t.span) ts
  | .function params returns => 1 + max (spanParams params) returns.span

def spanFields : List (String × Ty) → Nat
  | [] => 0
  | (_, t) :: fields => max (1 + t.span) (spanFields fields)

def spanMembers (left : Nat) : List Ty → Nat
  | [] => left
  | t :: ts => spanMembers (1 + max left ((if t.bindsLoosely then 1 else 0) + t.span)) ts

def spanParams : List Ty → Nat
  | [] => 0
  | t :: ts => max (1 + t.span) (spanParams ts)

end

end Ty

/-- The automaton of brackets ends with the brackets that were open before the text. -/
def Balanced (s : List Char) : Prop :=
  ∀ (x : Lexing) (k : List Char), x.spot = .code → x.broken = false → x.stack ≠ [] →
    ∃ y : Lexing, y.spot = .code ∧ y.broken = false ∧ y.stack = x.stack ∧
      x.closing (s ++ k) = y.closing k

theorem balanced_nil : Balanced [] := fun x _ hs hb _ => ⟨x, hs, hb, rfl, rfl⟩

theorem Balanced.append {s t : List Char} (hs : Balanced s) (ht : Balanced t) : Balanced (s ++ t) := by
  intro x k hspot hbroken hstack
  obtain ⟨y, hspot', hbroken', hstack', hy⟩ := hs x (t ++ k) hspot hbroken hstack
  obtain ⟨z, hspot'', hbroken'', hstack'', hz⟩ := ht y k hspot' hbroken' (by rwa [hstack'])
  exact ⟨z, hspot'', hbroken'', hstack''.trans hstack', by rw [List.append_assoc, hy, hz]⟩

/-- Characters of code that open and close nothing. -/
def isFlat (c : Char) : Bool :=
  !(c ∈ ['/', '"', '\x27', '`', '(', '[', '{', ')', ']', '}'])

theorem isFlat_of_isNamePart {c : Char} (h : isNamePart c = true) : isFlat c = true := by
  cases hc : isFlat c with
  | true => rfl
  | false =>
    have hmark : isMark c = true := by
      simp only [isFlat, Bool.not_eq_false', decide_eq_true_eq] at hc
      exact List.all_eq_true.mp (by decide) c hc
    simp [isNamePart_of_isMark hmark] at h

theorem code_of_isFlat {c : Char} (h : isFlat c = true) (x : Lexing) (next : Option Char) :
    (x.code c next).spot = x.spot ∧ (x.code c next).broken = x.broken ∧
      (x.code c next).stack = x.stack := by
  simp only [isFlat, Bool.not_eq_true', decide_eq_false_iff_not, List.mem_cons, not_or] at h
  simp only [Lexing.code, h, if_false, decide_false, Bool.or_self, Bool.false_eq_true]
  split
  · exact ⟨rfl, rfl, rfl⟩
  · split
    · exact ⟨rfl, rfl, rfl⟩
    · exact ⟨rfl, rfl, rfl⟩

theorem balanced_singleton {c : Char} (h : isFlat c = true) : Balanced [c] := by
  intro x k hspot hbroken hstack
  obtain ⟨hspot', hbroken', hstack'⟩ := code_of_isFlat h x k.head?
  refine ⟨x.code c k.head?, hspot'.trans hspot, hbroken'.trans hbroken, hstack', ?_⟩
  rw [List.singleton_append, Lexing.closing, Lexing.step, hspot]
  simp [hbroken', hbroken, hstack', hstack]

theorem Balanced.cons {c : Char} {s : List Char} (hs : Balanced s) (hc : isFlat c = true) :
    Balanced (c :: s) :=
  (balanced_singleton hc).append hs

theorem balanced_of_all {s : List Char} (h : s.all isFlat = true) : Balanced s := by
  induction s with
  | nil => exact balanced_nil
  | cons c s ih =>
    rw [List.all_cons, Bool.and_eq_true] at h
    exact (balanced_singleton h.1).append (ih h.2)

theorem balanced_flatMap {α : Type} {as : List α} {f : α → List Char}
    (h : ∀ a ∈ as, Balanced (f a)) : Balanced (as.flatMap f) := by
  induction as with
  | nil => exact balanced_nil
  | cons a as ih =>
    rw [List.flatMap_cons]
    exact (h a List.mem_cons_self).append (ih fun b hb => h b (List.mem_cons_of_mem _ hb))

/-- Two characters of code that open a bracket and close it. -/
def Pairs (o q : Char) : Prop :=
  ∀ (x : Lexing) (next : Option Char), x.spot = .code → x.broken = false →
    ∃ b : Bracket, (x.code o next).spot = .code ∧ (x.code o next).broken = false ∧
      (x.code o next).stack = b :: x.stack ∧
      ∀ (y : Lexing) (next : Option Char), y.spot = .code → y.broken = false →
        y.stack = b :: x.stack →
        (y.code q next).spot = .code ∧ (y.code q next).broken = false ∧
          (y.code q next).stack = x.stack

theorem pairs_round : Pairs '(' ')' := by
  intro x next hspot hbroken
  refine ⟨if x.afterFor then .header else .round, by simpa [Lexing.code, Lexing.opened] using hspot,
    by simpa [Lexing.code, Lexing.opened] using hbroken, by simp [Lexing.code, Lexing.opened], ?_⟩
  intro y next' hspot' hbroken' hstack
  cases hf : x.afterFor <;>
    simp [Lexing.code, Lexing.closed, hstack, hf, hspot', hbroken']

theorem pairs_square : Pairs '[' ']' := by
  intro x next hspot hbroken
  refine ⟨.square, by simpa [Lexing.code, Lexing.opened] using hspot,
    by simpa [Lexing.code, Lexing.opened] using hbroken, by simp [Lexing.code, Lexing.opened], ?_⟩
  intro y next' hspot' hbroken' hstack
  simp [Lexing.code, Lexing.closed, hstack, hspot', hbroken']

theorem pairs_curly : Pairs '{' '}' := by
  intro x next hspot hbroken
  refine ⟨.curly, by simpa [Lexing.code, Lexing.opened] using hspot,
    by simpa [Lexing.code, Lexing.opened] using hbroken, by simp [Lexing.code, Lexing.opened], ?_⟩
  intro y next' hspot' hbroken' hstack
  simp [Lexing.code, Lexing.closed, hstack, hspot', hbroken']

theorem closing_cons {x : Lexing} (hspot : x.spot = .code) {c : Char} {cs : List Char}
    (hbroken : (x.code c cs.head?).broken = false) (hstack : (x.code c cs.head?).stack ≠ []) :
    x.closing (c :: cs) = (x.code c cs.head?).closing cs := by
  rw [Lexing.closing, Lexing.step, hspot]
  simp [hbroken, hstack]

theorem Balanced.enclosed {o q : Char} (hp : Pairs o q) {s : List Char} (hs : Balanced s) :
    Balanced (o :: (s ++ [q])) := by
  intro x k hspot hbroken hstack
  obtain ⟨b, hspot₁, hbroken₁, hstack₁, hclose⟩ := hp x (s ++ q :: k).head? hspot hbroken
  have hopen : (x.code o (s ++ q :: k).head?).stack ≠ [] := by
    rw [hstack₁]
    exact List.cons_ne_nil _ _
  obtain ⟨y, hspot₂, hbroken₂, hstack₂, hy⟩ := hs _ (q :: k) hspot₁ hbroken₁ hopen
  obtain ⟨hspot₃, hbroken₃, hstack₃⟩ := hclose y k.head? hspot₂ hbroken₂ (hstack₂.trans hstack₁)
  refine ⟨y.code q k.head?, hspot₃, hbroken₃, hstack₃, ?_⟩
  rw [List.cons_append, List.append_assoc, List.singleton_append, closing_cons hspot hbroken₁ hopen,
    hy, closing_cons hspot₂ hbroken₃ (by rwa [hstack₃])]

theorem behindBracket_enclosed {o q : Char} (hp : Pairs o q) {s : List Char} (hs : Balanced s)
    (k : List Char) : behindBracket (o :: (s ++ q :: k)) = some k := by
  obtain ⟨b, hspot₁, hbroken₁, hstack₁, hclose⟩ := hp {} (s ++ q :: k).head? rfl rfl
  have hopen : (({} : Lexing).code o (s ++ q :: k).head?).stack ≠ [] := by
    rw [hstack₁]
    exact List.cons_ne_nil _ _
  obtain ⟨y, hspot₂, hbroken₂, hstack₂, hy⟩ := hs _ (q :: k) hspot₁ hbroken₁ hopen
  obtain ⟨-, hbroken₃, hstack₃⟩ := hclose y k.head? hspot₂ hbroken₂ (hstack₂.trans hstack₁)
  rw [behindBracket, closing_cons rfl hbroken₁ hopen, hy, Lexing.closing, Lexing.step, hspot₂]
  simp [hbroken₃, hstack₃]

namespace Ty

def written (t : Ty) : List Char := t.display.toList

def parens (s : List Char) : List Char := '(' :: (s ++ [')'])

/-- A type as it is written where looser ones stand in parentheses. -/
def wrapped (loose : Bool) (t : Ty) : List Char := if loose then parens t.written else t.written

def writtenElement (t : Ty) : List Char := t.wrapped t.isLoose

def writtenMember (t : Ty) : List Char := t.wrapped t.bindsLoosely

def writtenFields (fields : List (String × Ty)) : List Char := (displayFields fields).toList

def writtenParams (index : Nat) (params : List Ty) : List Char := (displayParams index params).toList

def paramName (index : Nat) : List Char := 'a' :: 'r' :: 'g' :: Nat.toDigits 10 index

theorem written_array (t : Ty) : (array t).written = t.writtenElement ++ ['[', ']'] := by
  rw [written, display, writtenElement, wrapped, isLoose]
  split
  · simp [parens, written]
  · simp [written]

theorem written_shape_nil : (shape []).written = ['{', '}'] := by
  decide

theorem written_shape_cons (field : String × Ty) (fields : List (String × Ty)) :
    (shape (field :: fields)).written =
      '{' :: ' ' :: (writtenFields (field :: fields) ++ ['}']) := by
  simp [written, display, writtenFields]

theorem writtenFields_cons (name : String) (t : Ty) (fields : List (String × Ty)) :
    writtenFields ((name, t) :: fields) =
      name.toList ++ (':' :: ' ' :: (t.written ++ (';' :: ' ' :: writtenFields fields))) := by
  simp [writtenFields, displayFields, written]

theorem written_inter (t u : Ty) (ts : List Ty) : (inter (t :: u :: ts)).written =
    t.writtenMember ++ (u :: ts).flatMap fun v => ' ' :: '&' :: ' ' :: v.writtenMember := by
  have hmember : ∀ v : Ty, (if v.bindsLoosely then "(" ++ v.display ++ ")" else v.display).toList =
      v.writtenMember := by
    intro v
    simp only [writtenMember, wrapped, written, parens]
    split <;> simp
  rw [written, display]
  induction ts generalizing t u with
  | nil => simp [displayMembers, hmember]
  | cons v ts ih =>
    rw [displayMembers, String.toList_append, String.toList_append, hmember, ih]
    · simp
    · simp

theorem writtenParams_cons (index : Nat) (t u : Ty) (ts : List Ty) :
    writtenParams index (t :: u :: ts) = paramName index ++
      (':' :: ' ' :: (t.written ++ (',' :: ' ' :: writtenParams (index + 1) (u :: ts)))) := by
  simp [writtenParams, displayParams, written, paramName, Nat.toList_repr, toString]

theorem writtenParams_singleton (index : Nat) (t : Ty) :
    writtenParams index [t] = paramName index ++ (':' :: ' ' :: t.written) := by
  simp [writtenParams, displayParams, written, paramName, Nat.toList_repr, toString]

theorem written_function (params : List Ty) (returns : Ty) : (function params returns).written =
    '(' :: (writtenParams 0 params ++ (')' :: ' ' :: '=' :: '>' :: ' ' :: returns.written)) := by
  simp [written, display, writtenParams]

theorem isName_paramName (index : Nat) : isName (paramName index) = true := by
  refine isName_iff.mpr ⟨'a', _, rfl, by decide, by decide, ?_⟩
  rw [List.all_eq_true]
  intro c hc
  rcases List.mem_cons.mp hc with rfl | hc
  · decide
  · rcases List.mem_cons.mp hc with rfl | hc
    · decide
    · exact isNamePart_of_isDigit (Nat.isDigit_of_mem_toDigits (by decide) (by decide) hc)

theorem all_isFlat_of_isName {n : List Char} (h : isName n = true) : n.all isFlat = true := by
  obtain ⟨c, cs, rfl, -, hc, hcs⟩ := isName_iff.mp h
  rw [List.all_eq_true] at hcs ⊢
  intro d hd
  rcases List.mem_cons.mp hd with rfl | hd
  · exact isFlat_of_isNamePart hc
  · exact isFlat_of_isNamePart (hcs d hd)

theorem balanced_parens {s : List Char} (hs : Balanced s) : Balanced (parens s) :=
  hs.enclosed pairs_round

theorem balanced_wrapped {t : Ty} (h : Balanced t.written) (loose : Bool) :
    Balanced (t.wrapped loose) := by
  rw [wrapped]
  split
  · exact balanced_parens h
  · exact h

theorem balanced_typed {n s : List Char} (hn : isName n = true) (hs : Balanced s) :
    Balanced (n ++ (':' :: ' ' :: s)) :=
  (balanced_of_all (all_isFlat_of_isName hn)).append ((hs.cons (by decide)).cons (by decide))

mutual

theorem balanced_written : ∀ t : Ty, t.isWritable = true → Balanced t.written
  | .dynamic, _ => balanced_of_all (by decide)
  | .primitive p, _ => by cases p <;> exact balanced_of_all (by decide)
  | .array t, h => by
    have ht := balanced_written t h
    rw [written_array]
    exact (balanced_wrapped ht _).append (balanced_nil.enclosed pairs_square)
  | .shape [], _ => by
    rw [written_shape_nil]
    exact balanced_nil.enclosed pairs_curly
  | .shape (field :: fields), h => by
    rw [written_shape_cons]
    exact (Balanced.cons (balanced_writtenFields _ h) (by decide)).enclosed pairs_curly
  | .named text, h => by
    rw [isWritable, Bool.and_eq_true] at h
    exact balanced_of_all (all_isFlat_of_isName h.1)
  | .inter [], h => by simp [isWritable] at h
  | .inter [_], h => by simp [isWritable] at h
  | .inter (t :: u :: ts), h => by
    rw [isWritable, Bool.and_eq_true] at h
    have hall := balanced_all (t :: u :: ts) h.2
    rw [written_inter]
    refine (balanced_wrapped (hall t List.mem_cons_self) _).append ?_
    refine balanced_flatMap fun v hv => ?_
    have hv := balanced_wrapped (hall v (List.mem_cons_of_mem _ hv)) v.bindsLoosely
    exact ((hv.cons (by decide)).cons (by decide)).cons (by decide)
  | .function params returns, h => by
    rw [isWritable, Bool.and_eq_true] at h
    have hparams := Balanced.enclosed pairs_round (balanced_writtenParams 0 params h.1)
    have hreturns : Balanced (' ' :: '=' :: '>' :: ' ' :: returns.written) :=
      (((Balanced.cons (balanced_written returns h.2) (by decide)).cons (by decide)).cons
        (by decide)).cons (by decide)
    have := hparams.append hreturns
    rw [written_function]
    simpa using this

theorem balanced_writtenFields : ∀ fields : List (String × Ty), areWritableFields fields = true →
    Balanced (writtenFields fields)
  | [], _ => balanced_nil
  | (name, t) :: fields, h => by
    rw [areWritableFields, Bool.and_eq_true, Bool.and_eq_true] at h
    rw [writtenFields_cons]
    refine balanced_typed h.1.1 (Balanced.append (balanced_written t h.1.2) ?_)
    exact (Balanced.cons (balanced_writtenFields fields h.2) (by decide)).cons (by decide)

theorem balanced_all : ∀ ts : List Ty, areWritable ts = true → ∀ t ∈ ts, Balanced t.written
  | [], _ => fun _ h => nomatch h
  | t :: ts, h => by
    rw [areWritable, Bool.and_eq_true] at h
    have ht := balanced_written t h.1
    have hts := balanced_all ts h.2
    intro u hu
    rcases List.mem_cons.mp hu with rfl | hu
    · exact ht
    · exact hts u hu

theorem balanced_writtenParams : ∀ (index : Nat) (ts : List Ty), areWritable ts = true →
    Balanced (writtenParams index ts)
  | _, [], _ => balanced_nil
  | index, [t], h => by
    rw [areWritable, Bool.and_eq_true] at h
    rw [writtenParams_singleton]
    exact balanced_typed (isName_paramName index) (balanced_written t h.1)
  | index, t :: u :: ts, h => by
    rw [areWritable, Bool.and_eq_true] at h
    rw [writtenParams_cons]
    refine balanced_typed (isName_paramName index) (Balanced.append (balanced_written t h.1) ?_)
    exact (Balanced.cons (balanced_writtenParams (index + 1) (u :: ts) h.2) (by decide)).cons (by decide)

end

end Ty

end UsageTypes
