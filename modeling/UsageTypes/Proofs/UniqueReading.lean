import UsageTypes.Command
import UsageTypes.Proofs.WrittenTypes

/-! A type is determined by its written form. What a type ends with is told by the character that
follows it, so two written types with something behind them can only be the same text if the types are
the same. -/

namespace UsageTypes

namespace Ty

/-- Words that are written for types without a name of their own. -/
def reservedTypes : List String := ["any", "number", "string", "boolean"]

/-- Types whose references and fields are named by identifiers, and whose intersections have two members
at least, none of them an intersection. -/
inductive Legible : Ty → Prop
  | dynamic : Legible .dynamic
  | primitive (p : Primitive) : Legible (.primitive p)
  | array {t : Ty} : Legible t → Legible (.array t)
  | shape {fields : List (String × Ty)} : (∀ f ∈ fields, isIdentifier f.1.toList = true) →
    (∀ f ∈ fields, Legible f.2) → Legible (.shape fields)
  | named {text : String} : isIdentifier text.toList = true → text ∉ reservedTypes → Legible (.named text)
  | inter {ts : List Ty} : 2 ≤ ts.length → (∀ t ∈ ts, t.isInter = false) → (∀ t ∈ ts, Legible t) →
    Legible (.inter ts)
  | function {params : List Ty} {returns : Ty} : (∀ t ∈ params, Legible t) → Legible returns →
    Legible (.function params returns)

/-- Whether nothing behind a written type goes on with it. -/
def closes (r : List Char) : Bool := r.head?.all (· ∈ [')', ',', ';'])

theorem endsName_of_closes {r : List Char} (h : closes r = true) : endsName r = true := by
  cases r with
  | nil => rfl
  | cons c r =>
    have hall : ∀ c ∈ [')', ',', ';'], (!isNamePart c && c ≠ '\\') = true := List.all_eq_true.mp (by decide)
    exact hall c (of_decide_eq_true h)

theorem head?_ne_of_closes {r : List Char} (h : closes r = true) {c : Char} (hc : c ∉ [')', ',', ';']) :
    r.head? ≠ some c := by
  intro he
  rw [closes, he, Option.all_some, decide_eq_true_eq] at h
  exact hc h

section Words

/-- Types that are written as one word. -/
def isWord : Ty → Bool
  | .dynamic | .primitive _ | .named _ => true
  | _ => false

variable {t u : Ty}

theorem isIdentifier_written (ht : t.Legible) (hw : t.isWord = true) :
    isIdentifier t.written = true := by
  cases ht with
  | dynamic => decide
  | primitive p => cases p <;> decide
  | named h => exact h
  | _ => cases hw

theorem eq_of_written_word (ht : t.Legible) (hu : u.Legible) (hw : t.isWord = true)
    (hw' : u.isWord = true) (h : t.written = u.written) : t = u := by
  have hdisplay : t.display = u.display := String.ext h
  have hkeyword : ∀ p : Primitive, p.keyword ∈ reservedTypes := fun p => by cases p <;> decide
  have hany : "any" ∈ reservedTypes := by decide
  cases ht with
  | dynamic =>
    cases hu with
    | dynamic => rfl
    | primitive p => cases p <;> exact absurd hdisplay (by decide)
    | @named text _ hname =>
      have htext : "any" = text := hdisplay
      exact absurd (htext ▸ hany) hname
    | _ => cases hw'
  | primitive p =>
    cases hu with
    | dynamic => cases p <;> exact absurd hdisplay (by decide)
    | primitive q =>
      have hpq := congrArg Primitive.ofKeyword? (show p.keyword = q.keyword from hdisplay)
      rw [Primitive.ofKeyword?_keyword, Primitive.ofKeyword?_keyword] at hpq
      rw [Option.some.inj hpq]
    | @named text _ hname =>
      have htext : p.keyword = text := hdisplay
      exact absurd (htext ▸ hkeyword p) hname
    | _ => cases hw'
  | @named text _ hname =>
    cases hu with
    | dynamic =>
      have htext : text = "any" := hdisplay
      exact absurd (htext ▸ hany) hname
    | primitive p =>
      have htext : text = p.keyword := hdisplay
      exact absurd (htext ▸ hkeyword p) hname
    | named _ _ => exact congrArg Ty.named hdisplay
    | _ => cases hw'
  | _ => cases hw

theorem hasArrow_of_all {cs : List Char} (h : ∀ c ∈ cs, isNameChar c = true) : hasArrow cs = false := by
  induction cs with
  | nil => rfl
  | cons c cs ih =>
    obtain ⟨hc, hcs⟩ := List.forall_mem_cons.mp h
    rw [hasArrow.eq_def]
    split
    · rename_i he
      obtain ⟨rfl, -⟩ := List.cons.inj he
      exact absurd hc (by decide)
    · rename_i he
      obtain ⟨-, rfl⟩ := List.cons.inj he
      exact ih hcs
    · rfl

/-- No union bar and no arrow stands in an identifier. -/
theorem bindsLoosely_named {text : String} (h : isIdentifier text.toList = true) :
    (named text).bindsLoosely = false := by
  have hchars := isNameChar_of_mem_identifier h
  rw [bindsLoosely, hasArrow_of_all hchars, Bool.or_false]
  cases hbar : text.toList.contains '|' with
  | false => rfl
  | true => exact absurd (hchars '|' (List.contains_iff_mem.mp hbar)) (by decide)

end Words

section Operands

/-- A type without the arrays around it. -/
def core : Ty → Ty
  | .array t => t.core
  | t => t

/-- How many arrays stand around a type. -/
def arrayDepth : Ty → Nat
  | .array t => t.arrayDepth + 1
  | _ => 0

def marks : Nat → List Char
  | 0 => []
  | n + 1 => '[' :: ']' :: marks n

theorem marks_append_singleton (n : Nat) : marks n ++ ['[', ']'] = marks (n + 1) := by
  induction n with
  | zero => rfl
  | succ n ih => rw [marks, List.cons_append, List.cons_append, ih, ← marks]

/-- How many brackets stand before what does not begin with one is told by the text. -/
theorem marks_append_inj {m n : Nat} {r s : List Char} (hr : r.head? ≠ some '[')
    (hs : s.head? ≠ some '[') (h : marks m ++ r = marks n ++ s) : m = n ∧ r = s := by
  induction m generalizing n with
  | zero =>
    cases n with
    | zero => exact ⟨rfl, h⟩
    | succ n => exact absurd (congrArg List.head? h) hr
  | succ m ih =>
    cases n with
    | zero => exact absurd (congrArg List.head? h).symm hs
    | succ n =>
      obtain ⟨rfl, hrs⟩ := ih (List.cons.inj (List.cons.inj h).2).2
      exact ⟨rfl, hrs⟩

def arrays : Nat → Ty → Ty
  | 0, t => t
  | n + 1, t => .array (arrays n t)

theorem arrays_core : ∀ t : Ty, arrays t.arrayDepth t.core = t
  | .array t => congrArg Ty.array (arrays_core t)
  | .dynamic | .primitive _ | .shape _ | .named _ | .inter _ | .function _ _ => rfl

theorem Legible.core {t : Ty} (ht : t.Legible) : t.core.Legible := by
  induction ht with
  | array _ ih => exact ih
  | dynamic => exact .dynamic
  | primitive p => exact .primitive p
  | shape hnames hfields _ => exact .shape hnames hfields
  | named htext hname => exact .named htext hname
  | inter hlen hflat hall _ => exact .inter hlen hflat hall
  | function hparams hreturns _ _ => exact .function hparams hreturns

theorem writtenElement_eq : ∀ t : Ty, t.writtenElement = t.core.writtenElement ++ marks t.arrayDepth
  | .array t => by
    have hloose : (array t).isLoose = false := rfl
    rw [writtenElement, wrapped, hloose, if_neg Bool.false_ne_true, written_array, writtenElement_eq t,
      List.append_assoc, marks_append_singleton]
    rfl
  | .dynamic | .primitive _ | .shape _ | .named _ | .inter _ | .function _ _ => (List.append_nil _).symm

theorem core_word {t : Ty} (hword : t.isWord = true) : t.core = t := by
  cases t with
  | array _ => cases hword
  | _ => rfl

theorem writtenElement_word {t : Ty} (ht : t.Legible) (hword : t.isWord = true) :
    t.writtenElement = t.written := by
  cases ht with
  | dynamic => rfl
  | primitive p => rfl
  | named htext _ =>
    rw [writtenElement, isLoose, bindsLoosely_named htext]
    rfl
  | _ => cases hword

/-- A type without its arrays is a word, a shape, or stands in parentheses before its arrays. -/
theorem operand_cases {t : Ty} (ht : t.Legible) :
    (t.core.isWord = true ∧ t.core.writtenElement = t.core.written) ∨
      (∃ fields, t.core = .shape fields ∧ t.core.writtenElement = (shape fields).written) ∨
      t.core.writtenElement = parens t.core.written := by
  induction ht with
  | array _ ih => exact ih
  | dynamic => exact .inl ⟨rfl, rfl⟩
  | primitive p => exact .inl ⟨rfl, rfl⟩
  | named htext hname => exact .inl ⟨rfl, writtenElement_word (.named htext hname) rfl⟩
  | shape _ _ _ => exact .inr (.inl ⟨_, rfl, rfl⟩)
  | inter _ _ _ _ => exact .inr (.inr rfl)
  | function _ _ _ _ => exact .inr (.inr rfl)

end Operands

section Parts

def isFunction : Ty → Bool
  | .function _ _ => true
  | _ => false

/-- What is written for the members behind the first one. -/
def joined (ts : List Ty) : List Char := ts.flatMap fun t => ' ' :: '&' :: ' ' :: t.writtenElement

/-- A type that is no function is written as operands with `&` between them. -/
theorem written_parts {t : Ty} (ht : t.Legible) (hfun : t.isFunction = false) :
    ∃ p ps, t.parts = p :: ps ∧ (∀ q ∈ t.parts, q.Legible) ∧
      t.written = p.writtenElement ++ joined ps := by
  have hself : t.isLoose = false → t.written = t.writtenElement ++ joined [] := by
    intro hloose
    rw [writtenElement, wrapped, hloose, if_neg Bool.false_ne_true]
    exact (List.append_nil _).symm
  cases ht with
  | inter hlen hflat hall =>
    rename_i ts
    cases ts with
    | nil => exact absurd hlen (by decide)
    | cons t ts =>
      cases ts with
      | nil => exact absurd hlen (by simp)
      | cons u ts =>
        have hmember : ∀ v ∈ t :: u :: ts, v.writtenMember = v.writtenElement := by
          intro v hv
          rw [writtenMember, writtenElement, isLoose, hflat v hv, Bool.or_false]
        refine ⟨t, u :: ts, rfl, hall, ?_⟩
        rw [written_inter, hmember t List.mem_cons_self, joined]
        refine congrArg _ (List.flatMap_congr fun v hv => ?_)
        rw [hmember v (List.mem_cons_of_mem _ hv)]
  | function _ _ => cases hfun
  | named htext hname =>
    refine ⟨_, [], rfl, List.forall_mem_singleton.mpr (.named htext hname), hself ?_⟩
    rw [isLoose, bindsLoosely_named htext]
    rfl
  | dynamic => exact ⟨_, [], rfl, List.forall_mem_singleton.mpr .dynamic, hself rfl⟩
  | primitive p => exact ⟨_, [], rfl, List.forall_mem_singleton.mpr (.primitive p), hself rfl⟩
  | array h => exact ⟨_, [], rfl, List.forall_mem_singleton.mpr (.array h), hself rfl⟩
  | shape hnames hfields =>
    exact ⟨_, [], rfl, List.forall_mem_singleton.mpr (.shape hnames hfields), hself rfl⟩

theorem parts_cases {t : Ty} (ht : t.Legible) :
    t.parts = [t] ∨ (2 ≤ t.parts.length ∧ t = .inter t.parts) := by
  cases ht with
  | inter hlen _ _ => exact .inr ⟨hlen, rfl⟩
  | _ => exact .inl rfl

theorem eq_of_parts_eq {t u : Ty} (ht : t.Legible) (hu : u.Legible) (h : t.parts = u.parts) : t = u := by
  rcases parts_cases ht with hself | ⟨hlen, hinter⟩
  · rcases parts_cases hu with hself' | ⟨hlen', -⟩
    · rw [hself, hself'] at h
      exact (List.cons.inj h).1
    · rw [← h, hself, List.length_singleton] at hlen'
      exact absurd hlen' (by decide)
  · rcases parts_cases hu with hself' | ⟨-, hinter'⟩
    · rw [h, hself', List.length_singleton] at hlen
      exact absurd hlen (by decide)
    · rw [hinter, hinter', h]

end Parts

section Cancelling

/-- Whether an operand ends before the text. -/
def Separates (r : List Char) : Prop := endsName r = true ∧ r.head? ≠ some '['

theorem separates_of_closes {r : List Char} (h : closes r = true) : Separates r :=
  ⟨endsName_of_closes h, head?_ne_of_closes h (by decide)⟩

theorem separates_joined (ts : List Ty) {r : List Char} (h : closes r = true) :
    Separates (joined ts ++ r) := by
  cases ts with
  | nil => exact separates_of_closes h
  | cons t ts => exact ⟨rfl, by simp [joined]⟩

theorem endsName_marks (n : Nat) {r : List Char} (h : endsName r = true) :
    endsName (marks n ++ r) = true := by
  cases n with
  | zero => exact h
  | succ n => rfl

/-- The written type tells the type, and where it ends. -/
def Determined (t : Ty) : Prop :=
  ∀ ⦃u : Ty⦄ ⦃r s : List Char⦄, u.Legible → closes r = true → closes s = true →
    t.written ++ r = u.written ++ s → t = u ∧ r = s

/-- The operand within the arrays tells the type within them, and where it ends. -/
def OperandDetermined (t : Ty) : Prop :=
  ∀ ⦃u : Ty⦄ ⦃r s : List Char⦄, u.Legible → endsName r = true → endsName s = true →
    t.core.writtenElement ++ r = u.core.writtenElement ++ s → t.core = u.core ∧ r = s

theorem writtenElement_append_inj {t u : Ty} {r s : List Char} (ht : OperandDetermined t)
    (hu : u.Legible) (hr : Separates r) (hs : Separates s)
    (h : t.writtenElement ++ r = u.writtenElement ++ s) : t = u ∧ r = s := by
  rw [writtenElement_eq t, writtenElement_eq u, List.append_assoc, List.append_assoc] at h
  obtain ⟨hcore, hmarks⟩ := ht hu (endsName_marks _ hr.1) (endsName_marks _ hs.1) h
  obtain ⟨hdepth, hrs⟩ := marks_append_inj hr.2 hs.2 hmarks
  refine ⟨?_, hrs⟩
  rw [← arrays_core t, ← arrays_core u, hcore, hdepth]

theorem joined_append_inj {ts us : List Ty} {r s : List Char} (hts : ∀ t ∈ ts, OperandDetermined t)
    (hus : ∀ u ∈ us, u.Legible) (hr : closes r = true) (hs : closes s = true)
    (h : joined ts ++ r = joined us ++ s) : ts = us ∧ r = s := by
  induction ts generalizing us with
  | nil =>
    cases us with
    | nil => exact ⟨rfl, h⟩
    | cons u us => exact absurd (congrArg List.head? h) (head?_ne_of_closes hr (by decide))
  | cons t ts ih =>
    cases us with
    | nil => exact absurd (congrArg List.head? h).symm (head?_ne_of_closes hs (by decide))
    | cons u us =>
      obtain ⟨ht, hts'⟩ := List.forall_mem_cons.mp hts
      obtain ⟨hu, hus'⟩ := List.forall_mem_cons.mp hus
      rw [joined, joined, List.flatMap_cons, List.flatMap_cons, ← joined, ← joined,
        List.append_assoc, List.append_assoc] at h
      obtain ⟨rfl, hrest⟩ := writtenElement_append_inj ht hu (separates_joined ts hr)
        (separates_joined us hs) (List.cons.inj (List.cons.inj (List.cons.inj h).2).2).2
      obtain ⟨rfl, hrs⟩ := ih hts' hus' hrest
      exact ⟨rfl, hrs⟩

theorem writtenFields_append (field : String × Ty) (fields : List (String × Ty)) (k : List Char) :
    writtenFields (field :: fields) ++ k = field.1.toList ++
      (':' :: ' ' :: (field.2.written ++ (';' :: ' ' :: (writtenFields fields ++ k)))) := by
  obtain ⟨name, t⟩ := field
  simp [writtenFields_cons]

theorem endsName_writtenFields_cons {field : String × Ty} (h : isIdentifier field.1.toList = true)
    (fields : List (String × Ty)) (k : List Char) :
    endsName (writtenFields (field :: fields) ++ k) = false := by
  rw [writtenFields_append]
  exact not_endsName_identifier h _

theorem writtenFields_append_inj {fs gs : List (String × Ty)} {r s : List Char}
    (hf : ∀ f ∈ fs, isIdentifier f.1.toList = true) (hft : ∀ f ∈ fs, Determined f.2)
    (hg : ∀ g ∈ gs, isIdentifier g.1.toList = true) (hgt : ∀ g ∈ gs, g.2.Legible)
    (h : writtenFields fs ++ '}' :: r = writtenFields gs ++ '}' :: s) : fs = gs ∧ r = s := by
  induction fs generalizing gs with
  | nil =>
    cases gs with
    | nil => exact ⟨rfl, (List.cons.inj h).2⟩
    | cons g gs =>
      have hend := congrArg endsName h
      rw [endsName_writtenFields_cons (hg g List.mem_cons_self)] at hend
      cases hend
  | cons f fs ih =>
    cases gs with
    | nil =>
      have hend := congrArg endsName h
      rw [endsName_writtenFields_cons (hf f List.mem_cons_self)] at hend
      cases hend
    | cons g gs =>
      obtain ⟨hname, hf'⟩ := List.forall_mem_cons.mp hf
      obtain ⟨htype, hft'⟩ := List.forall_mem_cons.mp hft
      obtain ⟨hname', hg'⟩ := List.forall_mem_cons.mp hg
      obtain ⟨htype', hgt'⟩ := List.forall_mem_cons.mp hgt
      rw [writtenFields_append, writtenFields_append] at h
      obtain ⟨hn, htypes⟩ := identifier_append_inj hname hname' rfl rfl h
      obtain ⟨ht, hrest⟩ := htype htype' rfl rfl (List.cons.inj (List.cons.inj htypes).2).2
      obtain ⟨rfl, hrs⟩ := ih hf' hft' hg' hgt' (List.cons.inj (List.cons.inj hrest).2).2
      exact ⟨by rw [show f = g from Prod.ext (String.ext hn) ht], hrs⟩

/-- What follows the type of a parameter. -/
def behindParam (index : Nat) (ts : List Ty) (k : List Char) : List Char :=
  if ts.isEmpty then k else ',' :: ' ' :: (writtenParams index ts ++ k)

theorem writtenParams_append (index : Nat) (t : Ty) (ts : List Ty) (k : List Char) :
    writtenParams index (t :: ts) ++ k =
      paramName index ++ (':' :: ' ' :: (t.written ++ behindParam (index + 1) ts k)) := by
  cases ts with
  | nil => simp [writtenParams_singleton, behindParam]
  | cons u ts => simp [writtenParams_cons, behindParam]

theorem closes_behindParam (index : Nat) (ts : List Ty) (k : List Char) :
    closes (behindParam index ts (')' :: k)) = true := by
  rw [behindParam]
  split <;> rfl

theorem isIdentifier_paramName (index : Nat) : isIdentifier (paramName index) = true :=
  isIdentifier_of_isName (isName_paramName index)

theorem endsName_writtenParams_cons (index : Nat) (t : Ty) (ts : List Ty) (k : List Char) :
    endsName (writtenParams index (t :: ts) ++ k) = false := by
  rw [writtenParams_append]
  exact not_endsName_identifier (isIdentifier_paramName index) _

theorem writtenParams_append_inj {index : Nat} {ts us : List Ty} {r s : List Char}
    (hts : ∀ t ∈ ts, Determined t) (hus : ∀ u ∈ us, u.Legible)
    (h : writtenParams index ts ++ ')' :: r = writtenParams index us ++ ')' :: s) :
    ts = us ∧ r = s := by
  induction ts generalizing us index with
  | nil =>
    cases us with
    | nil => exact ⟨rfl, (List.cons.inj h).2⟩
    | cons u us =>
      have hend := congrArg endsName h
      rw [endsName_writtenParams_cons] at hend
      cases hend
  | cons t ts ih =>
    cases us with
    | nil =>
      have hend := congrArg endsName h
      rw [endsName_writtenParams_cons] at hend
      cases hend
    | cons u us =>
      obtain ⟨ht, hts'⟩ := List.forall_mem_cons.mp hts
      obtain ⟨hu, hus'⟩ := List.forall_mem_cons.mp hus
      rw [writtenParams_append, writtenParams_append] at h
      have htypes := List.append_cancel_left h
      obtain ⟨rfl, hrest⟩ := ht hu (closes_behindParam _ _ _) (closes_behindParam _ _ _)
        (List.cons.inj (List.cons.inj htypes).2).2
      cases ts with
      | nil =>
        cases us with
        | nil => exact ⟨rfl, (List.cons.inj hrest).2⟩
        | cons u us => exact absurd (List.cons.inj hrest).1 (by decide)
      | cons v ts =>
        cases us with
        | nil => exact absurd (List.cons.inj hrest).1 (by decide)
        | cons u us =>
          obtain ⟨hall, hrs⟩ := ih hts' hus' (List.cons.inj (List.cons.inj hrest).2).2
          exact ⟨by rw [hall], hrs⟩

end Cancelling

section Determination

/-- A type that is no function begins with an operand. -/
theorem written_operand {t : Ty} (ht : t.Legible) (hfun : t.isFunction = false) :
    ∃ (p : Ty) (k : List Char), p.Legible ∧ t.written = p.core.writtenElement ++ k ∧
      k.head? ∈ [none, some '[', some ' '] := by
  obtain ⟨p, ps, hparts, hall, hwritten⟩ := written_parts ht hfun
  rw [writtenElement_eq, List.append_assoc] at hwritten
  refine ⟨p, _, hall p (by rw [hparts]; exact List.mem_cons_self), hwritten, ?_⟩
  cases p.arrayDepth with
  | zero =>
    cases ps with
    | nil => simp [marks, joined]
    | cons q ps => simp [marks, joined]
  | succ n => simp [marks]

theorem written_shape (fields : List (String × Ty)) : ∃ k, (shape fields).written = '{' :: k := by
  cases fields with
  | nil => exact ⟨_, written_shape_nil⟩
  | cons field fields => exact ⟨_, written_shape_cons field fields⟩

theorem endsName_opening {c : Char} (hc : c ∈ ['(', '{']) (k : List Char) : endsName (c :: k) = true := by
  have hall : ∀ c ∈ ['(', '{'], (!isNamePart c && c ≠ '\\') = true := List.all_eq_true.mp (by decide)
  exact hall c hc

/-- A bracket that opens is not the beginning of a list of parameters. -/
theorem opening_ne_params {c : Char} (hc : c ∈ ['(', '{']) {index : Nat} {ts : List Ty} {k s : List Char} :
    c :: k ≠ writtenParams index ts ++ ')' :: s := by
  intro h
  cases ts with
  | nil =>
    obtain ⟨rfl, -⟩ := List.cons.inj h
    exact absurd hc (by decide)
  | cons t ts =>
    have hend := endsName_opening hc k
    rw [h, endsName_writtenParams_cons] at hend
    cases hend

/-- A type in parentheses is no list of parameters. -/
theorem written_ne_params {t : Ty} (ht : t.Legible) {index : Nat} {ts : List Ty} {r s : List Char} :
    t.written ++ ')' :: r ≠ writtenParams index ts ++ ')' :: s := by
  intro h
  cases hfun : t.isFunction with
  | true =>
    cases t with
    | function params returns => exact opening_ne_params (by decide) (written_function params returns ▸ h)
    | _ => cases hfun
  | false =>
    obtain ⟨p, k, hp, hwritten, hk⟩ := written_operand ht hfun
    rw [hwritten, List.append_assoc] at h
    rcases operand_cases hp with ⟨hword, hoperand⟩ | ⟨fields, -, hoperand⟩ | hoperand
    · have hname := isIdentifier_written hp.core hword
      rw [hoperand] at h
      cases ts with
      | nil =>
        have hend := congrArg endsName h
        rw [not_endsName_identifier hname] at hend
        cases hend
      | cons u us =>
        rw [writtenParams_append] at h
        -- only a colon follows the name of a parameter
        have hend : endsName (k ++ ')' :: r) = true ∧ (k ++ ')' :: r).head? ≠ some ':' := by
          cases k with
          | nil => exact ⟨rfl, by simp⟩
          | cons c k =>
            have hc : c = '[' ∨ c = ' ' := by simpa using hk
            rcases hc with rfl | rfl
            · exact ⟨rfl, by simp⟩
            · exact ⟨rfl, by simp⟩
        obtain ⟨-, hcolon⟩ := identifier_append_inj hname (isIdentifier_paramName index) hend.1 rfl h
        exact hend.2 (congrArg List.head? hcolon)
    · obtain ⟨k', hshape⟩ := written_shape fields
      rw [hoperand, hshape] at h
      exact opening_ne_params (by decide) h
    · rw [hoperand] at h
      exact opening_ne_params (by decide) h

theorem written_ne_function {t : Ty} (ht : t.Legible) (hfun : t.isFunction = false) {params : List Ty}
    {returns : Ty} {r s : List Char} : t.written ++ r ≠ (function params returns).written ++ s := by
  intro h
  obtain ⟨p, k, hp, hwritten, -⟩ := written_operand ht hfun
  rw [hwritten, written_function, List.append_assoc] at h
  rcases operand_cases hp with ⟨hword, hoperand⟩ | ⟨fields, -, hoperand⟩ | hoperand
  · have hend := congrArg endsName h
    rw [hoperand, not_endsName_identifier (isIdentifier_written hp.core hword)] at hend
    cases hend
  · obtain ⟨k', hshape⟩ := written_shape fields
    rw [hoperand, hshape] at h
    exact absurd (List.cons.inj h).1 (by decide)
  · rw [hoperand, parens, List.cons_append, List.cons_append, List.append_assoc, List.append_assoc] at h
    exact written_ne_params hp.core (List.cons.inj h).2

theorem determined_function {params : List Ty} {returns : Ty} (hparams : ∀ t ∈ params, Determined t)
    (hreturns : Determined returns) : Determined (function params returns) := by
  intro u r s hu hr hs h
  cases hfun : u.isFunction with
  | false => exact absurd h.symm (written_ne_function hu hfun)
  | true =>
    cases hu with
    | function hparams' hreturns' =>
      rw [written_function, written_function, List.cons_append, List.cons_append, List.append_assoc,
        List.append_assoc] at h
      obtain ⟨rfl, hreturn⟩ := writtenParams_append_inj hparams hparams' (List.cons.inj h).2
      have hwritten := (List.append_right_inj " => ".toList).mp hreturn
      obtain ⟨rfl, hrs⟩ := hreturns hreturns' hr hs hwritten
      exact ⟨rfl, hrs⟩
    | _ => cases hfun

theorem determined_of_parts {t : Ty} (ht : t.Legible) (hfun : t.isFunction = false)
    (hparts : ∀ p ∈ t.parts, OperandDetermined p) : Determined t := by
  intro u r s hu hr hs h
  cases hfun' : u.isFunction with
  | true =>
    cases u with
    | function params returns => exact absurd h (written_ne_function ht hfun)
    | _ => cases hfun'
  | false =>
    obtain ⟨p, ps, htp, -, hwritten⟩ := written_parts ht hfun
    obtain ⟨q, qs, huq, hall, hwritten'⟩ := written_parts hu hfun'
    rw [htp] at hparts
    rw [huq] at hall
    obtain ⟨hp, hps⟩ := List.forall_mem_cons.mp hparts
    obtain ⟨hq, hqs⟩ := List.forall_mem_cons.mp hall
    rw [hwritten, hwritten', List.append_assoc, List.append_assoc] at h
    obtain ⟨hpq, hjoined⟩ := writtenElement_append_inj hp hq (separates_joined ps hr) (separates_joined qs hs) h
    obtain ⟨hrest, hrs⟩ := joined_append_inj hps hqs hr hs hjoined
    exact ⟨eq_of_parts_eq ht hu (by rw [htp, huq, hpq, hrest]), hrs⟩

theorem operandDetermined_word {t : Ty} (ht : t.Legible) (hword : t.isWord = true) :
    OperandDetermined t := by
  intro u r s hu hr hs h
  have hname := isIdentifier_written ht hword
  have hopening : ∀ {c : Char} {k : List Char}, c ∈ ['(', '{'] → t.written ++ r ≠ c :: k := by
    intro c k hc heq
    have hend := endsName_opening hc k
    rw [← heq, not_endsName_identifier hname] at hend
    cases hend
  rw [core_word hword, writtenElement_word ht hword] at h
  rw [core_word hword]
  rcases operand_cases hu with ⟨hword', hoperand⟩ | ⟨fields, -, hoperand⟩ | hoperand
  · rw [hoperand] at h
    obtain ⟨hwritten, hrs⟩ := identifier_append_inj hname (isIdentifier_written hu.core hword') hr hs h
    exact ⟨eq_of_written_word ht hu.core hword hword' hwritten, hrs⟩
  · obtain ⟨k, hshape⟩ := written_shape fields
    rw [hoperand, hshape] at h
    exact absurd h (hopening (by decide))
  · rw [hoperand] at h
    exact absurd h (hopening (by decide))

theorem operandDetermined_shape {fields : List (String × Ty)}
    (hnames : ∀ f ∈ fields, isIdentifier f.1.toList = true) (hfields : ∀ f ∈ fields, Determined f.2) :
    OperandDetermined (shape fields) := by
  intro u r s hu hr hs h
  obtain ⟨k, hshape⟩ := written_shape fields
  change (shape fields).written ++ r = _ at h
  rcases operand_cases hu with ⟨hword, hoperand⟩ | ⟨fields', hcore, hoperand⟩ | hoperand
  · have hend := congrArg endsName h
    rw [hoperand, not_endsName_identifier (isIdentifier_written hu.core hword), hshape] at hend
    cases hend
  · have hlegible : (shape fields').Legible := hcore ▸ hu.core
    cases hlegible with
    | shape hnames' hfields' =>
      rw [hoperand] at h
      rw [hcore]
      change shape fields = shape fields' ∧ r = s
      cases fields with
      | nil =>
        cases fields' with
        | nil => exact ⟨rfl, List.append_cancel_left h⟩
        | cons g gs =>
          rw [written_shape_nil, written_shape_cons] at h
          exact absurd (List.cons.inj (List.cons.inj h).2).1 (by decide)
      | cons f fs =>
        cases fields' with
        | nil =>
          rw [written_shape_nil, written_shape_cons] at h
          exact absurd (List.cons.inj (List.cons.inj h).2).1 (by decide)
        | cons g gs =>
          rw [written_shape_cons, written_shape_cons, List.cons_append, List.cons_append, List.cons_append,
            List.cons_append, List.append_assoc, List.append_assoc] at h
          obtain ⟨hall, hrs⟩ := writtenFields_append_inj hnames hfields hnames' hfields'
            (List.cons.inj (List.cons.inj h).2).2
          exact ⟨by rw [hall], hrs⟩
  · rw [hoperand, hshape] at h
    exact absurd (List.cons.inj h).1 (by decide)

theorem operandDetermined_parens {t : Ty} (hcore : t.core = t) (hloose : t.isLoose = true)
    (h : Determined t) : OperandDetermined t := by
  intro u r s hu hr hs heq
  have hparens : t.core.writtenElement = parens t.written := by
    rw [hcore, writtenElement, wrapped, if_pos hloose]
  rw [hparens, parens, List.cons_append] at heq
  rcases operand_cases hu with ⟨hword, hoperand⟩ | ⟨fields, -, hoperand⟩ | hoperand
  · have hend := congrArg endsName heq
    rw [hoperand, not_endsName_identifier (isIdentifier_written hu.core hword)] at hend
    cases hend
  · obtain ⟨k, hshape⟩ := written_shape fields
    rw [hoperand, hshape] at heq
    exact absurd (List.cons.inj heq).1 (by decide)
  · rw [hoperand, parens, List.cons_append, List.append_assoc, List.append_assoc] at heq
    obtain ⟨htu, hrest⟩ := h hu.core rfl rfl (List.cons.inj heq).2
    exact ⟨hcore.trans htu, (List.cons.inj hrest).2⟩

theorem Legible.determined {t : Ty} (ht : t.Legible) : Determined t ∧ OperandDetermined t := by
  induction ht with
  | dynamic =>
    have hoperand := operandDetermined_word .dynamic rfl
    exact ⟨determined_of_parts .dynamic rfl (List.forall_mem_singleton.mpr hoperand), hoperand⟩
  | primitive p =>
    have hoperand := operandDetermined_word (.primitive p) rfl
    exact ⟨determined_of_parts (.primitive p) rfl (List.forall_mem_singleton.mpr hoperand), hoperand⟩
  | named htext hname =>
    have hoperand := operandDetermined_word (.named htext hname) rfl
    exact ⟨determined_of_parts (.named htext hname) rfl (List.forall_mem_singleton.mpr hoperand), hoperand⟩
  | array ht ih => exact ⟨determined_of_parts (.array ht) rfl (List.forall_mem_singleton.mpr ih.2), ih.2⟩
  | shape hnames hfields ih =>
    have hoperand := operandDetermined_shape hnames fun f hf => (ih f hf).1
    exact ⟨determined_of_parts (.shape hnames hfields) rfl (List.forall_mem_singleton.mpr hoperand), hoperand⟩
  | inter hlen hflat hall ih =>
    have hdetermined := determined_of_parts (.inter hlen hflat hall) rfl fun p hp => (ih p hp).2
    exact ⟨hdetermined, operandDetermined_parens rfl rfl hdetermined⟩
  | function hparams hreturns ihparams ihreturns =>
    have hdetermined := determined_function (fun t ht => (ihparams t ht).1) ihreturns.1
    exact ⟨hdetermined, operandDetermined_parens rfl rfl hdetermined⟩

end Determination

end Ty

/-- What an object says under a key. -/
def Json.entry? (key : String) : Json → Option Json
  | .object entries _ => entries.lookup key
  | _ => none

/-- Types with the same written form are the same. The type of a parameter is therefore told by what a
report says for it. -/
theorem type_determined_by_display {t u : Ty} (ht : t.Legible) (hu : u.Legible) :
    (t.display = u.display → t = u) ∧
      ∀ p q : ParameterReport, p.type = t → q.type = u →
        p.toJson.entry? "type" = q.toJson.entry? "type" → t = u := by
  have hinj : t.display = u.display → t = u := by
    intro h
    have hwritten : t.written ++ [] = u.written ++ [] := congrArg (· ++ []) (congrArg String.toList h)
    exact (ht.determined.1 hu rfl rfl hwritten).1
  refine ⟨hinj, fun p q hp hq h => hinj ?_⟩
  have hentry : ∀ p : ParameterReport, p.toJson.entry? "type" = some (.string p.type.display) := fun _ => rfl
  rw [hentry, hentry, hp, hq] at h
  exact Json.string.inj (Option.some.inj h)

/-- Arrays of intersections are told from intersections with arrays, callables among the members. -/
theorem display_array_ne_display_inter :
    let t : Ty := .array (.inter [.named "A", .function [.named "A"] (.array .number)])
    let u : Ty := .inter [.named "A", .array (.function [.named "A"] (.array .number))]
    t.Legible ∧ u.Legible ∧ t.display ≠ u.display := by
  intro t u
  have hname : (Ty.named "A").Legible := .named (by decide) (by decide)
  have hcallable : (Ty.function [.named "A"] (.array .number)).Legible :=
    .function (List.forall_mem_singleton.mpr hname) (.array (.primitive .number))
  have ht : t.Legible := .array (.inter (by decide) (by decide)
    (List.forall_mem_cons.mpr ⟨hname, List.forall_mem_singleton.mpr hcallable⟩))
  have hu : u.Legible := .inter (by decide) (by decide)
    (List.forall_mem_cons.mpr ⟨hname, List.forall_mem_singleton.mpr (.array hcallable)⟩)
  exact ⟨ht, hu, fun h => absurd ((type_determined_by_display ht hu).1 h) (by decide)⟩

end UsageTypes
