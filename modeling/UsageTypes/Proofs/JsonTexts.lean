import Mathlib.Data.List.TakeWhile
import Mathlib.Tactic.SplitIfs
import UsageTypes.Json.Read
import UsageTypes.Json.Render

/-! A value is read back from its text. The text may be laid out in any way: one layout is without
blanks, another is that of `render`. -/

namespace UsageTypes

namespace Json

/-! Strings. -/

theorem hexDigit?_hexChar (n : Nat) : hexDigit? (hexChar n) = some (n % 16) := by
  have h : ∀ m < 16, hexDigit? (hexChar m) = some m := by decide
  have hn : hexChar n = hexChar (n % 16) := by simp [hexChar]
  rw [hn, h (n % 16) (Nat.mod_lt _ (by decide))]

theorem hexEscape_hexChar {c : Char} (hc : c.toNat < 0x20) (rest : List Char) :
    hexEscape ('0' :: '0' :: hexChar (c.toNat / 16) :: hexChar c.toNat :: rest) = .ok (c, rest) := by
  have h0 : hexDigit? '0' = some 0 := by decide
  have hn : c.toNat / 16 % 16 * 16 + c.toNat % 16 = c.toNat := by omega
  have h4 : hex4 ('0' :: '0' :: hexChar (c.toNat / 16) :: hexChar c.toNat :: rest)
      = .ok (c.toNat, rest) := by
    simp [hex4, h0, hexDigit?_hexChar, hn]
  have hlow : ¬ 0xdc00 ≤ c.toNat := by omega
  have hhigh : ¬ 0xd800 ≤ c.toNat := by omega
  simp [hexEscape, h4, hlow, hhigh]

theorem readString_escapeChar (fuel : Nat) (c : Char) (rest : List Char) :
    readString (fuel + 1) (escapeChar c ++ rest)
      = (readString fuel rest).map fun (text, rest) => (c :: text, rest) := by
  unfold escapeChar
  split_ifs with hq hb hn hr ht h8 hf hctrl
  · simp [hq, readString, simpleEscape?]
  · simp [hb, readString, simpleEscape?]
  · simp [hn, readString, simpleEscape?]
  · simp [hr, readString, simpleEscape?]
  · simp [ht, readString, simpleEscape?]
  · simp [h8, readString, simpleEscape?]
  · simp [hf, readString, simpleEscape?]
  · simp [readString, hexEscape_hexChar hctrl]
  · simp [readString, hq, hb, hctrl]

theorem readString_flatMap_escapeChar (cs : List Char) (rest : List Char) :
    ∀ fuel, cs.length < fuel →
      readString fuel (cs.flatMap escapeChar ++ '"' :: rest) = .ok (cs, rest) := by
  induction cs with
  | nil =>
    intro fuel hfuel
    obtain ⟨fuel, rfl⟩ := Nat.exists_eq_add_of_lt hfuel
    simp [readString]
  | cons c cs ih =>
    intro fuel hfuel
    obtain ⟨fuel, rfl⟩ := Nat.exists_eq_add_of_lt (Nat.zero_lt_of_lt hfuel)
    have hrest := ih (0 + fuel) (by simp at hfuel; omega)
    simp only [List.flatMap_cons, List.append_assoc, readString_escapeChar, hrest, Except.map]

theorem escapeChar_ne_nil (c : Char) : escapeChar c ≠ [] := by
  unfold escapeChar
  split_ifs <;> simp

theorem length_le_length_flatMap_escapeChar (cs : List Char) :
    cs.length ≤ (cs.flatMap escapeChar).length := by
  induction cs with
  | nil => simp
  | cons c cs ih =>
    have hc := List.length_pos_iff.mpr (escapeChar_ne_nil c)
    simp only [List.flatMap_cons, List.length_append, List.length_cons]
    omega

/-! Numbers. -/

theorem head?_toDigits_ne_zero {n : Nat} (hn : n ≠ 0) : (Nat.toDigits 10 n).head? ≠ some '0' := by
  induction n using Nat.base_induction 10 (by decide) with
  | single n hlt =>
    rw [Nat.toDigits_of_lt_base hlt]
    simpa using hn
  | digit m k hk hm ih =>
    have hsome := List.isSome_head?.mpr (Nat.toDigits_ne_nil (n := m) (b := 10))
    rw [← Nat.toDigits_append_toDigits (by decide) hm hk, List.head?_append,
      Option.or_of_isSome hsome]
    exact ih (Nat.ne_of_gt hm)

theorem digitsValue_toDigits (n : Nat) : digitsValue (Nat.toDigits 10 n) = n := by
  have h := Nat.ofDigitChars_toDigits (b := 10) (n := n) (by decide) (by decide)
  simpa only [digitsValue, Nat.ofDigitChars, Nat.mul_comm] using h

theorem exists_toDigits_eq_cons (n : Nat) :
    ∃ c cs, Nat.toDigits 10 n = c :: cs ∧ c.isDigit = true := by
  obtain ⟨c, cs, hcs⟩ := List.exists_cons_of_ne_nil (Nat.toDigits_ne_nil (n := n) (b := 10))
  have hmem : c ∈ Nat.toDigits 10 n := by simp [hcs]
  exact ⟨c, cs, hcs, Nat.isDigit_of_mem_toDigits (by decide) (by decide) hmem⟩

theorem ne_of_isDigit {c d : Char} (hc : c.isDigit = true) (hd : d.isDigit = false) : c ≠ d := by
  rintro rfl
  rw [hc] at hd
  cases hd

theorem isSpace_eq_false_of_isDigit {c : Char} (hc : c.isDigit = true) : isSpace c = false := by
  have hother : ∀ d : Char, d.isDigit = false → c ≠ d := fun d => ne_of_isDigit hc
  simp [isSpace, hother ' ' (by decide), hother '\n' (by decide), hother '\t' (by decide),
    hother '\r' (by decide)]

/-- What may stand behind a value. -/
def Delimited (rest : List Char) : Prop :=
  ∀ c ∈ rest.head?, isSpace c ∨ c = ',' ∨ c = ']' ∨ c = '}'

theorem Delimited.ends_number {rest : List Char} (h : Delimited rest) {c : Char}
    (hc : c ∈ rest.head?) : c.isDigit = false ∧ c ≠ '.' ∧ c ≠ 'e' ∧ c ≠ 'E' := by
  rcases h c hc with hs | rfl | rfl | rfl
  · simp only [isSpace, Bool.or_eq_true, decide_eq_true_eq] at hs
    rcases hs with ((rfl | rfl) | rfl) | rfl <;> decide
  all_goals decide

theorem readNumber_natural {n : Nat} (hn : n ≤ largest) {rest : List Char} (hrest : Delimited rest) :
    readNumber false (Nat.toDigits 10 n ++ rest) = (.number (.natural n), rest) := by
  have hdigit : ∀ c ∈ Nat.toDigits 10 n, c.isDigit = true := fun c hc =>
    Nat.isDigit_of_mem_toDigits (by decide) (by decide) hc
  have hempty : (Nat.toDigits 10 n).isEmpty = false := by simp
  have hlead : ((Nat.toDigits 10 n).head? = some '0' && (Nat.toDigits 10 n).length > 1) = false := by
    by_cases hzero : n = 0
    · simp [hzero]
    · simp [head?_toDigits_ne_zero hzero]
  cases rest with
  | nil =>
    have htake := List.takeWhile_eq_self_iff.mpr hdigit
    have hdrop := List.dropWhile_eq_nil_iff.mpr hdigit
    simp [readNumber, htake, hdrop, hempty, hlead, digitsValue_toDigits, hn]
  | cons c rest =>
    obtain ⟨hc, hpoint, he, hE⟩ := hrest.ends_number (c := c) rfl
    have htake : (Nat.toDigits 10 n ++ c :: rest).takeWhile Char.isDigit = Nat.toDigits 10 n := by
      simp [List.takeWhile_append_of_pos hdigit, hc]
    have hdrop : (Nat.toDigits 10 n ++ c :: rest).dropWhile Char.isDigit = c :: rest := by
      simp [List.dropWhile_append_of_pos hdigit, hc]
    simp [readNumber, htake, hdrop, hempty, hlead, digitsValue_toDigits, hn, hpoint, he, hE]

/-! Values. -/

/-- The blanks of a text: those within brackets at each level, and those behind a colon. -/
structure Layout where
  gap : Nat → List Char
  colonGap : List Char
  isSpace_of_mem_gap : ∀ level, ∀ c ∈ gap level, isSpace c
  isSpace_of_mem_colonGap : ∀ c ∈ colonGap, isSpace c

namespace Layout

def compact : Layout where
  gap _ := []
  colonGap := []
  isSpace_of_mem_gap := by simp
  isSpace_of_mem_colonGap := by simp

/-- One item a line, two blanks a level. -/
def lines : Layout where
  gap level := '\n' :: List.replicate (2 * level) ' '
  colonGap := [' ']
  isSpace_of_mem_gap := by
    intro level c hc
    rcases List.mem_cons.mp hc with rfl | hc
    · decide
    · rw [List.eq_of_mem_replicate hc]
      decide
  isSpace_of_mem_colonGap := by simp [isSpace]

@[simp] theorem lines_gap (level : Nat) :
    lines.gap level = '\n' :: List.replicate (2 * level) ' ' := rfl

@[simp] theorem lines_colonGap : lines.colonGap = [' '] := rfl

mutual

/-- A value at a level. -/
def text (L : Layout) (level : Nat) : Json → List Char
  | .null => ['n', 'u', 'l', 'l']
  | .bool b => if b then ['t', 'r', 'u', 'e'] else ['f', 'a', 'l', 's', 'e']
  | .number n => (renderNumber n).toList
  | .string s => (renderString s).toList
  | .array [] _ => ['[', ']']
  | .array (v :: vs) _ => '[' :: L.itemsText (level + 1) (v :: vs) ++ L.gap level ++ [']']
  | .object [] _ => ['{', '}']
  | .object (e :: es) _ => '{' :: L.entriesText (level + 1) (e :: es) ++ L.gap level ++ ['}']
  | .broken _ => []

def itemsText (L : Layout) (level : Nat) : List Json → List Char
  | [] => []
  | [v] => L.gap level ++ L.text level v
  | v :: vs => L.gap level ++ L.text level v ++ ',' :: L.itemsText level vs

def entriesText (L : Layout) (level : Nat) : List (String × Json) → List Char
  | [] => []
  | [(k, v)] => L.gap level ++ (renderString k).toList ++ ':' :: L.colonGap ++ L.text level v
  | (k, v) :: es =>
    L.gap level ++ (renderString k).toList ++ ':' :: L.colonGap ++ L.text level v
      ++ ',' :: L.entriesText level es

end

end Layout

mutual

theorem toList_pretty (level : Nat) : ∀ v : Json, (pretty level v).toList = Layout.lines.text level v
  | .null => by simp [pretty, Layout.text]
  | .bool b => by cases b <;> simp [pretty, Layout.text]
  | .number n => by simp [pretty, Layout.text]
  | .string s => by simp [pretty, Layout.text]
  | .array [] _ => by simp [pretty, Layout.text]
  | .array (v :: vs) _ => by
    have h := toList_prettyItems (level + 1) (v :: vs) (List.cons_ne_nil v vs)
    simp [pretty, Layout.text, ← h, indent]
  | .object [] _ => by simp [pretty, Layout.text]
  | .object (e :: es) _ => by
    have h := toList_prettyEntries (level + 1) (e :: es) (List.cons_ne_nil e es)
    simp [pretty, Layout.text, ← h, indent]
  | .broken _ => by simp [pretty, Layout.text]

theorem toList_prettyItems (level : Nat) : ∀ vs : List Json, vs ≠ [] →
    '\n' :: (prettyItems level vs).toList = Layout.lines.itemsText level vs
  | [], h => absurd rfl h
  | [v], _ => by
    have h := toList_pretty level v
    simp [prettyItems, Layout.itemsText, ← h, indent]
  | v :: w :: vs, _ => by
    have h := toList_pretty level v
    have ht := toList_prettyItems level (w :: vs) (List.cons_ne_nil w vs)
    simp [prettyItems, Layout.itemsText, ← h, ← ht, indent]

theorem toList_prettyEntries (level : Nat) : ∀ es : List (String × Json), es ≠ [] →
    '\n' :: (prettyEntries level es).toList = Layout.lines.entriesText level es
  | [], h => absurd rfl h
  | [(k, v)], _ => by
    have h := toList_pretty level v
    simp [prettyEntries, Layout.entriesText, ← h, indent]
  | (k, v) :: e :: es, _ => by
    have h := toList_pretty level v
    have ht := toList_prettyEntries level (e :: es) (List.cons_ne_nil e es)
    simp [prettyEntries, Layout.entriesText, ← h, ← ht, indent]

end

/-! Reading. -/

/-- A value whose text says all of it: its numbers are natural, and nothing is missing from it. -/
inductive Plain : Json → Prop
  | null : Plain .null
  | bool (b : Bool) : Plain (.bool b)
  | natural {n : Nat} (h : n ≤ largest) : Plain (.number (.natural n))
  | string (s : String) : Plain (.string s)
  | array {items : List Json} (h : ∀ v ∈ items, Plain v) : Plain (.array items none)
  | object {entries : List (String × Json)} (h : ∀ e ∈ entries, Plain e.2) :
    Plain (.object entries none)

theorem Plain.ne_broken {v : Json} (h : Plain v) (f : JsonFault) : v ≠ .broken f := by
  rintro rfl
  cases h

theorem toList_renderString (s : String) :
    (renderString s).toList = '"' :: s.toList.flatMap escapeChar ++ ['"'] := by
  simp [renderString]

theorem Plain.exists_text_eq_cons {v : Json} (h : Plain v) (L : Layout) (level : Nat) :
    ∃ c cs, L.text level v = c :: cs ∧ isSpace c = false ∧ c ≠ ']' := by
  cases h with
  | null => exact ⟨'n', _, by rw [Layout.text], by decide, by decide⟩
  | bool b =>
    cases b
    · exact ⟨'f', _, by rw [Layout.text, if_neg Bool.false_ne_true], by decide, by decide⟩
    · exact ⟨'t', _, by rw [Layout.text, if_pos rfl], by decide, by decide⟩
  | @natural n _ =>
    obtain ⟨c, cs, hcs, hc⟩ := exists_toDigits_eq_cons n
    exact ⟨c, cs, by simp [Layout.text, renderNumber, hcs], isSpace_eq_false_of_isDigit hc,
      ne_of_isDigit hc (by decide)⟩
  | string s => exact ⟨'"', _, by rw [Layout.text, toList_renderString]; rfl, by decide, by decide⟩
  | @array items _ =>
    cases items with
    | nil => exact ⟨'[', _, by rw [Layout.text], by decide, by decide⟩
    | cons v vs => exact ⟨'[', _, by rw [Layout.text]; rfl, by decide, by decide⟩
  | @object entries _ =>
    cases entries with
    | nil => exact ⟨'{', _, by rw [Layout.text], by decide, by decide⟩
    | cons e es => exact ⟨'{', _, by rw [Layout.text]; rfl, by decide, by decide⟩

/-- No text is read without a step. -/
theorem Plain.exists_eq_succ {v : Json} (h : Plain v) {L : Layout} {level fuel : Nat}
    (hfuel : (L.text level v).length ≤ fuel) : ∃ n, fuel = n + 1 := by
  obtain ⟨c, cs, hcs, -⟩ := h.exists_text_eq_cons L level
  rw [hcs, List.length_cons] at hfuel
  exact Nat.exists_eq_add_one.mpr (Nat.lt_of_lt_of_le (Nat.succ_pos _) hfuel)

theorem skipSpace_append {gap : List Char} (hgap : ∀ c ∈ gap, isSpace c) (cs : List Char) :
    skipSpace (gap ++ cs) = skipSpace cs :=
  List.dropWhile_append_of_pos hgap

theorem skipSpace_cons {c : Char} (hc : isSpace c = false) (cs : List Char) :
    skipSpace (c :: cs) = c :: cs := by
  simp [skipSpace, hc]

/-- What stands in front of an item or an entry. -/
def lead (first : Bool) : List Char := if first then [] else [',']

theorem readItems_cons {fuel : Nat} {first : Bool} {gap cs rest : List Char} {c : Char} {v : Json}
    (hgap : ∀ c ∈ gap, isSpace c) (hc : isSpace c = false) (hclose : c ≠ ']')
    (hv : ∀ f, v ≠ .broken f) (hread : readValue fuel (c :: cs) = (v, rest)) :
    readItems (fuel + 1) first (lead first ++ (gap ++ c :: cs))
      = (v :: (readItems fuel false rest).1, (readItems fuel false rest).2) := by
  have hskip : skipSpace (gap ++ c :: cs) = c :: cs := by
    rw [skipSpace_append hgap, skipSpace_cons hc]
  cases first with
  | true => simp only [lead, if_true, List.nil_append, readItems, hskip, hread]
  | false =>
    have hcomma := skipSpace_cons (c := ',') (by decide) (gap ++ c :: cs)
    have hitem : ∀ ds, c :: cs = ']' :: ds → False := fun ds h => hclose (List.cons.inj h).1
    simp [lead, readItems, hcomma, hskip, hread]

theorem readItems_close (fuel : Nat) (first : Bool) (gap : List Char) (hgap : ∀ c ∈ gap, isSpace c)
    (rest : List Char) : readItems (fuel + 1) first (gap ++ ']' :: rest) = ([], none, rest) := by
  have hskip : skipSpace (gap ++ ']' :: rest) = ']' :: rest := by
    rw [skipSpace_append hgap, skipSpace_cons (by decide)]
  simp only [readItems, hskip]

theorem readString_renderString (k : String) (rest : List Char) :
    ∃ cs, (renderString k).toList ++ rest = '"' :: cs ∧
      readString (cs.length + 1) cs = .ok (k.toList, rest) := by
  refine ⟨k.toList.flatMap escapeChar ++ '"' :: rest, by simp [toList_renderString], ?_⟩
  apply readString_flatMap_escapeChar
  have hlength := length_le_length_flatMap_escapeChar k.toList
  simp only [List.length_append]
  omega

theorem readValue_append {fuel : Nat} {gap : List Char} (hgap : ∀ c ∈ gap, isSpace c)
    (cs : List Char) : readValue (fuel + 1) (gap ++ cs) = readValue (fuel + 1) cs := by
  simp only [readValue, skipSpace_append hgap]

theorem readEntries_cons {fuel : Nat} {first : Bool} {gap cs rest : List Char} {k : String} {v : Json}
    (hgap : ∀ c ∈ gap, isSpace c) (hv : ∀ f, v ≠ .broken f) (hread : readValue fuel cs = (v, rest)) :
    readEntries (fuel + 1) first (lead first ++ (gap ++ (renderString k).toList ++ ':' :: cs))
      = ((k, v) :: (readEntries fuel false rest).1, (readEntries fuel false rest).2) := by
  obtain ⟨ds, hds, hkey⟩ := readString_renderString k (':' :: cs)
  have hquote := skipSpace_cons (c := '"') (by decide) ds
  have hcolon := skipSpace_cons (c := ':') (by decide) cs
  rw [List.append_assoc, hds]
  have hskip : skipSpace (gap ++ '"' :: ds) = '"' :: ds := by rw [skipSpace_append hgap, hquote]
  cases first with
  | true => simp [lead, readEntries, hskip, hkey, hcolon, hread]
  | false =>
    have hcomma := skipSpace_cons (c := ',') (by decide) (gap ++ '"' :: ds)
    simp [lead, readEntries, hcomma, hskip, hkey, hcolon, hread]

theorem readEntries_close (fuel : Nat) (first : Bool) (gap : List Char) (hgap : ∀ c ∈ gap, isSpace c)
    (rest : List Char) : readEntries (fuel + 1) first (gap ++ '}' :: rest) = ([], none, rest) := by
  have hskip : skipSpace (gap ++ '}' :: rest) = '}' :: rest := by
    rw [skipSpace_append hgap, skipSpace_cons (by decide)]
  simp only [readEntries, hskip]

theorem delimited_gap {gap : List Char} (hgap : ∀ c ∈ gap, isSpace c) {c : Char} (rest : List Char)
    (hc : c = ',' ∨ c = ']' ∨ c = '}') : Delimited (gap ++ c :: rest) := by
  intro d hd
  cases gap with
  | nil =>
    obtain rfl : c = d := by simpa using hd
    exact .inr hc
  | cons b gap =>
    obtain rfl : b = d := by simpa using hd
    exact .inl (hgap b List.mem_cons_self)

/-- A value is read back wherever its text stands. -/
def ReadBack (L : Layout) (v : Json) : Prop :=
  ∀ level fuel rest, (L.text level v).length ≤ fuel → Delimited rest →
    readValue fuel (L.text level v ++ rest) = (v, rest)

theorem readItems_text {L : Layout} {level fuel : Nat} {first : Bool} {v : Json} {vs : List Json}
    {tail rest : List Char} (hplain : Plain v) (hback : ReadBack L v)
    (hfuel : (L.text level v).length ≤ fuel) (htail : Delimited tail)
    (hitems : readItems fuel false tail = (vs, none, rest)) :
    readItems (fuel + 1) first (lead first ++ (L.gap level ++ (L.text level v ++ tail)))
      = (v :: vs, none, rest) := by
  obtain ⟨c, cs, hcs, hc, hclose⟩ := hplain.exists_text_eq_cons L level
  have hread := hback level fuel tail hfuel htail
  rw [hcs, List.cons_append] at hread ⊢
  rw [readItems_cons (L.isSpace_of_mem_gap level) hc hclose hplain.ne_broken hread, hitems]

theorem readItems_itemsText (L : Layout) (level : Nat) {after : List Char}
    (hafter : ∀ c ∈ after, isSpace c) (rest : List Char) (vs : List Json) :
    ∀ (v : Json) (fuel : Nat) (first : Bool), (∀ w ∈ v :: vs, Plain w ∧ ReadBack L w) →
      (L.itemsText level (v :: vs)).length < fuel →
      readItems fuel first (lead first ++ (L.itemsText level (v :: vs) ++ (after ++ ']' :: rest)))
        = (v :: vs, none, rest) := by
  induction vs with
  | nil =>
    intro v fuel first hvs hfuel
    obtain ⟨hplain, hback⟩ := hvs v List.mem_cons_self
    simp only [Layout.itemsText, List.length_append] at hfuel
    obtain ⟨fuel, rfl⟩ := Nat.exists_eq_add_one.mpr (Nat.zero_lt_of_lt hfuel)
    have htext : (L.text level v).length ≤ fuel := by omega
    obtain ⟨fuel, rfl⟩ := hplain.exists_eq_succ htext
    have hclosed := readItems_close fuel false after hafter rest
    rw [Layout.itemsText, List.append_assoc]
    exact readItems_text hplain hback htext (delimited_gap hafter rest (by simp)) hclosed
  | cons w ws ih =>
    intro v fuel first hvs hfuel
    obtain ⟨hplain, hback⟩ := hvs v List.mem_cons_self
    simp only [Layout.itemsText, List.length_append, List.length_cons] at hfuel
    obtain ⟨fuel, rfl⟩ := Nat.exists_eq_add_one.mpr (Nat.zero_lt_of_lt hfuel)
    have hitems := ih w fuel false (fun u hu => hvs u (List.mem_cons_of_mem v hu)) (by omega)
    have hcomma : Delimited (',' :: (L.itemsText level (w :: ws) ++ (after ++ ']' :: rest))) := by
      simp [Delimited]
    simp only [Layout.itemsText, List.append_assoc]
    exact readItems_text hplain hback (by omega) hcomma hitems

theorem readEntries_text {L : Layout} (level : Nat) {fuel : Nat} (first : Bool) (k : String) {v : Json}
    {es : List (String × Json)} {tail rest : List Char} (hplain : Plain v) (hback : ReadBack L v)
    (hfuel : (L.text level v).length ≤ fuel) (htail : Delimited tail)
    (hentries : readEntries fuel false tail = (es, none, rest)) :
    readEntries (fuel + 1) first
        (lead first ++ (L.gap level ++ (renderString k).toList
          ++ ':' :: (L.colonGap ++ (L.text level v ++ tail))))
      = ((k, v) :: es, none, rest) := by
  obtain ⟨fuel, rfl⟩ := hplain.exists_eq_succ hfuel
  have hread : readValue (fuel + 1) (L.colonGap ++ (L.text level v ++ tail)) = (v, tail) := by
    rw [readValue_append L.isSpace_of_mem_colonGap, hback level _ tail hfuel htail]
  rw [readEntries_cons (L.isSpace_of_mem_gap level) hplain.ne_broken hread, hentries]

theorem readEntries_entriesText (L : Layout) (level : Nat) {after : List Char}
    (hafter : ∀ c ∈ after, isSpace c) (rest : List Char) (es : List (String × Json)) :
    ∀ (e : String × Json) (fuel : Nat) (first : Bool), (∀ d ∈ e :: es, Plain d.2 ∧ ReadBack L d.2) →
      (L.entriesText level (e :: es)).length < fuel →
      readEntries fuel first (lead first ++ (L.entriesText level (e :: es) ++ (after ++ '}' :: rest)))
        = (e :: es, none, rest) := by
  induction es with
  | nil =>
    rintro ⟨k, v⟩ fuel first hes hfuel
    obtain ⟨hplain, hback⟩ : Plain v ∧ ReadBack L v := hes (k, v) List.mem_cons_self
    simp only [Layout.entriesText, List.length_append, List.length_cons] at hfuel
    obtain ⟨fuel, rfl⟩ : ∃ n, fuel = n + 1 + 1 := ⟨fuel - 2, by omega⟩
    have hclosed := readEntries_close fuel false after hafter rest
    have htext := readEntries_text level first k hplain hback (by omega)
      (delimited_gap hafter rest (by simp)) hclosed
    simpa [Layout.entriesText] using htext
  | cons d es ih =>
    rintro ⟨k, v⟩ fuel first hes hfuel
    obtain ⟨hplain, hback⟩ : Plain v ∧ ReadBack L v := hes (k, v) List.mem_cons_self
    simp only [Layout.entriesText, List.length_append, List.length_cons] at hfuel
    obtain ⟨fuel, rfl⟩ := Nat.exists_eq_add_one.mpr (Nat.zero_lt_of_lt hfuel)
    have hentries := ih d fuel false (fun u hu => hes u (List.mem_cons_of_mem _ hu)) (by omega)
    have hcomma : Delimited (',' :: (L.entriesText level (d :: es) ++ (after ++ '}' :: rest))) := by
      simp [Delimited]
    have htext := readEntries_text level first k hplain hback (by omega) hcomma hentries
    simpa [Layout.entriesText] using htext

theorem readValue_natural {n : Nat} (hn : n ≤ largest) (fuel : Nat) {rest : List Char}
    (hrest : Delimited rest) :
    readValue (fuel + 1) (Nat.toDigits 10 n ++ rest) = (.number (.natural n), rest) := by
  obtain ⟨c, cs, hcs, hc⟩ := exists_toDigits_eq_cons n
  have hread := readNumber_natural hn hrest
  rw [hcs, List.cons_append] at hread ⊢
  have hskip := skipSpace_cons (isSpace_eq_false_of_isDigit hc) (cs ++ rest)
  -- no digit is the first character of another kind of value
  have hother : ∀ d : Char, d.isDigit = false → c ≠ d := fun d => ne_of_isDigit hc
  simp [readValue, hskip, hread, hc, hother 'n' (by decide), hother 't' (by decide),
    hother 'f' (by decide), hother '"' (by decide), hother '[' (by decide), hother '{' (by decide),
    hother '-' (by decide)]

theorem ReadBack.array {L : Layout} {items : List Json} (hplain : ∀ v ∈ items, Plain v)
    (hback : ∀ v ∈ items, ReadBack L v) : ReadBack L (.array items none) := by
  intro level fuel rest hfuel _
  cases items with
  | nil =>
    obtain ⟨fuel, rfl⟩ : ∃ k, fuel = k + 1 + 1 := ⟨fuel - 2, by simp [Layout.text] at hfuel; omega⟩
    have hclose := readItems_close fuel true [] (by simp) rest
    have hopen := skipSpace_cons (c := '[') (by decide) (']' :: rest)
    rw [List.nil_append] at hclose
    simp only [Layout.text, List.cons_append, List.nil_append, readValue, hopen, hclose]
  | cons v vs =>
    obtain ⟨fuel, rfl⟩ := (Plain.array hplain).exists_eq_succ hfuel
    simp only [Layout.text, List.length_append, List.length_cons] at hfuel
    have hread := readItems_itemsText L (level + 1) (L.isSpace_of_mem_gap level) rest vs v fuel true
      (fun w hw => ⟨hplain w hw, hback w hw⟩) (by omega)
    have hopen := skipSpace_cons (c := '[') (by decide)
      (L.itemsText (level + 1) (v :: vs) ++ (L.gap level ++ ']' :: rest))
    rw [lead, if_pos rfl, List.nil_append] at hread
    simp only [Layout.text, List.cons_append, List.append_assoc, List.nil_append, readValue, hopen,
      hread]

theorem ReadBack.object {L : Layout} {entries : List (String × Json)}
    (hplain : ∀ e ∈ entries, Plain e.2) (hback : ∀ e ∈ entries, ReadBack L e.2) :
    ReadBack L (.object entries none) := by
  intro level fuel rest hfuel _
  cases entries with
  | nil =>
    obtain ⟨fuel, rfl⟩ : ∃ k, fuel = k + 1 + 1 := ⟨fuel - 2, by simp [Layout.text] at hfuel; omega⟩
    have hclose := readEntries_close fuel true [] (by simp) rest
    have hopen := skipSpace_cons (c := '{') (by decide) ('}' :: rest)
    rw [List.nil_append] at hclose
    simp only [Layout.text, List.cons_append, List.nil_append, readValue, hopen, hclose]
  | cons e es =>
    obtain ⟨fuel, rfl⟩ := (Plain.object hplain).exists_eq_succ hfuel
    simp only [Layout.text, List.length_append, List.length_cons] at hfuel
    have hread := readEntries_entriesText L (level + 1) (L.isSpace_of_mem_gap level) rest es e fuel
      true (fun d hd => ⟨hplain d hd, hback d hd⟩) (by omega)
    have hopen := skipSpace_cons (c := '{') (by decide)
      (L.entriesText (level + 1) (e :: es) ++ (L.gap level ++ '}' :: rest))
    rw [lead, if_pos rfl, List.nil_append] at hread
    simp only [Layout.text, List.cons_append, List.append_assoc, List.nil_append, readValue, hopen,
      hread]

theorem Plain.readBack (L : Layout) {v : Json} (h : Plain v) : ReadBack L v := by
  induction h with
  | null =>
    intro level fuel rest hfuel _
    obtain ⟨fuel, rfl⟩ := Plain.null.exists_eq_succ hfuel
    simp [Layout.text, readValue, readWord, skipSpace, isSpace]
  | bool b =>
    intro level fuel rest hfuel _
    obtain ⟨fuel, rfl⟩ := (Plain.bool b).exists_eq_succ hfuel
    cases b <;> simp [Layout.text, readValue, readWord, skipSpace, isSpace]
  | @natural n hn =>
    intro level fuel rest hfuel hrest
    obtain ⟨fuel, rfl⟩ := (Plain.natural hn).exists_eq_succ hfuel
    simpa [Layout.text, renderNumber] using readValue_natural hn fuel hrest
  | string s =>
    intro level fuel rest hfuel _
    obtain ⟨cs, hcs, hread⟩ := readString_renderString s rest
    obtain ⟨fuel, rfl⟩ := (Plain.string s).exists_eq_succ hfuel
    have hquote := skipSpace_cons (c := '"') (by decide) cs
    simp only [Layout.text, hcs, readValue, hquote, hread, String.ofList_toList]
  | array hplain ih => exact .array hplain ih
  | object hplain ih => exact .object hplain ih

/-- The text of a value at the outermost level. -/
def Layout.write (L : Layout) (v : Json) : String := String.ofList (L.text 0 v)

theorem write_lines (v : Json) : Layout.lines.write v = v.render := by
  rw [Layout.write, ← toList_pretty, String.ofList_toList, render]

/-- Whatever the layout, the text of a plain value is read as that value, with nothing behind it. -/
theorem read_write (L : Layout) {v : Json} (h : Plain v) : read (L.write v) = (v, none) := by
  have hlength : (L.text 0 v).length ≤ (L.text 0 v).length + 1 := Nat.le_succ _
  have hread := h.readBack L 0 _ [] hlength (by simp [Delimited])
  rw [List.append_nil] at hread
  simp [read, Layout.write, hread, skipSpace]

end Json

end UsageTypes
