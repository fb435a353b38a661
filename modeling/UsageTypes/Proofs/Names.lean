import UsageTypes.Proofs.Lookahead

/-! Names, escapes included: which characters stand in them, and that a name ends where no character of
a name follows. -/

namespace UsageTypes

theorem isNamePart_of_isDigit {c : Char} (h : c.isDigit = true) : isNamePart c = true := by
  have hten : ∀ n : Fin 10, isNamePart (Char.ofNat (48 + n)) = true := by decide
  have hrange : 48 ≤ c.toNat ∧ c.toNat ≤ 57 := by
    simpa [Char.isDigit, UInt32.le_iff_toNat_le] using h
  have hc : c = Char.ofNat (48 + (c.toNat - 48)) := by
    rw [Nat.add_sub_cancel' hrange.1, Char.ofNat_toNat]
  rw [hc]
  exact hten ⟨c.toNat - 48, by omega⟩

theorem isNamePart_of_isHex {c : Char} (h : isHex c = true) : isNamePart c = true := by
  simp only [isHex, Bool.or_eq_true, Bool.and_eq_true, decide_eq_true_eq, or_assoc] at h
  rcases h with h | h | h
  · exact isNamePart_of_isDigit h
  · have hz : c ≤ 'z' := Nat.le_trans h.2 (by decide)
    simp [isNamePart, h.1, hz]
  · have hz : c ≤ 'Z' := Nat.le_trans h.2 (by decide)
    simp [isNamePart, h.1, hz]

/-- Characters that stand in names and in the escapes of names. -/
def isNameChar (c : Char) : Bool := isNamePart c || c ∈ ['\\', '{', '}']

theorem all_take_countWhile (p : Char → Bool) (cs : List Char) :
    (cs.take (countWhile p cs)).all p = true := by
  induction cs with
  | nil => rfl
  | cons c cs ih =>
    rw [countWhile]
    split
    · rename_i hc
      rw [List.take_succ_cons, List.all_cons, hc, ih]
      rfl
    · rfl

theorem countWhile_append {p : Char → Bool} {cs ds : List Char} {c : Char}
    (h : cs.drop (countWhile p cs) = c :: ds) (k : List Char) :
    countWhile p (cs ++ k) = countWhile p cs := by
  induction cs with
  | nil => cases h
  | cons x cs ih =>
    rw [countWhile] at h
    rw [List.cons_append, countWhile, countWhile]
    split
    · rename_i hx
      rw [if_pos hx, List.drop_succ_cons] at h
      rw [ih h]
    · rfl

section Escapes

theorem escapeLength_ne_zero {cs : List Char} : escapeLength cs ≠ some 0 := by
  rw [escapeLength.eq_def]
  split
  · dsimp only
    split
    · split <;> simp
    · simp
  · split <;> simp
  · simp

theorem isNameChar_of_isHex {c : Char} (h : isHex c = true) : isNameChar c = true := by
  rw [isNameChar, isNamePart_of_isHex h, Bool.true_or]

theorem isNameChar_of_mem_escape {cs : List Char} {n : Nat} (h : escapeLength cs = some n) :
    ∀ c ∈ cs.take n, isNameChar c = true := by
  rw [escapeLength.eq_def] at h
  split at h
  · rename_i ds
    dsimp only at h
    split at h
    · rename_i rest hrest
      split at h
      · cases h
      · obtain rfl := Option.some.inj h
        have hdigits : ∀ c ∈ ds.take (countWhile isHex ds + 1), isNameChar c = true := by
          rw [List.take_add, hrest]
          refine List.forall_mem_append.mpr ⟨fun c hc => ?_, List.forall_mem_singleton.mpr (by decide)⟩
          exact isNameChar_of_isHex (List.all_eq_true.mp (all_take_countWhile isHex ds) c hc)
        have htake : ∀ k, ('\\' :: 'u' :: '{' :: ds).take (k + 3) = '\\' :: 'u' :: '{' :: ds.take k :=
          fun _ => rfl
        have hopen : ∀ c ∈ ['\\', 'u', '{'], isNameChar c = true := List.all_eq_true.mp (by decide)
        rw [show countWhile isHex ds + 4 = countWhile isHex ds + 1 + 3 from rfl, htake]
        exact List.forall_mem_append.mpr ⟨hopen, hdigits⟩
    · cases h
  · split at h
    · rename_i hhex
      obtain rfl := Option.some.inj h
      simp only [Bool.and_eq_true] at hhex
      obtain ⟨⟨⟨ha, hb⟩, hc⟩, hd⟩ := hhex
      have hopen : ∀ c ∈ ['\\', 'u'], isNameChar c = true := List.all_eq_true.mp (by decide)
      refine List.forall_mem_append.mpr ⟨hopen, ?_⟩
      simpa using ⟨isNameChar_of_isHex ha, isNameChar_of_isHex hb, isNameChar_of_isHex hc,
        isNameChar_of_isHex hd⟩
    · cases h
  · cases h

/-- An escape is read to its end, whatever follows. -/
theorem escapeLength_append {cs : List Char} {n : Nat} (h : escapeLength cs = some n) (k : List Char) :
    escapeLength (cs ++ k) = some n ∧ n ≤ cs.length := by
  rw [escapeLength.eq_def] at h
  split at h
  · rename_i ds
    dsimp only at h
    split at h
    · rename_i rest hrest
      split at h
      · cases h
      · rename_i hne
        obtain rfl := Option.some.inj h
        have hlen : countWhile isHex ds < ds.length := by
          refine Nat.lt_of_not_le fun hle => ?_
          rw [List.drop_eq_nil_of_le hle] at hrest
          cases hrest
        have hcount := countWhile_append hrest k
        have hdrop : (ds ++ k).drop (countWhile isHex ds) = '}' :: (rest ++ k) := by
          rw [List.drop_append_of_le_length (by omega), hrest]
          rfl
        refine ⟨?_, by simp only [List.length_cons]; omega⟩
        simp only [List.cons_append, escapeLength, hcount, hdrop, if_neg hne]
    · cases h
  · rename_i a b c d rest hne
    split at h
    · rename_i hhex
      obtain rfl := Option.some.inj h
      refine ⟨?_, by simp⟩
      simp only [List.cons_append]
      rw [escapeLength]
      · rw [if_pos hhex]
      · exact hne
    · cases h
  · cases h

end Escapes

theorem isNameChar_of_mem_nameTail {skip : Nat} {cs : List Char}
    (hskip : ∀ c ∈ cs.take skip, isNameChar c = true) :
    ∀ c ∈ cs.take (nameTail skip cs), isNameChar c = true := by
  induction cs generalizing skip with
  | nil => simp
  | cons c cs ih =>
    cases skip with
    | succ skip =>
      rw [List.take_succ_cons, List.forall_mem_cons] at hskip
      rw [nameTail, List.take_succ_cons]
      exact List.forall_mem_cons.mpr ⟨hskip.1, ih hskip.2⟩
    | zero =>
      rw [nameTail]
      split
      · rename_i hc
        rw [List.take_succ_cons]
        refine List.forall_mem_cons.mpr ⟨?_, ih (by simp)⟩
        rw [isNameChar, hc, Bool.true_or]
      · split
        · rename_i n hescape
          have hchars := isNameChar_of_mem_escape hescape
          cases n with
          | zero => exact absurd hescape escapeLength_ne_zero
          | succ n =>
            rw [List.take_succ_cons, List.forall_mem_cons] at hchars
            rw [List.take_succ_cons]
            exact List.forall_mem_cons.mpr ⟨hchars.1, ih hchars.2⟩
        · simp

theorem isNameChar_of_mem_name {cs : List Char} : ∀ c ∈ cs.take (nameLength cs), isNameChar c = true := by
  intro c hc
  rw [nameLength.eq_def] at hc
  split at hc
  · split at hc
    · cases hc
    · exact isNameChar_of_mem_nameTail (by simp) c hc
  · simp at hc

theorem nameTail_eq_length_append {skip : Nat} {cs k : List Char} (hskip : skip ≤ cs.length)
    (h : nameTail skip cs = cs.length) (hk : endsName k = true) :
    nameTail skip (cs ++ k) = cs.length := by
  induction cs generalizing skip with
  | nil =>
    obtain rfl : skip = 0 := Nat.le_zero.mp hskip
    exact nameTail_of_endsName hk
  | cons c cs ih =>
    cases skip with
    | succ skip =>
      rw [nameTail, List.length_cons, Nat.add_right_cancel_iff] at h
      rw [List.cons_append, nameTail, ih (Nat.le_of_succ_le_succ hskip) h, List.length_cons]
    | zero =>
      rw [nameTail] at h
      rw [List.cons_append, nameTail]
      split at h
      · rename_i hc
        rw [List.length_cons, Nat.add_right_cancel_iff] at h
        rw [if_pos hc, ih (Nat.zero_le _) h, List.length_cons]
      · rename_i hc
        split at h
        · rename_i n hescape
          obtain ⟨happend, hle⟩ := escapeLength_append hescape k
          rw [List.length_cons, Nat.add_right_cancel_iff] at h
          rw [List.cons_append] at happend
          have hn : n - 1 ≤ cs.length := by
            rw [List.length_cons] at hle
            omega
          simp only [if_neg hc, happend, ih hn h, List.length_cons]
        · cases h

/-- Whether a text is a name from its first character to its last. -/
def isIdentifier (cs : List Char) : Bool :=
  (Lexeme.name []).take? cs = some cs.length

section Identifiers

variable {m n r s : List Char}

theorem isIdentifier_iff : isIdentifier n = true ↔ n ≠ [] ∧ nameLength n = n.length := by
  rw [isIdentifier, decide_eq_true_eq, Lexeme.take?]
  by_cases hz : nameLength n = 0
  · simp [hz, eq_comm]
  · simp only [hz, decide_false, Bool.false_or, List.contains_nil, Bool.false_eq_true, if_false,
      Option.some.injEq]
    refine ⟨fun h => ⟨?_, h⟩, fun h => h.2⟩
    rintro rfl
    exact hz rfl

theorem isIdentifier_of_isName (h : isName n = true) : isIdentifier n = true := by
  obtain ⟨c, cs, rfl, -, -, -⟩ := isName_iff.mp h
  have hlen := nameLength_append h (k := []) rfl
  rw [List.append_nil] at hlen
  exact isIdentifier_iff.mpr ⟨List.cons_ne_nil _ _, hlen⟩

theorem nameLength_identifier_append (hn : isIdentifier n = true) (hr : endsName r = true) :
    nameLength (n ++ r) = n.length := by
  obtain ⟨hne, hlen⟩ := isIdentifier_iff.mp hn
  cases n with
  | nil => exact absurd rfl hne
  | cons c cs =>
    rw [nameLength] at hlen
    rw [List.cons_append, nameLength]
    split at hlen
    · cases hlen
    · rename_i hd
      rw [if_neg hd]
      exact nameTail_eq_length_append (Nat.zero_le _) hlen hr

/-- Where a name ends is decided by the text. -/
theorem identifier_append_inj (hm : isIdentifier m = true) (hn : isIdentifier n = true) (hr : endsName r = true)
    (hs : endsName s = true) (h : m ++ r = n ++ s) : m = n ∧ r = s := by
  have hlen : m.length = n.length := by
    rw [← nameLength_identifier_append hm hr, h, nameLength_identifier_append hn hs]
  exact List.append_inj h hlen

theorem not_endsName_identifier (hn : isIdentifier n = true) (r : List Char) : endsName (n ++ r) = false := by
  obtain ⟨hne, hlen⟩ := isIdentifier_iff.mp hn
  cases n with
  | nil => exact absurd rfl hne
  | cons c cs =>
    cases he : endsName (c :: cs ++ r) with
    | false => rfl
    | true =>
      have hzero := nameLength_of_endsName (k := c :: cs) he
      rw [hzero] at hlen
      cases hlen

theorem isNameChar_of_mem_identifier (hn : isIdentifier n = true) : ∀ c ∈ n, isNameChar c = true := by
  have hchars : ∀ c ∈ n.take (nameLength n), isNameChar c = true := isNameChar_of_mem_name
  rwa [(isIdentifier_iff.mp hn).2, List.take_length] at hchars

end Identifiers

end UsageTypes
