import UsageTypes.Proofs.ParameterReadings

/-! Every writable type is read back from its written form, by induction on the type. Types that bind
tightly are read so that `[]` and `&` may go on with them; the others only where they end. -/

namespace UsageTypes

open Grammar Forms

/-- A text is read as a type that may go on. -/
def Extensible (s : List Char) (n : Nat) (T : Ty) : Prop :=
  ∀ {bound depth strength : Nat} {c : Cursor} {gap k : List Char} {m : Char} (e : Ending), IsGap gap →
    c.rest = gap ++ (s ++ k) → (Head.mark m).Stands k → m ≠ '=' → c.rest.length < bound →
    4 * s.length ≤ depth + 1 → Grows bound depth strength e c gap s k n T

theorem ne_of_mem_closers {m : Char} (hm : m ∈ closers) : m ≠ '=' := by
  rintro rfl
  exact absurd hm (by decide)

section Pieces

variable {s : List Char} {n : Nat} {T : Ty}

theorem Grows.mono {bound depth strength : Nat} {e : Ending} {c : Cursor} {gap k : List Char} {n' : Nat}
    (h : Grows bound depth strength e c gap s k n T) (hn : n ≤ n') :
    Grows bound depth strength e c gap s k n' T := by
  obtain ⟨us, c₀, t₀, c₁, t, d, rounds, htrivia, hus, hr, hgrow, hpast, hd, hrounds, hplain,
    hdenotes⟩ := h
  exact ⟨us, c₀, t₀, c₁, t, d, rounds, htrivia, hus, hr, hgrow, hpast, hd, hrounds, hplain,
    hdenotes.mono hn⟩

theorem ReadsType.mono {r : Reading} {c : Cursor} {gap k : List Char} {n' : Nat}
    (h : ReadsType r c gap s k n T) (hn : n ≤ n') : ReadsType r c gap s k n' T := by
  obtain ⟨ts, t, d, hr, hts, hpast, hd, hplain, hdenotes⟩ := h
  exact ⟨ts, t, d, hr, hts, hpast, hd, hplain, hdenotes.mono hn⟩

theorem extensible_keyword {w : String} (hw : w ∈ typeKeywords) :
    Extensible w.toList 1 (keywordType w) := by
  intro bound depth strength c gap k m e hgap hc hk hm hlen hdepth
  have hname : ∀ w ∈ typeKeywords, isName w.toList = true := by decide
  refine grows_of_operand hc hgap (isSolid_name (hname w hw) k) hlen fun d hd => ?_
  exact operand_keyword (by omega) e hw hk.endsName hd

theorem extensible_reference {text : String} (h : (Ty.named text).isWritable = true) :
    Extensible text.toList 1 (.named text) := by
  intro bound depth strength c gap k m e hgap hc hk hm hlen hdepth
  have hname : isName text.toList = true := by
    rw [Ty.isWritable, Bool.and_eq_true] at h
    exact h.1
  refine grows_of_operand hc hgap (isSolid_name hname k) hlen fun d hd => ?_
  exact operand_reference (by omega) e h hk hd

theorem extensible_shape {fields : List (String × Ty)} (hfields : ReadableFields fields)
    (hopens : Opens (Ty.shape fields).written) :
    Extensible (Ty.shape fields).written (Ty.shape fields).span (.shape fields) := by
  intro bound depth strength c gap k m e hgap hc hk hm hlen hdepth
  refine grows_of_operand hc hgap (hopens.isSolid k) hlen fun d hd => ?_
  refine operand_shape hfields hd ?_ hdepth
  rw [hc, List.length_append] at hlen
  rw [hd]
  omega

theorem extensible_parens (hread : Readable s n T) (hs : Balanced s) :
    Extensible (Ty.parens s) (n + 1) T := by
  intro bound depth strength c gap k m e hgap hc hk hm hlen hdepth
  refine grows_of_operand hc hgap rfl hlen fun d hd => ?_
  refine operand_parens hread hs hd hk hm ?_ hdepth
  rw [hc, List.length_append] at hlen
  rw [hd]
  omega

theorem Extensible.array (h : Extensible s n T) :
    Extensible (s ++ ['[', ']']) (n + 1) (.array T) := by
  intro bound depth strength c gap k m e hgap hc hk hm hlen hdepth
  have hc' : c.rest = gap ++ (s ++ '[' :: ']' :: k) := by simpa using hc
  have hbrackets : (Head.mark '[').Stands ('[' :: ']' :: k) :=
    Head.stands_mark (by decide) rfl
  rw [List.length_append] at hdepth
  exact Grows.array (by omega) (h e hgap hc' hbrackets (by decide) hlen (by omega))

theorem Extensible.readable (h : Extensible s n T) (hs : s ≠ []) : Readable s n T := by
  intro bound depth c gap k m e hgap hc hk hm hlen hdepth
  have hpos := List.length_pos_iff.mpr hs
  obtain ⟨d, rfl⟩ : ∃ d, depth = d + 1 := ⟨depth - 1, by omega⟩
  exact (h e hgap hc hk (ne_of_mem_closers hm) hlen hdepth).readsType (by omega) hk (.inl hm) (.inl rfl)

end Pieces

section Members

/-- The nodes above one another in a member of an intersection. -/
def memberSpan (t : Ty) : Nat := (if t.bindsLoosely then 1 else 0) + t.span

/-- What is written behind the first member of an intersection. -/
def furtherMembers (ts : List Ty) : List Char :=
  ts.flatMap fun t => ' ' :: '&' :: ' ' :: t.writtenMember

theorem furtherMembers_cons (t : Ty) (ts : List Ty) :
    furtherMembers (t :: ts) = ' ' :: '&' :: ' ' :: (t.writtenMember ++ furtherMembers ts) := by
  simp [furtherMembers]

theorem stands_furtherMembers (ts : List Ty) {k : List Char} {m : Char} (hk : (Head.mark m).Stands k)
    (hm : m ∈ closers) :
    ∃ m', (m' ∈ closers ∨ m' = '&') ∧ (Head.mark m').Stands (furtherMembers ts ++ k) := by
  cases ts with
  | nil => exact ⟨m, .inl hm, hk⟩
  | cons t ts =>
    rw [furtherMembers_cons]
    exact ⟨'&', .inr rfl, Head.stands_blank_mark (by decide) rfl⟩

theorem interOf_meet {done : List Ty} {t : Ty} (hne : done ≠ []) (hnodup : (done ++ [t]).Nodup)
    (hflat : ∀ u ∈ done ++ [t], u.isInter = false) :
    Ty.interOf [.meet done, t] = .meet (done ++ [t]) := by
  have hparts : (Ty.meet done).parts = done := by
    have hdone : ∀ u ∈ done, u.isInter = false := fun u hu => hflat u (List.mem_append_left _ hu)
    match done, hne with
    | [u], _ => simpa [Ty.meet] using Ty.flatMap_parts_of_flat hdone
    | _ :: _ :: _, _ => rfl
  have ht := Ty.flatMap_parts_of_flat hflat
  rw [List.flatMap_append, Ty.flatMap_parts_of_flat fun u hu => hflat u (List.mem_append_left _ hu)]
    at ht
  rw [← Ty.interOf_of_flat (by simp) hnodup hflat, Ty.interOf, Ty.interOf, List.flatMap_cons, hparts,
    List.append_cancel_left ht, Ty.flatMap_parts_of_flat hflat]

variable {bound depth : Nat} {e : Ending} {c : Cursor} {gap s k : List Char} {n : Nat} {m : Char}

theorem read_member {s : List Char} {T : Ty} (h : Extensible s n T) (hs : s ≠ []) (hgap : IsGap gap)
    (hc : c.rest = gap ++ (s ++ k)) (hk : (Head.mark m).Stands k) (hm : m ∈ closers ∨ m = '&')
    (hlen : c.rest.length < bound) (hdepth : 4 * s.length ≤ depth) :
    ReadsType (readForm bound depth (nest (.type 3 e)) [] c) c gap s k n T := by
  have hpos := List.length_pos_iff.mpr hs
  obtain ⟨d, rfl⟩ : ∃ d, depth = d + 1 := ⟨depth - 1, by omega⟩
  have hne : m ≠ '=' := by
    rcases hm with hm | rfl
    · exact ne_of_mem_closers hm
    · decide
  exact (h e hgap hc hk hne hlen hdepth).readsType (by omega) hk
    (hm.imp_right fun h => ⟨h, rfl⟩) (.inr rfl)

theorem Grows.members {ts done : List Ty}
    (hmembers : ∀ t ∈ ts, t.writtenMember ≠ [] ∧ Extensible t.writtenMember (memberSpan t) t)
    (hne : done ≠ []) (hnodup : (done ++ ts).Nodup) (hflat : ∀ t ∈ done ++ ts, t.isInter = false)
    (hk : (Head.mark m).Stands k) (hm : m ∈ closers)
    (hlen : (furtherMembers ts ++ k).length < bound) (hdepth : 4 * (furtherMembers ts).length ≤ depth)
    (h : Grows bound depth 0 e c gap s (furtherMembers ts ++ k) n (.meet done)) :
    Grows bound depth 0 e c gap (s ++ furtherMembers ts) k (Ty.spanMembers n ts)
      (.meet (done ++ ts)) := by
  -- what was read so far is the intersection of the members that are done
  induction ts generalizing done s n with
  | nil => simpa [furtherMembers, Ty.spanMembers] using h
  | cons t ts ih =>
    obtain ⟨hne', hextensible⟩ := hmembers t List.mem_cons_self
    obtain ⟨m', hm', hk'⟩ := stands_furtherMembers ts hk hm
    rw [furtherMembers_cons] at hlen hdepth h
    simp only [List.length_append, List.length_cons, List.cons_append, List.append_assoc] at hlen hdepth h
    have hsplit : done ++ t :: ts = done ++ [t] ++ ts := by simp
    have hnodup' : (done ++ [t]).Nodup := by
      rw [hsplit] at hnodup
      exact hnodup.of_append_left
    have hflat' : ∀ u ∈ done ++ [t], u.isInter = false := by
      intro u hu
      refine hflat u ?_
      rw [hsplit]
      exact List.mem_append_left _ hu
    have hstep : Grows bound depth 0 e c gap (s ++ ' ' :: '&' :: ' ' :: t.writtenMember)
        (furtherMembers ts ++ k) (max n (memberSpan t) + 1) (.meet (done ++ [t])) := by
      rw [← interOf_meet hne hnodup' hflat']
      refine (h.mono (Nat.le_max_left n (memberSpan t))).inter (by omega) fun d hd => ?_
      refine ReadsType.mono ?_ (Nat.le_max_right n (memberSpan t))
      refine read_member hextensible hne' (.inr rfl) hd hk' hm' ?_ (by omega)
      rw [hd]
      simp only [List.length_cons, List.length_append]
      omega
    have hrest : (furtherMembers ts ++ k).length < bound := by
      rw [List.length_append]
      omega
    have hrun := ih (fun u hu => hmembers u (List.mem_cons_of_mem _ hu))
      (show done ++ [t] ≠ [] by simp) (by rwa [← hsplit]) (by rwa [← hsplit]) hrest (by omega) hstep
    rw [Ty.spanMembers, furtherMembers_cons, hsplit, Nat.add_comm 1]
    simpa [memberSpan] using hrun

end Members

section Parameters

/-- Parameters under the names that are written for them. -/
def numbered (index : Nat) : List Ty → List (List Char × Ty)
  | [] => []
  | t :: ts => (Ty.paramName index, t) :: numbered (index + 1) ts

theorem map_numbered (index : Nat) (ts : List Ty) : (numbered index ts).map (·.2) = ts := by
  induction ts generalizing index with
  | nil => rfl
  | cons t ts ih => rw [numbered, List.map_cons, ih]

theorem allTyped_numbered (index : Nat) (ts : List Ty) :
    allTyped (numbered index ts) = Ty.writtenParams index ts := by
  induction ts generalizing index with
  | nil => rfl
  | cons t ts ih =>
    cases ts with
    | nil => simp [numbered, allTyped, typed, furtherTyped, Ty.writtenParams_singleton]
    | cons u ts =>
      rw [Ty.writtenParams_cons, ← ih]
      simp [numbered, allTyped, typed, furtherTyped]

theorem paramName_not_mem (index : Nat) : Ty.paramName index ∉ parameterWords := by
  have hwords : ∀ w ∈ parameterWords, w.take 3 ≠ ['a', 'r', 'g'] := by decide
  exact fun h => hwords _ h rfl

theorem readableParams_numbered {ts : List Ty} (h : ∀ t ∈ ts, Readable t.written t.span t)
    (index : Nat) : ReadableParams (numbered index ts) := by
  induction ts generalizing index with
  | nil => exact fun _ hp => nomatch hp
  | cons t ts ih =>
    intro p hp
    rcases List.mem_cons.mp hp with rfl | hp
    · exact ⟨Ty.isName_paramName index, paramName_not_mem index, h t List.mem_cons_self⟩
    · exact ih (fun u hu => h u (List.mem_cons_of_mem _ hu)) (index + 1) p hp

end Parameters

/-- A type is read back from its written form. -/
structure ReadsBack (t : Ty) : Prop where
  opens : Opens t.written
  balanced : Balanced t.written
  readable : Readable t.written t.span t
  extensible : t.isLoose = false → Extensible t.written t.span t

namespace ReadsBack

variable {t : Ty}

theorem of_extensible (hopens : Opens t.written) (hbalanced : Balanced t.written)
    (h : Extensible t.written t.span t) : ReadsBack t :=
  ⟨hopens, hbalanced, h.readable hopens.ne_nil, fun _ => h⟩

theorem of_name (hname : isName t.written = true) (hw : t.isWritable = true)
    (h : Extensible t.written t.span t) : ReadsBack t :=
  of_extensible (.inr ⟨t.written, [], by rw [List.append_nil], hname, .inl rfl⟩)
    (Ty.balanced_written t hw) h

theorem opens_wrapped (h : ReadsBack t) (loose : Bool) : Opens (t.wrapped loose) := by
  rw [Ty.wrapped]
  split
  · exact .inl ⟨'(', by decide, _, rfl⟩
  · exact h.opens

theorem extensible_wrapped (h : ReadsBack t) {loose : Bool} (hloose : loose = false → t.isLoose = false) :
    Extensible (t.wrapped loose) ((if loose then 1 else 0) + t.span) t := by
  cases loose with
  | true =>
    rw [if_pos rfl, Nat.add_comm]
    exact extensible_parens h.readable h.balanced
  | false =>
    rw [if_neg Bool.false_ne_true, Nat.zero_add]
    exact h.extensible (hloose rfl)

theorem member (h : ReadsBack t) (hflat : t.isInter = false) :
    Extensible t.writtenMember (memberSpan t) t :=
  h.extensible_wrapped fun htight => by rw [Ty.isLoose, htight, hflat, Bool.or_self]

theorem array (h : ReadsBack t) (hw : t.isWritable = true) : ReadsBack (.array t) := by
  have hbrackets : (Head.mark '[').Stands ['[', ']'] := Head.stands_mark (by decide) rfl
  have hspan : (Ty.array t).span = (if t.isLoose then 1 else 0) + t.span + 1 := by
    rw [Ty.span]
    split <;> omega
  refine of_extensible ?_ (Ty.balanced_written (.array t) hw) ?_
  · rw [Ty.written_array]
    exact (h.opens_wrapped t.isLoose).append hbrackets
  · rw [Ty.written_array, hspan]
    exact Extensible.array (h.extensible_wrapped id)

theorem shape {fields : List (String × Ty)} (hw : (Ty.shape fields).isWritable = true)
    (h : ReadableFields fields) : ReadsBack (.shape fields) := by
  have hopens : Opens (Ty.shape fields).written := by
    cases fields with
    | nil => exact .inl ⟨'{', by decide, _, Ty.written_shape_nil⟩
    | cons f fields => exact .inl ⟨'{', by decide, _, Ty.written_shape_cons f fields⟩
  exact of_extensible hopens (Ty.balanced_written _ hw) (extensible_shape h hopens)

theorem inter {t u : Ty} {ts : List Ty} (hw : (Ty.inter (t :: u :: ts)).isWritable = true)
    (h : ∀ v ∈ t :: u :: ts, ReadsBack v) : ReadsBack (.inter (t :: u :: ts)) := by
  have hnormal : (t :: u :: ts).Nodup ∧ ∀ v ∈ t :: u :: ts, v.isInter = false := by
    rw [Ty.isWritable] at hw
    simp only [Bool.and_eq_true, decide_eq_true_eq, List.all_eq_true, Bool.not_eq_true'] at hw
    exact ⟨hw.1.1.2, hw.1.2⟩
  have ht := h t List.mem_cons_self
  have hopens : Opens t.writtenMember := ht.opens_wrapped t.bindsLoosely
  have hwritten : (Ty.inter (t :: u :: ts)).written = t.writtenMember ++ furtherMembers (u :: ts) :=
    Ty.written_inter t u ts
  have hmembers : ∀ v ∈ u :: ts, v.writtenMember ≠ [] ∧ Extensible v.writtenMember (memberSpan v) v := by
    intro v hv
    have hv' := h v (List.mem_cons_of_mem _ hv)
    exact ⟨(hv'.opens_wrapped v.bindsLoosely).ne_nil, hv'.member (hnormal.2 v (List.mem_cons_of_mem _ hv))⟩
  refine ⟨?_, Ty.balanced_written _ hw, ?_, fun hloose => by cases hloose⟩
  · have hand : (Head.mark '&').Stands (furtherMembers (u :: ts)) := by
      rw [furtherMembers_cons]
      exact Head.stands_blank_mark (by decide) rfl
    rw [hwritten]
    exact hopens.append hand
  · intro bound depth c gap k m e hgap hc hk hm hlen hdepth
    rw [hwritten] at hc hdepth ⊢
    rw [List.append_assoc] at hc
    rw [List.length_append] at hdepth
    have hpos := List.length_pos_iff.mpr hopens.ne_nil
    obtain ⟨d, rfl⟩ : ∃ d, depth = d + 1 := ⟨depth - 1, by omega⟩
    have hshort := congrArg List.length hc
    rw [List.length_append, List.length_append] at hshort
    obtain ⟨m', hm', hk'⟩ := stands_furtherMembers (u :: ts) hk hm
    have hne : m' ≠ '=' := by
      rcases hm' with hm' | rfl
      · exact ne_of_mem_closers hm'
      · decide
    have hfirst : Grows bound d 0 e c gap t.writtenMember (furtherMembers (u :: ts) ++ k) (memberSpan t)
        (.meet [t]) :=
      ht.member (hnormal.2 t List.mem_cons_self) e hgap hc hk' hne hlen (by omega)
    have hgrows := Grows.members hmembers (by simp) hnormal.1 hnormal.2 hk hm (by omega) (by omega) hfirst
    exact hgrows.readsType (by omega) hk (.inl hm) (.inl rfl)

theorem function {params : List Ty} {returns : Ty} (hw : (Ty.function params returns).isWritable = true)
    (hparams : ∀ t ∈ params, ReadsBack t) (h : ReadsBack returns) :
    ReadsBack (.function params returns) := by
  have hwritten : (Ty.function params returns).written = arrow (numbered 0 params) returns.written := by
    rw [Ty.written_function, arrow, allTyped_numbered]
  have hbalanced : Balanced (allTyped (numbered 0 params)) := by
    rw [Ty.isWritable, Bool.and_eq_true] at hw
    rw [allTyped_numbered]
    exact Ty.balanced_writtenParams 0 params hw.1
  have hopens : Opens (Ty.function params returns).written := by
    rw [hwritten]
    exact .inl ⟨'(', by decide, _, rfl⟩
  refine ⟨hopens, Ty.balanced_written _ hw, ?_, fun hloose => by cases hloose⟩
  intro bound depth c gap k m e hgap hc hk hm hlen hdepth
  have hpos := List.length_pos_iff.mpr hopens.ne_nil
  obtain ⟨d, rfl⟩ : ∃ d, depth = d + 1 := ⟨depth - 1, by omega⟩
  have hspan : (Ty.function params returns).span =
      1 + max (Ty.spanParams ((numbered 0 params).map (·.2))) returns.span := by
    rw [map_numbered, Ty.span]
  have hgrows : Grows bound d 0 e c gap (Ty.function params returns).written k
      (Ty.function params returns).span (.function params returns) := by
    refine grows_of_operand hc hgap (hopens.isSolid k) hlen fun c' hc' => ?_
    have hlen' : c'.rest.length < bound := by
      rw [hc, List.length_append] at hlen
      rw [hc']
      omega
    rw [hwritten] at hc' hdepth ⊢
    rw [hspan]
    have := operand_function (e := e) (readableParams_numbered (fun t ht => (hparams t ht).readable) 0)
      hbalanced h.readable h.opens hc' hk hm hlen' (show _ ≤ d + 1 from hdepth)
    rwa [map_numbered] at this ⊢
  exact hgrows.readsType (by omega) hk (.inl hm) (.inl rfl)

end ReadsBack

mutual

theorem readsBack : ∀ t : Ty, t.isWritable = true → ReadsBack t
  | .dynamic, h => .of_name (by decide) h (extensible_keyword (w := "any") (by decide))
  | .primitive .number, h => .of_name (by decide) h (extensible_keyword (w := "number") (by decide))
  | .primitive .string, h => .of_name (by decide) h (extensible_keyword (w := "string") (by decide))
  | .primitive .boolean, h => .of_name (by decide) h (extensible_keyword (w := "boolean") (by decide))
  | .array t, h => (readsBack t h).array h
  | .shape fields, h => .shape h (readableFields fields h)
  | .named text, h => by
    have hname : isName text.toList = true := by
      rw [Ty.isWritable, Bool.and_eq_true] at h
      exact h.1
    exact .of_name hname h (extensible_reference h)
  | .inter [], h => by simp [Ty.isWritable] at h
  | .inter [_], h => by simp [Ty.isWritable] at h
  | .inter (t :: u :: ts), h => by
    refine .inter h (readsBackAll (t :: u :: ts) ?_)
    rw [Ty.isWritable, Bool.and_eq_true] at h
    exact h.2
  | .function params returns, h => by
    have h' := h
    rw [Ty.isWritable, Bool.and_eq_true] at h'
    exact .function h (readsBackAll params h'.1) (readsBack returns h'.2)

theorem readableFields : ∀ fields : List (String × Ty), Ty.areWritableFields fields = true →
    ReadableFields fields
  | [], _ => fun _ hf => nomatch hf
  | (name, t) :: fields, h => by
    rw [Ty.areWritableFields, Bool.and_eq_true, Bool.and_eq_true] at h
    have ht := readsBack t h.1.2
    have hfields := readableFields fields h.2
    intro f hf
    rcases List.mem_cons.mp hf with rfl | hf
    · exact ⟨h.1.1, ht.readable⟩
    · exact hfields f hf

theorem readsBackAll : ∀ ts : List Ty, Ty.areWritable ts = true → ∀ t ∈ ts, ReadsBack t
  | [], _ => fun _ ht => nomatch ht
  | t :: ts, h => by
    rw [Ty.areWritable, Bool.and_eq_true] at h
    have ht := readsBack t h.1
    have hts := readsBackAll ts h.2
    intro u hu
    rcases List.mem_cons.mp hu with rfl | hu
    · exact ht
    · exact hts u hu

end

end UsageTypes
