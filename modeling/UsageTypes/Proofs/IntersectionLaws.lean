import UsageTypes.Proofs.NormalForm

/-! Laws of intersections. Building one keeps the first occurrence of every member of its members, so
it does not matter which members were intersected before: it is associative and idempotent, and what
it builds is in normal form. -/

namespace UsageTypes

section

variable {α : Type} [BEq α] [LawfulBEq α]

theorem eraseDups_filter (test : α → Bool) (xs : List α) :
    (xs.filter test).eraseDups = xs.eraseDups.filter test := by
  induction xs using List.reverseRecOn with
  | nil => rfl
  | append_singleton xs x ih =>
    rw [List.filter_append, eraseDups_append_singleton]
    cases hx : test x with
    | false =>
      rw [List.filter_singleton, hx, cond_false, List.append_nil, ih]
      split
      · rfl
      · rw [List.filter_append, List.filter_singleton, hx, cond_false, List.append_nil]
    | true =>
      rw [List.filter_singleton, hx, cond_true, eraseDups_append_singleton, ih]
      by_cases hmem : x ∈ xs <;> simp [hmem, hx]

/-- Members that are dropped inside would be dropped anyway. -/
theorem eraseDups_append_eraseDups_append (xs ys zs : List α) :
    (xs ++ ys.eraseDups ++ zs).eraseDups = (xs ++ ys ++ zs).eraseDups := by
  have hinner : (ys.eraseDups.removeAll xs).eraseDups = (ys.removeAll xs).eraseDups := by
    rw [List.removeAll, List.removeAll, eraseDups_filter, eraseDups_filter,
      eraseDups_of_nodup (nodup_eraseDups ys)]
  have hrest : zs.removeAll (xs ++ ys.eraseDups) = zs.removeAll (xs ++ ys) := by
    refine List.filter_congr fun z _ => ?_
    simp only [List.elem_eq_contains, List.contains_eq_mem, List.mem_append, List.mem_eraseDups]
  calc (xs ++ ys.eraseDups ++ zs).eraseDups
      = xs.eraseDups ++ (ys.eraseDups.removeAll xs).eraseDups
          ++ (zs.removeAll (xs ++ ys.eraseDups)).eraseDups := by
        rw [List.eraseDups_append, List.eraseDups_append]
    _ = xs.eraseDups ++ (ys.removeAll xs).eraseDups ++ (zs.removeAll (xs ++ ys)).eraseDups := by
        rw [hinner, hrest]
    _ = (xs ++ ys ++ zs).eraseDups := by
        rw [List.eraseDups_append, List.eraseDups_append]

end

namespace Ty

/-- In normal form at the top: an intersection has two members at least, all different and none of
them an intersection. -/
def Proper : Ty → Prop
  | .inter ts => 2 ≤ ts.length ∧ ts.Nodup ∧ ∀ t ∈ ts, t.isInter = false
  | _ => True

instance : (t : Ty) → Decidable t.Proper
  | .inter ts =>
    inferInstanceAs (Decidable (2 ≤ ts.length ∧ ts.Nodup ∧ ∀ t ∈ ts, t.isInter = false))
  | .dynamic | .primitive _ | .array _ | .shape _ | .named _ | .function _ _ => isTrue trivial

theorem Normal.proper {t : Ty} (h : t.Normal) : t.Proper := by
  cases h with
  | inter hlength hnodup hflat _ => exact ⟨hlength, hnodup, hflat⟩
  | _ => trivial

namespace Proper

variable {t u : Ty}

theorem parts_ne_nil (h : t.Proper) : t.parts ≠ [] := by
  cases t with
  | inter ts =>
    have hlength : 2 ≤ ts.length := h.1
    rintro rfl
    cases hlength
  | _ => exact List.cons_ne_nil _ _

theorem isInter_of_mem_parts (h : t.Proper) (hu : u ∈ t.parts) : u.isInter = false := by
  cases t with
  | inter ts => exact h.2.2 u hu
  | _ =>
    obtain rfl := List.mem_singleton.mp hu
    rfl

end Proper

theorem parts_meet {ts : List Ty} (h : ∀ t ∈ ts, t.isInter = false) : (meet ts).parts = ts := by
  match ts with
  | [] => rfl
  | [t] =>
    have ht := h t List.mem_cons_self
    cases t with
    | inter us => cases ht
    | _ => rfl
  | _ :: _ :: _ => rfl

theorem proper_meet {ts : List Ty} (hne : ts ≠ []) (hnodup : ts.Nodup)
    (hflat : ∀ t ∈ ts, t.isInter = false) : (meet ts).Proper := by
  match ts with
  | [] => exact absurd rfl hne
  | [t] =>
    have ht := hflat t List.mem_cons_self
    cases t with
    | inter us => cases ht
    | _ => trivial
  | t :: u :: us => exact ⟨by simp, hnodup, hflat⟩

theorem interOf_congr {ts us : List Ty}
    (h : (ts.flatMap parts).eraseDups = (us.flatMap parts).eraseDups) : interOf ts = interOf us := by
  rw [interOf, interOf, h]

section

variable {ts : List Ty} (hne : ts ≠ []) (hproper : ∀ t ∈ ts, t.Proper)

include hne hproper

theorem flatMap_parts_ne_nil : ts.flatMap parts ≠ [] := by
  obtain ⟨t, ht⟩ := List.exists_mem_of_ne_nil ts hne
  intro h
  exact (hproper t ht).parts_ne_nil (List.flatMap_eq_nil_iff.mp h t ht)

theorem parts_interOf : (interOf ts).parts = (ts.flatMap parts).eraseDups := by
  rw [interOf_eq_meet (flatMap_parts_ne_nil hne hproper)]
  refine parts_meet fun u hu => ?_
  obtain ⟨t, ht, hu⟩ := List.mem_flatMap.mp (List.mem_eraseDups.mp hu)
  exact (hproper t ht).isInter_of_mem_parts hu

theorem proper_interOf : (interOf ts).Proper := by
  have hparts := flatMap_parts_ne_nil hne hproper
  rw [interOf_eq_meet hparts]
  refine proper_meet (mt eraseDups_eq_nil_iff.mp hparts) (nodup_eraseDups _) fun u hu => ?_
  obtain ⟨t, ht, hu⟩ := List.mem_flatMap.mp (List.mem_eraseDups.mp hu)
  exact (hproper t ht).isInter_of_mem_parts hu

theorem interOf_append_interOf_append (xs zs : List Ty) :
    interOf (xs ++ [interOf ts] ++ zs) = interOf (xs ++ ts ++ zs) := by
  apply interOf_congr
  simp only [List.flatMap_append, List.flatMap_singleton, parts_interOf hne hproper]
  exact eraseDups_append_eraseDups_append _ _ _

end

/-- Intersecting is associative and idempotent. What it builds is in normal form, all the way down if
the members are, and has the members of the members in order of their first occurrence. -/
theorem interOf_normalises {ys : List Ty} (hne : ys ≠ []) (hproper : ∀ t ∈ ys, t.Proper)
    (xs zs : List Ty) :
    interOf (xs ++ [interOf ys] ++ zs) = interOf (xs ++ ys ++ zs) ∧
      interOf [interOf ys] = interOf ys ∧
      (interOf ys).Proper ∧ ((∀ t ∈ ys, t.Normal) → (interOf ys).Normal) ∧
      (interOf ys).parts = (ys.flatMap parts).eraseDups := by
  have hidempotent := interOf_append_interOf_append hne hproper [] []
  rw [List.nil_append, List.append_nil, List.nil_append, List.append_nil] at hidempotent
  have hparts := parts_interOf hne hproper
  exact ⟨interOf_append_interOf_append hne hproper xs zs, hidempotent, proper_interOf hne hproper,
    Normal.interOf, hparts⟩

theorem interOf_normalises_nested :
    let xs : List Ty := [.named "A"]
    let ys : List Ty := [.inter [.named "B", .array (.named "C")], .array (.named "C"), .named "A"]
    let zs : List Ty := [.inter [.shape [("q", .dynamic)], .named "B"]]
    (ys ≠ [] ∧ ∀ t ∈ ys, t.Proper) ∧
      interOf ys = .inter [.named "B", .array (.named "C"), .named "A"] ∧
      interOf (xs ++ ys ++ zs) =
        .inter [.named "A", .named "B", .array (.named "C"), .shape [("q", .dynamic)]] ∧
      interOf (xs ++ [interOf ys] ++ zs) = interOf (xs ++ ys ++ zs) ∧
      interOf [interOf ys] = interOf ys ∧ (interOf ys).Proper ∧
      (interOf ys).parts = (ys.flatMap parts).eraseDups := by
  intro xs ys zs
  have hne : ys ≠ [] := List.cons_ne_nil _ _
  have hproper : ∀ t ∈ ys, t.Proper := by decide +kernel
  obtain ⟨hassoc, hidempotent, hresult, -, hparts⟩ := interOf_normalises hne hproper xs zs
  exact ⟨⟨hne, hproper⟩, by decide +kernel, by decide +kernel, hassoc, hidempotent, hresult, hparts⟩

end Ty

end UsageTypes
