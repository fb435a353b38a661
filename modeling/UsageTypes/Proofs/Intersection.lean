import Mathlib.Data.List.Induction
import Mathlib.Data.List.Nodup
import UsageTypes.Trie

/-! Intersections in normal form: what remains of repeated members, and what references leave of a
shape when they are intersected with it. -/

namespace UsageTypes

section

variable {α : Type} [BEq α] [LawfulBEq α]

theorem eraseDups_append_singleton (xs : List α) (x : α) :
    (xs ++ [x]).eraseDups = if x ∈ xs then xs.eraseDups else xs.eraseDups ++ [x] := by
  rw [List.eraseDups_append]
  by_cases hx : x ∈ xs <;> simp [List.removeAll, hx, List.eraseDups_cons]

theorem nodup_eraseDups (xs : List α) : xs.eraseDups.Nodup := by
  induction xs using List.reverseRecOn with
  | nil => exact List.nodup_nil
  | append_singleton xs x ih =>
    rw [eraseDups_append_singleton]
    split
    · exact ih
    · rw [← List.concat_eq_append]
      exact ih.concat (by rwa [List.mem_eraseDups])

theorem eraseDups_of_nodup {xs : List α} (h : xs.Nodup) : xs.eraseDups = xs := by
  induction xs using List.reverseRecOn with
  | nil => rfl
  | append_singleton xs x ih =>
    obtain ⟨hxs, -, hx⟩ := List.nodup_append.mp h
    rw [eraseDups_append_singleton, if_neg fun hmem => hx x hmem x (List.mem_singleton_self x) rfl, ih hxs]

omit [LawfulBEq α] in
@[simp] theorem eraseDups_eq_nil_iff {xs : List α} : xs.eraseDups = [] ↔ xs = [] := by
  cases xs <;> simp [List.eraseDups_cons]

end

namespace Ty

def meet : List Ty → Ty
  | [t] => t
  | ts => .inter ts

theorem meet_eq_inter {ts : List Ty} (h : ∀ t, ts ≠ [t]) : meet ts = .inter ts := by
  match ts with
  | [] => rfl
  | [t] => exact absurd rfl (h t)
  | _ :: _ :: _ => rfl

theorem meet_concat {ts : List Ty} (h : ts ≠ []) (t : Ty) : meet (ts ++ [t]) = .inter (ts ++ [t]) := by
  apply meet_eq_inter
  simpa [List.append_eq_singleton_iff] using h

theorem flatMap_parts_of_flat {ts : List Ty} (h : ∀ t ∈ ts, t.isInter = false) :
    ts.flatMap parts = ts := by
  induction ts with
  | nil => rfl
  | cons t ts ih =>
    have hp : t.parts = [t] := by
      have ht := h t (by simp)
      cases t with
      | inter members => cases ht
      | _ => rfl
    rw [List.flatMap_cons, hp, ih fun u hu => h u (by simp [hu])]
    rfl

theorem interOf_eq_meet {ts : List Ty} (h : ts.flatMap parts ≠ []) :
    interOf ts = meet (ts.flatMap parts).eraseDups := by
  have hne := mt eraseDups_eq_nil_iff.mp h
  rw [interOf]
  generalize (ts.flatMap parts).eraseDups = us at hne
  match us with
  | [] => exact absurd rfl hne
  | [t] => rfl
  | _ :: _ :: _ => rfl

theorem interOf_of_flat {ts : List Ty} (hne : ts ≠ []) (hd : ts.Nodup)
    (hf : ∀ t ∈ ts, t.isInter = false) : interOf ts = meet ts := by
  have hparts := flatMap_parts_of_flat hf
  rw [interOf_eq_meet (by rwa [hparts]), hparts, eraseDups_of_nodup hd]

end Ty

def Covered (members : MemberTable) (names : List String) (member : String) : Prop :=
  ∃ name ∈ names, ∃ declared, members name = some declared ∧ member ∈ declared

theorem mem_flatten_filterMap_iff {members : MemberTable} {names : List String} {member : String} :
    member ∈ (names.filterMap members).flatten ↔ Covered members names member := by
  simp only [List.mem_flatten, List.mem_filterMap, Covered]
  constructor
  · rintro ⟨declared, ⟨name, hn, hd⟩, hm⟩
    exact ⟨name, hn, declared, hd, hm⟩
  · rintro ⟨name, hn, declared, hd, hm⟩
    exact ⟨declared, ⟨name, hn, hd⟩, hm⟩

instance (members : MemberTable) (names : List String) (member : String) :
    Decidable (Covered members names member) :=
  decidable_of_iff _ mem_flatten_filterMap_iff

def leftover (members : MemberTable) (names : List String) (fields : List (String × Ty)) :
    List (String × Ty) :=
  fields.filter fun f => ¬ Covered members names f.1

theorem leftover_map (members : MemberTable) (names segments : List String) (type : String → Ty) :
    leftover members names (segments.map fun s => (s, type s)) =
      (segments.filter fun s => ¬ Covered members names s).map fun s => (s, type s) := by
  rw [leftover, List.filter_map]
  rfl

/-- The shape that references are intersected with, if anything is left of it. -/
def leftoverShape (members : MemberTable) (names : List String) (fields : List (String × Ty)) :
    List Ty :=
  if leftover members names fields = [] then []
  else [.shape (leftover members names fields)]

theorem combineNamed_eq_meet {members : MemberTable} {names : List String}
    (hne : names ≠ []) (hd : names.Nodup) (fields : List (String × Ty)) :
    combineNamed members names fields =
      .meet (names.map .named ++ leftoverShape members names fields) := by
  have hl : fields.filter (fun f => f.1 ∉ (names.filterMap members).flatten) =
      leftover members names fields := by
    apply List.filter_congr
    intro f _
    simp only [mem_flatten_filterMap_iff]
  have hn : (names.map Ty.named).Nodup := hd.map fun _ _ h => Ty.named.inj h
  unfold combineNamed leftoverShape
  dsimp only
  rw [hl]
  split
  · rename_i he
    rw [if_pos he, List.append_nil]
    exact Ty.interOf_of_flat (by simpa using hne) hn (by simp [Ty.isInter])
  · rename_i he
    rw [if_neg (by simpa using he)]
    refine Ty.interOf_of_flat (by simp) (by simpa [List.nodup_append] using hn) ?_
    intro t ht
    rcases List.mem_append.mp ht with ht | ht
    · obtain ⟨name, _, rfl⟩ := List.mem_map.mp ht
      rfl
    · obtain rfl := List.mem_singleton.mp ht
      rfl

end UsageTypes
