import UsageTypes.Proofs.ScopeSearch

/-! The calls that decide whether a parameter may be left out. A call counts if its callee is the
function's name and the number of its arguments is known; a name in parentheses still resolves to the
function, but its calls do not count. -/

namespace UsageTypes

namespace Program

/-- A call whose callee resolves to a function, with the number of its arguments. A spread argument
leaves the number unknown. -/
structure CallOf (program : Program) (f call callee : Place) (count : Nat) : Prop where
  isCall : call.is .callExpression = true
  callee_eq : call.child? .callee = some callee
  arguments_eq : ∃ arguments, call.arguments? = some arguments ∧
    (∀ a ∈ arguments, a.is .spreadElement = false) ∧ arguments.length = count
  resolves : program.resolveFunction callee = some f

theorem plainCall?_eq_some_iff {p callee : Place} {count : Nat} :
    plainCall? p = some (callee, count) ↔ p.is .callExpression = true ∧
      p.child? .callee = some callee ∧ callee.is .identifier = true ∧
      ∃ arguments, p.arguments? = some arguments ∧
        (∀ a ∈ arguments, a.is .spreadElement = false) ∧ arguments.length = count := by
  rw [plainCall?]
  split
  · rename_i hcall
    split
    · rename_i c arguments hc ha
      simp only [hcall, hc, ha, Option.some.injEq, true_and, exists_eq_left']
      split
      · rename_i h
        simp only [Bool.and_eq_true, Bool.not_eq_true', List.any_eq_false] at h
        constructor
        · intro he
          obtain ⟨rfl, rfl⟩ := (Prod.mk.injEq ..).mp (Option.some.inj he)
          exact ⟨rfl, h.1, fun a hm => by simpa using h.2 a hm, rfl⟩
        · rintro ⟨rfl, -, -, rfl⟩
          rfl
      · rename_i h
        refine ⟨fun he => by simp at he, ?_⟩
        rintro ⟨rfl, hid, hs, -⟩
        refine absurd ?_ h
        simp only [Bool.and_eq_true, Bool.not_eq_true', List.any_eq_false, hid, true_and]
        exact fun a hm => by simp [hs a hm]
    · rename_i hno
      refine ⟨fun he => by simp at he, ?_⟩
      rintro ⟨-, hc, -, arguments, ha, -⟩
      exact absurd ha (hno _ _ hc)
  · rename_i hcall
    simp [hcall]

theorem mem_countsAt_iff {calls : List (List Nat × Nat)} {f : Place} {count : Nat} :
    count ∈ countsAt calls f ↔ (f.address, count) ∈ calls := by
  simp only [countsAt, List.mem_filterMap, Prod.exists]
  constructor
  · rintro ⟨address, n, hm, h⟩
    split at h
    · rename_i he
      obtain rfl := Option.some.inj h
      rwa [← he]
    · cases h
  · intro h
    exact ⟨f.address, count, h, if_pos rfl⟩

/-- The argument numbers of a function are those of the calls by its bare name, anywhere in the
tree. -/
theorem mem_arities_iff {root : Tree} {f : Place} (hf : f.In root) {count : Nat} :
    count ∈ (ofTree root).arities f ↔ ∃ call callee, call.In root ∧
      (ofTree root).CallOf f call callee count ∧ callee.is .identifier = true := by
  simp only [arities, mem_countsAt_iff, calls, plainCalls_ofTree, List.mem_filterMap, Prod.exists,
    mem_places_iff]
  constructor
  · rintro ⟨callee, n, ⟨call, hcall, hplain⟩, h⟩
    obtain ⟨hk, hc, hid, ha⟩ := plainCall?_eq_some_iff.mp hplain
    obtain ⟨g, hg, he⟩ := Option.map_eq_some_iff.mp h
    obtain ⟨hadd, rfl⟩ := (Prod.mk.injEq ..).mp he
    -- two places of the tree with one address are the same
    obtain rfl : g = f := (resolveFunction_in (hcall.child_of_kind? hc (Place.is_iff.mp hid)) hid
      hg).eq_of_address hf hadd
    exact ⟨call, callee, hcall, ⟨hk, hc, ha, hg⟩, hid⟩
  · rintro ⟨call, callee, hin, h, hid⟩
    refine ⟨callee, count, ⟨call, hin, ?_⟩, ?_⟩
    · exact plainCall?_eq_some_iff.mpr ⟨h.isCall, h.callee_eq, hid, h.arguments_eq⟩
    · rw [h.resolves]
      rfl

end Program

/-- An inferred parameter is optional exactly if it is declared so, or if somewhere in the program a
call of the function by its bare name passes no argument at its position. -/
theorem isOptional_iff_called_by_name (root : Tree) (settings : Settings) :
    let program := Program.ofTree root
    List.Forall₂ (fun r f => ∀ q ∈ r.parameters, ∃ p, f.parameters[q.index]? = some p ∧
        (q.isOptional = true ↔ p.is .optionalParameter = true ∨ ∃ call callee count, call.In root ∧
          program.CallOf f call callee count ∧ callee.is .identifier = true ∧ count ≤ q.index))
      (program.infer settings) program.openFunctions := by
  intro program
  rw [Program.infer_eq, List.forall₂_map_left_iff, List.forall₂_same]
  intro f hf q hq
  obtain ⟨⟨p, i⟩, hp, rfl⟩ := List.mem_map.mp hq
  have hi : f.parameters[i]? = some p := List.mem_zipIdx_iff_getElem?.mp (List.mem_filter.mp hp).1
  have hin := (Program.mem_openFunctions_iff.mp hf).1
  refine ⟨p, hi, ?_⟩
  simp only [Program.inferSlot, Program.slotAt, Bool.or_eq_true, List.any_eq_true]
  refine or_congr Iff.rfl ?_
  constructor
  · rintro ⟨count, hm, hle⟩
    obtain ⟨call, callee, hc, h, hid⟩ := (Program.mem_arities_iff hin).mp hm
    exact ⟨call, callee, count, hc, h, hid, of_decide_eq_true hle⟩
  · rintro ⟨call, callee, count, hc, h, hid, hle⟩
    exact ⟨count, (Program.mem_arities_iff hin).mpr ⟨call, callee, hc, h, hid⟩, decide_eq_true hle⟩

/-- The call of a name in parentheses resolves to the function, passes one argument of two, and yet
leaves the second parameter required. -/
theorem wrapped_call_not_counted :
    let program := Program.ofTree
      ((readProgram "function f(a, b) { return a }\nconst r = (f)(1);\n").getD default)
    program.declarations.map (·.address) = [[0]] ∧
      (program.places.filter (·.is .callExpression)).map (fun call =>
        (((call.child? .callee).bind program.resolveFunction).map (·.address),
          call.arguments?.map List.length)) = [(some [0], some 1)] ∧
      (program.infer (.ofOptions .default)).map (fun r => r.parameters.map (·.isOptional)) =
        [[false, false]] := by
  decide +kernel

end UsageTypes
