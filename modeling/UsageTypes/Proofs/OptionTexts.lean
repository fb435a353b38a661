import Mathlib.Data.List.Forall2
import Mathlib.Data.List.Nodup
import UsageTypes.Options.Read
import UsageTypes.Proofs.JsonTexts

/-! Options are read back from the text that states them. A text may name options in any order and
leave out those that have their default. -/

namespace UsageTypes

/-- An option with a value. -/
inductive OptionValue where
  | strategy (kind : StrategyKind)
  | appendMethods (methods : List String)
  | conflictPolicy (policy : ConflictPolicy)
  | maxDepth (depth : Nat)
  | fileName (name : String)
  deriving DecidableEq

namespace OptionValue

def field : OptionValue → OptionField
  | strategy _ => .strategy
  | appendMethods _ => .appendMethods
  | conflictPolicy _ => .conflictPolicy
  | maxDepth _ => .maxDepth
  | fileName _ => .fileName

def toJson : OptionValue → Json
  | strategy kind => .string kind.name
  | appendMethods methods => .array (methods.map .string) none
  | conflictPolicy policy => .string policy.name
  | maxDepth depth => .number (.natural depth)
  | fileName name => .string name

end OptionValue

/-- A value states what an option is. One of several words may stand as a key without a value. -/
inductive Json.States : Json → OptionValue → Prop
  | strategy (kind : StrategyKind) : States (.string kind.name) (.strategy kind)
  | strategyKey (kind : StrategyKind) :
    States (.object [(kind.name, .null)] none) (.strategy kind)
  | appendMethods (methods : List String) :
    States (.array (methods.map .string) none) (.appendMethods methods)
  | conflictPolicy (policy : ConflictPolicy) : States (.string policy.name) (.conflictPolicy policy)
  | conflictPolicyKey (policy : ConflictPolicy) :
    States (.object [(policy.name, .null)] none) (.conflictPolicy policy)
  | maxDepth (depth : Nat) : States (.number (.natural depth)) (.maxDepth depth)
  | fileName (name : String) : States (.string name) (.fileName name)

theorem OptionValue.states_toJson (x : OptionValue) : x.toJson.States x := by
  cases x <;> constructor

namespace OptionField

theorem ofName?_name (f : OptionField) : ofName? f.name = some f := by
  cases f <;> decide

theorem name_of_ofName? {key : String} {f : OptionField} (h : ofName? key = some f) : f.name = key := by
  simpa using List.find?_some h

theorem name_injective {f g : OptionField} (h : f.name = g.name) : f = g := by
  have hf := ofName?_name f
  rw [h, ofName?_name g] at hf
  exact (Option.some.inj hf).symm

theorem mem_all (f : OptionField) : f ∈ all := by
  cases f <;> decide

end OptionField

namespace Options

def get (options : Options) : OptionField → OptionValue
  | .strategy => .strategy options.strategy
  | .appendMethods => .appendMethods options.appendMethods
  | .conflictPolicy => .conflictPolicy options.conflictPolicy
  | .maxDepth => .maxDepth options.maxDepth
  | .fileName => .fileName options.fileName

def put (options : Options) : OptionValue → Options
  | .strategy kind => { options with strategy := kind }
  | .appendMethods methods => { options with appendMethods := methods }
  | .conflictPolicy policy => { options with conflictPolicy := policy }
  | .maxDepth depth => { options with maxDepth := depth }
  | .fileName name => { options with fileName := name }

/-- The object that states every option. -/
def toJson (options : Options) : Json :=
  .object (OptionField.all.map fun f => (f.name, (options.get f).toJson)) none

example : Json.Layout.compact.write (Options.default.toJson) =
    "\x7b\"strategy\":\"refined\",\"append_methods\":[\"push\"],\"conflict_policy\":\"unresolved\"," ++
      "\"max_depth\":256,\"file_name\":\"input.ts\"\x7d" := by
  decide +kernel

@[simp] theorem field_get (o : Options) (f : OptionField) : (o.get f).field = f := by
  cases f <;> rfl

theorem get_put_field (o : Options) (x : OptionValue) : (o.put x).get x.field = x := by
  cases x <;> rfl

theorem get_put_of_ne (o : Options) {x : OptionValue} {f : OptionField} (h : x.field ≠ f) :
    (o.put x).get f = o.get f := by
  cases x <;> cases f <;> first | rfl | exact absurd rfl h

theorem eq_of_get {o p : Options} (h : ∀ f, o.get f = p.get f) : o = p := by
  have hstrategy := h .strategy
  have hmethods := h .appendMethods
  have hpolicy := h .conflictPolicy
  have hdepth := h .maxDepth
  have hname := h .fileName
  cases o
  cases p
  simp_all [get]

theorem get_foldl_put_of_notMem {xs : List OptionValue} {f : OptionField}
    (h : f ∉ xs.map OptionValue.field) : ∀ o : Options, (xs.foldl put o).get f = o.get f := by
  induction xs with
  | nil => simp
  | cons x xs ih =>
    intro o
    rw [List.map_cons, List.mem_cons, not_or] at h
    rw [List.foldl_cons, ih h.2, get_put_of_ne o (Ne.symm h.1)]

theorem get_foldl_put_of_mem {xs : List OptionValue} (hnodup : (xs.map OptionValue.field).Nodup)
    {x : OptionValue} (hx : x ∈ xs) : ∀ o : Options, (xs.foldl put o).get x.field = x := by
  induction xs with
  | nil => cases hx
  | cons y ys ih =>
    intro o
    rw [List.map_cons, List.nodup_cons] at hnodup
    rw [List.foldl_cons]
    rcases List.mem_cons.mp hx with rfl | hx
    · rw [get_foldl_put_of_notMem hnodup.1, get_put_field]
    · exact ih hnodup.2 hx _

end Options

/-! What a value states. -/

namespace Json

theorem asString_eq_ok_iff {v : Json} {s : String} : v.asString = .ok s ↔ v = .string s := by
  cases v <;> simp [asString]

theorem asNatural_eq_ok_iff {v : Json} {n : Nat} :
    v.asNatural = .ok n ↔ v = .number (.natural n) := by
  cases v with
  | number m => cases m <;> simp [asNatural]
  | _ => simp [asNatural]

theorem map_string_injective : Function.Injective (List.map Json.string) :=
  List.map_injective_iff.mpr fun _ _ h => Json.string.inj h

theorem mapM_asString_eq_ok_iff {items : List Json} {texts : List String} :
    items.mapM asString = .ok texts ↔ items = texts.map .string := by
  induction items generalizing texts with
  | nil => cases texts <;> simp [pure, Except.pure]
  | cons v items ih =>
    rw [List.mapM_cons]
    cases hv : v.asString with
    | error f =>
      have hne : ∀ s, v ≠ .string s := fun s h => by simp [asString_eq_ok_iff.mpr h] at hv
      cases texts <;> simp [bind, Except.bind, hne]
    | ok s =>
      obtain rfl := asString_eq_ok_iff.mp hv
      cases hitems : items.mapM asString with
      | error f =>
        have hne : ∀ ss : List String, items ≠ ss.map .string := fun ss h => by
          simp [ih.mpr h] at hitems
        cases texts <;> simp [bind, Except.bind, hne]
      | ok ss =>
        obtain rfl := ih.mp hitems
        cases texts <;> simp [bind, Except.bind, pure, Except.pure, map_string_injective.eq_iff]

theorem asStrings_eq_ok_iff {v : Json} {texts : List String} :
    v.asStrings = .ok texts ↔ v = .array (texts.map .string) none := by
  cases v with
  | array items ending =>
    cases h : items.mapM asString with
    | error f =>
      have hne : items ≠ texts.map .string := fun hi => by simp [mapM_asString_eq_ok_iff.mpr hi] at h
      simp [asStrings, h, hne]
    | ok ss =>
      obtain rfl := mapM_asString_eq_ok_iff.mp h
      cases ending <;> simp [asStrings, h, ended, map_string_injective.eq_iff]
  | _ => simp [asStrings]

theorem asVariant_eq_ok_iff {α : Type} {names : List String} {ofName? : String → Option α} {v : Json}
    {x : α} : v.asVariant names ofName? = .ok x ↔
      ∃ word, ofName? word = some x ∧ (v = .string word ∨ v = .object [(word, .null)] none) := by
  cases v with
  | string word =>
    cases h : ofName? word with
    | none => simp [asVariant, h]
    | some y => simp [asVariant, h]
  | object entries ending =>
    rcases entries with - | ⟨⟨word, v⟩, more⟩
    · rcases ending with - | f
      · simp [asVariant]
      · cases f <;> simp [asVariant]
    · cases h : ofName? word with
      | none => simp [asVariant, h]
      | some y =>
        cases v with
        | null =>
          rcases more with - | ⟨e, more⟩
          · rcases ending with - | f
            · simp [asVariant, h]
            · cases f <;> simp [asVariant, h]
          · simp [asVariant, h]
        | _ => simp [asVariant, h]
  | _ => simp [asVariant]

end Json

theorem StrategyKind.ofName?_eq_some_iff {word : String} {kind : StrategyKind} :
    ofName? word = some kind ↔ word = kind.name := by
  cases kind <;> simp only [ofName?, name] <;> split_ifs <;> simp_all

theorem ConflictPolicy.ofName?_eq_some_iff {word : String} {policy : ConflictPolicy} :
    ofName? word = some policy ↔ word = policy.name := by
  cases policy <;> simp only [ofName?, name] <;> split_ifs <;> simp_all

theorem StrategyKind.ofName?_name (kind : StrategyKind) : ofName? kind.name = some kind :=
  ofName?_eq_some_iff.mpr rfl

theorem ConflictPolicy.ofName?_name (policy : ConflictPolicy) : ofName? policy.name = some policy :=
  ofName?_eq_some_iff.mpr rfl

namespace Options

theorem map_eq_ok_iff {α β ε : Type} {f : α → β} {e : Except ε α} {b : β} :
    e.map f = .ok b ↔ ∃ a, e = .ok a ∧ b = f a := by
  cases e <;> simp [Except.map, eq_comm]

theorem set_of_states (o : Options) {v : Json} {x : OptionValue} (h : v.States x) :
    o.set x.field v = .ok (o.put x) := by
  cases h with
  | strategy kind =>
    exact map_eq_ok_iff.mpr
      ⟨kind, Json.asVariant_eq_ok_iff.mpr ⟨_, kind.ofName?_name, .inl rfl⟩, rfl⟩
  | strategyKey kind =>
    exact map_eq_ok_iff.mpr
      ⟨kind, Json.asVariant_eq_ok_iff.mpr ⟨_, kind.ofName?_name, .inr rfl⟩, rfl⟩
  | appendMethods methods => exact map_eq_ok_iff.mpr ⟨_, Json.asStrings_eq_ok_iff.mpr rfl, rfl⟩
  | conflictPolicy policy =>
    exact map_eq_ok_iff.mpr
      ⟨policy, Json.asVariant_eq_ok_iff.mpr ⟨_, policy.ofName?_name, .inl rfl⟩, rfl⟩
  | conflictPolicyKey policy =>
    exact map_eq_ok_iff.mpr
      ⟨policy, Json.asVariant_eq_ok_iff.mpr ⟨_, policy.ofName?_name, .inr rfl⟩, rfl⟩
  | maxDepth depth => rfl
  | fileName name => rfl

theorem states_of_set {o p : Options} {f : OptionField} {v : Json} (h : o.set f v = .ok p) :
    ∃ x : OptionValue, v.States x ∧ x.field = f ∧ p = o.put x := by
  cases f with
  | strategy =>
    obtain ⟨kind, hv, rfl⟩ := map_eq_ok_iff.mp h
    obtain ⟨word, hword, rfl | rfl⟩ := Json.asVariant_eq_ok_iff.mp hv
    all_goals obtain rfl := StrategyKind.ofName?_eq_some_iff.mp hword
    · exact ⟨_, .strategy kind, rfl, rfl⟩
    · exact ⟨_, .strategyKey kind, rfl, rfl⟩
  | appendMethods =>
    obtain ⟨methods, hv, rfl⟩ := map_eq_ok_iff.mp h
    obtain rfl := Json.asStrings_eq_ok_iff.mp hv
    exact ⟨_, .appendMethods methods, rfl, rfl⟩
  | conflictPolicy =>
    obtain ⟨policy, hv, rfl⟩ := map_eq_ok_iff.mp h
    obtain ⟨word, hword, rfl | rfl⟩ := Json.asVariant_eq_ok_iff.mp hv
    all_goals obtain rfl := ConflictPolicy.ofName?_eq_some_iff.mp hword
    · exact ⟨_, .conflictPolicy policy, rfl, rfl⟩
    · exact ⟨_, .conflictPolicyKey policy, rfl, rfl⟩
  | maxDepth =>
    obtain ⟨depth, hv, rfl⟩ := map_eq_ok_iff.mp h
    obtain rfl := Json.asNatural_eq_ok_iff.mp hv
    exact ⟨_, .maxDepth depth, rfl, rfl⟩
  | fileName =>
    obtain ⟨name, hv, rfl⟩ := map_eq_ok_iff.mp h
    obtain rfl := Json.asString_eq_ok_iff.mp hv
    exact ⟨_, .fileName name, rfl, rfl⟩

/-! Objects. -/

/-- An entry states what an option is. -/
def EntryStates (e : String × Json) (x : OptionValue) : Prop := e.1 = x.field.name ∧ e.2.States x

/-- An object gives options just when each of its entries states one of its own. -/
theorem setEntries_eq_ok_iff {entries : List (String × Json)} {o p : Options}
    {given : List OptionField} : o.setEntries given entries = .ok p ↔
      ∃ xs : List OptionValue, List.Forall₂ EntryStates entries xs ∧
        (xs.map OptionValue.field).Nodup ∧ (∀ x ∈ xs, x.field ∉ given) ∧ p = xs.foldl put o := by
  induction entries generalizing o given with
  | nil =>
    simp only [setEntries, Except.ok.injEq, List.forall₂_nil_left_iff]
    constructor
    · rintro rfl
      exact ⟨[], rfl, by simp⟩
    · rintro ⟨xs, rfl, -, -, rfl⟩
      rfl
  | cons e entries ih =>
    obtain ⟨key, v⟩ := e
    constructor
    · intro h
      simp only [setEntries] at h
      split at h
      case h_1 => cases h
      case h_2 f hf =>
        obtain rfl := OptionField.name_of_ofName? hf
        split_ifs at h with hgiven
        split at h
        case h_2 => cases h
        case h_1 q hq =>
          obtain ⟨x, hx, rfl, rfl⟩ := states_of_set hq
          obtain ⟨xs, hxs, hnodup, hnew, rfl⟩ := ih.mp h
          refine ⟨x :: xs, .cons ⟨rfl, hx⟩ hxs, ?_, ?_, rfl⟩
          · refine List.nodup_cons.mpr ⟨fun hmem => ?_, hnodup⟩
            obtain ⟨y, hy, hyx⟩ := List.mem_map.mp hmem
            exact hnew y hy (by simp [hyx])
          · rintro y hy
            rcases List.mem_cons.mp hy with rfl | hy
            · exact hgiven
            · exact fun hmem => hnew y hy (List.mem_cons_of_mem _ hmem)
    · rintro ⟨_, hxs, hnodup, hnew, rfl⟩
      obtain ⟨x, xs, ⟨hkey, hx⟩, htail, rfl⟩ := List.forall₂_cons_left_iff.mp hxs
      obtain rfl : key = x.field.name := hkey
      rw [List.map_cons, List.nodup_cons] at hnodup
      have hgiven := hnew x List.mem_cons_self
      have hrest : ∀ y ∈ xs, y.field ∉ x.field :: given := by
        intro y hy hmem
        rcases List.mem_cons.mp hmem with heq | hmem
        · exact hnodup.1 (heq ▸ List.mem_map_of_mem hy)
        · exact hnew y (List.mem_cons_of_mem _ hy) hmem
      have hset := set_of_states o hx
      simp only [setEntries, OptionField.ofName?_name, if_neg hgiven, hset]
      exact ih.mpr ⟨xs, htail, hnodup.2, hrest, rfl⟩

theorem states_unique {v : Json} {x y : OptionValue} (hx : v.States x) (hy : v.States y)
    (hfield : x.field = y.field) : x = y := by
  have h := set_of_states default hx
  rw [hfield, set_of_states default hy, Except.ok.injEq] at h
  have hget := get_put_field default x
  rw [← h, hfield, get_put_field] at hget
  exact hget.symm

theorem map_fst_of_states {entries : List (String × Json)} {xs : List OptionValue}
    (h : List.Forall₂ EntryStates entries xs) :
    entries.map Prod.fst = (xs.map OptionValue.field).map OptionField.name := by
  induction h with
  | nil => rfl
  | cons hx _ ih => rw [List.map_cons, hx.1, ih, List.map_cons, List.map_cons]

theorem nodup_keys_iff {entries : List (String × Json)} {xs : List OptionValue}
    (h : List.Forall₂ EntryStates entries xs) :
    (entries.map Prod.fst).Nodup ↔ (xs.map OptionValue.field).Nodup := by
  rw [map_fst_of_states h]
  exact List.nodup_map_iff fun _ _ => OptionField.name_injective

theorem exists_states_of_mem {entries : List (String × Json)} {xs : List OptionValue}
    (h : List.Forall₂ EntryStates entries xs) {e : String × Json} (he : e ∈ entries) :
    ∃ x ∈ xs, EntryStates e x := by
  induction h with
  | nil => cases he
  | @cons d x entries xs hd _ ih =>
    rcases List.mem_cons.mp he with rfl | he
    · exact ⟨x, List.mem_cons_self, hd⟩
    · obtain ⟨y, hy, hstates⟩ := ih he
      exact ⟨y, List.mem_cons_of_mem x hy, hstates⟩

theorem exists_forall₂_states {entries : List (String × Json)}
    (h : ∀ e ∈ entries, ∃ x, EntryStates e x) : ∃ xs, List.Forall₂ EntryStates entries xs := by
  induction entries with
  | nil => exact ⟨[], .nil⟩
  | cons e entries ih =>
    obtain ⟨x, hx⟩ := h e List.mem_cons_self
    obtain ⟨xs, hxs⟩ := ih fun d hd => h d (List.mem_cons_of_mem e hd)
    exact ⟨x :: xs, .cons hx hxs⟩

/-- The options are what the entries state, and the defaults otherwise. -/
def Given (o : Options) (entries : List (String × Json)) : Prop :=
  ∀ f : OptionField, (∀ v, (f.name, v) ∈ entries → v.States (o.get f)) ∧
    (f.name ∉ entries.map Prod.fst → o.get f = Options.default.get f)

theorem exists_given {entries : List (String × Json)} (hnodup : (entries.map Prod.fst).Nodup)
    (hstates : ∀ e ∈ entries, ∃ x, EntryStates e x) :
    ∃ o, o.Given entries ∧ setEntries {} [] entries = .ok o := by
  obtain ⟨xs, hxs⟩ := exists_forall₂_states hstates
  have hfields := (nodup_keys_iff hxs).mp hnodup
  refine ⟨xs.foldl put {}, ?_, setEntries_eq_ok_iff.mpr ⟨xs, hxs, hfields, by simp, rfl⟩⟩
  intro f
  constructor
  · intro v hv
    obtain ⟨x, hx, hkey, hvx⟩ := exists_states_of_mem hxs hv
    obtain rfl := OptionField.name_injective hkey
    rwa [get_foldl_put_of_mem hfields hx]
  · intro hf
    apply get_foldl_put_of_notMem
    rw [map_fst_of_states hxs] at hf
    exact fun hmem => hf (List.mem_map_of_mem hmem)

theorem Given.get_eq {o : Options} {entries : List (String × Json)} (h : o.Given entries)
    {f : OptionField} {v : Json} {x : OptionValue} (hv : (f.name, v) ∈ entries) (hx : v.States x)
    (hfield : x.field = f) : o.get f = x :=
  states_unique ((h f).1 v hv) hx (by rw [field_get, hfield])

/-- Neither the order of entries nor entries that state defaults make a difference. -/
theorem Given.unique {o p : Options} {entries added entries' : List (String × Json)}
    (ho : o.Given entries) (hp : p.Given entries') (hperm : entries'.Perm (entries ++ added))
    (hadded : ∀ e ∈ added, ∃ f, EntryStates e (Options.default.get f)) : o = p := by
  apply eq_of_get
  intro f
  by_cases hf : f.name ∈ entries.map Prod.fst
  · obtain ⟨⟨_, v⟩, hv, rfl⟩ := List.mem_map.mp hf
    have hv' := hperm.mem_iff.mpr (List.mem_append_left added hv)
    exact (hp.get_eq hv' ((ho f).1 v hv) (field_get o f)).symm
  · rw [(ho f).2 hf]
    by_cases hmem : f.name ∈ added.map Prod.fst
    · obtain ⟨⟨_, v⟩, hv, rfl⟩ := List.mem_map.mp hmem
      obtain ⟨g, hkey, hstates⟩ := hadded _ hv
      have hv' := hperm.mem_iff.mpr (List.mem_append_right entries hv)
      rw [field_get] at hkey
      obtain rfl := OptionField.name_injective hkey
      exact (hp.get_eq hv' hstates (field_get Options.default f)).symm
    · have hnone : f.name ∉ entries'.map Prod.fst := by
        rw [(hperm.map Prod.fst).mem_iff, List.map_append, List.mem_append, not_or]
        exact ⟨hf, hmem⟩
      exact ((hp f).2 hnone).symm

/-! Texts. -/

theorem parse_of_read {text : String} {v : Json} {trailing : Option JsonFault}
    (h : Json.read text = (v, trailing)) : parse text = ofValue v trailing := by
  rw [parse, h]

theorem plain_toJson {o : Options} (h : o.maxDepth ≤ Json.largest) : o.toJson.Plain := by
  apply Json.Plain.object
  intro e he
  obtain ⟨f, -, rfl⟩ := List.mem_map.mp he
  cases f with
  | strategy => exact .string _
  | appendMethods =>
    apply Json.Plain.array
    intro v hv
    obtain ⟨s, -, rfl⟩ := List.mem_map.mp hv
    exact .string s
  | conflictPolicy => exact .string _
  | maxDepth => exact .natural h
  | fileName => exact .string _

theorem given_toJson (o : Options) :
    o.Given (OptionField.all.map fun f => (f.name, (o.get f).toJson)) := by
  intro f
  constructor
  · intro v hv
    obtain ⟨g, -, hg⟩ := List.mem_map.mp hv
    obtain ⟨hname, rfl⟩ := Prod.mk.inj hg
    obtain rfl := OptionField.name_injective hname
    exact (o.get g).states_toJson
  · intro hf
    rw [List.map_map] at hf
    exact absurd (List.mem_map_of_mem f.mem_all) hf

theorem ofValue_of_setEntries {entries : List (String × Json)} {o : Options}
    (h : setEntries {} [] entries = .ok o) : ofValue (.object entries none) none = o.check := by
  simp [ofValue, ofJson, h, Json.ended]

theorem ofValue_toJson (o : Options) : ofValue o.toJson none = o.check := by
  have hkeys : ((OptionField.all.map fun f => (f.name, (o.get f).toJson)).map Prod.fst).Nodup := by
    rw [List.map_map]
    exact List.Nodup.map (fun _ _ => OptionField.name_injective) (by decide)
  have hstates : ∀ e ∈ OptionField.all.map fun f => (f.name, (o.get f).toJson),
      ∃ x, EntryStates e x := by
    intro e he
    obtain ⟨f, -, rfl⟩ := List.mem_map.mp he
    exact ⟨o.get f, by rw [field_get], (o.get f).states_toJson⟩
  obtain ⟨p, hp, hset⟩ := exists_given hkeys hstates
  obtain rfl := hp.unique o.given_toJson (by rw [List.append_nil]) (List.forall_mem_nil _)
  exact ofValue_of_setEntries hset

theorem check_eq_ok {o : Options} (hdepth : 1 ≤ o.maxDepth)
    (hmethods : ∀ m ∈ o.appendMethods, isWhiteText m = false) : o.check = .ok o := by
  have hnone : o.appendMethods.find? isWhiteText = none := by simpa using hmethods
  have hzero : o.maxDepth ≠ 0 := Nat.ne_of_gt hdepth
  simp [check, hzero, hnone]

theorem exists_check_eq_error {o : Options}
    (h : o.maxDepth = 0 ∨ ∃ m ∈ o.appendMethods, isWhiteText m = true) :
    ∃ cause, o.check = .error (.config cause) := by
  by_cases hzero : o.maxDepth = 0
  · exact ⟨.zeroDepth, by simp [check, hzero]⟩
  · have hsome : (o.appendMethods.find? isWhiteText).isSome := by
      simpa [hzero] using h
    obtain ⟨m, hm⟩ := Option.isSome_iff_exists.mp hsome
    exact ⟨.blankMethod m, by simp [check, hzero, hm]⟩

theorem exists_ofValue_eq_error {entries : List (String × Json)} (ending trailing : Option JsonFault)
    (h : (∃ e ∈ entries, e.1 ∉ OptionField.all.map OptionField.name) ∨
      ¬ (entries.map Prod.fst).Nodup) :
    ∃ fault, ofValue (.object entries ending) trailing = .error (.json fault) := by
  cases hset : setEntries {} [] entries with
  | error fault => exact ⟨fault, by simp [ofValue, ofJson, hset]⟩
  | ok o =>
    obtain ⟨xs, hxs, hfields, -⟩ := setEntries_eq_ok_iff.mp hset
    rcases h with ⟨e, he, hkey⟩ | hkeys
    · obtain ⟨x, -, hname, -⟩ := exists_states_of_mem hxs he
      rw [hname] at hkey
      exact absurd (List.mem_map_of_mem x.field.mem_all) hkey
    · exact absurd ((nodup_keys_iff hxs).mpr hfields) hkeys

/-- Options are read back from their text, however it is laid out, unless they fail the check. An
object that names options once each gives what it states and the defaults otherwise, whatever the
order of its entries and however many defaults it states as well; an unknown or a repeated name is a
fault of the text before the options are checked. -/
theorem parse_stated :
    (∀ (L : Json.Layout) (o : Options), o.maxDepth ≤ Json.largest →
      (1 ≤ o.maxDepth → (∀ m ∈ o.appendMethods, isWhiteText m = false) →
        parse (L.write o.toJson) = .ok o) ∧
      (o.maxDepth = 0 ∨ (∃ m ∈ o.appendMethods, isWhiteText m = true) →
        ∃ cause, parse (L.write o.toJson) = .error (.config cause))) ∧
    (∀ (text : String) (entries : List (String × Json)),
      Json.read text = (.object entries none, none) → (entries.map Prod.fst).Nodup →
      (∀ e ∈ entries, ∃ x, EntryStates e x) →
      (∃ o : Options, o.Given entries ∧ parse text = o.check) ∧
      ∀ (text' : String) (entries' added : List (String × Json)),
        Json.read text' = (.object entries' none, none) → (entries'.map Prod.fst).Nodup →
        (∀ e ∈ added, ∃ f, EntryStates e (Options.default.get f)) → entries'.Perm (entries ++ added) →
        parse text' = parse text) ∧
    ∀ (text : String) (entries : List (String × Json)) (ending trailing : Option JsonFault),
      Json.read text = (.object entries ending, trailing) →
      ((∃ e ∈ entries, e.1 ∉ OptionField.all.map OptionField.name) ∨
        ¬ (entries.map Prod.fst).Nodup) →
      ∃ fault, parse text = .error (.json fault) := by
  refine ⟨?_, ?_, ?_⟩
  · intro L o hlargest
    have hparse : parse (L.write o.toJson) = o.check := by
      rw [parse_of_read (Json.read_write L (plain_toJson hlargest)), ofValue_toJson]
    rw [hparse]
    exact ⟨check_eq_ok, exists_check_eq_error⟩
  · intro text entries hread hkeys hstates
    obtain ⟨o, ho, hset⟩ := exists_given hkeys hstates
    have hparse : parse text = o.check := by
      rw [parse_of_read hread, ofValue_of_setEntries hset]
    refine ⟨⟨o, ho, hparse⟩, ?_⟩
    intro text' entries' added hread' hkeys' hadded hperm
    have hstates' : ∀ e ∈ entries', ∃ x, EntryStates e x := by
      intro e he
      rcases List.mem_append.mp (hperm.mem_iff.mp he) with he | he
      · exact hstates e he
      · obtain ⟨f, hf⟩ := hadded e he
        exact ⟨_, hf⟩
    obtain ⟨p, hp, hset'⟩ := exists_given hkeys' hstates'
    obtain rfl := ho.unique hp hperm hadded
    rw [hparse, parse_of_read hread', ofValue_of_setEntries hset']
  · intro text entries ending trailing hread h
    rw [parse_of_read hread]
    exact exists_ofValue_eq_error ending trailing h

theorem parse_stated_in_two_orders :
    let depth := ("max_depth", Json.number (.natural 0))
    let name := ("file_name", Json.string "a.ts")
    let strategy := ("strategy", Json.object [("refined", .null)] none)
    parse (Json.Layout.lines.write Options.default.toJson) = .ok Options.default ∧
      (∃ cause, parse (Json.Layout.compact.write { maxDepth := 0 : Options }.toJson)
        = .error (.config cause)) ∧
      parse (Json.Layout.lines.write (.object [name, strategy, depth] none))
        = parse (Json.Layout.compact.write (.object [depth, name] none)) ∧
      ∃ fault, parse (Json.Layout.compact.write (.object [depth, depth] none))
        = .error (.json fault) := by
  intro depth name strategy
  have hdepth : depth.2.Plain := .natural (by decide)
  have hname : name.2.Plain := .string "a.ts"
  have hstrategy : strategy.2.Plain := .object (by simpa using .null)
  obtain ⟨hwhole, hobject, hfault⟩ := parse_stated
  refine ⟨(hwhole .lines Options.default (by decide)).1 (by decide) (by decide),
    (hwhole .compact { maxDepth := 0 } (by decide)).2 (.inl rfl), ?_, ?_⟩
  · have hplain : (Json.object [depth, name] none).Plain := .object (by simpa using ⟨hdepth, hname⟩)
    have hplain' : (Json.object [name, strategy, depth] none).Plain :=
      .object (by simpa using ⟨hname, hstrategy, hdepth⟩)
    have hread := Json.read_write .compact hplain
    have hread' := Json.read_write .lines hplain'
    have hstates : ∀ e ∈ [depth, name], ∃ x, EntryStates e x := by
      simpa using ⟨⟨.maxDepth 0, rfl, .maxDepth 0⟩, ⟨.fileName "a.ts", rfl, .fileName "a.ts"⟩⟩
    have hadded : ∀ e ∈ [strategy], ∃ f, EntryStates e (Options.default.get f) := by
      simpa using ⟨.strategy, rfl, .strategyKey .refined⟩
    have hperm : [name, strategy, depth].Perm ([depth, name] ++ [strategy]) :=
      List.perm_append_singleton depth [name, strategy]
    exact (hobject _ _ hread (by decide) hstates).2 _ _ _ hread' (by decide) hadded hperm
  · have hplain : (Json.object [depth, depth] none).Plain := .object (by simpa using hdepth)
    exact hfault _ _ none none (Json.read_write .compact hplain) (.inr (by decide))

end Options

end UsageTypes
