import UsageTypes.Access
import UsageTypes.Proofs.DocumentOrder

/-! Access chains, link by link from the name outwards. A chain is followed exactly if its links are
accesses to a field that is written out, and if it has no more of them than the limit. -/

namespace UsageTypes

namespace Tree

/-- The expressions that reach a path from a name. -/
inductive Reaches (name : String) : Tree → Path → Prop
  | name {t : Tree} (hkind : t.is .identifier = true) (htext : t.text = name) : Reaches name t []
  | member {t property object : Tree} {path : Path} (hkind : t.is .memberExpression = true)
    (hproperty : t.child? .property = some property)
    (hplain : property.is .propertyIdentifier = true)
    (hobject : t.child? .object = some object) (h : Reaches name object path) :
    Reaches name t (path.child property.text)
  | subscript {t index object : Tree} {path : Path} {field : String}
    (hkind : t.is .subscriptExpression = true) (hindex : t.child? .index = some index)
    (hliteral : index.is .stringLiteral = true) (hfield : unquote? index.text = some field)
    (hobject : t.child? .object = some object) (h : Reaches name object path) :
    Reaches name t (path.child field)
  | wrapped {t inner : Tree} {path : Path}
    (hkind : t.is .parenthesizedExpression = true ∨ t.is .nonNullExpression = true)
    (hinner : t.named.head? = some inner) (h : Reaches name inner path) : Reaches name t path

/-- What an access or a wrapper is built on, whatever the access names. -/
inductive BuiltOn : Tree → Tree → Prop
  | object {t c : Tree} (hkind : t.is .memberExpression = true ∨ t.is .subscriptExpression = true)
    (hobject : t.child? .object = some c) : BuiltOn t c
  | inner {t c : Tree} (hkind : t.is .parenthesizedExpression = true ∨ t.is .nonNullExpression = true)
    (hinner : t.named.head? = some c) : BuiltOn t c

/-- Accesses to a field that is not written out: by a private name, or by an index that is computed. -/
def isOpaqueAccess (t : Tree) : Bool :=
  (t.is .memberExpression && !(t.child? .property).any (·.is .propertyIdentifier))
    || (t.is .subscriptExpression && !(t.child? .index).any (·.is .stringLiteral))

section Chains

variable {name : String} {t c : Tree} {path : Path}

theorem Reaches.of_builtOn (h : t.Reaches name path) (hc : t.BuiltOn c) : ∃ path', c.Reaches name path' := by
  cases hc with
  | object hkind hobject =>
    cases h with
    | name hk _ => rcases hkind with hkind | hkind <;> simp_all [Tree.is]
    | member _ _ _ hobject' h | subscript _ _ _ _ hobject' h =>
      obtain rfl := Option.some.inj (hobject.symm.trans hobject')
      exact ⟨_, h⟩
    | wrapped hk _ _ => rcases hkind with hkind | hkind <;> rcases hk with hk | hk <;> simp_all [Tree.is]
  | inner hkind hinner =>
    cases h with
    | name hk _ | member hk _ _ _ _ | subscript hk _ _ _ _ _ =>
      rcases hkind with hkind | hkind <;> simp_all [Tree.is]
    | wrapped _ hinner' h =>
      obtain rfl := Option.some.inj (hinner.symm.trans hinner')
      exact ⟨_, h⟩

theorem Reaches.not_isOpaqueAccess (h : t.Reaches name path) : t.isOpaqueAccess = false := by
  cases h with
  | name hk _ => simp_all [isOpaqueAccess, Tree.is]
  | member hk hproperty hplain _ _ => simp_all [isOpaqueAccess, Tree.is]
  | subscript hk hindex hliteral _ _ _ => simp_all [isOpaqueAccess, Tree.is]
  | wrapped hk _ _ => rcases hk with hk | hk <;> simp_all [isOpaqueAccess, Tree.is]

/-- No chain is built on an access to a field that is not written out. -/
theorem Reaches.not_opaque_below (h : t.Reaches name path) (hc : Relation.ReflTransGen BuiltOn t c) :
    c.isOpaqueAccess = false := by
  induction hc using Relation.ReflTransGen.head_induction_on generalizing path with
  | refl => exact h.not_isOpaqueAccess
  | head hstep _ ih =>
    obtain ⟨path', h'⟩ := h.of_builtOn hstep
    exact ih h'

end Chains

section Links

variable {name : String} {t : Tree} {path : Path}

theorem segment?_eq_some_iff {k : Kind} {cs : List Tree} {s : String} : segment? k cs = some s ↔
    (k = .memberExpression ∧ ∃ property, cs.find? (·.label? = some .property) = some property ∧
      property.is .propertyIdentifier = true ∧ property.text = s) ∨
    (k = .subscriptExpression ∧ ∃ index, cs.find? (·.label? = some .index) = some index ∧
      index.is .stringLiteral = true ∧ unquote? index.text = some s) := by
  rw [segment?]
  by_cases hmember : k = .memberExpression
  · rw [if_pos hmember]
    cases cs.find? (·.label? = some .property) <;> simp [hmember]
  · rw [if_neg hmember]
    by_cases hsubscript : k = .subscriptExpression
    · rw [if_pos hsubscript]
      cases cs.find? (·.label? = some .index) <;> simp [hsubscript]
    · simp [hmember, hsubscript]

theorem link?_of_isWrapper {k : Kind} (hk : t.kind? = some k) (hw : isWrapper k = true) :
    t.link? = t.named.head?.map (none, ·) := by
  rw [link?, hk]
  exact if_pos hw

theorem link?_of_segment? {k : Kind} {s : String} (hk : t.kind? = some k)
    (hs : segment? k t.children = some s) : t.link? = (t.child? .object).map (some s, ·) := by
  have hw : ¬isWrapper k = true := by
    rcases segment?_eq_some_iff.mp hs with ⟨rfl, -⟩ | ⟨rfl, -⟩ <;> decide
  rw [link?, hk]
  dsimp only
  rw [if_neg hw, hs]

/-- A link is a wrapper, and adds nothing, or an access. -/
theorem link?_cases {segment : Option String} {inner : Tree} (h : t.link? = some (segment, inner)) :
    ∃ k, t.kind? = some k ∧
      ((isWrapper k = true ∧ t.named.head? = some inner ∧ segment = none) ∨
        ∃ s, segment? k t.children = some s ∧ t.child? .object = some inner ∧ segment = some s) := by
  rw [link?] at h
  split at h
  · cases h
  · rename_i k hk
    refine ⟨k, hk, ?_⟩
    split at h
    · obtain ⟨u, hu, he⟩ := Option.map_eq_some_iff.mp h
      obtain ⟨rfl, rfl⟩ := Prod.mk.inj he
      exact .inl ⟨‹_›, hu, rfl⟩
    · split at h
      · obtain ⟨u, hu, he⟩ := Option.map_eq_some_iff.mp h
        obtain ⟨rfl, rfl⟩ := Prod.mk.inj he
        exact .inr ⟨_, ‹_›, hu, rfl⟩
      · cases h

theorem link?_of_is_identifier (h : t.is .identifier = true) : t.link? = none := by
  cases hlink : t.link? with
  | none => rfl
  | some found =>
    obtain ⟨k, hk, hcases⟩ := link?_cases hlink
    obtain rfl : k = .identifier := Option.some.inj (hk.symm.trans (of_decide_eq_true h))
    rcases hcases with ⟨hw, -⟩ | ⟨s, hs, -⟩
    · cases hw
    · cases hs

/-- What is built on an expression that is reached is reached, with the segment of the link behind. -/
theorem Reaches.of_link? {segment : Option String} {inner : Tree} (hlink : t.link? = some (segment, inner))
    (h : inner.Reaches name path) : t.Reaches name (path ++ segment.toList) := by
  obtain ⟨k, hk, ⟨hw, hinner, rfl⟩ | ⟨s, hs, hobject, rfl⟩⟩ := link?_cases hlink
  · rw [Option.toList_none, List.append_nil]
    refine .wrapped ?_ hinner h
    have hkind : k = .parenthesizedExpression ∨ k = .nonNullExpression := by
      simpa [isWrapper] using hw
    rcases hkind with rfl | rfl
    · exact .inl (decide_eq_true hk)
    · exact .inr (decide_eq_true hk)
  · rcases segment?_eq_some_iff.mp hs with
      ⟨rfl, property, hproperty, hplain, rfl⟩ | ⟨rfl, index, hindex, hliteral, hfield⟩
    · exact .member (decide_eq_true hk) hproperty hplain hobject h
    · exact .subscript (decide_eq_true hk) hindex hliteral hfield hobject h

/-- An expression that is reached is the name, or it is built by a link on one that is reached. -/
theorem Reaches.cases_link? (h : t.Reaches name path) :
    (t.is .identifier = true ∧ t.text = name ∧ path = []) ∨
      ∃ segment inner path', t.link? = some (segment, inner) ∧ inner.Reaches name path' ∧
        path = path' ++ segment.toList := by
  cases h with
  | name hkind htext => exact .inl ⟨hkind, htext, rfl⟩
  | @member _ property object path' hkind hproperty hplain hobject h =>
    have hs : segment? .memberExpression t.children = some property.text :=
      segment?_eq_some_iff.mpr (.inl ⟨rfl, property, hproperty, hplain, rfl⟩)
    refine .inr ⟨some property.text, object, path', ?_, h, rfl⟩
    rw [link?_of_segment? (of_decide_eq_true hkind) hs, hobject]
    rfl
  | @subscript _ index object path' field hkind hindex hliteral hfield hobject h =>
    have hs : segment? .subscriptExpression t.children = some field :=
      segment?_eq_some_iff.mpr (.inr ⟨rfl, index, hindex, hliteral, hfield⟩)
    refine .inr ⟨some field, object, path', ?_, h, rfl⟩
    rw [link?_of_segment? (of_decide_eq_true hkind) hs, hobject]
    rfl
  | @wrapped _ inner _ hkind hinner h =>
    obtain ⟨k, hk, hw⟩ : ∃ k, t.kind? = some k ∧ isWrapper k = true := by
      rcases hkind with hkind | hkind
      · exact ⟨_, of_decide_eq_true hkind, rfl⟩
      · exact ⟨_, of_decide_eq_true hkind, rfl⟩
    refine .inr ⟨none, inner, path, ?_, h, (List.append_nil _).symm⟩
    rw [link?_of_isWrapper hk hw, hinner]
    rfl

theorem reaches_iff_of_is_identifier (h : t.is .identifier = true) :
    t.Reaches name path ↔ t.text = name ∧ path = [] := by
  constructor
  · intro hreaches
    rcases hreaches.cases_link? with ⟨-, htext, hnil⟩ | ⟨_, _, _, hlink, -⟩
    · exact ⟨htext, hnil⟩
    · rw [link?_of_is_identifier h] at hlink
      cases hlink
  · rintro ⟨htext, rfl⟩
    exact .name h htext

theorem reaches_iff_of_link? {segment : Option String} {inner : Tree} (h : t.link? = some (segment, inner)) :
    t.Reaches name path ↔ ∃ path', inner.Reaches name path' ∧ path = path' ++ segment.toList := by
  constructor
  · intro hreaches
    rcases hreaches.cases_link? with ⟨hid, -⟩ | ⟨_, _, path', hlink, hinner, rfl⟩
    · rw [link?_of_is_identifier hid] at h
      cases h
    · obtain ⟨rfl, rfl⟩ := Prod.mk.inj (Option.some.inj (h.symm.trans hlink))
      exact ⟨path', hinner, rfl⟩
  · rintro ⟨path', hinner, rfl⟩
    exact hinner.of_link? h

theorem not_reaches (hid : ¬t.is .identifier = true) (h : t.link? = none) : ¬t.Reaches name path := by
  intro hreaches
  rcases hreaches.cases_link? with ⟨hname, -⟩ | ⟨_, _, _, hlink, -⟩
  · exact hid hname
  · rw [h] at hlink
    cases hlink

end Links

end Tree

section Following

variable {name : String} {limit : Nat} {segments : List String} {t : Tree} {path : Path}

/-- The segments passed so far stand behind what is still to be reached. The limit was kept by them, so
that it is kept in the end exactly if no later link breaks it. -/
theorem follow_eq_reached_iff (hlimit : segments.length ≤ limit) :
    follow name limit segments t = .reached path ↔
      ∃ path', t.Reaches name path' ∧ path = path' ++ segments.reverse ∧ path.length ≤ limit := by
  induction segments, t using follow.induct name limit with
  | case1 segments t hid htext =>
    rw [follow_of_is_identifier hid, if_pos htext, Trail.reached.injEq]
    constructor
    · rintro rfl
      exact ⟨[], .name hid htext, rfl, by rwa [List.length_reverse]⟩
    · rintro ⟨path', hreaches, rfl, -⟩
      rw [((Tree.reaches_iff_of_is_identifier hid).mp hreaches).2]
      rfl
  | case2 segments t hid htext =>
    rw [follow_of_is_identifier hid, if_neg htext]
    constructor
    · intro h
      cases h
    · rintro ⟨path', hreaches, -⟩
      exact absurd ((Tree.reaches_iff_of_is_identifier hid).mp hreaches).1 htext
  | case3 segments t hid hlink =>
    rw [follow_of_no_link hid hlink]
    constructor
    · intro h
      cases h
    · rintro ⟨path', hreaches, -⟩
      exact absurd hreaches (Tree.not_reaches hid hlink)
  | case4 segments t hid segment inner hlink hlong =>
    rw [follow_of_link? hid hlink, if_pos hlong]
    constructor
    · intro h
      cases h
    · rintro ⟨path', hreaches, rfl, hlength⟩
      obtain ⟨path', -, rfl⟩ := (Tree.reaches_iff_of_link? hlink).mp hreaches
      simp only [List.length_append, List.length_reverse] at hlong hlength
      omega
  | case5 segments t hid segment inner hlink hshort ih =>
    have hbehind : ∀ path' : Path, path' ++ (segments ++ segment.toList).reverse =
        path' ++ segment.toList ++ segments.reverse := by
      intro path'
      cases segment <;> simp
    rw [follow_of_link? hid hlink, if_neg hshort, ih (Nat.le_of_not_lt hshort)]
    constructor
    · rintro ⟨path', hreaches, rfl, hlength⟩
      exact ⟨_, hreaches.of_link? hlink, hbehind path', hlength⟩
    · rintro ⟨path', hreaches, rfl, hlength⟩
      obtain ⟨path', hinner, rfl⟩ := (Tree.reaches_iff_of_link? hlink).mp hreaches
      exact ⟨path', hinner, (hbehind path').symm, hlength⟩

theorem accessPath_eq_some_iff :
    accessPath name limit t = some path ↔ t.Reaches name path ∧ path.length ≤ limit := by
  have hreached : accessPath name limit t = some path ↔ follow name limit [] t = .reached path := by
    rw [accessPath]
    cases follow name limit [] t <;> simp [Trail.path?]
  rw [hreached, follow_eq_reached_iff (Nat.zero_le _)]
  constructor
  · rintro ⟨path', hreaches, rfl, hlength⟩
    rw [List.reverse_nil, List.append_nil] at hlength ⊢
    exact ⟨hreaches, hlength⟩
  · rintro ⟨hreaches, hlength⟩
    exact ⟨path, hreaches, by rw [List.reverse_nil, List.append_nil], hlength⟩

/-- An expression reaches one path at most. -/
theorem Tree.Reaches.unique {path' : Path} (h : t.Reaches name path) (h' : t.Reaches name path') :
    path = path' := by
  have hpath := accessPath_eq_some_iff.mpr ⟨h, Nat.le_max_left path.length path'.length⟩
  rw [accessPath_eq_some_iff.mpr ⟨h', Nat.le_max_right path.length path'.length⟩] at hpath
  exact (Option.some.inj hpath).symm

end Following

/-- An expression has an access path exactly if it reaches that path from the name and the path has no
more segments than the limit; it has none if an access to a field that is not written out stands anywhere
along the chain. -/
theorem accessPath_eq_some_iff_reaches (name : String) (limit : Nat) (t : Tree) :
    (∀ path, accessPath name limit t = some path ↔ t.Reaches name path ∧ path.length ≤ limit) ∧
      ∀ u, Relation.ReflTransGen Tree.BuiltOn t u → u.isOpaqueAccess = true →
        accessPath name limit t = none := by
  refine ⟨fun path => accessPath_eq_some_iff, fun u hu hopaque =>
    Option.eq_none_iff_forall_ne_some.mpr fun path h => ?_⟩
  rw [(accessPath_eq_some_iff.mp h).1.not_opaque_below hu] at hopaque
  cases hopaque

/-- A chain through all four kinds of links, with two segments, and a chain with a computed index inside. -/
theorem accessPath_eq_some_iff_reaches_mixed :
    let nodes := ((readProgram "(p!.a)['b'];p.a[i].b").getD default).nodes
    let t := (nodes.find? (·.is .subscriptExpression)).getD default
    let u := ((nodes.filter (·.is .memberExpression))[1]?).getD default
    let c := (u.child? .object).getD default
    (t.text = "(p!.a)['b']" ∧ accessPath "p" 2 t = some ["a", "b"] ∧ t.Reaches "p" ["a", "b"] ∧
        accessPath "p" 1 t ≠ some ["a", "b"]) ∧
      u.text = "p.a[i].b" ∧ Relation.ReflTransGen Tree.BuiltOn u c ∧ c.isOpaqueAccess = true ∧
        accessPath "p" 256 u = none := by
  intro nodes t u c
  have hfacts : t.text = "(p!.a)['b']" ∧ accessPath "p" 2 t = some ["a", "b"] ∧ u.text = "p.a[i].b" ∧
      u.is .memberExpression = true ∧ (u.child? .object).isSome = true ∧ c.isOpaqueAccess = true := by
    decide +kernel
  obtain ⟨ht, hpath, hu, hkind, hobject, hopaque⟩ := hfacts
  have hbuilt : Relation.ReflTransGen Tree.BuiltOn u c :=
    .single (.object (.inl hkind) (eq_some_getD hobject))
  have hreaches := (((accessPath_eq_some_iff_reaches "p" 2 t).1 _).mp hpath).1
  refine ⟨⟨ht, hpath, hreaches, fun h => ?_⟩, hu, hbuilt, hopaque, ?_⟩
  · exact absurd (((accessPath_eq_some_iff_reaches "p" 1 t).1 _).mp h).2 (by decide)
  · exact (accessPath_eq_some_iff_reaches "p" 256 u).2 c hbuilt hopaque

end UsageTypes
