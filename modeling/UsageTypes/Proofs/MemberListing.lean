import UsageTypes.Members
import UsageTypes.Proofs.DocumentOrder

/-! Which members a type has, and that a listing of them is exact. Types lead to types: an intersection
to its members, a reference to what its first declaration extends or stands for. A listing follows
references depth first and none of them twice; it misses nothing as long as no walk along different
references is longer than the limit. -/

namespace UsageTypes

open Relation

namespace Ty

mutual

/-- The types that an intersection is made of, nested ones included. -/
def leaves : Ty → List Ty
  | .inter members => leavesAll members
  | t => [t]

def leavesAll : List Ty → List Ty
  | [] => []
  | t :: ts => t.leaves ++ leavesAll ts

end

theorem leavesAll_eq_flatMap (ts : List Ty) : leavesAll ts = ts.flatMap leaves := by
  induction ts with
  | nil => rfl
  | cons t ts ih => rw [leavesAll, ih, List.flatMap_cons]

def fieldNames : Ty → List String
  | .shape fields => fields.map (·.1)
  | _ => []

def reference? : Ty → Option String
  | .named name => some name
  | _ => none

/-- The fields of the shapes that a type is made of. -/
def ownFields (t : Ty) : List String := t.leaves.flatMap fieldNames

def ownReferences (t : Ty) : List String := t.leaves.filterMap reference?

theorem ownFields_inter (members : List Ty) :
    (inter members).ownFields = members.flatMap ownFields := by
  rw [ownFields, leaves, leavesAll_eq_flatMap, List.flatMap_assoc]
  rfl

theorem ownReferences_inter (members : List Ty) :
    (inter members).ownReferences = members.flatMap ownReferences := by
  rw [ownReferences, leaves, leavesAll_eq_flatMap, List.filterMap_flatMap]
  rfl

@[simp] theorem ownFields_shape (fields : List (String × Ty)) :
    (shape fields).ownFields = fields.map (·.1) := by
  simp [ownFields, leaves, fieldNames]

@[simp] theorem ownReferences_named (name : String) : (named name).ownReferences = [name] := rfl

end Ty

namespace Tree

/-- The first interface, type alias or class of a name, in document order. -/
def firstDeclaration? (root : Tree) (name : String) : Option Tree :=
  root.nodes.find? fun d => Program.isTypeDeclaration d && d.declaredName? = some name

theorem firstDeclaration?_eq_find? (root : Tree) (name : String) :
    root.firstDeclaration? name =
      (root.nodes.filter Program.isTypeDeclaration).find? fun d => d.declaredName? = some name := by
  simp [firstDeclaration?, List.find?_filter]

/-- The members that a declaration has by itself: the fields of the shapes that stand in it, and what a
class body declares. -/
def ownMembers (d : Tree) : List String :=
  (inherited d).flatMap (fun u => (resolveType u).ownFields)
    ++ if d.is .classDeclaration then classMembers d else []

/-- What a type takes members from: an intersection from its members, a reference from the types of
its first declaration. -/
inductive Inherits (root : Tree) : Ty → Ty → Prop
  | member {members : List Ty} {t : Ty} : t ∈ members → Inherits root (.inter members) t
  | declared {name : String} {d u : Tree} : root.firstDeclaration? name = some d → u ∈ inherited d →
      Inherits root (.named name) (resolveType u)

def ReachesDeclaration (root : Tree) (t : Ty) (d : Tree) : Prop :=
  ∃ name, ReflTransGen root.Inherits t (.named name) ∧ root.firstDeclaration? name = some d

/-- Whether a name is a field of a type's own shapes or a member of a declaration reached from it. -/
def HasMember (root : Tree) (t : Ty) (name : String) : Prop :=
  name ∈ t.ownFields ∨ ∃ d, root.ReachesDeclaration t d ∧ name ∈ d.ownMembers

/-- A walk from a type: the references that it has followed, how many steps it has taken and the type
that it has come to. -/
inductive Trail (root : Tree) (t : Ty) : List String → Nat → Ty → Prop
  | start : Trail root t [] 0 t
  | step {names : List String} {depth : Nat} {u v : Ty} : Trail root t names depth u →
      root.Inherits u v → Trail root t (u.reference?.toList ++ names) (depth + 1) v

/-- Whether no walk from a type along different references takes more steps than a limit. -/
def StaysWithin (root : Tree) (t : Ty) (limit : Nat) : Prop :=
  ∀ names depth u, root.Trail t names depth u → (u.reference?.toList ++ names).Nodup → depth ≤ limit

/-- Whether all walks from a type come to an end within a budget or repeat one of the given
references. -/
def endsWithin (root : Tree) : Nat → List String → Ty → Bool
  | 0, names, .named name => name ∈ names
  | 0, _, _ => false
  | budget + 1, names, .named name =>
    name ∈ names || match root.firstDeclaration? name with
      | none => true
      | some d => (inherited d).all fun u => root.endsWithin budget (name :: names) (resolveType u)
  | budget + 1, names, .inter members => members.all fun u => root.endsWithin budget names u
  | _ + 1, _, _ => true

variable {root : Tree}

theorem exists_of_endsWithin {budget : Nat} {names : List String} {t : Ty}
    (h : root.endsWithin budget names t = true) :
    (∃ name ∈ names, t = .named name) ∨ ∃ rest, budget = rest + 1 := by
  cases budget with
  | succ rest => exact .inr ⟨rest, rfl⟩
  | zero =>
    cases t with
    | named name => exact .inl ⟨name, by simpa [endsWithin] using h, rfl⟩
    | _ => simp [endsWithin] at h

theorem endsWithin_of_inherits {budget : Nat} {names : List String} {t u : Ty}
    (h : root.endsWithin (budget + 1) names t = true) (hnew : ∀ name, t = .named name → name ∉ names)
    (hu : root.Inherits t u) : root.endsWithin budget (t.reference?.toList ++ names) u = true := by
  cases hu with
  | member hmem =>
    simp only [endsWithin, List.all_eq_true] at h
    exact h u hmem
  | @declared name d v hd hmem =>
    have hname : decide (name ∈ names) = false := decide_eq_false (hnew name rfl)
    simp only [endsWithin, hname, hd, Bool.false_or, List.all_eq_true] at h
    exact h v hmem

theorem Trail.endsWithin {t u : Ty} {limit depth : Nat} {names : List String}
    (h : root.endsWithin (limit + 1) [] t = true) (hu : root.Trail t names depth u)
    (hnames : names.Nodup) :
    ∃ budget, budget + depth = limit + 1 ∧ root.endsWithin budget names u = true := by
  induction hu with
  | start => exact ⟨limit + 1, rfl, h⟩
  | step _ hstep ih =>
    obtain ⟨budget, hsum, hends⟩ := ih (List.nodup_append.mp hnames).2.1
    obtain ⟨name, hname, rfl⟩ | ⟨rest, rfl⟩ := exists_of_endsWithin hends
    · exact absurd hname (List.nodup_cons.mp hnames).1
    · refine ⟨rest, by omega, endsWithin_of_inherits hends (fun name ht => ?_) hstep⟩
      subst ht
      exact (List.nodup_cons.mp hnames).1

theorem StaysWithin.endsWithin {t u : Ty} {limit budget depth : Nat} {names : List String}
    (h : root.StaysWithin t limit) (hu : root.Trail t names depth u) (hnames : names.Nodup)
    (hsum : budget + depth = limit + 1) : root.endsWithin budget names u = true := by
  induction budget generalizing names depth u with
  | zero =>
    have hrepeats : ¬ (u.reference?.toList ++ names).Nodup := fun hn => by
      have := h names depth u hu hn
      omega
    cases u with
    | named name => simpa [Ty.reference?, Tree.endsWithin, hnames] using hrepeats
    | _ => simp [Ty.reference?, hnames] at hrepeats
  | succ budget ih =>
    cases u with
    | named name =>
      rw [Tree.endsWithin, Bool.or_eq_true, decide_eq_true_iff]
      by_cases hname : name ∈ names
      · exact .inl hname
      · refine .inr ?_
        split
        · rfl
        · rename_i d hd
          refine List.all_eq_true.mpr fun v hv => ?_
          exact ih (hu.step (.declared hd hv)) (List.nodup_cons.mpr ⟨hname, hnames⟩) (by omega)
    | inter members =>
      rw [Tree.endsWithin]
      exact List.all_eq_true.mpr fun v hv => ih (hu.step (.member hv)) hnames (by omega)
    | _ => rfl

theorem staysWithin_iff {t : Ty} {limit : Nat} :
    root.StaysWithin t limit ↔ root.endsWithin (limit + 1) [] t = true := by
  refine ⟨fun h => h.endsWithin .start List.nodup_nil rfl, fun h names depth u hu hn => ?_⟩
  obtain ⟨budget, hsum, hends⟩ := hu.endsWithin h (List.nodup_append.mp hn).2.1
  obtain ⟨name, hname, rfl⟩ | ⟨rest, rfl⟩ := exists_of_endsWithin hends
  · simp [Ty.reference?, hname] at hn
  · omega

instance (t : Ty) (limit : Nat) : Decidable (root.StaysWithin t limit) :=
  decidable_of_iff _ staysWithin_iff.symm

theorem hasMember_of_reaches {t u : Ty} {name : String} (h : ReflTransGen root.Inherits t u)
    (hname : name ∈ u.ownFields) : root.HasMember t name := by
  induction h using ReflTransGen.head_induction_on with
  | refl => exact .inl hname
  | head hstep _ ih =>
    rcases ih with hown | ⟨d, ⟨n, hn, hd⟩, hmem⟩
    · cases hstep with
      | member hu => exact .inl (Ty.ownFields_inter _ ▸ List.mem_flatMap_of_mem hu hown)
      | declared hd hu =>
        refine .inr ⟨_, ⟨_, .refl, hd⟩, List.mem_append_left _ (List.mem_flatMap_of_mem hu hown)⟩
    · exact .inr ⟨d, ⟨n, .head hstep hn, hd⟩, hmem⟩

theorem hasMember_of_class {t : Ty} {name member : String} {d : Tree}
    (h : ReflTransGen root.Inherits t (.named name)) (hd : root.firstDeclaration? name = some d)
    (hclass : d.is .classDeclaration = true) (hmember : member ∈ classMembers d) :
    root.HasMember t member :=
  .inr ⟨d, ⟨name, h, hd⟩, List.mem_append_right _ (by rwa [if_pos hclass])⟩

end Tree

namespace Program

theorem typeDeclaration?_ofTree (root : Tree) (name : String) :
    (ofTree root).typeDeclaration? name = root.firstDeclaration? name := by
  rw [Tree.firstDeclaration?_eq_find?, typeDeclaration?, typeDeclarations_ofTree]
  generalize root.nodes.filter isTypeDeclaration = ds
  induction ds with
  | nil => rfl
  | cons d ds ih =>
    cases hn : d.declaredName? with
    | none => simp [hn, ih]
    | some n =>
      by_cases he : n = name
      · simp [hn, he]
      · have hne : (name == n) = false := by simpa using fun h : name = n => he h.symm
        simp [hn, he, hne, ih, List.lookup_cons]

end Program

namespace Listing

@[simp] theorem seen_add (s : Listing) (name : String) : (s.add name).seen = s.seen := by
  rw [add]
  split <;> rfl

theorem mem_names_add {s : Listing} {name member : String} :
    member ∈ (s.add name).names ↔ member ∈ s.names ∨ member = name := by
  rw [add]
  split
  · exact ⟨.inl, fun h => h.elim id (· ▸ ‹_›)⟩
  · simp

theorem nodup_add {s : Listing} (h : s.names.Nodup) (name : String) : (s.add name).names.Nodup := by
  rw [add]
  split
  · exact h
  · rename_i hname
    refine List.nodup_append.mpr ⟨h, by simp, fun a ha b hb he => hname ?_⟩
    rwa [← List.mem_singleton.mp hb, ← he]

@[simp] theorem seen_foldl_add (names : List String) (s : Listing) :
    (names.foldl add s).seen = s.seen := by
  induction names generalizing s with
  | nil => rfl
  | cons name names ih => rw [List.foldl_cons, ih, seen_add]

theorem mem_names_foldl_add {names : List String} {s : Listing} {member : String} :
    member ∈ (names.foldl add s).names ↔ member ∈ s.names ∨ member ∈ names := by
  induction names generalizing s with
  | nil => simp
  | cons name names ih => rw [List.foldl_cons, ih, mem_names_add, List.mem_cons, or_assoc]

structure Within (s s' : Listing) : Prop where
  seen : s.seen ⊆ s'.seen
  names : s.names ⊆ s'.names

theorem Within.refl (s : Listing) : s.Within s := ⟨List.Subset.refl _, List.Subset.refl _⟩

theorem Within.trans {s s' s'' : Listing} (h : s.Within s') (h' : s'.Within s'') : s.Within s'' :=
  ⟨List.Subset.trans h.seen h'.seen, List.Subset.trans h.names h'.names⟩

theorem within_cut (s : Listing) (t : Tree) : s.Within (s.cut t) :=
  ⟨List.Subset.refl _, List.Subset.refl _⟩

theorem within_see (s : Listing) (name : String) : s.Within (s.see name) :=
  ⟨List.subset_cons_self _ _, List.Subset.refl _⟩

theorem within_foldl_add (names : List String) (s : Listing) : s.Within (names.foldl add s) :=
  ⟨by simp, fun _ h => mem_names_foldl_add.mpr (.inl h)⟩

/-- Whether a listing has the fields of a type's shapes and has followed its references. -/
structure Covers (s : Listing) (t : Ty) : Prop where
  fields : t.ownFields ⊆ s.names
  references : t.ownReferences ⊆ s.seen

theorem Covers.mono {s s' : Listing} {t : Ty} (h : s.Covers t) (hs : s.Within s') : s'.Covers t :=
  ⟨List.Subset.trans h.fields hs.names, List.Subset.trans h.references hs.seen⟩

theorem covers_inter {s : Listing} {members : List Ty} :
    s.Covers (.inter members) ↔ ∀ t ∈ members, s.Covers t := by
  constructor
  · intro h t ht
    refine ⟨fun name hname => h.fields ?_, fun name hname => h.references ?_⟩
    · exact Ty.ownFields_inter _ ▸ List.mem_flatMap_of_mem ht hname
    · exact Ty.ownReferences_inter _ ▸ List.mem_flatMap_of_mem ht hname
  · intro h
    refine ⟨fun name hname => ?_, fun name hname => ?_⟩
    · obtain ⟨t, ht, hname⟩ := List.mem_flatMap.mp (Ty.ownFields_inter _ ▸ hname)
      exact (h t ht).fields hname
    · obtain ⟨t, ht, hname⟩ := List.mem_flatMap.mp (Ty.ownReferences_inter _ ▸ hname)
      exact (h t ht).references hname

theorem covers_named {s : Listing} {name : String} : s.Covers (.named name) ↔ name ∈ s.seen :=
  ⟨fun h => h.references (List.mem_singleton_self _),
    fun h => ⟨by simp [Ty.ownFields, Ty.leaves, Ty.fieldNames], by simpa using h⟩⟩

variable {root : Tree}

def Finished (root : Tree) (s : Listing) (name : String) : Prop :=
  ∀ d, root.firstDeclaration? name = some d →
    (∀ u ∈ inherited d, s.Covers (resolveType u)) ∧
      (d.is .classDeclaration = true → classMembers d ⊆ s.names)

theorem Finished.mono {s s' : Listing} {name : String} (h : s.Finished root name)
    (hs : s.Within s') : s'.Finished root name := fun d hd =>
  ⟨fun u hu => ((h d hd).1 u hu).mono hs, fun hc => List.Subset.trans ((h d hd).2 hc) hs.names⟩

/-- The state of a listing between two steps: the references on the way are followed, and all others
that are followed are finished. -/
structure Settled (root : Tree) (names : List String) (s : Listing) : Prop where
  followed : names ⊆ s.seen
  finished : ∀ name ∈ s.seen, name ∈ names ∨ s.Finished root name

theorem Settled.cut {names : List String} {s : Listing} (h : s.Settled root names) (t : Tree) :
    (s.cut t).Settled root names :=
  ⟨h.followed, fun name hname => (h.finished name hname).imp_right (·.mono (within_cut s t))⟩

theorem Settled.see {names : List String} {s : Listing} (h : s.Settled root names) (name : String) :
    (s.see name).Settled root (name :: names) := by
  refine ⟨List.cons_subset_cons _ h.followed, fun n hn => ?_⟩
  rcases List.mem_cons.mp hn with rfl | hn
  · exact .inl List.mem_cons_self
  · exact (h.finished n hn).imp (List.mem_cons_of_mem _) (·.mono (within_see s name))

theorem Settled.close {names : List String} {name : String} {s : Listing}
    (h : s.Settled root (name :: names)) (hname : s.Finished root name) : s.Settled root names := by
  refine ⟨List.Subset.trans (List.subset_cons_self _ _) h.followed, fun n hn => ?_⟩
  rcases h.finished n hn with hmem | hn
  · rcases List.mem_cons.mp hmem with rfl | hmem
    · exact .inr hname
    · exact .inl hmem
  · exact .inr hn

theorem Settled.foldl_add {names : List String} {s : Listing} (h : s.Settled root names)
    (members : List String) : (members.foldl add s).Settled root names where
  followed := by simpa using h.followed
  finished name hname := (h.finished name (by simpa using hname)).imp_right
    (·.mono (within_foldl_add members s))

theorem Settled.finish {names : List String} {name : String} {s : Listing} {d : Tree}
    (h : s.Settled root (name :: names)) (hd : root.firstDeclaration? name = some d)
    (hcovers : ∀ u ∈ inherited d, s.Covers (resolveType u)) :
    let s' := if d.is .classDeclaration then (classMembers d).foldl add s else s
    s.Within s' ∧ s'.Settled root names := by
  dsimp only
  split
  · have hadded := within_foldl_add (classMembers d) s
    refine ⟨hadded, (h.foldl_add _).close fun d' hd' => ?_⟩
    cases hd.symm.trans hd'
    exact ⟨fun u hu => (hcovers u hu).mono hadded, fun _ _ hm => mem_names_foldl_add.mpr (.inr hm)⟩
  · rename_i hclass
    refine ⟨.refl s, h.close fun d' hd' => ?_⟩
    cases hd.symm.trans hd'
    exact ⟨hcovers, fun hc => absurd hc hclass⟩

/-- Whether a listing has members of a type only, and none of them twice. -/
structure Sound (root : Tree) (t : Ty) (s : Listing) : Prop where
  nodup : s.names.Nodup
  hasMember : ∀ name ∈ s.names, root.HasMember t name

theorem Sound.cut {t : Ty} {s : Listing} (h : s.Sound root t) (u : Tree) : (s.cut u).Sound root t :=
  ⟨h.nodup, h.hasMember⟩

theorem Sound.see {t : Ty} {s : Listing} (h : s.Sound root t) (name : String) :
    (s.see name).Sound root t :=
  ⟨h.nodup, h.hasMember⟩

theorem Sound.foldl_add {t : Ty} {s : Listing} (h : s.Sound root t) {members : List String}
    (hmembers : ∀ m ∈ members, root.HasMember t m) : (members.foldl add s).Sound root t := by
  refine List.foldlRecOn members add h fun s hs m hm => ⟨nodup_add hs.nodup m, fun n hn => ?_⟩
  rcases mem_names_add.mp hn with hn | rfl
  · exact hs.hasMember n hn
  · exact hmembers n hm

structure Follows (root : Tree) (names : List String) (s : Listing) (t : Ty) (s' : Listing) : Prop where
  within : s.Within s'
  covers : s'.Covers t
  settled : s'.Settled root names

theorem Follows.finished {s s' : Listing} {t : Ty} {name : String} (h : s.Follows root [] t s')
    (hname : s'.Covers (.named name)) : s'.Finished root name :=
  (h.settled.finished name (covers_named.mp hname)).resolve_left List.not_mem_nil

theorem foldl_follows {α : Type} {names : List String} (us : List α) (step : Listing → α → Listing)
    (type : α → Ty) (hstep : ∀ u ∈ us, ∀ s : Listing, s.Settled root names →
      s.Follows root names (type u) (step s u))
    {s : Listing} (hs : s.Settled root names) :
    s.Within (us.foldl step s) ∧ (∀ u ∈ us, (us.foldl step s).Covers (type u)) ∧
      (us.foldl step s).Settled root names := by
  induction us generalizing s with
  | nil => exact ⟨.refl s, by simp, hs⟩
  | cons u us ih =>
    obtain ⟨hwithin, hcovers, hsettled⟩ := hstep u List.mem_cons_self s hs
    obtain ⟨hwithin', hcovers', hsettled'⟩ :=
      ih (fun v hv => hstep v (List.mem_cons_of_mem _ hv)) hsettled
    refine ⟨hwithin.trans hwithin', fun v hv => ?_, hsettled'⟩
    rcases List.mem_cons.mp hv with rfl | hv
    · exact hcovers.mono hwithin'
    · exact hcovers' v hv

end Listing

namespace Program

variable {root : Tree}

/-- A settled listing follows a type to its end where the budget suffices. -/
theorem listMembers_follows {budget : Nat} {names : List String} {t : Ty}
    (h : root.endsWithin budget names t = true) {s : Listing} (hs : s.Settled root names) :
    s.Follows root names t ((ofTree root).listMembers budget t s) := by
  induction budget generalizing names t s with
  | zero =>
    -- the budget is used up only at a reference that is on the way already
    obtain ⟨name, hname, rfl⟩ | ⟨_, hzero⟩ := Tree.exists_of_endsWithin h
    · exact ⟨.refl s, Listing.covers_named.mpr (hs.followed hname), hs⟩
    · cases hzero
  | succ budget ih =>
    cases t with
    | named name =>
      rw [listMembers]
      by_cases hname : name ∈ s.seen
      · rw [if_pos hname]
        exact ⟨.refl s, Listing.covers_named.mpr hname, hs⟩
      rw [if_neg hname, typeDeclaration?_ofTree]
      -- the reference is open while the types of its declaration are followed, and closed behind them
      have hopen := hs.see name
      have hself : name ∈ (s.see name).seen := List.mem_cons_self
      cases hd : root.firstDeclaration? name with
      | none =>
        have hfinished : (s.see name).Finished root name := fun d hd' => by simp [hd] at hd'
        exact ⟨s.within_see name, Listing.covers_named.mpr hself, hopen.close hfinished⟩
      | some d =>
        have hnew : ∀ n, Ty.named name = .named n → n ∉ names := fun n hn hmem =>
          hname (Ty.named.inj hn ▸ hs.followed hmem)
        obtain ⟨hwithin, hcovers, hsettled⟩ := Listing.foldl_follows (inherited d)
          (fun s t => (ofTree root).listMembers budget (resolveType t) (s.cut t)) resolveType
          (fun u hu s hs =>
            have hfollows := ih (Tree.endsWithin_of_inherits h hnew (.declared hd hu)) (hs.cut u)
            ⟨(s.within_cut u).trans hfollows.within, hfollows.covers, hfollows.settled⟩) hopen
        obtain ⟨hadded, hclosed⟩ := hsettled.finish hd hcovers
        exact ⟨(s.within_see name).trans (hwithin.trans hadded),
          Listing.covers_named.mpr (hadded.seen (hwithin.seen hself)), hclosed⟩
    | inter members =>
      obtain ⟨hwithin, hcovers, hsettled⟩ := Listing.foldl_follows members _ id
        (fun u hu s hs => ih (Tree.endsWithin_of_inherits h nofun (.member hu)) hs) hs
      exact ⟨hwithin, Listing.covers_inter.mpr hcovers, hsettled⟩
    | shape fields =>
      refine ⟨Listing.within_foldl_add _ s, ⟨fun name hname => ?_, fun name hname => ?_⟩,
        hs.foldl_add _⟩
      · exact Listing.mem_names_foldl_add.mpr (.inr (by simpa using hname))
      · cases hname
    | _ => exact ⟨.refl s, ⟨List.nil_subset _, List.nil_subset _⟩, hs⟩

theorem listMembers_sound {t u : Ty} (h : ReflTransGen root.Inherits t u) (budget : Nat)
    {s : Listing} (hs : s.Sound root t) : ((ofTree root).listMembers budget u s).Sound root t := by
  induction budget generalizing u s with
  | zero => cases u <;> exact hs
  | succ budget ih =>
    cases u with
    | named name =>
      rw [listMembers, typeDeclaration?_ofTree]
      split
      · exact hs
      · cases hd : root.firstDeclaration? name with
        | none => exact hs.see name
        | some d =>
          have hfold := List.foldlRecOn (motive := fun s => s.Sound root t) (inherited d)
            (fun s t => (ofTree root).listMembers budget (resolveType t) (s.cut t)) (hs.see name)
            fun s hs v hv => ih (h.tail (.declared hd hv)) (hs.cut v)
          dsimp only
          split
          · rename_i hclass
            exact hfold.foldl_add fun m hm => Tree.hasMember_of_class h hd hclass hm
          · exact hfold
    | inter members =>
      exact List.foldlRecOn (motive := fun s : Listing => s.Sound root t) members _ hs
        fun s hs v hv => ih (h.tail (.member hv)) hs
    | shape fields =>
      exact hs.foldl_add fun m hm =>
        Tree.hasMember_of_reaches h (by rwa [Ty.ownFields_shape])
    | _ => exact hs

theorem listing_sound (root : Tree) (t : Ty) : ((ofTree root).listing t).Sound root t :=
  listMembers_sound .refl _ ⟨List.nodup_nil, fun _ h => nomatch h⟩

theorem listing_follows {t : Ty} (h : root.StaysWithin t referenceLimit) :
    ({} : Listing).Follows root [] t ((ofTree root).listing t) :=
  listMembers_follows (Tree.staysWithin_iff.mp h) ⟨List.nil_subset _, fun _ hn => nomatch hn⟩

theorem covers_of_reaches {t u : Ty} (h : root.StaysWithin t referenceLimit)
    (hu : ReflTransGen root.Inherits t u) : ((ofTree root).listing t).Covers u := by
  induction hu with
  | refl => exact (listing_follows h).covers
  | tail _ hstep ih =>
    cases hstep with
    | member hmem => exact Listing.covers_inter.mp ih _ hmem
    | declared hd hv => exact ((listing_follows h).finished ih _ hd).1 _ hv

theorem mem_listing_iff {t : Ty} {member : String} (h : root.StaysWithin t referenceLimit) :
    member ∈ ((ofTree root).listing t).names ↔ root.HasMember t member := by
  refine ⟨(listing_sound root t).hasMember member, ?_⟩
  rintro (hown | ⟨d, ⟨name, hreach, hd⟩, hmember⟩)
  · exact (covers_of_reaches h .refl).fields hown
  · obtain ⟨htypes, hclass⟩ := (listing_follows h).finished (covers_of_reaches h hreach) d hd
    rcases List.mem_append.mp hmember with hmember | hmember
    · obtain ⟨u, hu, hmember⟩ := List.mem_flatMap.mp hmember
      exact (htypes u hu).fields hmember
    · split at hmember
      · exact hclass ‹_› hmember
      · cases hmember

theorem members?_eq_none_iff {t : Ty} :
    (ofTree root).members? t = none ↔ ∃ name, t = .named name ∧ root.firstDeclaration? name = none := by
  cases t with
  | named name => simp [members?, typeDeclaration?_ofTree]
  | _ => simp [members?]

theorem eq_listing_of_members? {program : Program} {t : Ty} {names : List String}
    (h : program.members? t = some names) : names = (program.listing t).names := by
  cases t with
  | named name =>
    simp only [members?, Option.ite_none_right_eq_some, Option.some.injEq] at h
    exact h.2.symm
  | _ => exact (Option.some.inj h).symm

theorem hasMember_of_members? {t : Ty} {names : List String} {name : String}
    (h : (ofTree root).members? t = some names) (hname : name ∈ names) : root.HasMember t name :=
  (listing_sound root t).hasMember name (eq_listing_of_members? h ▸ hname)

/-- A type has a listing unless it is a reference that is not declared. The listing repeats no name,
and every name in it is a field of the type's own shapes or a member of a declaration that is reached
from the type. No such name is missing if walks along different references stay within the limit. -/
theorem members_exact (root : Tree) (t : Ty) :
    ((ofTree root).members? t = none ↔
      ∃ name, t = .named name ∧ root.firstDeclaration? name = none) ∧
    ∀ names, (ofTree root).members? t = some names →
      names.Nodup ∧ (∀ name ∈ names, root.HasMember t name) ∧
        (root.StaysWithin t referenceLimit → ∀ name, root.HasMember t name → name ∈ names) := by
  refine ⟨members?_eq_none_iff, fun names h => ⟨?_, fun name => hasMember_of_members? h, ?_⟩⟩
  · exact eq_listing_of_members? h ▸ (listing_sound root t).nodup
  · exact fun hstays name hname => eq_listing_of_members? h ▸ (mem_listing_iff hstays).mpr hname

/-- Two interfaces that extend each other and a common base, below an alias of nested intersections. -/
theorem members_exact_cyclic :
    let source := "interface A{a}interface B extends A,C{b}interface C extends A,B{c}class D{d=1}" ++
      "type T={e:A}&B&(C&D)"
    let root := (readProgram source).getD default
    let listed := ["e", "a", "c", "b", "d"]
    readProgram source = some root ∧ (ofTree root).members? (.named "T") = some listed ∧
      root.StaysWithin (.named "T") referenceLimit ∧
      (∀ name, name ∈ listed ↔ root.HasMember (.named "T") name) ∧
      (ofTree root).members? (.named "Missing") = none := by
  intro source root listed
  have hfacts : (readProgram source).isSome = true ∧
      (ofTree root).members? (.named "T") = some listed ∧
      root.StaysWithin (.named "T") referenceLimit ∧ root.firstDeclaration? "Missing" = none := by
    decide +kernel
  obtain ⟨hread, hlisted, hstays, hmissing⟩ := hfacts
  obtain ⟨-, hexact⟩ := members_exact root (.named "T")
  obtain ⟨-, hsound, hcomplete⟩ := hexact listed hlisted
  exact ⟨eq_some_getD hread, hlisted, hstays, fun name => ⟨hsound name, hcomplete hstays name⟩,
    (members_exact root (.named "Missing")).1.mpr ⟨"Missing", rfl, hmissing⟩⟩

end Program

end UsageTypes
