import UsageTypes.Infer
import UsageTypes.Proofs.ReadBack

/-! The written form of a type is an annotation that declares the type. -/

namespace UsageTypes

open Grammar Forms

/-- A function with one parameter that is annotated with a text. -/
def annotated (text : String) : String :=
  "function h(x: " ++ text ++ ") \x7b\x7d"

section Declarations

variable {bound depth : Nat} {c : Cursor}

theorem read_implied_end (hbound : 0 < bound) (hc : c.rest = []) (left : List Tree) :
    readForm bound depth (opt implied) left c = some ([], c) := by
  obtain ⟨bound, rfl⟩ : ∃ b, bound = b + 1 := ⟨bound - 1, by omega⟩
  refine read_opt_some ?_
  simp [readForm, Grammar.read, autoSemicolon, hc, countWhile]

theorem read_emptyBlock (depth : Nat) (hbound : 0 < bound) (hc : c.rest = [' ', '{', '}']) :
    ∃ ts p us d, readForm bound (depth + 1) (nest .block) [] c = some (ts, d) ∧
      Gives [' '] ts (.node none .statementBlock p us) ∧ c.Past [' ', '{', '}'] d ∧ d.rest = [] := by
  obtain ⟨ts, c₀, htrivia, hts, hpast₀, hc₀⟩ := readTrivia_gap hbound hc (.inr rfl) rfl
  obtain ⟨us, d₁, hopen, -, hpast₁, hd₁⟩ := read_mark depth [] hbound hc₀ (.inl rfl) (by decide)
    "\x7b" (by decide) []
  have hstands : (Head.mark '}').Stands d₁.rest := Head.stands_mark (by decide) hd₁
  have hmany : readForm bound depth (many (nest .statement)) [] d₁ = some ([], d₁) :=
    read_many_none (hstands.read_eq_none hbound (by decide) [])
  obtain ⟨vs, d₂, hclose, -, hpast₂, hd₂⟩ := read_mark depth [] hbound hd₁ (.inl rfl) (by decide)
    "\x7d" (by decide) []
  have hblock : readForm bound depth block [] c = some (_, d₂) :=
    read_node htrivia (read_seq (read_seq (read_seq hopen hmany) hclose)
      (read_implied_end hbound hd₂ []))
  exact ⟨_, c₀.place, _, d₂, hblock, hts.gives _, (hpast₀.trans hpast₁).trans hpast₂, hd₂⟩

theorem read_signature {ps : List (List Char × Ty)} (hps : ReadableParams ps) {k : List Char}
    (hc : c.rest = '(' :: (allTyped ps ++ ')' :: k)) (hk : (Head.mark '{').Stands k)
    (hlen : c.rest.length < bound) (hdepth : 4 * (allTyped ps).length ≤ depth + 2) :
    ∃ ts d, readForm bound (depth + 3) (signature .declaration) [] c =
        some ([.node (some .parameters) .formalParameters c.place ts], d) ∧
      AreParameters ps (core ts) ∧ c.Past ('(' :: (allTyped ps ++ [')'])) d ∧ d.rest = k := by
  have hbound : 0 < bound := by omega
  have hstands : (Head.mark '(').Stands c.rest := Head.stands_mark (by decide) hc
  have htypeParameters : readForm bound (depth + 3) (opt (field .typeParameters (nest .typeParameters))) []
      c = some ([], c) :=
    read_opt_none (hstands.read_eq_none hbound (by decide) [])
  obtain ⟨ts, d, hparameters, hts, hpast, rfl⟩ := read_parameters hps hc hlen hdepth []
  have hreturns : readForm bound (depth + 3) (opt (field .returns (returnAscription .declaration))) [] d =
      some ([], d) :=
    read_opt_none (hk.read_eq_none hbound (by decide) [])
  exact ⟨ts, d, read_seq (read_seq htypeParameters (read_field .parameters hparameters)) hreturns, hts,
    hpast, rfl⟩

/-- A declaration of a function with the given parameters and nothing in it. -/
structure IsDeclared (name : String) (ps : List (List Char × Ty)) (t : Tree) : Prop where
  kind : t.kind? = some .functionDeclaration
  name_eq : t.declaredName? = some name
  parameters : AreParameters ps t.parameters

/-- The text of a function with the given parameters and nothing in it. -/
def emptyFunction (ps : List (List Char × Ty)) : List Char :=
  "function".toList ++ ([' '] ++ ("h".toList ++ '(' :: (allTyped ps ++ ')' :: [' ', '{', '}'])))

theorem emptyFunction_eq (ps : List (List Char × Ty)) : emptyFunction ps = "function".toList ++
    ([' '] ++ ("h".toList ++ '(' :: (allTyped ps ++ ')' :: [' ', '{', '}']))) := rfl

theorem read_functionDeclaration {ps : List (List Char × Ty)} (hps : ReadableParams ps)
    (hc : c.rest = emptyFunction ps) (hlen : c.rest.length < bound)
    (hdepth : 4 * c.rest.length ≤ depth + 3) :
    ∃ t d, readForm bound (depth + 3) (node .functionDeclaration (opt async ++ word "function"
        ++ functionName ++ signature .declaration ++ field .body (nest .block) ++ opt implied)) [] c =
      some ([t], d) ∧ IsDeclared "h" ps t ∧ c.Past (emptyFunction ps) d ∧ d.rest = [] := by
  have hbound : 0 < bound := by omega
  have hc' := hc.trans (emptyFunction_eq ps)
  have hshort := congrArg List.length hc'
  simp only [List.length_append, List.length_cons] at hshort
  have hsolid : isSolid c.rest = true := by
    rw [hc']
    rfl
  have hstands : (Head.word "function".toList).Stands c.rest :=
    ⟨[], _, .inl rfl, rfl, by decide, _, hc', rfl⟩
  have hasync : readForm bound (depth + 3) (opt async) [] c = some ([], c) :=
    read_opt_none (hstands.read_eq_none hbound (by decide) [])
  obtain ⟨ts₁, d₁, hfunction, hts₁, hpast₁, hd₁⟩ := read_word (w := "function") (depth + 3) []
    hbound hc' (.inl rfl) rfl (by decide) []
  obtain ⟨ts₂, d₂, p, hname, hts₂, hpast₂, hd₂⟩ := read_leaf (depth + 3) [' '] hbound hd₁ (.inr rfl) rfl
    (take?_name (by decide) rfl List.not_mem_nil) .identifier []
  have hcurly : (Head.mark '{').Stands [' ', '{', '}'] := Head.stands_blank_mark (by decide) rfl
  obtain ⟨ts₃, d₃, hsignature, hts₃, hpast₃, hd₃⟩ := read_signature hps hd₂ hcurly
    (Nat.lt_of_le_of_lt (hpast₁.trans hpast₂).length_le hlen)
    (show 4 * (allTyped ps).length ≤ depth + 2 by omega)
  obtain ⟨ts₄, q, us, d₄, hblock, hts₄, hpast₄, hd₄⟩ := read_emptyBlock (depth + 2) hbound hd₃
  have hbody := read_seq (read_seq (read_seq (read_seq (read_seq hasync hfunction)
    (read_field .name hname)) hsignature) (read_field .body hblock)) (read_implied_end hbound hd₄ [])
  have hcore : core ([] ++ ts₁ ++ ts₂.map (·.play .name)
      ++ [.node (some .parameters) .formalParameters d₂.place ts₃] ++ ts₄.map (·.play .body) ++ []) =
      [.node (some .name) .identifier p [.token none "h"],
        .node (some .parameters) .formalParameters d₂.place ts₃,
        .node (some .body) .statementBlock q us] := by
    simp only [core_append, hts₁.core_token, (hts₂.play .name).core_eq rfl, (hts₄.play .body).core_eq rfl]
    rfl
  refine ⟨_, d₄, read_node (readTrivia_of_isSolid bound hsolid) hbody, ⟨rfl, ?_, ?_⟩, ?_, hd₄⟩
  · rw [Tree.declaredName?, child?_eq_core, hcore]
    simp [Tree.label?, Tree.text, Tree.textAll]
  · rw [Tree.parameters, child?_eq_core, hcore]
    have hpositional := hts₃.positional (some .parameters) d₂.place
    simpa [Tree.label?, hpositional] using hts₃
  · exact (((hpast₁.trans hpast₂).trans hpast₃).trans hpast₄).congr (by rw [hd₄, hc, List.append_nil])

theorem read_statement {ps : List (List Char × Ty)} (hps : ReadableParams ps)
    (hc : c.rest = emptyFunction ps) (hlen : c.rest.length < bound) (hdepth : 4 * c.rest.length < depth) :
    ∃ t d, readForm bound depth (nest .statement) [] c = some ([t], d) ∧ IsDeclared "h" ps t ∧
      c.Past (emptyFunction ps) d ∧ d.rest = [] := by
  have hbound : 0 < bound := by omega
  have hsolid : isSolid c.rest = true := by
    rw [hc]
    rfl
  have hstands : (Head.word "function".toList).Stands c.rest :=
    ⟨[], _, .inl rfl, rfl, by decide, _, hc, rfl⟩
  have hpos : 0 < c.rest.length := by
    rw [hc]
    exact Nat.succ_pos _
  obtain ⟨depth, rfl⟩ : ∃ d, depth = d + 4 := ⟨depth - 4, by omega⟩
  obtain ⟨t, d, hr, ht, hpast, hd⟩ := read_functionDeclaration hps hc hlen
    (show 4 * c.rest.length ≤ depth + 3 by omega)
  have htrivia : readForm bound (depth + 3) trivia [] c = some ([], c) :=
    congrArg some (readTrivia_of_isSolid bound hsolid)
  have hstatement : readForm bound (depth + 3) statement [] c = some ([t], d) :=
    read_seq htrivia ((hstands.read_behind (n := 16) hbound (by decide) []).trans
      (read_alt_left hr))
  exact ⟨t, d, hstatement, ht, hpast, hd⟩

end Declarations

theorem read_program {ps : List (List Char × Ty)} (hps : ReadableParams ps) {text : String}
    (htext : text.toList = emptyFunction ps) :
    ∃ t d, readStatements text = ([t], d) ∧ d.rest = [] ∧ IsDeclared "h" ps t := by
  let c : Cursor := { rest := text.toList }
  let bound := text.toList.length + 1
  have hbound : 0 < bound := Nat.succ_pos _
  have hsolid : isSolid c.rest = true := by
    rw [show c.rest = emptyFunction ps from htext]
    rfl
  have hbang : readForm bound (16 * bound) (opt (leaf .hashBangLine .hashBang)) [] c = some ([], c) := by
    have htake : Lexeme.take? .hashBang c.rest = none := by
      rw [show c.rest = emptyFunction ps from htext]
      rfl
    refine read_opt_none (read_node_none (readTrivia_of_isSolid bound hsolid) ?_)
    simp only [readForm, Grammar.read, readTrivia_of_isSolid bound hsolid, htake]
  obtain ⟨t, d, hr, ht, hpast, hd⟩ := read_statement (c := c) hps htext
    (show text.toList.length < bound by omega) (show 4 * text.toList.length < 16 * bound by omega)
  -- the text is at its end, where no statement begins
  have hstop : Head.stop.Stands d.rest := ⟨[], _, .inl rfl, rfl, hd⟩
  have hnone : readForm bound (16 * bound) (nest .statement) [] d = none :=
    hstop.read_eq_none hbound (by decide) []
  have hmany : readForm bound (16 * bound) (many (nest .statement)) [] c = some ([t], d) := by
    have hround := readMany_cons (n := text.toList.length) hr hpast (List.cons_ne_nil _ _)
    rw [readMany_of_none hnone] at hround
    exact congrArg some hround
  have htrivia : readForm bound (16 * bound) trivia [] d = some ([], d) :=
    congrArg some (readTrivia_of_isSolid bound (by rw [hd]; rfl))
  have hprogram : readForm bound (16 * bound) program [] c = some ([t], d) :=
    read_seq (read_seq hbang hmany) htrivia
  refine ⟨t, d, ?_, hd, ht⟩
  rw [readForm] at hprogram
  simp only [readStatements]
  rw [hprogram]
  rfl

theorem Place.map_tree_parameters (p : Place) : p.parameters.map (·.tree) = p.tree.parameters := by
  rw [Place.parameters, Tree.parameters, ← p.map_tree_child?]
  cases p.child? .parameters with
  | none => rfl
  | some list =>
    rw [Option.map_some]
    simp only
    rw [← list.map_tree_named, List.filter_map]
    rfl

theorem IsDeclared.declaredAt {name : String} {n : List Char} {T : Ty} {p : Place}
    (h : IsDeclared name [(n, T)] p.tree) (hspan : T.span ≤ nestingLimit) (program : Program) :
    program.declaredAt p 0 = some T := by
  obtain ⟨t, ht, hparameters⟩ : ∃ t, IsParameter T.span T t ∧ p.tree.parameters = [t] := by
    have := h.parameters
    generalize p.tree.parameters = ts at this
    cases this with
    | cons ht hts =>
      cases hts
      exact ⟨_, ht, rfl⟩
  obtain ⟨q, hq, rfl⟩ : ∃ q, p.parameters = [q] ∧ q.tree = t := by
    have := p.map_tree_parameters
    rw [hparameters] at this
    exact List.map_eq_singleton_iff.mp this
  obtain ⟨_, ha, _, _, rfl, hdenotes⟩ := ht.typing
  have htype : program.parameterType q = some T := by
    simp only [Program.parameterType, ha]
    exact congrArg some (hdenotes _ (by omega))
  simp [Program.declaredAt, hq, ht.isRest, htype]

/-- The written form of a writable type is an annotation that declares the type. -/
theorem declaredAt_annotated (T : Ty) (hw : T.isWritable = true) (hspan : T.span ≤ nestingLimit)
    (fileName : String) :
    ∃ source h, Source.parse fileName (annotated T.display) = .ok source ∧
      (Program.ofTree source.tree).declarations.head? = some h ∧ h.tree.declaredName? = some "h" ∧
      (Program.ofTree source.tree).declaredAt h 0 = some T := by
  have hps : ReadableParams [(['x'], T)] := by
    intro p hp
    obtain rfl := List.mem_singleton.mp hp
    exact ⟨rfl, show ['x'] ∉ parameterWords by decide, (readsBack T hw).readable⟩
  have htext : (annotated T.display).toList = emptyFunction [(['x'], T)] := by
    rw [emptyFunction_eq]
    simp [annotated, allTyped, typed, furtherTyped, Ty.written]
  obtain ⟨t, d, hread, hd, ht⟩ := read_program hps htext
  have hparse : Source.parse fileName (annotated T.display) =
      .ok ⟨fileName, annotated T.display, .node none .program {} [t]⟩ := by
    simp only [Source.parse, hread, hd]
    rfl
  have hplace : (Program.ofTree (.node none .program {} [t])).declarations.head? =
      some ⟨t, [(.node none .program {} [t], 0)]⟩ := by
    have hkind := ht.kind
    cases t with
    | node l k p cs =>
      obtain rfl := Option.some.inj hkind
      rfl
    | blank s => cases hkind
    | token l s => cases hkind
  exact ⟨_, _, hparse, hplace, ht.name_eq, ht.declaredAt hspan _⟩

theorem declaredAt_annotated_nested :
    let T : Ty := .shape [("items", .array (.inter [.named "A",
      .shape [("run", .function [.string, .array .number] .dynamic)]])),
      ("next", .function [] (.array (.function [.named "B"] .boolean)))]
    T.display = "\x7b items: (A & \x7b run: (arg0: string, arg1: number[]) => any; \x7d)[]; " ++
        "next: () => ((arg0: B) => boolean)[]; \x7d" ∧
      T.isWritable = true ∧ T.span ≤ nestingLimit ∧
      ∃ source h, Source.parse "h.ts" (annotated T.display) = .ok source ∧
        (Program.ofTree source.tree).declarations.head? = some h ∧ h.tree.declaredName? = some "h" ∧
        (Program.ofTree source.tree).declaredAt h 0 = some T := by
  intro T
  have hw : T.isWritable = true := by decide
  have hspan : T.span ≤ nestingLimit := by decide
  exact ⟨by decide, hw, hspan, declaredAt_annotated T hw hspan "h.ts"⟩

/-- Field names are written without quotes, and texts with an operator before a type without
parentheses: the first annotation cannot be read, and the second one declares another type. -/
theorem annotated_not_read_back :
    let typesOf (text : String) : Option (List (List Ty)) :=
      (inferText (.ofOptions .default) "f.ts" text).toOption.map
        (·.map fun r => r.parameters.map (·.type))
    let declaredOf (text : String) : Option (List (Option Ty)) :=
      (Source.parse "h.ts" text).toOption.map fun source =>
        let program := Program.ofTree source.tree
        program.declarations.map (program.declaredAt · 0)
    typesOf "function f(p) \x7b return p[\"a b\"] \x7d" = some [[.shape [("a b", .dynamic)]]] ∧
      declaredOf (annotated (Ty.shape [("a b", .dynamic)]).display) = none ∧
      typesOf "function g(q: (keyof A)[]) {} function f(p) { g(p) }" =
        some [[.array (.named "keyof A")]] ∧
      declaredOf (annotated (Ty.array (.named "keyof A")).display) =
        some [some (.named "keyof A[]")] := by
  decide +kernel

end UsageTypes
