import CMinus.Proofs.Scoping.Program
import CMinus.Tree.Build

/-!
# Lexical scopes

The mark that scoping leaves on a node is whatever scope happened to be on top
of a stack, under a flag that lets a block take over the scope of its function
and a register that names the blocks.  This file says what the marks amount to
without any of that: a block's scope is inside the scope of the nearest block
around it, and holds the block's own declarations.

`Forest.LexicalIn` says it of what stands below the declarations of a block and
`Forest.Lexical` of a whole program; both read a finished table only.  The
scopes are numbered in the order in which a reader meets the nodes that open
them, without gaps (`Forest.openers`, `Numbered`), so no two nodes share one and
none belongs to nobody.

## Main results

* `Scoping.lexical_marked`, `Scoping.numbered_marked`: the marks of a program;
* `build_lexical`: the same for a program built in a fresh session.
-/

namespace CMinus

namespace Forest

/-- The marks are those of lexical scoping, for a chain directly in the scope
`here` of a block of the function `fn`. -/
inductive LexicalIn (t : Table) (fn : String) : ScopeId → Forest → Prop
  | nil {here : ScopeId} : LexicalIn t fn here nil
  /-- A block has a scope of its own, inside the one around it. -/
  | block {here id : ScopeId} {l : Label} {a b c rest : Forest} (hk : l.kind = .compound)
      (hscope : l.marks.scope = some id) (hheading : t.heading? id = some (fn, some here))
      (hentry : ∀ name, t.meaning? id name = Decl.find? a.decls name)
      (ha : LexicalIn t fn id a) (hb : LexicalIn t fn id b) (hc : LexicalIn t fn id c)
      (hrest : LexicalIn t fn here rest) : LexicalIn t fn here (node l a b c rest)
  /-- Any other node is in the scope that its chain is in. -/
  | plain {here : ScopeId} {l : Label} {a b c rest : Forest} (hk : l.kind ≠ .compound)
      (hscope : l.marks.scope = some here) (ha : LexicalIn t fn here a)
      (hb : LexicalIn t fn here b) (hc : LexicalIn t fn here c)
      (hrest : LexicalIn t fn here rest) : LexicalIn t fn here (node l a b c rest)

/-- The marks are those of lexical scoping, for the outermost chain. -/
inductive Lexical (t : Table) : Forest → Prop
  | nil : Lexical t nil
  /-- A variable is in the outermost scope. -/
  | object {l : Label} {rest : Forest} (hk : l.kind.isObject = true)
      (hscope : l.marks.scope = some 0) (hrest : Lexical t rest) :
      Lexical t (node l .nil .nil .nil rest)
  /-- A function has one scope, inside the outermost, for itself, its parameters,
  its block and all that is directly in its block. -/
  | function {id : ScopeId} {l block : Label} {name : String} {spec : Spec}
      {params locals stmts rest : Forest} (hk : l.kind = .funDecl name spec)
      (hblock : block.kind = .compound) (hscope : l.marks.scope = some id)
      (hsame : block.marks.scope = some id)
      (hheading : t.heading? id = some (name, some 0))
      (hentry : ∀ name', t.meaning? id name' =
        Decl.find? (params.decls ++ locals.decls) name')
      (hparams : params.LexicalIn t name id) (hlocals : locals.LexicalIn t name id)
      (hstmts : stmts.LexicalIn t name id) (hrest : Lexical t rest) :
      Lexical t (node l params (node block locals stmts .nil .nil) .nil rest)

/-- The nodes that open a scope, in preorder: functions, and blocks other than
the block of a function. -/
def openers : (body : Bool) → Forest → List Label
  | _, nil => []
  | body, node l a b c rest =>
    (if l.kind.isFunction || (l.kind = .compound && !body) then [l] else []) ++
      (a.openers false ++ b.openers l.kind.isFunction ++ c.openers false ++
        rest.openers false)

end Forest

/-- The labels are marked with the scopes from `low` up to but without `high`,
each once and in ascending order. -/
structure Numbered (ls : List Label) (low high : ScopeId) : Prop where
  scopes : ls.map (·.marks.scope) = (List.range' low ls.length).map some
  size : high = low + ls.length

namespace Numbered

theorem nil (low : ScopeId) : Numbered [] low low := ⟨rfl, rfl⟩

theorem singleton {l : Label} {low : ScopeId} (h : l.marks.scope = some low) :
    Numbered [l] low (low + 1) :=
  ⟨by simp [h], rfl⟩

theorem append {ls ls' : List Label} {low mid high : ScopeId} (h : Numbered ls low mid)
    (h' : Numbered ls' mid high) : Numbered (ls ++ ls') low high where
  scopes := by
    rw [List.map_append, h.scopes, h'.scopes, h.size, List.length_append, ← List.map_append,
      List.range'_append_1]
  size := by
    rw [h'.size, h.size, List.length_append, Nat.add_assoc]

end Numbered

namespace Scoping

/-! ## Marks inside a function -/

/-- Declarations and plain nodes leave the open scopes alone. -/
theorem top?_step {k : Kind} (hc : k ≠ .compound) (hf : k.isFunction = false) (s : Scoping)
    (here : ScopeId) (line : UInt32) :
    (s.step here k line).table.top? = s.table.top? := by
  have hobject : ∀ name spec ty site,
      (s.declareObject here name spec ty site line).2.table.top? = s.table.top? := by
    intro name spec ty site
    have heq := declareObject_eq s here ⟨name, spec, ty, site⟩ line
    simp only at heq
    rw [heq]
    exact Table.top?_declare _ _ _ _ _
  have hparam : ∀ name spec ty site,
      (s.declareParameter here name spec ty site line).table.top? = s.table.top? := by
    intro name spec ty site
    have heq := declareParameter_eq s here ⟨name, spec, ty, site⟩ line
    simp only at heq
    rw [heq]
    split
    · exact hobject name spec ty site
    · exact hobject name spec ty site
  have huse : ∀ name, (s.use here name line).table.top? = s.table.top? := by
    intro name
    rw [use_eq]
    cases s.table.lookup here name <;> rfl
  cases k with
  | compound => exact absurd rfl hc
  | funDecl name spec => simp [Kind.isFunction] at hf
  | varDecl | arrayDecl => exact hobject _ _ _ _
  | param | arrayParam => exact hparam _ _ _ _
  | var | call => exact huse _
  | _ => rfl

/-- Such a node is marked with the scope it was met in. -/
theorem marks_enter {l : Label} (hc : l.kind ≠ .compound) (hf : l.kind.isFunction = false)
    {s : Scoping} {here : ScopeId} (htop : s.table.top? = some here) :
    (enter l s).1 = (l.inScope here).marks := by
  rw [enter_eq l htop, top?_step hc hf, htop]
  rfl

theorem bare_marked (s : Scoping) (f : Forest) : (s.marked f).bare = f.bare :=
  Forest.bare_walk enter leave f s

@[simp] theorem decls_marked (s : Scoping) (f : Forest) : (s.marked f).decls = f.decls := by
  rw [← Forest.decls_bare (s.marked f), bare_marked, Forest.decls_bare]

/-- What is left behind of a node that is neither a block nor a function. -/
theorem marked_plain {l : Label} (hc : l.kind ≠ .compound) (hf : l.kind.isFunction = false)
    {s : Scoping} {here : ScopeId} (htop : s.table.top? = some here)
    (a b c rest : Forest) :
    s.marked (.node l a b c rest) =
      let s₁ := (enter l s).2
      .node (l.inScope here) (s₁.marked a) ((s₁.after a).marked b)
        (((s₁.after a).after b).marked c)
        ((((s₁.after a).after b).after c).marked rest) := by
  rw [marked_node, marks_enter hc hf htop]
  show Forest.node (l.inScope here) _ _ _ ((exit (l.inScope here) _).marked rest) = _
  rw [exit_of_plain (l := l.inScope here) hc hf]

/-- What is left behind of a nested block. -/
theorem marked_block {l : Label} (hk : l.kind = .compound) {fn : String} {here : ScopeId}
    {s : Scoping} (hs : Inside fn here s) (locals stmts rest : Forest) :
    s.marked (.node l locals stmts .nil rest) =
      .node (l.inScope s.table.scopes.size) (s.opened.marked locals)
        ((s.furnished locals).marked stmts) .nil
        (((s.furnished locals).after stmts).closed.marked rest) := by
  rw [marked_node, enter_of_compound hk hs]
  show Forest.node (l.inScope _) _ _ _ ((exit (l.inScope s.table.scopes.size) _).marked rest) = _
  rw [exit_of_compound (l := l.inScope _) hk]
  rfl

section Leaves

variable {admitted : Kind → Bool}
  (hadmitted : ∀ k, admitted k = true → k ≠ .compound ∧ k.isFunction = false)
  {a : Forest} (ha : a.Leaves admitted) {here : ScopeId}

include hadmitted ha

/-- Declarations are in the scope that is open. -/
theorem lexicalIn_leaves {s : Scoping} (htop : s.table.top? = some here) (t : Table)
    (fn : String) : (s.marked a).LexicalIn t fn here := by
  induction ha generalizing s with
  | nil => exact .nil
  | @cons l rest hk _ ih =>
      obtain ⟨hc, hf⟩ := hadmitted l.kind hk
      rw [marked_plain hc hf htop]
      refine .plain hc rfl .nil .nil .nil (ih ?_)
      simp only [after_nil]
      rw [enter_eq l htop]
      exact (top?_step hc hf s here l.line).trans htop

/-- Declarations open no scope. -/
theorem openers_leaves (s : Scoping) (body : Bool) : (s.marked a).openers body = [] := by
  induction ha generalizing s body with
  | nil => rfl
  | @cons l rest hk _ ih =>
      obtain ⟨hc, hf⟩ := hadmitted l.kind hk
      rw [marked_node]
      simp [Forest.openers, hc, hf, ih]

end Leaves

/-- The marks of statements. -/
theorem lexicalIn_marked {f : Forest} (hf : f.Inner) {fn : String} {here : ScopeId}
    {s : Scoping} {t : Table} (hs : Inside fn here s)
    (ht : (s.after f).table.Extends t) : (s.marked f).LexicalIn t fn here := by
  induction hf generalizing here s with
  | nil => exact .nil
  | @block l locals stmts rest hk hlocals hstmts hrest ihstmts ihrest =>
      have hinside := inside_furnished hs hlocals
      have hbody := passes_of_inner hstmts hinside
      have hblock := passes_block (fills_furnished hs hlocals) hbody
      rw [after_block hk hs] at ht
      have hclosed := (passes_of_inner hrest (hblock.inside hs)).extends_table ht
      have hstmtsEnd : ((s.furnished locals).after stmts).table.Extends t :=
        (Table.grows_pop _).append hclosed
      have hfinal := hbody.extends_table hstmtsEnd
      -- the block's own scope is never the outermost one, so its contents are final
      have hlt := lt_of_top? hinside.valid hinside.top
      have hne : ¬s.table.scopes.size = 0 :=
        Nat.ne_of_gt (Nat.lt_of_le_of_lt (Nat.zero_le here) (lt_of_top? hs.valid hs.top))
      rw [marked_block hk hs]
      refine .block hk rfl ?_ ?_ ?_ (ihstmts hinside hstmtsEnd) .nil
        (ihrest (hblock.inside hs) ht)
      · rw [hfinal.heading_eq _ hlt, heading?_furnished hs hlocals]
      · intro name
        rw [hfinal.meaning?_eq hlt hne, meaning?_furnished hs hlocals, decls_marked]
      · exact lexicalIn_leaves (fun _ => not_block_of_isObject) hlocals
          (inside_opened hs).top t fn
  | @plain l a b c rest hk ha hb hc hrest iha ihb ihc ihr =>
      obtain ⟨hkc, hkf⟩ := not_block_of_isPlain hk
      have h₁ := (passes_enter_of_plain hk hs).inside hs
      have h₂ := (passes_of_inner ha h₁).inside h₁
      have h₃ := (passes_of_inner hb h₂).inside h₂
      have h₄ := (passes_of_inner hc h₃).inside h₃
      rw [after_plain hk] at ht
      have ht₄ := (passes_of_inner hrest h₄).extends_table ht
      have ht₃ := (passes_of_inner hc h₃).extends_table ht₄
      have ht₂ := (passes_of_inner hb h₂).extends_table ht₃
      rw [marked_plain hkc hkf hs.top]
      exact .plain hkc rfl (iha h₁ ht₂) (ihb h₂ ht₃) (ihc h₃ ht₄) (ihr h₄ ht)

/-! ## Numbers inside a function -/

/-- A plain node opens no scope. -/
theorem size_enter_of_plain {l : Label} (hk : l.kind.isPlain = true) {fn : String}
    {here : ScopeId} {s : Scoping} (hs : Inside fn here s) :
    (enter l s).2.table.scopes.size = s.table.scopes.size := by
  rw [enter_eq l hs.top]
  show (s.step here l.kind l.line).table.scopes.size = s.table.scopes.size
  rw [step_of_plain hk]
  cases l.kind.use? with
  | none => rfl
  | some name =>
      show (s.use here name l.line).table.scopes.size = s.table.scopes.size
      rw [use_eq]
      cases s.table.lookup here name <;> rfl

/-- The numbers of the scopes opened among statements. -/
theorem numbered_inner {f : Forest} (hf : f.Inner) {fn : String} {here : ScopeId}
    {s : Scoping} (hs : Inside fn here s) :
    Numbered ((s.marked f).openers false) s.table.scopes.size
      (s.after f).table.scopes.size := by
  induction hf generalizing here s with
  | nil => exact Numbered.nil _
  | @block l locals stmts rest hk hlocals hstmts _ ihstmts ihrest =>
      have hinside := inside_furnished hs hlocals
      have hblock := passes_block (fills_furnished hs hlocals) (passes_of_inner hstmts hinside)
      have hsize : (s.furnished locals).table.scopes.size = s.table.scopes.size + 1 := by
        rw [(fills_furnished hs hlocals).size]
        exact Array.size_push _
      have hself := Numbered.singleton (Label.scope_inScope l s.table.scopes.size)
      have hbody := ihstmts hinside
      rw [hsize] at hbody
      have hrest := ihrest (hblock.inside hs)
      have hlocalOpeners := openers_leaves (fun _ => not_block_of_isObject) hlocals
        s.opened false
      rw [after_block hk hs, marked_block hk hs]
      have hopeners : (Forest.node (l.inScope s.table.scopes.size) (s.opened.marked locals)
          ((s.furnished locals).marked stmts) .nil
          (((s.furnished locals).after stmts).closed.marked rest)).openers false =
          [l.inScope s.table.scopes.size] ++
            (((s.furnished locals).marked stmts).openers false ++
              (((s.furnished locals).after stmts).closed.marked rest).openers false) := by
        simp [Forest.openers, hk, hlocalOpeners, Kind.isFunction]
      rw [hopeners]
      exact hself.append (hbody.append hrest)
  | @plain l a b c rest hk ha hb hc _ iha ihb ihc ihr =>
      obtain ⟨hkc, hkf⟩ := not_block_of_isPlain hk
      have h₁ := (passes_enter_of_plain hk hs).inside hs
      have h₂ := (passes_of_inner ha h₁).inside h₁
      have h₃ := (passes_of_inner hb h₂).inside h₂
      have h₄ := (passes_of_inner hc h₃).inside h₃
      have hall := (((iha h₁).append (ihb h₂)).append (ihc h₃)).append (ihr h₄)
      rw [size_enter_of_plain hk hs] at hall
      rw [after_plain hk, marked_plain hkc hkf hs.top]
      simpa [Forest.openers, hkc, hkf] using hall

/-! ## The outermost level -/

/-- The marks of a program. -/
theorem lexical_marked {f : Forest} (hf : f.Outer) {s : Scoping} {t : Table}
    (hs : Outside s) (ht : (s.after f).table.Extends t) : (s.marked f).Lexical t := by
  induction hf generalizing s with
  | nil => exact .nil
  | @object l rest hk _ ih =>
      obtain ⟨hc, hf⟩ := not_block_of_isObject hk
      rw [after_object hk] at ht
      rw [marked_plain hc hf hs.top]
      exact .object hk rfl (ih (adds_enter_of_object hs hk .nil).outside ht)
  | @function l block name spec params locals stmts rest hk hp hblock hl hstmts hrest ih =>
      have hadds := adds_finished hk hs hp hl hstmts
      rw [after_function hk hs hp hblock hl hstmts] at ht
      have hfinished : (s.finished l params locals stmts).table.Extends t :=
        (adds_of_outer hrest hadds.outside).grows.append ht
      have hend : ((s.equipped l params locals).after stmts).table.Extends t :=
        (Table.grows_pop _).append hfinished
      have hfinal := (passes_body hk hs hp hl hstmts).extends_table hend
      have hinside := inside_equipped hk hs hp hl
      have hlt := lt_of_top? hinside.valid hinside.top
      have hne : ¬s.table.scopes.size = 0 := Nat.ne_of_gt hs.pos
      rw [marked_function hk hs hp hblock hl hstmts]
      refine .function hk hblock rfl rfl ?_ ?_ ?_ ?_ (lexicalIn_marked hstmts hinside hend)
        (ih hadds.outside ht)
      · rw [hfinal.heading_eq _ hlt, (fills_equipped hk hs hp hl).grows.heading_eq _
          (lt_of_top? (inside_headed hk hs hp).valid (inside_headed hk hs hp).top),
          heading?_headed hk hs hp]
      · intro name'
        rw [hfinal.meaning?_eq hlt hne, meaning?_equipped hk hs hp hl, decls_marked, decls_marked]
      · exact lexicalIn_leaves (fun _ => not_block_of_isParam) hp
          (top?_declared name spec l.line) t name
      · exact lexicalIn_leaves (fun _ => not_block_of_isObject) hl
          (inside_headed hk hs hp).top t name

/-- The numbers of the scopes opened in a program. -/
theorem numbered_marked {f : Forest} (hf : f.Outer) {s : Scoping} (hs : Outside s) :
    Numbered ((s.marked f).openers false) s.table.scopes.size
      (s.after f).table.scopes.size := by
  induction hf generalizing s with
  | nil => exact Numbered.nil _
  | @object l rest hk _ ih =>
      obtain ⟨hc, hf⟩ := not_block_of_isObject hk
      obtain ⟨o, _, hstep⟩ := step_of_object hk
      have hsize : (enter l s).2.table.scopes.size = s.table.scopes.size := by
        rw [enter_eq l hs.top]
        exact (congrArg (·.table.scopes.size) (hstep s 0)).trans
          (fills_declareObject (P := fun _ => False) hs.valid hs.top o l.line).size
      have hrest := ih (adds_enter_of_object hs hk .nil).outside
      rw [hsize] at hrest
      rw [after_object hk, marked_plain hc hf hs.top]
      simpa [Forest.openers, hc, hf] using hrest
  | @function l block name spec params locals stmts rest hk hp hblock hl hstmts _ ih =>
      have hadds := adds_finished hk hs hp hl hstmts
      have hself := Numbered.singleton (Label.scope_inScope l s.table.scopes.size)
      have hsize : (s.equipped l params locals).table.scopes.size =
          s.table.scopes.size + 1 := by
        rw [(fills_equipped hk hs hp hl).size, headed_eq hk hs]
        show ((s.declared name spec l.line).after params).table.scopes.size = _
        rw [(fills_params name spec l.line hs hp).size, table_declared]
        exact (Array.size_push _).trans (by rw [Table.size_scopes_declare])
      have hbody := numbered_inner hstmts (inside_equipped hk hs hp hl)
      rw [hsize] at hbody
      have hrest := ih hadds.outside
      have hparamOpeners := openers_leaves (fun _ => not_block_of_isParam) hp
        (s.declared name spec l.line) false
      have hlocalOpeners := openers_leaves (fun _ => not_block_of_isObject) hl
        (s.headed l params) false
      rw [after_function hk hs hp hblock hl hstmts, marked_function hk hs hp hblock hl hstmts]
      have hall := hself.append (hbody.append hrest)
      simpa [Forest.openers, hk, hblock, Kind.isFunction, hparamOpeners, hlocalOpeners]
        using hall

/-- The marks of a program, in its own table. -/
theorem lexical_program {f : Forest} (hf : f.Outer) :
    (start.marked f).Lexical (finalTable f) :=
  lexical_marked hf outside_start (Table.grows_discard _)

end Scoping

/-- Building a program in a fresh session marks it with lexical scopes.  Scope 0
is the outermost one and scope 1 that of the built-in `output`; the scopes
behind them belong to the functions and the nested blocks of the program, one
each, in the order in which these stand in the program. -/
theorem build_lexical (config : Config) {f : Forest} (hf : f.Outer) :
    ∃ f' s, (Session.start config).build f = .ok (f', s) ∧ f'.bare = f.bare ∧
      s.table.heading? 0 = some ("global", none) ∧
      s.table.heading? 1 = some ("output", some 0) ∧
      f'.Lexical s.table ∧ Numbered (f'.openers false) 2 s.table.scopes.size := by
  have hadds := Scoping.adds_program hf
  refine ⟨_, _, Scoping.build_start config f, Scoping.bare_marked _ f, ?_, ?_, ?_, ?_⟩
  · exact hadds.outside.heading
  · exact hadds.grows.heading_eq 1 (by decide)
  · exact Scoping.lexical_program hf
  · exact Scoping.numbered_marked hf Scoping.outside_start

/-- A program with blocks inside blocks, and names that are declared again on
the way in: a global variable, a function with a parameter, a block that
declares the function's name, and a loop. -/
def nestedProgram : Forest := .ofTrees [
  .varDecl "depth" .int 1,
  .funDecl "climb" .int [.arrayParam "steps" .int 2]
    (.compound [.varDecl "depth" .int 3] [
      .compound [.varDecl "climb" .int 4] [
        .assign (.var "climb" 5) (.index "steps" (.const 0 5) 5) 5,
        .whileDo (.var "climb" 6)
          (.compound [] [.assign (.var "climb" 7) (.var "depth" 7) 7] 6) 6] 4,
      .returnValue (.var "depth" 8) 8] 2) 2,
  .funDecl "main" .void [] (.compound [] [.call "output" [.var "depth" 10] 10] 9) 9]

theorem build_lexical_nestedProgram :
    nestedProgram.Outer ∧
      ∃ f' s, (Session.start {}).build nestedProgram = .ok (f', s) ∧
        f'.bare = nestedProgram.bare ∧
        s.table.heading? 0 = some ("global", none) ∧
        s.table.heading? 1 = some ("output", some 0) ∧
        f'.Lexical s.table ∧ Numbered (f'.openers false) 2 s.table.scopes.size :=
  have hshape : nestedProgram.IsProgram := by decide
  ⟨hshape.outer, build_lexical {} hshape.outer⟩

end CMinus
