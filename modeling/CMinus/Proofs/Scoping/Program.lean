import CMinus.Proofs.Scoping.Functions
import CMinus.Session

/-!
# Scoping a program

`Scoping.Adds` is what walking a declaration at the outermost level amounts to,
and `adds_of_outer` says the same of a whole program: the outermost scope means
by a name what the first declaration of it says, the signatures of functions
included, and no scope that existed before has learned anything else.

The walk of a program begins with the built-in functions in place.  They are
declared as a walk would declare them, so the start needs no argument of its
own, and the table of a finished program knows them as it knows the program's
own functions (`meaning?_finalTable`).
-/

namespace CMinus

/-- The declaration that a node makes at the outermost level. -/
def Label.global? (l : Label) (params : Forest) : Option Decl :=
  match l.kind with
  | .funDecl name spec =>
    some ⟨name, .functionReturning spec, Decl.signature [] params.decls, l.line⟩
  | _ => l.decl?

theorem Label.global?_of_function {l : Label} {name : String} {spec : Spec}
    (hk : l.kind = .funDecl name spec) (params : Forest) :
    l.global? params =
      some ⟨name, .functionReturning spec, Decl.signature [] params.decls, l.line⟩ := by
  simp only [global?, hk]

theorem Label.global?_of_object {l : Label} {o : Object} (ho : l.kind.object? = some o)
    (params : Forest) : l.global? params = some (o.decl l.line) := by
  unfold global?
  split
  · next hl => simp [hl, Kind.object?] at ho
  · rw [decl?, ho, Option.map_some]

/-- The declarations at the outermost level of a program. -/
def Forest.globals : Forest → List Decl
  | nil => []
  | node l params _ _ rest => (l.global? params).toList ++ rest.globals

/-- Declarations are read off what the parser wrote. -/
@[simp] theorem Forest.decls_bare (f : Forest) : f.bare.decls = f.decls := by
  induction f with
  | nil => rfl
  | node l a b c rest _ _ _ ih =>
      simp only [decls, bare, labels, List.filterMap_cons] at ih ⊢
      rw [ih]
      rfl

@[simp] theorem Forest.globals_bare (f : Forest) : f.bare.globals = f.globals := by
  induction f with
  | nil => rfl
  | node l a b c rest _ _ _ ih =>
      have hself : l.bare.global? a.bare = l.global? a := by
        simp only [Label.global?, decls_bare]
        rfl
      rw [bare, globals, globals, hself, ih]

namespace Scoping

variable {s : Scoping}

/-- The declarations `ds` have been added to the outermost scope, in order. -/
structure Adds (ds : List Decl) (s s' : Scoping) : Prop where
  outside : Outside s'
  grows : s.table.Extends s'.table
  entry : ∀ name, s'.table.meaning? 0 name =
    (s.table.meaning? 0 name).or (Decl.find? ds name)

theorem Adds.refl (hs : Outside s) : Adds [] s s where
  outside := hs
  grows := Table.Grows.refl _
  entry := by simp [Decl.find?]

theorem Adds.append {ds ds' : List Decl} {s' s'' : Scoping} (h : Adds ds s s')
    (h' : Adds ds' s' s'') : Adds (ds ++ ds') s s'' where
  outside := h'.outside
  grows := h.grows.append h'.grows
  entry := by
    intro name
    rw [h'.entry, h.entry, Decl.find?_append, Option.or_assoc]

section Walk

variable {l : Label} {name : String} {spec : Spec} {params locals stmts : Forest}

/-- A variable at the outermost level. -/
theorem adds_enter_of_object (hs : Outside s) (hk : l.kind.isObject = true)
    (params : Forest) :
    Adds (l.global? params).toList s (enter l s).2 := by
  obtain ⟨o, ho, hstep⟩ := step_of_object hk
  have hfill := fills_declareObject (P := fun _ => False) hs.valid hs.top o l.line
  rw [← hstep s 0] at hfill
  rw [enter_eq l hs.top, Label.global?_of_object ho params]
  exact
    { outside :=
        { valid := hfill.valid
          top := hfill.top
          heading := (hfill.grows.heading_eq 0 hs.pos).trans hs.heading
          blockName := hfill.blockName.trans hs.blockName
          entering := hfill.entering.trans hs.entering }
      grows := hfill.grows
      entry := hfill.entry }

/-- After a function the walk is outside again. -/
theorem outside_finished (hk : l.kind = .funDecl name spec) (hs : Outside s)
    (hp : params.Leaves Kind.isParam) (hl : locals.Leaves Kind.isObject)
    (hstmts : stmts.Inner) : Outside (s.finished l params locals stmts) where
  valid := (passes_body hk hs hp hl hstmts).valid.pop
  top := by
    have hstack : (s.finished l params locals stmts).table.stack =
        (s.table.declare 0 name (.functionReturning spec) l.line).2.stack := by
      show ((s.equipped l params locals).after stmts).table.stack.tail = _
      rw [(passes_body hk hs hp hl hstmts).stack, (fills_equipped hk hs hp hl).below,
        headed_eq hk hs]
      show ((s.declared name spec l.line).after params).table.stack.tail = _
      rw [(fills_params name spec l.line hs hp).below, table_declared]
      rfl
    rw [Table.top?, hstack]
    exact (Table.top?_declare _ _ _ _ _).trans hs.top
  heading := ((grows_body hk hs hp hl hstmts).heading_eq 0 hs.pos).trans hs.heading
  blockName := rfl
  entering := rfl

/-- A function at the outermost level. -/
theorem adds_finished (hk : l.kind = .funDecl name spec) (hs : Outside s)
    (hp : params.Leaves Kind.isParam) (hl : locals.Leaves Kind.isObject)
    (hstmts : stmts.Inner) :
    Adds (l.global? params).toList s (s.finished l params locals stmts) where
  outside := outside_finished hk hs hp hl hstmts
  grows := (grows_body hk hs hp hl hstmts).append (Table.grows_pop _)
  entry := by
    intro name'
    have hzero : ¬(0 : ScopeId) = s.table.scopes.size := Nat.ne_of_lt hs.pos
    have hpos := Nat.lt_of_lt_of_le hs.pos (grows_headed hk hs hp).scopes_le
    have hpos' := Nat.lt_of_lt_of_le hs.pos (grows_equipped hk hs hp hl).scopes_le
    show ((s.equipped l params locals).after stmts).table.meaning? 0 name' = _
    rw [(passes_body hk hs hp hl hstmts).grows.meaning?_eq hpos' (fun h => h),
      (fills_equipped hk hs hp hl).grows.meaning?_eq hpos hzero, headed_eq hk hs,
      Label.global?_of_function hk]
    exact meaning?_params name spec l.line hs hp name'

end Walk

/-- Walking a variable at the outermost level. -/
theorem after_object {l : Label} (hk : l.kind.isObject = true) (s : Scoping)
    (rest : Forest) : s.after (.node l .nil .nil .nil rest) = (enter l s).2.after rest := by
  obtain ⟨o, ho, _⟩ := step_of_object hk
  obtain ⟨hc, hf⟩ := not_block_of_object? ho
  exact after_leaf hc hf s rest

/-- A program adds its declarations to the outermost scope. -/
theorem adds_of_outer {f : Forest} (hf : f.Outer) {s : Scoping} (hs : Outside s) :
    Adds f.globals s (s.after f) := by
  induction hf generalizing s with
  | nil => exact Adds.refl hs
  | @object l rest hk _ ih =>
      have hfirst := adds_enter_of_object hs hk .nil
      rw [after_object hk]
      exact hfirst.append (ih hfirst.outside)
  | @function l block name spec params locals stmts rest hk hp hblock hl hstmts _ ih =>
      have hfirst := adds_finished hk hs hp hl hstmts
      rw [after_function hk hs hp hblock hl hstmts]
      exact hfirst.append (ih hfirst.outside)

/-! ## From the start to the end -/

/-- The declarations that every program starts with. -/
def builtins : List Decl :=
  [⟨"input", .intFunction, [], 0⟩, ⟨"output", .voidFunction, [.int], 0⟩]

/-- The state in which the first node of a program is entered. -/
def start : Scoping := { table := Table.empty.withBuiltins, log := {} }

/-- The start with only `input` declared. -/
private def inputOnly : Scoping :=
  { table := ((Table.empty.push globalName).declare 0 "input" .intFunction 0).2, log := {} }

/-- The parameter of `output`. -/
private def outputParams : Forest :=
  .node { kind := .param "value" .int, line := 0 } .nil .nil .nil .nil

private theorem outside_inputOnly : Outside inputOnly where
  valid := (Table.valid_empty.push globalName).declare (by decide) "input" .intFunction 0
  top := rfl
  heading := rfl
  blockName := rfl
  entering := rfl

private theorem leaves_outputParams : outputParams.Leaves Kind.isParam := .cons rfl .nil

/-- `output` is declared as a walk would declare it. -/
private theorem table_start :
    start.table = ((inputOnly.declared "output" .void 0).after outputParams).table.pop := rfl

theorem outside_start : Outside start where
  valid := by
    rw [table_start]
    exact (fills_params "output" .void 0 outside_inputOnly leaves_outputParams).valid.pop
  top := rfl
  heading := rfl
  blockName := rfl
  entering := rfl

theorem meaning?_start (name : String) :
    start.table.meaning? 0 name = Decl.find? builtins name := by
  have hempty : (Table.empty.push globalName).meaning? 0 name = none := by
    rw [Table.meaning?, Table.lookupLocal_push]
    rfl
  have hpos : 0 < (Table.empty.push globalName).scopes.size := by decide
  have hinput := Table.meaning?_declare (Table.valid_empty.push globalName) hpos
    "input" .intFunction 0 name
  have houtput := meaning?_params "output" .void 0 outside_inputOnly leaves_outputParams name
  rw [hempty, Option.none_or] at hinput
  calc start.table.meaning? 0 name
      = (inputOnly.table.meaning? 0 name).or
          (Decl.find? [⟨"output", .voidFunction, [.int], 0⟩] name) := houtput
    _ = (if name = "input" then some ⟨"input", .intFunction, [], 0⟩ else none).or
          (Decl.find? [⟨"output", .voidFunction, [.int], 0⟩] name) := by rw [← hinput]; rfl
    _ = (Decl.find? [⟨"input", .intFunction, [], 0⟩] name).or
          (Decl.find? [⟨"output", .voidFunction, [.int], 0⟩] name) := by
        simp only [Decl.find?_singleton]
    _ = Decl.find? builtins name := (Decl.find?_append _ _ name).symm

/-- The table of a finished program. -/
def finalTable (f : Forest) : Table := (start.after f).table.discard

/-- Building a program in a fresh session. -/
theorem build_start (config : Config) (f : Forest) :
    (Session.start config).build f =
      .ok (start.marked f,
        { config, table := finalTable f, log := (start.after f).log
          phase := .symbolsBuilt }) := rfl

section Program

variable {f : Forest} (hf : f.Outer)

include hf

theorem adds_program : Adds f.globals start (start.after f) :=
  adds_of_outer hf outside_start

theorem pos_finalTable : 0 < (finalTable f).scopes.size :=
  (adds_program hf).outside.pos

theorem valid_finalTable : (finalTable f).Valid :=
  (adds_program hf).outside.valid.discard

/-- The outermost scope of a finished program: a name means what its first
declaration says, built-in functions included. -/
theorem meaning?_finalTable (name : String) :
    (finalTable f).meaning? 0 name = Decl.find? (builtins ++ f.globals) name := by
  show (start.after f).table.meaning? 0 name = _
  rw [(adds_program hf).entry, meaning?_start, Decl.find?_append]

end Program

end Scoping

end CMinus
