import CMinus.Proofs.Typing.Verdicts

/-!
# The function around a return

A return is checked against the function it stands in, and that function is
found by name: every scope of a function bears its name, and the search asks at
each level what the name means one level further out.  A parameter or a local
may bear the same name, and so may an earlier global.

`Table.Within` collects the scopes of one function.  None of them holds a
function, so whatever bears the name on the way is passed over, and the search
ends at the one global of that name (`Table.Within.enclosing_eq`).  The rules
for returns then say of every return what its own function asks for.

## Main results

* `Table.Within.enclosing_eq`: what the search finds;
* `Typing.judge_returnValue`, `Typing.judge_returnVoid`: the rules, given that;
* `analyze_returns`: all of it for the tree of a finished analysis.
-/

namespace CMinus

namespace Table

/-- No name of the scope means a function. -/
def NoFunctionIn (t : Table) (scope : ScopeId) : Prop :=
  ∀ name id, t.lookupLocal scope name = some id → t.isFunction id = false

/-- The scope belongs to a function called `fn`: it is the scope of the function
itself or of a block in it. -/
inductive Within (t : Table) (fn : String) : ScopeId → Prop
  | body {id : ScopeId} (hheading : t.heading? id = some (fn, some 0))
      (hplain : t.NoFunctionIn id) : Within t fn id
  | block {id p : ScopeId} (hheading : t.heading? id = some (fn, some p))
      (hplain : t.NoFunctionIn id) (hparent : Within t fn p) : Within t fn id

namespace Within

variable {t : Table} {fn : String} {scope : ScopeId}

theorem noFunctionIn (h : t.Within fn scope) : t.NoFunctionIn scope := by
  cases h with
  | body _ hplain => exact hplain
  | block _ hplain _ => exact hplain

/-- The last owner is the global of that name, and no other is a function. -/
theorem exists_owners_eq (h : t.Within fn scope) (hv : t.Valid)
    (hglobal : t.heading? 0 = some (globalName, none)) {id : SymbolId}
    (hid : t.lookupLocal 0 fn = some id) :
    ∃ inner, t.owners scope = inner ++ [id] ∧ ∀ k ∈ inner, t.isFunction k = false := by
  induction h with
  | body hheading _ =>
      refine ⟨[], ?_, by simp⟩
      rw [hv.owners_of_parent hheading, hid, owners_of_root hglobal]
      rfl
  | @block scope p hheading _ hparent ih =>
      obtain ⟨inner, howners, hinner⟩ := ih
      refine ⟨(t.lookupLocal p fn).toList ++ inner, ?_, ?_⟩
      · rw [hv.owners_of_parent hheading, howners, List.append_assoc]
      · intro k hk
        rcases List.mem_append.mp hk with hk | hk
        · exact hparent.noFunctionIn fn k (Option.mem_toList.mp hk)
        · exact hinner k hk

/-- The search ends at the global of the function's name, whatever else bears
that name on the way. -/
theorem enclosing_eq (h : t.Within fn scope) (hv : t.Valid)
    (hglobal : t.heading? 0 = some (globalName, none)) {id : SymbolId}
    (hid : t.lookupLocal 0 fn = some id) :
    t.enclosing scope = if t.isFunction id then .function id else .redefined := by
  obtain ⟨inner, howners, hinner⟩ := h.exists_owners_eq hv hglobal hid
  have hskip : inner.find? t.isFunction = none := by
    rw [List.find?_eq_none]
    intro k hk
    simp [hinner k hk]
  have hnonempty : (inner ++ [id]).isEmpty = false := by simp
  unfold enclosing
  simp only [howners, hnonempty, List.find?_append, hskip, Option.none_or]
  by_cases hfun : t.isFunction id = true
  · simp [hfun]
  · simp [hfun]

end Within

end Table

/-! ## The scopes of a function -/

/-- Variables and parameters are no functions. -/
theorem isFunction_ty_of_mem_decls {f : Forest} {d : Decl} (hd : d ∈ f.decls) :
    d.ty.isFunction = false := by
  obtain ⟨l, _, hdecl⟩ := List.mem_filterMap.mp hd
  obtain ⟨o, ho, rfl⟩ := Option.map_eq_some_iff.mp hdecl
  exact Kind.isFunction_ty_of_object? ho

/-- The type of a name is that of its declaration. -/
theorem Table.tyOf?_of_meaning? {t : Table} {scope : ScopeId} {name : String} {d : Decl}
    (h : t.meaning? scope name = some d) :
    ∃ id, t.lookupLocal scope name = some id ∧ t.tyOf? id = some d.ty := by
  obtain ⟨id, hid, hdecl⟩ := Option.bind_eq_some_iff.mp h
  obtain ⟨sym, hsym, rfl⟩ := Option.map_eq_some_iff.mp hdecl
  exact ⟨id, hid, by simp [tyOf?, hsym, Symbol.decl]⟩

theorem Table.noFunctionIn_of_meaning? {t : Table} {scope : ScopeId} {ds : List Decl}
    (hentry : ∀ name, t.meaning? scope name = Decl.find? ds name)
    (hds : ∀ d ∈ ds, d.ty.isFunction = false) : t.NoFunctionIn scope := by
  intro name id hid
  have hsome : (t.meaning? scope name).isSome = true := by
    rw [isSome_meaning?, hid]
    rfl
  obtain ⟨d, hd⟩ := Option.isSome_iff_exists.mp hsome
  obtain ⟨id', hid', hty⟩ := tyOf?_of_meaning? hd
  obtain rfl := Option.some.inj (hid.symm.trans hid')
  rw [hentry] at hd
  rw [isFunction, hty]
  exact hds d (List.mem_of_find?_eq_some hd)

section Heading

variable {t : Table} {fn : String} {id : ScopeId}

theorem Table.within_body {params locals : Forest}
    (hheading : t.heading? id = some (fn, some 0))
    (hentry : ∀ name, t.meaning? id name = Decl.find? (params.decls ++ locals.decls) name) :
    t.Within fn id := by
  refine .body hheading (noFunctionIn_of_meaning? hentry ?_)
  intro d hd
  rcases List.mem_append.mp hd with hd | hd
  · exact isFunction_ty_of_mem_decls hd
  · exact isFunction_ty_of_mem_decls hd

theorem Table.within_block {p : ScopeId} {locals : Forest}
    (hheading : t.heading? id = some (fn, some p))
    (hentry : ∀ name, t.meaning? id name = Decl.find? locals.decls name)
    (hp : t.Within fn p) : t.Within fn id :=
  .block hheading (noFunctionIn_of_meaning? hentry fun _ => isFunction_ty_of_mem_decls) hp

end Heading

namespace Forest

/-- Every node below the declarations of a block is in a scope of the function
around it. -/
theorem LexicalIn.within {t : Table} {fn : String} {here : ScopeId} {f : Forest}
    (h : f.LexicalIn t fn here) (hhere : t.Within fn here) :
    ∀ l ∈ f.preorder, ∃ scope, l.marks.scope = some scope ∧ t.Within fn scope := by
  induction h with
  | nil => simp
  | @block here id l a b c rest _ hscope hheading hentry _ _ _ _ iha ihb ihc ihr =>
      have hid := Table.within_block hheading hentry hhere
      intro l' hl'
      simp only [preorder_node, List.mem_cons, List.mem_append] at hl'
      rcases hl' with rfl | ((hl' | hl') | hl') | hl'
      · exact ⟨id, hscope, hid⟩
      · exact iha hid l' hl'
      · exact ihb hid l' hl'
      · exact ihc hid l' hl'
      · exact ihr hhere l' hl'
  | @plain here l a b c rest _ hscope _ _ _ _ iha ihb ihc ihr =>
      intro l' hl'
      simp only [preorder_node, List.mem_cons, List.mem_append] at hl'
      rcases hl' with rfl | ((hl' | hl') | hl') | hl'
      · exact ⟨here, hscope, hhere⟩
      · exact iha hhere l' hl'
      · exact ihb hhere l' hl'
      · exact ihc hhere l' hl'
      · exact ihr hhere l' hl'

/-- Every node of a function is in a scope of that function. -/
theorem Lexical.within {t : Table} {f : Forest} (h : f.Lexical t) {tree : Tree}
    (htree : tree ∈ f.trees) {name : String} {spec : Spec}
    (hk : tree.label.kind = .funDecl name spec) :
    ∀ n ∈ (Forest.single tree).nodes,
      ∃ scope, n.label.marks.scope = some scope ∧ t.Within name scope := by
  induction h with
  | nil => simp [trees] at htree
  | @object l rest hobject _ _ ih =>
      simp only [trees, List.mem_cons] at htree
      rcases htree with rfl | htree
      · simp [show l.kind = .funDecl name spec from hk, Kind.isObject] at hobject
      · exact ih htree
  | @function id l block name' spec' params locals stmts rest hl hblock hscope hsame hheading
      hentry hparams hlocals hstmts _ ih =>
      simp only [trees, List.mem_cons] at htree
      rcases htree with rfl | htree
      · obtain ⟨rfl, rfl⟩ : name' = name ∧ spec' = spec := by
          simpa using hl.symm.trans hk
        have hid := Table.within_body hheading hentry
        intro n hn
        have hpre : n.label ∈ (Forest.single
            ⟨l, params, node block locals stmts .nil .nil, .nil⟩).preorder :=
          List.mem_map_of_mem hn
        simp only [single, ofTrees, preorder_node, preorder_nil, List.append_nil, List.mem_cons,
          List.mem_append] at hpre
        rcases hpre with hl' | hl' | hl' | hl' | hl'
        · exact ⟨id, by rw [hl', hscope], hid⟩
        · exact hparams.within hid n.label hl'
        · exact ⟨id, by rw [hl', hsame], hid⟩
        · exact hlocals.within hid n.label hl'
        · exact hstmts.within hid n.label hl'
      · exact ih htree

/-- A function declares its name at the outermost level. -/
theorem exists_global_of_mem_trees {f : Forest} {tree : Tree} (htree : tree ∈ f.trees)
    {name : String} {spec : Spec} (hk : tree.label.kind = .funDecl name spec) :
    ∃ d ∈ f.globals, d.name = name := by
  induction f with
  | nil => simp [trees] at htree
  | node l a b c rest _ _ _ ih =>
      simp only [trees, List.mem_cons] at htree
      simp only [globals, List.mem_append]
      rcases htree with rfl | htree
      · have hself := Label.global?_of_function hk a
        exact ⟨_, .inl (by rw [hself]; exact List.mem_singleton_self _), rfl⟩
      · obtain ⟨d, hd, hname⟩ := ih htree
        exact ⟨d, .inr hd, hname⟩

end Forest

/-! ## The rules for returns -/

/-- The kinds of the two returns. -/
def Kind.isReturn (k : Kind) : Bool := k = .returnValue || k = .returnVoid

namespace Typing

section Return

variable {poisonFailed : Bool} {table : Table} {n : Tree} {scope : ScopeId} {id : SymbolId}
  {ty : Ty} (hscope : n.label.marks.scope = some scope)
  (hty : table.tyOf? id = some ty)
  (henclosing : table.enclosing scope =
    if table.isFunction id then .function id else .redefined)

include hscope hty henclosing

/-- What the rules see of the function around a return. -/
theorem enclosingTy_eq :
    table.enclosingTy n.label.marks.scope =
      if ty.isFunction then .function (some ty) else .redefined := by
  have hfun : table.isFunction id = ty.isFunction := by
    rw [Table.isFunction, hty]
    rfl
  rw [hscope, Table.enclosingTy, henclosing, hfun]
  cases ty.isFunction with
  | true => simp [Enclosing.map, hty]
  | false => rfl

/-- A value is wrong in a function that yields none, and has to be an integer in
one that yields an integer. -/
theorem judge_returnValue (hk : n.label.kind = .returnValue) :
    (judge poisonFailed table n).complaint =
      if ty = .voidFunction ∨ ty = .intFunction ∧ n.first.ty? ≠ some .int then
        some (.invalidReturnType n.label.line)
      else none := by
  unfold judge
  rw [hk]
  simp only [judgeReturnValue, enclosingTy_eq hscope hty henclosing, Verdict.statement]
  cases ty with
  | intFunction => by_cases hint : n.first.ty? = some .int <;>
      simp [Ty.isFunction, Ty.result?, hint]
  | _ => simp [Ty.isFunction, Ty.result?]

/-- A value is missing in a function that yields an integer. -/
theorem judge_returnVoid (hk : n.label.kind = .returnVoid) :
    (judge poisonFailed table n).complaint =
      if ty = .intFunction then some (.invalidReturnType n.label.line) else none := by
  unfold judge
  rw [hk]
  simp only [judgeReturnVoid, enclosingTy_eq hscope hty henclosing, Verdict.statement]
  cases ty <;> simp [Ty.isFunction, Ty.result?]

end Return

end Typing

/-- The node `n` is in the function whose name means the symbol `id` of type `ty`
at the outermost level, and is judged accordingly if it is a return. -/
structure Typing.OwnedBy (poisonFailed : Bool) (table : Table) (id : SymbolId) (ty : Ty)
    (n : Tree) : Prop where
  enclosing : ∃ scope, n.label.marks.scope = some scope ∧
    table.enclosing scope = if ty.isFunction then .function id else .redefined
  returnValue : n.label.kind = .returnValue →
    (judge poisonFailed table n).complaint =
      if ty = .voidFunction ∨ ty = .intFunction ∧ n.first.ty? ≠ some .int then
        some (.invalidReturnType n.label.line)
      else none
  returnVoid : n.label.kind = .returnVoid →
    (judge poisonFailed table n).complaint =
      if ty = .intFunction then some (.invalidReturnType n.label.line) else none

open Scoping Typing in
/-- Returns are checked against the function they stand in: every node of a
function called `name` is owned by the global symbol of that name, which is what
the first declaration of the name made, be it a function or not.  The log holds
the reports of the first pass, all about declarations, and then the complaints
about the nodes of the tree in postorder.  The tree is the one that was given, but
for its marks. -/
theorem analyze_returns (config : Config) {f : Forest} (hf : f.Outer) :
    ∃ a reports, analyze config f = .ok a ∧ a.forest.bare = f.bare ∧
      a.log.entries.toList = reports ++ (a.forest.postorder.filterMap fun n =>
        (judge config.poisonFailed a.table n).complaint) ∧
      (∀ d ∈ reports, d.isDeclaration = true) ∧
      ∀ tree ∈ a.forest.trees, ∀ name spec, tree.label.kind = .funDecl name spec →
        ∃ id first, a.table.lookupLocal 0 name = some id ∧
          Decl.find? (builtins ++ f.globals) name = some first ∧
          a.table.tyOf? id = some first.ty ∧
          ∀ n ∈ (Forest.single tree).nodes,
            OwnedBy config.poisonFailed a.table id first.ty n := by
  obtain ⟨log, hanalyze, hlog⟩ := analyze_eq config hf
  have hbare := bare_typed_marked config.poisonFailed (finalTable f) f
  refine ⟨_, _, hanalyze, hbare, hlog, fun _ => isDeclaration_of_mem_reports, ?_⟩
  intro tree htree name spec hk
  have hlexical := lexical_typed config.poisonFailed (finalTable f) (lexical_program hf)
  have hglobals : (typed config.poisonFailed (finalTable f) (start.marked f)).globals =
      f.globals := by
    rw [← Forest.globals_bare, hbare, Forest.globals_bare]
  -- the function's own declaration shows that the name has a global meaning
  have hsome : (Decl.find? (builtins ++ f.globals) name).isSome = true := by
    obtain ⟨d, hd, hname⟩ := Forest.exists_global_of_mem_trees htree hk
    rw [hglobals] at hd
    exact List.find?_isSome.mpr ⟨d, List.mem_append_right _ hd, by simpa using hname⟩
  obtain ⟨first, hfirst⟩ := Option.isSome_iff_exists.mp hsome
  have hmeaning := (meaning?_finalTable hf name).trans hfirst
  obtain ⟨id, hid, hty⟩ := Table.tyOf?_of_meaning? hmeaning
  refine ⟨id, first, hid, hfirst, hty, ?_⟩
  intro n hn
  obtain ⟨scope, hscope, hwithin⟩ := hlexical.within htree hk n hn
  have hfun : (finalTable f).isFunction id = first.ty.isFunction := by
    rw [Table.isFunction, hty]
    rfl
  have henclosing := hwithin.enclosing_eq (valid_finalTable hf)
    (adds_program hf).outside.heading hid
  exact
    { enclosing := ⟨scope, hscope, by rw [henclosing, hfun]⟩
      returnValue := judge_returnValue hscope hty henclosing
      returnVoid := judge_returnVoid hscope hty henclosing }

/-- Returns with and without a value in three functions.  The first has a local of
its own name and the second a parameter; the name of the third is that of an
earlier variable. -/
def mixedReturns : Forest := .ofTrees [
  .varDecl "clash" .int 1,
  .funDecl "get" .int [] (.compound [.varDecl "get" .int 2]
    [.compound [] [.returnVoid 3] 3, .returnValue (.const 1 4) 4] 2) 2,
  .funDecl "put" .void [.param "put" .int 5] (.compound []
    [.returnValue (.var "put" 6) 6, .returnVoid 7] 5) 5,
  .funDecl "clash" .void [] (.compound []
    [.returnValue (.const 1 9) 9, .returnVoid 10] 8) 8]

open Scoping Typing in
/-- One of the two returns is wrong in each of the first two functions, and nothing
is said about the returns of the third. -/
theorem analyze_returns_mixedReturns :
    mixedReturns.Outer ∧
      ∃ a reports, analyze {} mixedReturns = .ok a ∧
        a.log.entries.toList =
          [.redefinition "clash" 8, .invalidReturnType 3, .invalidReturnType 6] ∧
        ((a.forest.nodes.filter (·.label.kind.isReturn)).map fun n =>
            (n.label.line, (judge true a.table n).complaint)) =
          [(3, some (.invalidReturnType 3)), (4, none), (6, some (.invalidReturnType 6)),
            (7, none), (9, none), (10, none)] ∧
        a.forest.bare = mixedReturns.bare ∧
        a.log.entries.toList = reports ++ (a.forest.postorder.filterMap fun n =>
          (judge true a.table n).complaint) ∧
        (∀ d ∈ reports, d.isDeclaration = true) ∧
        ∀ tree ∈ a.forest.trees, ∀ name spec, tree.label.kind = .funDecl name spec →
          ∃ id first, a.table.lookupLocal 0 name = some id ∧
            Decl.find? (builtins ++ mixedReturns.globals) name = some first ∧
            a.table.tyOf? id = some first.ty ∧
            ∀ n ∈ (Forest.single tree).nodes, OwnedBy true a.table id first.ty n := by
  have hshape : mixedReturns.IsProgram := by decide
  obtain ⟨a, reports, hanalyze, howned⟩ := analyze_returns {} hshape.outer
  have hseen : ((analyze {} mixedReturns).toOption.map fun a =>
      (a.log.entries.toList, (a.forest.nodes.filter (·.label.kind.isReturn)).map fun n =>
        (n.label.line, (judge true a.table n).complaint))) =
      some ([.redefinition "clash" 8, .invalidReturnType 3, .invalidReturnType 6],
        [(3, some (.invalidReturnType 3)), (4, none), (6, some (.invalidReturnType 6)),
          (7, none), (9, none), (10, none)]) := by decide +kernel
  rw [hanalyze] at hseen
  obtain ⟨hlog, hreturns⟩ := Prod.mk.inj (Option.some.inj hseen)
  exact ⟨hshape.outer, a, reports, hanalyze, hlog, hreturns, howned⟩

end CMinus
