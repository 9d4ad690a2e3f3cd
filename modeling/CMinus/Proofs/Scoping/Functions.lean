import CMinus.Proofs.Scoping.Blocks

/-!
# Scoping a function

At the outermost level the walk is between two declarations: only the outermost
scope is open and the registers are at rest (`Scoping.Outside`).  A function
puts its name into that scope and then opens a scope of its own, which its
parameters and the declarations of its block fill one after the other.

While the parameters are walked, the symbol that the function has just made is
*pending*: it alone may still change, by gaining parameters.  The signature it
ends up with is `Decl.signature`, and a function that lost its name to an
earlier declaration has nothing pending at all.

`Scoping.headed`, `Scoping.equipped` and `Scoping.finished` are the states on
the way through a function: with its parameters known, with the declarations of
its block known, and with its block behind.  `after_function` and
`marked_function` say that a walk goes through them.
-/

namespace CMinus

/-- The types of parameters, in order, each name counting only once. -/
def Decl.signature : (seen : List String) → List Decl → List Ty
  | _, [] => []
  | seen, d :: ds =>
    if d.name ∈ seen then signature seen ds else d.ty :: signature (d.name :: seen) ds

namespace Scoping

/-! ## The signature of a function -/

/-- Declaring adds no parameters to a symbol that was there before. -/
theorem params?_declare {t : Table} (hv : t.Valid) {scope : ScopeId}
    (hscope : scope < t.scopes.size) {id : SymbolId} (hid : id < t.symbols.size)
    (name : String) (ty : Ty) (line : UInt32) :
    (t.declare scope name ty line).2.params? id = t.params? id :=
  (Table.grows_declare (O := fun _ => True) (P := fun _ => False) hv hscope trivial
    name ty line).params_eq id hid (fun h => h)

theorem params?_addParameter (t : Table) (k : SymbolId) (ty : Ty) :
    (t.addParameter k ty).params? k = (t.params? k).map (· ++ [ty]) := by
  simp [Table.params?, Table.addParameter, Array.getElem?_modify, Function.comp_def]

/-- The signature gains the type of a parameter whose name is new. -/
theorem params?_declareParameter {s : Scoping} {here : ScopeId} {id : SymbolId}
    (hv : s.table.Valid) (htop : s.table.top? = some here)
    (hsig : s.table.signature? here = some id) (hredef : s.redefined = false)
    (o : Object) (line : UInt32) :
    (s.declareParameter here o.name o.spec o.base o.site line).table.params? id =
      (s.table.params? id).map
        (· ++ if (s.table.lookupLocal here o.name).isSome then [] else [o.ty]) := by
  obtain ⟨_, _, _, hid, _⟩ := signature?_eq_some hsig
  have hold := params?_declare hv (lt_of_top? hv htop) (Table.symbol_lt_of_lookupLocal hid)
    o.name o.ty line
  rw [declareParameter_eq]
  simp only [hsig, hredef, declareObject_eq]
  cases s.table.lookupLocal here o.name with
  | some k => simpa using hold
  | none =>
      show (Table.addParameter _ id o.ty).params? id = _
      rw [params?_addParameter, hold]
      simp

/-- A chain of parameters adds its signature, minus the names that the scope
knows already. -/
theorem params?_of_params {a : Forest} (ha : a.Leaves Kind.isParam) {s : Scoping}
    {here : ScopeId} {id : SymbolId} {seen : List String} (hv : s.table.Valid)
    (htop : s.table.top? = some here) (hsig : s.table.signature? here = some id)
    (hredef : s.redefined = false)
    (hseen : ∀ name, name ∈ seen ↔ (s.table.meaning? here name).isSome = true) :
    (s.after a).table.params? id =
      (s.table.params? id).map (· ++ Decl.signature seen a.decls) := by
  induction ha generalizing s seen with
  | nil => simp [Decl.signature]
  | @cons l rest hk _ ih =>
      obtain ⟨o, ho, hstep⟩ := step_of_param hk
      obtain ⟨hc, hf⟩ := not_block_of_object? ho
      have hfill := fills_declareParameter (P := fun _ => True) hv htop
        (fun _ _ _ => trivial) o l.line
      have hparams := params?_declareParameter hv htop hsig hredef o l.line
      rw [← hstep s here] at hfill hparams
      have hsig' := (hfill.signature?_eq hv (lt_of_top? hv htop)).trans hsig
      have hredef' := hfill.redefined.trans hredef
      rw [after_leaf hc hf, enter_eq l htop, Forest.decls_node ho]
      by_cases hmem : o.name ∈ seen
      · have hknown : (s.table.lookupLocal here o.name).isSome = true := by
          rw [← Table.isSome_meaning?]
          exact (hseen o.name).mp hmem
        have hnext : ∀ name, name ∈ seen ↔
            ((s.step here l.kind l.line).table.meaning? here name).isSome = true := by
          intro name
          rw [hfill.entry, Decl.find?_singleton, Option.isSome_or, Bool.or_eq_true, ← hseen]
          constructor
          · exact .inl
          · rintro (h | h)
            · exact h
            · split at h
              · next hname => exact hname ▸ hmem
              · exact absurd h (by simp)
        rw [ih hfill.valid hfill.top hsig' hredef' hnext, hparams, hknown]
        simp [Decl.signature, Object.decl, hmem]
      · have hfree : (s.table.lookupLocal here o.name).isSome = false := by
          rw [← Table.isSome_meaning?]
          exact Bool.eq_false_iff.mpr fun h => hmem ((hseen o.name).mpr h)
        have hnext : ∀ name, name ∈ o.name :: seen ↔
            ((s.step here l.kind l.line).table.meaning? here name).isSome = true := by
          intro name
          rw [hfill.entry, Decl.find?_singleton, Option.isSome_or, Bool.or_eq_true, ← hseen,
            List.mem_cons, or_comm]
          show _ ∨ name = o.name ↔ _ ∨ (if name = o.name then _ else none).isSome = true
          by_cases hname : name = o.name <;> simp [hname]
        rw [ih hfill.valid hfill.top hsig' hredef' hnext, hparams, hfree]
        simp [Decl.signature, Object.decl, hmem, Function.comp_def]

/-! ## The outermost level -/

/-- The walk is between two declarations at the outermost level. -/
structure Outside (s : Scoping) : Prop where
  valid : s.table.Valid
  top : s.table.top? = some 0
  heading : s.table.heading? 0 = some (globalName, none)
  blockName : s.blockName = globalName
  entering : s.entering = false

theorem Outside.pos {s : Scoping} (hs : Outside s) : 0 < s.table.scopes.size :=
  Table.lt_of_heading? hs.heading

/-- Declaring a function: its name goes into the given scope, and a scope of its
own is opened. -/
theorem declareFunction_eq (s : Scoping) (scope : ScopeId) (name : String) (spec : Spec)
    (line : UInt32) :
    s.declareFunction scope name spec line =
      { table := (s.table.declare scope name (.functionReturning spec) line).2.push name
        log := s.log.report? (functionComplaint s.table scope name line)
        blockName := name
        entering := true
        redefined := (s.table.lookupLocal scope name).isSome } := by
  unfold declareFunction functionComplaint
  cases hfree : s.table.lookupLocal scope name with
  | some k => simp [Table.declare_of_lookupLocal_eq_some hfree, Log.report?]
  | none => simp [Table.declare_of_lookupLocal_eq_none hfree, Log.report?]

section Function

variable {s : Scoping} (name : String) (spec : Spec) (line : UInt32)

/-- A function is marked with the scope it opens. -/
theorem enter_of_function {l : Label} {name : String} {spec : Spec}
    (hk : l.kind = .funDecl name spec) (hs : Outside s) :
    enter l s =
      ((l.inScope s.table.scopes.size).marks, s.declareFunction 0 name spec l.line) := by
  rw [enter_eq l hs.top, hk]
  simp only [step, declareFunction_eq, Table.top?_push, Table.nextScope,
    Table.size_scopes_declare, Label.inScope]

variable (s) in
/-- The state in which the parameters of a function are entered. -/
def declared : Scoping := s.declareFunction 0 name spec line

theorem table_declared :
    (s.declared name spec line).table =
      (s.table.declare 0 name (.functionReturning spec) line).2.push name := by
  rw [declared, declareFunction_eq]

theorem valid_declared (hs : Outside s) : (s.declared name spec line).table.Valid := by
  rw [table_declared]
  exact (hs.valid.declare hs.pos name (.functionReturning spec) line).push name

theorem top?_declared :
    (s.declared name spec line).table.top? = some s.table.scopes.size := by
  rw [table_declared, Table.top?_push, Table.nextScope, Table.size_scopes_declare]

theorem heading?_declared (hs : Outside s) :
    (s.declared name spec line).table.heading? s.table.scopes.size = some (name, some 0) := by
  have hsize := Table.size_scopes_declare s.table 0 name (.functionReturning spec) line
  rw [table_declared, ← hsize, Table.heading?_push_self, Table.top?_declare, hs.top]

theorem grows_declared (hs : Outside s) :
    s.table.Extends (s.declared name spec line).table := by
  rw [table_declared]
  exact (Table.grows_declare (O := (· = 0)) hs.valid hs.pos rfl name
    (.functionReturning spec) line).append (Table.grows_push _ name)

theorem meaning?_declared_self (name' : String) :
    (s.declared name spec line).table.meaning? s.table.scopes.size name' = none := by
  have hsize := Table.size_scopes_declare s.table 0 name (.functionReturning spec) line
  rw [table_declared, ← hsize, Table.meaning?_push_self]

variable (s) in
/-- The symbol whose signature the parameters of a function called `name` go to:
the one its declaration makes. -/
def Pending (id : SymbolId) : Prop :=
  s.table.lookupLocal 0 name = none ∧ id = s.table.symbols.size

/-- What is pending is newer than every symbol from before. -/
theorem not_pending_of_lt {name : String} {id : SymbolId} (h : id < s.table.symbols.size) :
    ¬s.Pending name id :=
  fun hpending => Nat.ne_of_lt h hpending.2

theorem lookupLocal_declared (hs : Outside s) (hfree : s.table.lookupLocal 0 name = none) :
    (s.declared name spec line).table.lookupLocal 0 name = some s.table.symbols.size := by
  rw [table_declared, Table.lookupLocal_push,
    hs.valid.lookupLocal_declare hs.pos hfree, if_pos ⟨rfl, rfl⟩]
  rfl

theorem signature?_declared (hs : Outside s) (hfree : s.table.lookupLocal 0 name = none) :
    (s.declared name spec line).table.signature? s.table.scopes.size =
      some s.table.symbols.size := by
  have hty : (s.declared name spec line).table.tyOf? s.table.symbols.size =
      some (.functionReturning spec) := by
    rw [table_declared]
    exact tyOf?_declare_of_free hfree (.functionReturning spec) line
  rw [signature?_eq, heading?_declared name spec line hs]
  simp only [Option.bind_some, lookupLocal_declared name spec line hs hfree,
    Option.filter_some, Table.isFunction, hty, Option.any_some,
    Ty.isFunction_functionReturning, if_true]

/-- The parameters fill the scope of the function. -/
theorem fills_params (hs : Outside s) {params : Forest} (hp : params.Leaves Kind.isParam) :
    Fills s.table.scopes.size (s.Pending name) params.decls (s.declared name spec line)
      ((s.declared name spec line).after params) := by
  refine fills_of_params hp (valid_declared name spec line hs)
    (top?_declared name spec line) ?_
  intro id hsig hredef
  have hfree : s.table.lookupLocal 0 name = none := by
    simpa [declared, declareFunction_eq] using hredef
  rw [signature?_declared name spec line hs hfree] at hsig
  exact ⟨hfree, (Option.some.inj hsig).symm⟩

/-- What a symbol says, from its settled part and its parameters. -/
theorem meaning?_eq_some {t : Table} {scope : ScopeId} {name : String} {id : SymbolId}
    {sym : Symbol} {params : List Ty} (hid : t.lookupLocal scope name = some id)
    (hfixed : t.fixed? id = some sym) (hparams : t.params? id = some params) :
    t.meaning? scope name = some ⟨sym.name, sym.ty, params, sym.firstLine⟩ := by
  obtain ⟨s, hs, rfl⟩ := Option.map_eq_some_iff.mp hfixed
  obtain ⟨s', hs', rfl⟩ := Option.map_eq_some_iff.mp hparams
  obtain rfl : s = s' := Option.some.inj (hs.symm.trans hs')
  simp only [Table.meaning?, hid, Option.bind_some, hs, Option.map_some, Symbol.decl_eq]

/-- A function whose name is free is known in the outermost scope with the
signature that its parameters give it. -/
theorem meaning?_params_of_free (hs : Outside s) (hfree : s.table.lookupLocal 0 name = none)
    {params : Forest} (hp : params.Leaves Kind.isParam) :
    ((s.declared name spec line).after params).table.meaning? 0 name =
      some ⟨name, .functionReturning spec, Decl.signature [] params.decls, line⟩ := by
  have hfill := fills_params name spec line hs hp
  have hid := lookupLocal_declared name spec line hs hfree
  have hlt := Table.symbol_lt_of_lookupLocal hid
  have hsym : (s.declared name spec line).table.symbols[s.table.symbols.size]? =
      some (s.table.fresh 0 name (.functionReturning spec) line) := by
    rw [table_declared, Table.declare_of_lookupLocal_eq_none hfree]
    simp [Table.push]
  have hredef : (s.declared name spec line).redefined = false := by
    simp [declared, declareFunction_eq, hfree]
  have hseen : ∀ name', name' ∈ ([] : List String) ↔
      ((s.declared name spec line).table.meaning? s.table.scopes.size name').isSome = true := by
    simp [meaning?_declared_self]
  have hparams := params?_of_params hp (valid_declared name spec line hs)
    (top?_declared name spec line) (signature?_declared name spec line hs hfree) hredef hseen
  have hfixed := hfill.grows.fixed_eq _ hlt
  rw [Table.fixed?, Table.fixed?, hsym] at hfixed
  rw [Table.params?, Table.params?, hsym] at hparams
  exact meaning?_eq_some (hfill.grows.kept 0 name _ hid) hfixed hparams

/-- With its parameters a function adds one declaration to the outermost
scope, which counts unless the name was taken. -/
theorem meaning?_params (hs : Outside s) {params : Forest} (hp : params.Leaves Kind.isParam)
    (name' : String) :
    ((s.declared name spec line).after params).table.meaning? 0 name' =
      (s.table.meaning? 0 name').or (Decl.find?
        [⟨name, .functionReturning spec, Decl.signature [] params.decls, line⟩] name') := by
  have hknown := Table.isSome_meaning? s.table 0 name
  rw [Decl.find?_singleton]
  by_cases hnew : name' = name ∧ s.table.lookupLocal 0 name = none
  · obtain ⟨rfl, hfree⟩ := hnew
    rw [hfree, Option.isSome_none, Option.isSome_eq_false_iff, Option.isNone_iff_eq_none] at hknown
    rw [meaning?_params_of_free name' spec line hs hfree hp, hknown]
    simp
  · -- the function's own symbol is not asked for, and all others are settled
    have hclosed : ∀ id, (s.declared name spec line).table.lookupLocal 0 name' = some id →
        ¬s.Pending name id := by
      intro id hid hpending
      rw [table_declared, Table.lookupLocal_push,
        hs.valid.lookupLocal_declare hs.pos hpending.1] at hid
      rw [if_neg (fun h => hnew ⟨h.2, hpending.1⟩)] at hid
      exact not_pending_of_lt (Table.symbol_lt_of_lookupLocal hid) hpending
    have hpos := Nat.lt_of_lt_of_le hs.pos (grows_declared name spec line hs).scopes_le
    rw [(fills_params name spec line hs hp).grows.meaning?_eq_of_closed hpos
      (Nat.ne_of_lt hs.pos) hclosed]
    have hpush : (s.declared name spec line).table.meaning? 0 name' =
        (s.table.declare 0 name (.functionReturning spec) line).2.meaning? 0 name' := by
      rw [table_declared, Table.meaning?, Table.lookupLocal_push]
      rfl
    rw [hpush, Table.meaning?_declare hs.valid hs.pos]
    by_cases hname : name' = name
    · subst hname
      cases hid : s.table.lookupLocal 0 name' with
      | none => exact absurd ⟨rfl, hid⟩ hnew
      | some id =>
          rw [hid, Option.isSome_some, Option.isSome_iff_exists] at hknown
          obtain ⟨d, hd⟩ := hknown
          simp [hd]
    · simp [hname]

end Function

/-! ## Walking a function -/

/-- The state in which the declarations of a function's block are entered. -/
def headed (s : Scoping) (l : Label) (params : Forest) : Scoping :=
  { (enter l s).2.after params with entering := false }

/-- The state in which the statements of a function's block are entered. -/
def equipped (s : Scoping) (l : Label) (params locals : Forest) : Scoping :=
  (s.headed l params).after locals

/-- The state after a function that was entered in `s`. -/
def finished (s : Scoping) (l : Label) (params locals stmts : Forest) : Scoping :=
  let s' := (s.equipped l params locals).after stmts
  { s' with
    table := s'.table.pop
    blockName := globalName
    entering := false
    redefined := false }

section Walk

variable {s : Scoping} {l block : Label} {name : String} {spec : Spec}
  {params locals stmts : Forest}

theorem headed_eq (hk : l.kind = .funDecl name spec) (hs : Outside s) :
    s.headed l params =
      { (s.declared name spec l.line).after params with entering := false } := by
  rw [headed, enter_of_function hk hs, declared]

theorem inside_headed (hk : l.kind = .funDecl name spec) (hs : Outside s)
    (hp : params.Leaves Kind.isParam) :
    Inside name s.table.scopes.size (s.headed l params) := by
  have hfill := fills_params name spec l.line hs hp
  rw [headed_eq hk hs]
  exact
    { valid := hfill.valid
      top := hfill.top
      blockName := by
        rw [hfill.blockName, declared, declareFunction_eq]
      entering := rfl }

theorem fills_equipped (hk : l.kind = .funDecl name spec) (hs : Outside s)
    (hp : params.Leaves Kind.isParam) (hl : locals.Leaves Kind.isObject) :
    Fills s.table.scopes.size (fun _ => False) locals.decls (s.headed l params)
      (s.equipped l params locals) :=
  fills_of_objects hl (inside_headed hk hs hp).valid (inside_headed hk hs hp).top

theorem inside_equipped (hk : l.kind = .funDecl name spec) (hs : Outside s)
    (hp : params.Leaves Kind.isParam) (hl : locals.Leaves Kind.isObject) :
    Inside name s.table.scopes.size (s.equipped l params locals) :=
  (fills_equipped hk hs hp hl).inside (inside_headed hk hs hp)

/-- The scope of a function holds its parameters and, behind them, the
declarations of its block. -/
theorem meaning?_equipped (hk : l.kind = .funDecl name spec) (hs : Outside s)
    (hp : params.Leaves Kind.isParam) (hl : locals.Leaves Kind.isObject) (name' : String) :
    (s.equipped l params locals).table.meaning? s.table.scopes.size name' =
      Decl.find? (params.decls ++ locals.decls) name' := by
  have hparams := (fills_params name spec l.line hs hp).entry name'
  rw [meaning?_declared_self, Option.none_or] at hparams
  rw [(fills_equipped hk hs hp hl).entry, Decl.find?_append, headed_eq hk hs]
  exact congrArg (Option.or · _) hparams

theorem grows_headed (hk : l.kind = .funDecl name spec) (hs : Outside s)
    (hp : params.Leaves Kind.isParam) :
    s.table.Extends (s.headed l params).table := by
  rw [headed_eq hk hs]
  exact (grows_declared name spec l.line hs).trans (fills_params name spec l.line hs hp).grows
    (fun _ hid h => absurd h (Nat.ne_of_lt hid)) (fun _ hid h => not_pending_of_lt hid h)

theorem grows_equipped (hk : l.kind = .funDecl name spec) (hs : Outside s)
    (hp : params.Leaves Kind.isParam) (hl : locals.Leaves Kind.isObject) :
    s.table.Extends (s.equipped l params locals).table :=
  (grows_headed hk hs hp).trans (fills_equipped hk hs hp hl).grows
    (fun _ hid h => absurd h (Nat.ne_of_lt hid)) (fun _ _ h => h)

theorem heading?_headed (hk : l.kind = .funDecl name spec) (hs : Outside s)
    (hp : params.Leaves Kind.isParam) :
    (s.headed l params).table.heading? s.table.scopes.size = some (name, some 0) := by
  have hfill := fills_params name spec l.line hs hp
  have hlt := Table.lt_of_heading? (heading?_declared name spec l.line hs)
  rw [headed_eq hk hs]
  exact (hfill.grows.heading_eq _ hlt).trans (heading?_declared name spec l.line hs)

theorem passes_body (hk : l.kind = .funDecl name spec) (hs : Outside s)
    (hp : params.Leaves Kind.isParam) (hl : locals.Leaves Kind.isObject)
    (hstmts : stmts.Inner) :
    Passes (s.equipped l params locals) ((s.equipped l params locals).after stmts) :=
  passes_of_inner hstmts (inside_equipped hk hs hp hl)

theorem grows_body (hk : l.kind = .funDecl name spec) (hs : Outside s)
    (hp : params.Leaves Kind.isParam) (hl : locals.Leaves Kind.isObject)
    (hstmts : stmts.Inner) :
    s.table.Extends ((s.equipped l params locals).after stmts).table :=
  (grows_equipped hk hs hp hl).trans (passes_body hk hs hp hl hstmts).grows
    (fun _ _ h => h.elim) (fun _ _ h => h)

/-- The block of a function takes over the scope that the function opened. -/
theorem enter_body (hk : l.kind = .funDecl name spec) (hs : Outside s)
    (hp : params.Leaves Kind.isParam) (hblock : block.kind = .compound) :
    enter block ((enter l s).2.after params) =
      ((block.inScope s.table.scopes.size).marks, s.headed l params) := by
  have hfill := fills_params name spec l.line hs hp
  have hentering : ((s.declared name spec l.line).after params).entering = true := by
    rw [hfill.entering, declared, declareFunction_eq]
  rw [headed_eq hk hs, enter_of_function hk hs]
  show enter block ((s.declared name spec l.line).after params) = _
  rw [enter_eq block hfill.top, hblock]
  simp only [step, openBlock, hentering, if_true, hfill.top, Label.inScope]

theorem nameAround_eq {t : Table} {id : ScopeId} {name around : String}
    (h : t.heading? id = some (name, some 0)) (h' : t.heading? 0 = some (around, none)) :
    nameAround t (some id) = around := by
  obtain ⟨s, hs, _, hparent⟩ := Table.heading?_eq_some_iff.mp h
  obtain ⟨s', hs', hname, _⟩ := Table.heading?_eq_some_iff.mp h'
  simp [nameAround, hs, hparent, hs', hname]

/-- Leaving a function whose block was reached puts the registers to rest. -/
theorem exit_of_function (hk : l.kind = .funDecl name spec)
    (hentering : s.entering = false) :
    exit l s =
      { s with
        blockName := nameAround s.table l.marks.scope
        entering := false
        redefined := false } := by
  simp [exit, leave, hk, hentering]

theorem exit_body (hk : l.kind = .funDecl name spec) (hs : Outside s)
    (hp : params.Leaves Kind.isParam) (hl : locals.Leaves Kind.isObject)
    (hstmts : stmts.Inner) (hblock : block.kind = .compound) :
    exit (l.inScope s.table.scopes.size)
      (exit (block.inScope s.table.scopes.size) ((s.equipped l params locals).after stmts)) =
        s.finished l params locals stmts := by
  have hpass := passes_body hk hs hp hl hstmts
  have hinside := inside_headed hk hs hp
  have hentering : ((s.equipped l params locals).after stmts).entering = false :=
    hpass.entering.trans (inside_equipped hk hs hp hl).entering
  have hgrows := (fills_equipped hk hs hp hl).grows.trans hpass.grows
    (fun _ _ h => h.elim) (fun _ _ h => h)
  have hheading : ((s.equipped l params locals).after stmts).table.heading?
      s.table.scopes.size = some (name, some 0) := by
    rw [hgrows.heading_eq _ (lt_of_top? hinside.valid hinside.top), heading?_headed hk hs hp]
  have hglobal : ((s.equipped l params locals).after stmts).table.heading? 0 =
      some (globalName, none) := by
    rw [(grows_body hk hs hp hl hstmts).heading_eq 0 hs.pos, hs.heading]
  unfold finished
  generalize (s.equipped l params locals).after stmts = s' at hentering hheading hglobal ⊢
  have hname := nameAround_eq (t := s'.table.pop) hheading hglobal
  rw [exit_of_compound (l := block.inScope _) hblock,
    exit_of_function (s := { s' with table := s'.table.pop }) (l := l.inScope _) hk hentering]
  simp only [Label.scope_inScope, hname]

/-- Walking a function. -/
theorem after_function (hk : l.kind = .funDecl name spec) (hs : Outside s)
    (hp : params.Leaves Kind.isParam) (hblock : block.kind = .compound)
    (hl : locals.Leaves Kind.isObject) (hstmts : stmts.Inner) (rest : Forest) :
    s.after (.node l params (.node block locals stmts .nil .nil) .nil rest) =
      (s.finished l params locals stmts).after rest := by
  rw [after_node, after_node, enter_body hk hs hp hblock, enter_of_function hk hs,
    ← exit_body hk hs hp hl hstmts hblock]
  rfl

/-- What is left behind of a function: the function, its block and its
declarations are marked with one scope. -/
theorem marked_function (hk : l.kind = .funDecl name spec) (hs : Outside s)
    (hp : params.Leaves Kind.isParam) (hblock : block.kind = .compound)
    (hl : locals.Leaves Kind.isObject) (hstmts : stmts.Inner) (rest : Forest) :
    s.marked (.node l params (.node block locals stmts .nil .nil) .nil rest) =
      .node (l.inScope s.table.scopes.size)
        ((s.declared name spec l.line).marked params)
        (.node (block.inScope s.table.scopes.size)
          ((s.headed l params).marked locals)
          ((s.equipped l params locals).marked stmts) .nil .nil)
        .nil ((s.finished l params locals stmts).marked rest) := by
  rw [marked_node, ← exit_body hk hs hp hl hstmts hblock]
  simp only [marked_node, after_node, enter_body hk hs hp hblock, marked_nil, after_nil]
  rw [enter_of_function hk hs]
  rfl

end Walk

end Scoping

end CMinus
