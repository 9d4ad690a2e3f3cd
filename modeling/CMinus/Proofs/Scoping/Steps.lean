import CMinus.Scoping
import CMinus.Proofs.Table.Growth
import CMinus.Proofs.Tree.Shape

/-!
# The steps of scoping

What one step of the first pass does to the table, stated once for every kind
of node.  The four kinds that declare a variable or a parameter differ in
their data only; `Kind.object?` collects it, and each of them is
`Scoping.declareObject` or `Scoping.declareParameter` on that data.

The second half holds for trees of every shape.  `change_enter` lists all that
entering a node can do to a table, and other facts are read off that list: a step
keeps the table valid, only makes it grow, and makes at most one symbol, whose
name, scope and first line are those of the node being entered.
-/

namespace CMinus

/-- What a node says that declares a variable or a parameter. -/
structure Object where
  name : String
  spec : Spec
  /-- The type it has unless it is declared `void`. -/
  base : Ty
  site : VoidSite

namespace Object

/-- The type that is stored: `void` is no type for an object. -/
def ty (o : Object) : Ty := if o.spec = .void then .poison else o.base

/-- The declaration made on a line. -/
def decl (o : Object) (line : UInt32) : Decl := { name := o.name, ty := o.ty, line }

/-- What is reported about the declaration, given the table before it. -/
def complaint (o : Object) (t : Table) (scope : ScopeId) (line : UInt32) :
    Option Diagnostic :=
  if (t.lookupLocal scope o.name).isSome then some (.redefinition o.name line)
  else if o.spec = .void then some (.voidDeclaration o.site o.name line)
  else none

end Object

namespace Kind

/-- The variable or parameter that a node declares. -/
def object? : Kind → Option Object
  | varDecl name spec => some ⟨name, spec, .int, .variable⟩
  | arrayDecl name spec _ => some ⟨name, spec, .intArray, .variable⟩
  | param name spec => some ⟨name, spec, .int, .parameter⟩
  | arrayParam name spec => some ⟨name, spec, .intArray, .arrayParameter⟩
  | _ => none

theorem name?_of_object? {k : Kind} {o : Object} (h : k.object? = some o) :
    k.name? = some o.name := by
  cases k <;> simp [object?] at h <;> subst h <;> rfl

/-- No object is a function. -/
theorem isFunction_ty_of_object? {k : Kind} {o : Object} (h : k.object? = some o) :
    o.ty.isFunction = false := by
  cases k <;> simp [object?] at h <;> subst h <;> simp only [Object.ty] <;> split <;> rfl

end Kind

namespace Label

/-- The label, marked with a scope. -/
def inScope (l : Label) (id : ScopeId) : Label :=
  { l with marks := { l.marks with scope := some id } }

@[simp] theorem kind_inScope (l : Label) (id : ScopeId) : (l.inScope id).kind = l.kind := rfl

@[simp] theorem line_inScope (l : Label) (id : ScopeId) : (l.inScope id).line = l.line := rfl

@[simp] theorem scope_inScope (l : Label) (id : ScopeId) :
    (l.inScope id).marks.scope = some id := rfl

end Label

/-- The diagnostic is about a declaration. -/
def Diagnostic.isDeclaration : Diagnostic → Bool
  | redefinition .. | voidDeclaration .. => true
  | _ => false

namespace Scoping

variable {s : Scoping}

/-! ## One node at a time -/

/-- The state after walking a chain. -/
def after (s : Scoping) (f : Forest) : Scoping := (f.walk visitor s).2

/-- The chain as the walk leaves it behind. -/
def marked (s : Scoping) (f : Forest) : Forest := (f.walk visitor s).1

/-- The state after leaving a node with this label. -/
def exit (l : Label) (s : Scoping) : Scoping := (leave { label := l } s).2

/-- Leaving a node reads its label only, and writes no mark. -/
theorem leave_eq (t : Tree) (s : Scoping) : leave t s = (t.label.marks, exit t.label s) := by
  unfold exit leave
  cases t.label.kind <;> rfl

@[simp] theorem after_nil (s : Scoping) : s.after .nil = s := rfl

@[simp] theorem marked_nil (s : Scoping) : s.marked .nil = .nil := rfl

/-- Walking a node: enter it, walk its slots, leave it, walk the rest. -/
theorem after_node (s : Scoping) (l : Label) (a b c rest : Forest) :
    s.after (.node l a b c rest) =
      (exit { l with marks := (enter l s).1 }
        ((((enter l s).2.after a).after b).after c)).after rest := by
  simp only [after, visitor, Forest.walk_marking_node, leave_eq]

theorem marked_node (s : Scoping) (l : Label) (a b c rest : Forest) :
    s.marked (.node l a b c rest) =
      let s₁ := (enter l s).2
      let s₄ := ((s₁.after a).after b).after c
      .node { l with marks := (enter l s).1 } (s₁.marked a) ((s₁.after a).marked b)
        (((s₁.after a).after b).marked c)
        ((exit { l with marks := (enter l s).1 } s₄).marked rest) := by
  simp only [marked, after, visitor, Forest.walk_marking_node, leave_eq]

/-- With a scope open, entering is a step in that scope, and the mark is the
scope that is innermost afterwards. -/
theorem enter_eq (l : Label) {here : ScopeId} (htop : s.table.top? = some here) :
    enter l s =
      ({ l.marks with scope := (s.step here l.kind l.line).table.top? },
        s.step here l.kind l.line) := by
  simp only [enter, htop]

theorem exit_of_plain {l : Label} (hc : l.kind ≠ .compound) (hf : l.kind.isFunction = false)
    (s : Scoping) : exit l s = s := by
  cases hl : l.kind <;> simp_all [exit, leave, Kind.isFunction]

theorem exit_of_compound {l : Label} (hk : l.kind = .compound) (s : Scoping) :
    exit l s = { s with table := s.table.pop } := by
  simp [exit, leave, hk]

/-! ## Declaring an object -/

theorem declareObject_eq (s : Scoping) (scope : ScopeId) (o : Object) (line : UInt32) :
    s.declareObject scope o.name o.spec o.base o.site line =
      (match (s.table.declare scope o.name o.ty line).1 with
        | .taken _ => none
        | .added id => some id,
       { s with
         table := (s.table.declare scope o.name o.ty line).2
         log := s.log.report? (o.complaint s.table scope line) }) := by
  unfold declareObject Object.complaint Object.ty
  cases hfree : s.table.lookupLocal scope o.name with
  | some k => simp [Table.declare_of_lookupLocal_eq_some hfree, Log.report?]
  | none => simp [Table.declare_of_lookupLocal_eq_none hfree]

theorem step_of_object {l : Label} (hk : l.kind.isObject = true) :
    ∃ o, l.kind.object? = some o ∧
      ∀ (s : Scoping) (here : ScopeId), s.step here l.kind l.line =
        (s.declareObject here o.name o.spec o.base o.site l.line).2 := by
  cases hl : l.kind with
  | varDecl name spec => exact ⟨_, rfl, fun _ _ => rfl⟩
  | arrayDecl name spec size => exact ⟨_, rfl, fun _ _ => rfl⟩
  | _ => simp [hl, Kind.isObject] at hk

theorem step_of_param {l : Label} (hk : l.kind.isParam = true) :
    ∃ o, l.kind.object? = some o ∧
      ∀ (s : Scoping) (here : ScopeId), s.step here l.kind l.line =
        s.declareParameter here o.name o.spec o.base o.site l.line := by
  cases hl : l.kind with
  | param name spec => exact ⟨_, rfl, fun _ _ => rfl⟩
  | arrayParam name spec => exact ⟨_, rfl, fun _ _ => rfl⟩
  | _ => simp [hl, Kind.isParam] at hk

/-- The type of the symbol that declaring a free name makes. -/
theorem tyOf?_declare_of_free {t : Table} {scope : ScopeId} {name : String}
    (hfree : t.lookupLocal scope name = none) (ty : Ty) (line : UInt32) :
    (t.declare scope name ty line).2.tyOf? t.nextSymbol = some ty := by
  simp [Table.declare_of_lookupLocal_eq_none hfree, Table.tyOf?, Table.nextSymbol, Table.fresh]

/-- A parameter is declared like any object.  If its name was free, its type
also goes to the function whose signature the scope collects, unless that
function is a redefinition. -/
theorem declareParameter_eq (s : Scoping) (scope : ScopeId) (o : Object) (line : UInt32) :
    s.declareParameter scope o.name o.spec o.base o.site line =
      let s' := (s.declareObject scope o.name o.spec o.base o.site line).2
      match s.table.lookupLocal scope o.name, s.table.signature? scope, s.redefined with
      | none, some function, false =>
        { s' with table := s'.table.addParameter function o.ty }
      | _, _, _ => s' := by
  unfold declareParameter
  rw [declareObject_eq]
  cases hfree : s.table.lookupLocal scope o.name with
  | some k => simp [Table.declare_of_lookupLocal_eq_some hfree]
  | none =>
      have hty := tyOf?_declare_of_free hfree o.ty line
      rw [Table.declare_of_lookupLocal_eq_none hfree] at hty ⊢
      simp only [hty]
      cases s.table.signature? scope <;> cases s.redefined <;> rfl

/-! ## Using a name -/

theorem step_of_plain {l : Label} (hk : l.kind.isPlain = true) (s : Scoping)
    (here : ScopeId) :
    s.step here l.kind l.line =
      match l.kind.use? with
      | none => s
      | some name => s.use here name l.line := by
  cases hl : l.kind <;> simp_all [step, Kind.isPlain, Kind.use?]

/-- A use is recorded on the symbol that the name means now, if any. -/
theorem use_eq (s : Scoping) (here : ScopeId) (name : String) (line : UInt32) :
    s.use here name line =
      { s with table := (s.table.lookup here name).elim s.table (s.table.reference · line) } := by
  unfold use
  cases s.table.lookup here name <;> rfl

/-! ## Reports -/

/-- What is reported when a function is declared, given the table before it. -/
def functionComplaint (t : Table) (scope : ScopeId) (name : String) (line : UInt32) :
    Option Diagnostic :=
  if (t.lookupLocal scope name).isSome then some (.redefinition name line) else none

/-- What is reported when a node is entered. -/
def complaint (s : Scoping) (l : Label) : Option Diagnostic :=
  s.table.top?.bind fun here =>
    match l.kind with
    | .funDecl name _ => functionComplaint s.table here name l.line
    | k => k.object?.bind fun o => o.complaint s.table here l.line

/-- Entering a node makes at most one report. -/
theorem log_enter (l : Label) (s : Scoping) :
    (enter l s).2.log = s.log.report? (s.complaint l) := by
  cases htop : s.table.top? with
  | none => simp [enter, complaint, htop, Log.report?]
  | some here =>
      have hobject : ∀ o : Object,
          (s.declareObject here o.name o.spec o.base o.site l.line).2.log =
            s.log.report? (o.complaint s.table here l.line) := by
        intro o
        rw [declareObject_eq]
      rw [enter_eq l htop, complaint, htop]
      show (s.step here l.kind l.line).log = _
      by_cases hplain : l.kind.isPlain = true
      · have hnone : l.kind.object? = none := by
          cases hl : l.kind <;> simp_all [Kind.isPlain, Kind.object?]
        rw [step_of_plain hplain]
        cases hl : l.kind <;> simp_all [Kind.isPlain, Kind.use?, use_eq, Log.report?]
      by_cases hvar : l.kind.isObject = true
      · obtain ⟨o, ho, hstep⟩ := step_of_object hvar
        rw [hstep, hobject]
        cases hl : l.kind <;> simp_all [Kind.isObject]
      by_cases hparam : l.kind.isParam = true
      · obtain ⟨o, ho, hstep⟩ := step_of_param hparam
        have hlog : (s.step here l.kind l.line).log =
            s.log.report? (o.complaint s.table here l.line) := by
          rw [hstep, declareParameter_eq]
          dsimp only
          split
          · exact hobject o
          · exact hobject o
        rw [hlog]
        cases hl : l.kind <;> simp_all [Kind.isParam]
      cases hl : l.kind with
      | compound =>
          simp only [step, openBlock, Option.bind_some, Kind.object?, Option.bind_none,
            Log.report?]
          split
          · rfl
          · rfl
      | funDecl name spec =>
          simp only [step, declareFunction, Option.bind_some, functionComplaint]
          cases hfree : s.table.lookupLocal here name with
          | some k => simp [Table.declare_of_lookupLocal_eq_some hfree, Log.report?]
          | none => simp [Table.declare_of_lookupLocal_eq_none hfree, Log.report?]
      | _ => simp [hl, Kind.isPlain, Kind.isObject, Kind.isParam] at hplain hvar hparam

/-- The first pass reports nothing but what is wrong with declarations. -/
theorem isDeclaration_of_complaint {s : Scoping} {l : Label} {d : Diagnostic}
    (h : s.complaint l = some d) : d.isDeclaration = true := by
  have hobject : ∀ (o : Object) (t : Table) (scope : ScopeId) (line : UInt32),
      o.complaint t scope line = some d → d.isDeclaration = true := by
    intro o t scope line ho
    unfold Object.complaint at ho
    split at ho
    · cases ho
      rfl
    · split at ho
      · cases ho
        rfl
      · exact absurd ho (by simp)
  obtain ⟨here, _, h⟩ := Option.bind_eq_some_iff.mp h
  split at h
  · unfold functionComplaint at h
    split at h
    · cases h
      rfl
    · exact absurd h (by simp)
  · obtain ⟨o, _, ho⟩ := Option.bind_eq_some_iff.mp h
    exact hobject o _ _ _ ho

/-- Leaving a node makes no report. -/
theorem log_leave (t : Tree) (s : Scoping) : (leave t s).2.log = s.log := by
  unfold leave
  cases t.label.kind <;> rfl

/-! ## Every step, on every tree -/

/-- A symbol that is looked up exists. -/
theorem symbol_lt_of_lookup {t : Table} {scope : ScopeId} {name : String} {id : SymbolId}
    (h : t.lookup scope name = some id) : id < t.symbols.size := by
  obtain ⟨sc, _, hid⟩ := List.exists_of_findSome?_eq_some h
  exact Table.symbol_lt_of_lookupLocal hid

theorem lt_of_top? {t : Table} (hv : t.Valid) {here : ScopeId} (htop : t.top? = some here) :
    here < t.scopes.size := by
  simp only [Table.top?, Option.map_eq_some_iff] at htop
  obtain ⟨frame, hframe, rfl⟩ := htop
  exact hv.open_lt frame (List.mem_of_mem_head? hframe)

/-- A later table in which nothing has been lost. -/
abbrev Later (t t' : Table) : Prop := t.Grows (fun _ => True) (fun _ => True) t'

/-- The next symbol was made, with the name and the line of the node, in the
innermost open scope. -/
def Makes (l : Label) (t t' : Table) : Prop :=
  t'.symbols.size = t.symbols.size + 1 ∧
    ∃ here sym, t.top? = some here ∧ t'.fixed? t.symbols.size = some sym ∧
      l.kind.name? = some sym.name ∧ sym.scope = here ∧ sym.lines = [l.line]

/-- What entering a node can do to a valid table. -/
structure Entered (l : Label) (t t' : Table) : Prop where
  valid : t'.Valid
  later : Later t t'
  rooted : t.Rooted → t'.Rooted
  symbols : t'.symbols.size = t.symbols.size ∨ Makes l t t'

namespace Entered

variable {l : Label} {t t' : Table}

theorem same (hv : t.Valid) : Entered l t t :=
  ⟨hv, Table.Grows.refl t, fun h => h, .inl rfl⟩

theorem push (h : Entered l t t') {here : ScopeId} (htop : t'.top? = some here)
    (name : String) : Entered l t (t'.push name) :=
  ⟨h.valid.push name, h.later.append (Table.grows_push t' name),
    fun hr => Table.rooted_push (h.rooted hr) htop name, h.symbols⟩

theorem addParameter (h : Entered l t t') (k : SymbolId) (ty : Ty) :
    Entered l t (t'.addParameter k ty) := by
  refine ⟨h.valid.addParameter k ty,
    h.later.append (Table.grows_addParameter trivial t' ty), h.rooted, ?_⟩
  have hsize : (t'.addParameter k ty).symbols.size = t'.symbols.size := by
    simp [Table.addParameter]
  rcases h.symbols with hsame | ⟨hone, here, sym, htop, hfixed, hsym⟩
  · exact .inl (by rw [hsize, hsame])
  · exact .inr ⟨by rw [hsize, hone], here, sym, htop, by
      rw [Table.fixed?_addParameter, hfixed], hsym⟩

theorem reference (hv : t.Valid) (k : SymbolId) (line : UInt32) :
    Entered l t (t.reference k line) :=
  ⟨hv.reference k line, Table.grows_reference hv k line, fun h => h,
    .inl (by simp [Table.reference])⟩

theorem declare (hv : t.Valid) {here : ScopeId} (htop : t.top? = some here) {name : String}
    (hname : l.kind.name? = some name) (ty : Ty) :
    Entered l t (t.declare here name ty l.line).2 := by
  have hhere := lt_of_top? hv htop
  have hrooted : t.Rooted → (t.declare here name ty l.line).2.Rooted := by
    intro hr id hid hne
    rw [Table.size_scopes_declare] at hid
    rw [Table.heading?_declare]
    exact hr id hid hne
  refine ⟨hv.declare hhere name ty l.line,
    Table.grows_declare hv hhere trivial name ty l.line, hrooted, ?_⟩
  cases hfree : t.lookupLocal here name with
  | some k =>
      rw [Table.declare_of_lookupLocal_eq_some hfree]
      exact .inl rfl
  | none =>
      rw [Table.declare_of_lookupLocal_eq_none hfree]
      refine .inr ⟨by simp, here, (t.fresh here name ty l.line).fixed, htop, ?_, hname, rfl, rfl⟩
      simp [Table.fixed?]

end Entered

/-- What entering a node can do to a table whose innermost open scope is `here`. -/
inductive Change (here : ScopeId) (l : Label) (t : Table) : Table → Prop
  | same : Change here l t t
  | used {name : String} {id : SymbolId} (hk : l.kind.use? = some name)
      (hid : t.lookup here name = some id) : Change here l t (t.reference id l.line)
  | object {o : Object} (ho : l.kind.object? = some o) :
      Change here l t (t.declare here o.name o.ty l.line).2
  | parameter {o : Object} {function : SymbolId} (ho : l.kind.object? = some o)
      (hfunction : t.signature? here = some function) :
      Change here l t ((t.declare here o.name o.ty l.line).2.addParameter function o.ty)
  | block (hk : l.kind = .compound) (name : String) : Change here l t (t.push name)
  | function {name : String} {spec : Spec} (hk : l.kind = .funDecl name spec) :
      Change here l t ((t.declare here name (.functionReturning spec) l.line).2.push name)

/-- Entering a node of any kind makes one of these changes. -/
theorem change_enter (l : Label) {s : Scoping} {here : ScopeId}
    (htop : s.table.top? = some here) : Change here l s.table (enter l s).2.table := by
  rw [enter_eq l htop]
  show Change here l s.table (s.step here l.kind l.line).table
  by_cases hplain : l.kind.isPlain = true
  · rw [step_of_plain hplain]
    cases huse : l.kind.use? with
    | none => exact .same
    | some name =>
        show Change here l s.table (s.use here name l.line).table
        rw [use_eq]
        cases hid : s.table.lookup here name with
        | none => exact .same
        | some id => exact .used huse hid
  by_cases hvar : l.kind.isObject = true
  · obtain ⟨o, ho, hstep⟩ := step_of_object hvar
    rw [hstep, declareObject_eq]
    exact .object ho
  by_cases hparam : l.kind.isParam = true
  · obtain ⟨o, ho, hstep⟩ := step_of_param hparam
    rw [hstep, declareParameter_eq, declareObject_eq]
    dsimp only
    split
    · next hfunction _ => exact .parameter ho hfunction
    · exact .object ho
  cases hl : l.kind with
  | compound =>
      simp only [step, openBlock]
      split
      · exact .same
      · exact .block hl s.blockName
  | funDecl name spec =>
      have hchange : Change here l s.table
          ((s.table.declare here name (.functionReturning spec) l.line).2.push name) :=
        .function hl
      simp only [step, declareFunction]
      split
      all_goals
        next hresult =>
          rw [hresult] at hchange
          exact hchange
  | _ => simp [hl, Kind.isPlain, Kind.isObject, Kind.isParam] at hplain hvar hparam

/-- Entering a node of any kind keeps the table valid, makes it grow, and makes
at most one symbol. -/
theorem entered_enter (l : Label) (s : Scoping) (hv : s.table.Valid) :
    Entered l s.table (enter l s).2.table := by
  cases htop : s.table.top? with
  | none => simpa only [enter, htop] using Entered.same hv
  | some here =>
      have hobject : ∀ o, l.kind.object? = some o →
          Entered l s.table (s.table.declare here o.name o.ty l.line).2 :=
        fun o ho => Entered.declare hv htop (Kind.name?_of_object? ho) o.ty
      have hchange := change_enter l htop
      generalize (enter l s).2.table = t' at hchange
      cases hchange with
      | same => exact Entered.same hv
      | used => exact Entered.reference hv _ l.line
      | object ho => exact hobject _ ho
      | parameter ho => exact (hobject _ ho).addParameter _ _
      | block => exact (Entered.same hv).push htop _
      | @function name spec hk =>
          have hdeclare := Entered.declare (l := l) hv htop (by rw [hk]; rfl)
            (.functionReturning spec)
          exact hdeclare.push (by rw [Table.top?_declare, htop]) name

/-- Leaving a node closes a scope or changes no part of the table. -/
theorem table_exit (l : Label) (s : Scoping) :
    (exit l s).table = s.table ∨ (exit l s).table = s.table.pop := by
  unfold exit leave
  cases l.kind with
  | compound => exact .inr rfl
  | funDecl name spec =>
      cases s.entering with
      | false => exact .inl rfl
      | true => exact .inr rfl
  | _ => exact .inl rfl

/-- The table was valid all along, only grew, and kept its one root. -/
def Evolves (s s' : Scoping) : Prop :=
  s.table.Valid →
    s'.table.Valid ∧ Later s.table s'.table ∧ (s.table.Rooted → s'.table.Rooted)

theorem Evolves.refl (s : Scoping) : Evolves s s :=
  fun hv => ⟨hv, Table.Grows.refl _, fun hr => hr⟩

theorem Evolves.trans {s s' s'' : Scoping} (h : Evolves s s') (h' : Evolves s' s'') :
    Evolves s s'' := by
  intro hv
  obtain ⟨hv', hl, hr⟩ := h hv
  obtain ⟨hv'', hl', hr'⟩ := h' hv'
  exact ⟨hv'', hl.append hl', fun h => hr' (hr h)⟩

theorem evolves_enter (l : Label) (s : Scoping) : Evolves s (enter l s).2 := by
  intro hv
  have h := entered_enter l s hv
  exact ⟨h.valid, h.later, h.rooted⟩

theorem evolves_leave (t : Tree) (s : Scoping) : Evolves s (leave t s).2 := by
  intro hv
  rw [leave_eq]
  rcases table_exit t.label s with h | h
  · rw [h]
    exact ⟨hv, Table.Grows.refl _, fun hr => hr⟩
  · rw [h]
    exact ⟨hv.pop, Table.grows_pop _, fun hr => hr⟩

end Scoping

end CMinus
