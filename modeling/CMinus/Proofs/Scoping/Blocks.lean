import CMinus.Proofs.Scoping.Steps

/-!
# Scoping a block

Two relations between the state before a walk and the state after it, one for
each half of a block.

`Scoping.Fills` is for the declarations.  They all go to the innermost open
scope, and a name means there what its first declaration says; nothing else
changes.  `Scoping.Passes` is for the statements.  Whatever blocks they open
are closed again, so the stack and the registers are the ones from before, and
no scope that existed before has learned a name.

Both compose, and both are kept by a whole chain: `fills_of_objects`,
`fills_of_params` and `passes_of_inner`.  The proofs follow the reduced shape
of a program, so the only case with an argument in it is a block: its own scope
is filled, passed and closed, and is too young to count among the scopes from
before.
-/

namespace CMinus

/-- The declaration that a label makes of a variable or a parameter. -/
def Label.decl? (l : Label) : Option Decl := l.kind.object?.map (·.decl l.line)

/-- The declarations along a chain. -/
def Forest.decls (f : Forest) : List Decl := f.labels.filterMap Label.decl?

@[simp] theorem Forest.decls_nil : Forest.nil.decls = [] := rfl

theorem Forest.decls_node {l : Label} {o : Object} (ho : l.kind.object? = some o)
    (a b c rest : Forest) : (Forest.node l a b c rest).decls = o.decl l.line :: rest.decls := by
  simp [decls, labels, Label.decl?, ho]

/-- What a name means among declarations: the first one counts. -/
def Decl.find? (ds : List Decl) (name : String) : Option Decl := ds.find? (·.name = name)

theorem Decl.find?_append (ds ds' : List Decl) (name : String) :
    Decl.find? (ds ++ ds') name = (Decl.find? ds name).or (Decl.find? ds' name) :=
  List.find?_append

theorem Decl.find?_singleton (d : Decl) (name : String) :
    Decl.find? [d] name = if name = d.name then some d else none := by
  by_cases h : name = d.name
  · simp [Decl.find?, h]
  · simp [Decl.find?, h, Ne.symm h]

namespace Scoping

/-- The declarations `ds` have been entered into the innermost scope `here`, in
order, and only symbols of `P` may have gained parameters. -/
structure Fills (here : ScopeId) (P : SymbolId → Prop) (ds : List Decl)
    (s s' : Scoping) : Prop where
  valid : s'.table.Valid
  top : s'.table.top? = some here
  below : s'.table.stack.tail = s.table.stack.tail
  size : s'.table.scopes.size = s.table.scopes.size
  blockName : s'.blockName = s.blockName
  entering : s'.entering = s.entering
  redefined : s'.redefined = s.redefined
  grows : s.table.Grows (· = here) P s'.table
  entry : ∀ name, s'.table.meaning? here name =
    (s.table.meaning? here name).or (Decl.find? ds name)

namespace Fills

variable {here : ScopeId} {P : SymbolId → Prop} {ds ds' : List Decl} {s s' s'' : Scoping}

theorem refl (hv : s.table.Valid) (htop : s.table.top? = some here) :
    Fills here P [] s s where
  valid := hv
  top := htop
  below := rfl
  size := rfl
  blockName := rfl
  entering := rfl
  redefined := rfl
  grows := Table.Grows.refl _
  entry := by simp [Decl.find?]

theorem append (h : Fills here P ds s s') (h' : Fills here P ds' s' s'') :
    Fills here P (ds ++ ds') s s'' where
  valid := h'.valid
  top := h'.top
  below := h'.below.trans h.below
  size := h'.size.trans h.size
  blockName := h'.blockName.trans h.blockName
  entering := h'.entering.trans h.entering
  redefined := h'.redefined.trans h.redefined
  grows := h.grows.append h'.grows
  entry := by
    intro name
    rw [h'.entry, h.entry, Decl.find?_append, Option.or_assoc]

end Fills

/-- A declaration keeps all open scopes but the count of the innermost. -/
theorem tail_stack_declare (t : Table) (scope : ScopeId) (name : String) (ty : Ty)
    (line : UInt32) : (t.declare scope name ty line).2.stack.tail = t.stack.tail := by
  cases hfree : t.lookupLocal scope name with
  | some k => rw [Table.declare_of_lookupLocal_eq_some hfree]
  | none =>
      rw [Table.declare_of_lookupLocal_eq_none hfree]
      cases t.stack <;> rfl

/-- Declaring one object. -/
theorem fills_declareObject {s : Scoping} {here : ScopeId} {P : SymbolId → Prop}
    (hv : s.table.Valid) (htop : s.table.top? = some here) (o : Object) (line : UInt32) :
    Fills here P [o.decl line] s
      (s.declareObject here o.name o.spec o.base o.site line).2 := by
  have hhere := lt_of_top? hv htop
  rw [declareObject_eq]
  exact
    { valid := hv.declare hhere o.name o.ty line
      top := by rw [Table.top?_declare, htop]
      below := tail_stack_declare s.table here o.name o.ty line
      size := Table.size_scopes_declare s.table here o.name o.ty line
      blockName := rfl
      entering := rfl
      redefined := rfl
      grows := Table.grows_declare (O := (· = here)) hv hhere rfl o.name o.ty line
      entry := by
        intro name
        rw [Table.meaning?_declare hv hhere, Decl.find?_singleton]
        rfl }

/-- The function whose signature a scope collects lives in the scope around
it. -/
theorem signature?_eq_some {t : Table} {scope : ScopeId} {id : SymbolId}
    (h : t.signature? scope = some id) :
    ∃ name parent, t.heading? scope = some (name, some parent) ∧
      t.lookupLocal parent name = some id ∧ t.isFunction id = true := by
  simp only [Table.signature?, bind, Option.bind_eq_some_iff, Option.filter_eq_some_iff] at h
  obtain ⟨s, hs, parent, hparent, hid, hfun⟩ := h
  exact ⟨s.name, parent, Table.heading?_eq_some_iff.mpr ⟨s, hs, rfl, hparent⟩, hid, hfun⟩

/-- More parameters for one symbol leave what all other symbols say alone. -/
theorem meaning?_addParameter {t : Table} {scope : ScopeId} {name : String} {k : SymbolId}
    (hne : t.lookupLocal scope name ≠ some k) (ty : Ty) :
    (t.addParameter k ty).meaning? scope name = t.meaning? scope name := by
  rw [Table.meaning?, Table.lookupLocal_addParameter, Table.meaning?]
  cases hid : t.lookupLocal scope name with
  | none => rfl
  | some id =>
      have hk : k ≠ id := fun h => hne (by rw [hid, h])
      simp [Table.addParameter, Array.getElem?_modify, hk]

/-- Declaring one parameter. -/
theorem fills_declareParameter {s : Scoping} {here : ScopeId} {P : SymbolId → Prop}
    (hv : s.table.Valid) (htop : s.table.top? = some here)
    (hP : ∀ id, s.table.signature? here = some id → s.redefined = false → P id)
    (o : Object) (line : UInt32) :
    Fills here P [o.decl line] s
      (s.declareParameter here o.name o.spec o.base o.site line) := by
  have h := fills_declareObject (P := P) hv htop o line
  rw [declareParameter_eq]
  dsimp only
  split
  · next id _ hsig hredef =>
      generalize (s.declareObject here o.name o.spec o.base o.site line).2 = s' at h ⊢
      refine
        { valid := h.valid.addParameter id o.ty
          top := h.top
          below := h.below
          size := h.size
          blockName := h.blockName
          entering := h.entering
          redefined := h.redefined
          grows := h.grows.append (Table.grows_addParameter (hP id hsig hredef) s'.table o.ty)
          entry := ?_ }
      intro name
      -- the function's symbol is in the scope around, so no name of `here` is touched
      have hne : s'.table.lookupLocal here name ≠ some id := by
        intro hid
        obtain ⟨scopeName, parent, hh, hparent, _⟩ := signature?_eq_some hsig
        have hlt := hv.parent_lt_of_heading? hh
        rw [h.valid.scope_eq_of_lookupLocal (h.grows.kept parent scopeName id hparent) hid] at hlt
        exact Nat.lt_irrefl here hlt
      rw [meaning?_addParameter hne, h.entry]
  · exact h

/-! ## Chains of declarations -/

/-- Walking a leaf: enter it, leave it, walk the rest. -/
theorem after_leaf {l : Label} (hc : l.kind ≠ .compound) (hf : l.kind.isFunction = false)
    (s : Scoping) (rest : Forest) :
    s.after (.node l .nil .nil .nil rest) = (enter l s).2.after rest := by
  rw [after_node, exit_of_plain (l := { l with marks := (enter l s).1 }) hc hf]
  rfl

theorem not_block_of_object? {k : Kind} {o : Object} (h : k.object? = some o) :
    k ≠ .compound ∧ k.isFunction = false := by
  cases k <;> simp_all [Kind.object?, Kind.isFunction]

theorem not_block_of_isPlain {k : Kind} (hk : k.isPlain = true) :
    k ≠ .compound ∧ k.isFunction = false := by
  cases k <;> simp_all [Kind.isPlain, Kind.isFunction]

theorem not_block_of_isObject {k : Kind} (hk : k.isObject = true) :
    k ≠ .compound ∧ k.isFunction = false := by
  cases k <;> simp_all [Kind.isObject, Kind.isFunction]

theorem not_block_of_isParam {k : Kind} (hk : k.isParam = true) :
    k ≠ .compound ∧ k.isFunction = false := by
  cases k <;> simp_all [Kind.isParam, Kind.isFunction]

/-- A chain of variables fills the innermost scope. -/
theorem fills_of_objects {a : Forest} (ha : a.Leaves Kind.isObject) {s : Scoping}
    {here : ScopeId} {P : SymbolId → Prop} (hv : s.table.Valid)
    (htop : s.table.top? = some here) : Fills here P a.decls s (s.after a) := by
  induction ha generalizing s with
  | nil => exact Fills.refl hv htop
  | @cons l rest hk _ ih =>
      obtain ⟨o, ho, hstep⟩ := step_of_object hk
      obtain ⟨hc, hf⟩ := not_block_of_object? ho
      have hfirst := fills_declareObject (P := P) hv htop o l.line
      rw [← hstep s here] at hfirst
      rw [after_leaf hc hf, enter_eq l htop, Forest.decls_node ho]
      exact hfirst.append (ih hfirst.valid hfirst.top)

/-- The function whose signature a scope collects, in terms of its heading. -/
theorem signature?_eq (t : Table) (scope : ScopeId) :
    t.signature? scope = (t.heading? scope).bind fun h =>
      h.2.bind fun parent => (t.lookupLocal parent h.1).filter t.isFunction := by
  unfold Table.signature? Table.heading?
  cases t.scopes[scope]? <;> rfl

/-- Filling a scope does not change whose signature it collects. -/
theorem Fills.signature?_eq {here : ScopeId} {P : SymbolId → Prop} {ds : List Decl}
    {s s' : Scoping} (h : Fills here P ds s s') (hv : s.table.Valid)
    (hhere : here < s.table.scopes.size) :
    s'.table.signature? here = s.table.signature? here := by
  rw [Scoping.signature?_eq, Scoping.signature?_eq, h.grows.heading_eq here hhere]
  obtain ⟨name, parent, hh⟩ := Table.exists_heading? hhere
  rw [hh]
  cases parent with
  | none => rfl
  | some p =>
      have hlt := hv.parent_lt_of_heading? hh
      have hlookup := h.grows.closed p (Nat.lt_trans hlt hhere) (Nat.ne_of_lt hlt) name
      simp only [Option.bind_some, hlookup]
      cases hid : s.table.lookupLocal p name with
      | none => rfl
      | some id =>
          have hfun : s'.table.isFunction id = s.table.isFunction id := by
            rw [Table.isFunction, h.grows.tyOf?_eq (Table.symbol_lt_of_lookupLocal hid),
              Table.isFunction]
          simp only [Option.filter_some, hfun]

/-- A chain of parameters fills the innermost scope. -/
theorem fills_of_params {a : Forest} (ha : a.Leaves Kind.isParam) {s : Scoping}
    {here : ScopeId} {P : SymbolId → Prop} (hv : s.table.Valid)
    (htop : s.table.top? = some here)
    (hP : ∀ id, s.table.signature? here = some id → s.redefined = false → P id) :
    Fills here P a.decls s (s.after a) := by
  induction ha generalizing s with
  | nil => exact Fills.refl hv htop
  | @cons l rest hk _ ih =>
      obtain ⟨o, ho, hstep⟩ := step_of_param hk
      obtain ⟨hc, hf⟩ := not_block_of_object? ho
      have hfirst := fills_declareParameter hv htop hP o l.line
      rw [← hstep s here] at hfirst
      rw [after_leaf hc hf, enter_eq l htop, Forest.decls_node ho]
      refine hfirst.append (ih hfirst.valid hfirst.top ?_)
      rw [hfirst.signature?_eq hv (lt_of_top? hv htop), hfirst.redefined]
      exact hP

/-! ## Statements -/

/-- The walk is inside a block of the function `fn`, and `here` is the block's
scope. -/
structure Inside (fn : String) (here : ScopeId) (s : Scoping) : Prop where
  valid : s.table.Valid
  top : s.table.top? = some here
  blockName : s.blockName = fn
  entering : s.entering = false

/-- All that was opened is closed again, and no older scope has learned a
name. -/
structure Passes (s s' : Scoping) : Prop where
  valid : s'.table.Valid
  stack : s'.table.stack = s.table.stack
  blockName : s'.blockName = s.blockName
  entering : s'.entering = s.entering
  redefined : s'.redefined = s.redefined
  grows : s.table.Grows (fun _ => False) (fun _ => False) s'.table

namespace Passes

variable {s s' s'' : Scoping}

theorem refl (hv : s.table.Valid) : Passes s s where
  valid := hv
  stack := rfl
  blockName := rfl
  entering := rfl
  redefined := rfl
  grows := Table.Grows.refl _

theorem trans (h : Passes s s') (h' : Passes s' s'') : Passes s s'' where
  valid := h'.valid
  stack := h'.stack.trans h.stack
  blockName := h'.blockName.trans h.blockName
  entering := h'.entering.trans h.entering
  redefined := h'.redefined.trans h.redefined
  grows := h.grows.append h'.grows

/-- A walk that passes comes out where it went in. -/
theorem inside (h : Passes s s') {fn : String} {here : ScopeId} (hs : Inside fn here s) :
    Inside fn here s' where
  valid := h.valid
  top := by rw [Table.top?, h.stack]; exact hs.top
  blockName := h.blockName.trans hs.blockName
  entering := h.entering.trans hs.entering

/-- What extends the table after statements extends the one before them. -/
theorem extends_table (h : Passes s s') {t : Table} (ht : s'.table.Extends t) :
    s.table.Extends t :=
  (h.grows.mono (fun _ h => h.elim) (fun _ h => h)).append ht

end Passes

/-- Entering a plain node at most records a use. -/
theorem passes_enter_of_plain {l : Label} (hk : l.kind.isPlain = true) {fn : String}
    {here : ScopeId} {s : Scoping} (hs : Inside fn here s) : Passes s (enter l s).2 := by
  rw [enter_eq l hs.top]
  show Passes s (s.step here l.kind l.line)
  rw [step_of_plain hk]
  cases l.kind.use? with
  | none => exact Passes.refl hs.valid
  | some name =>
      show Passes s (s.use here name l.line)
      rw [use_eq]
      cases s.table.lookup here name with
      | none => exact Passes.refl hs.valid
      | some id =>
          exact
            { valid := hs.valid.reference id l.line
              stack := rfl
              blockName := rfl
              entering := rfl
              redefined := rfl
              grows := Table.grows_reference hs.valid id l.line }

/-- The state in which the declarations of a nested block are entered. -/
def opened (s : Scoping) : Scoping := { s with table := s.table.push s.blockName }

theorem enter_of_compound {l : Label} (hk : l.kind = .compound) {fn : String}
    {here : ScopeId} {s : Scoping} (hs : Inside fn here s) :
    enter l s = ((l.inScope s.table.scopes.size).marks, s.opened) := by
  rw [enter_eq l hs.top, hk]
  simp [step, openBlock, hs.entering, opened, Table.nextScope, Label.inScope]

theorem inside_opened {fn : String} {here : ScopeId} {s : Scoping} (hs : Inside fn here s) :
    Inside fn s.table.scopes.size s.opened where
  valid := hs.valid.push s.blockName
  top := Table.top?_push s.table s.blockName
  blockName := hs.blockName
  entering := hs.entering

/-- A filled scope is one to walk statements in. -/
theorem Fills.inside {here : ScopeId} {P : SymbolId → Prop} {ds : List Decl}
    {s s' : Scoping} (h : Fills here P ds s s') {fn : String} (hs : Inside fn here s) :
    Inside fn here s' where
  valid := h.valid
  top := h.top
  blockName := h.blockName.trans hs.blockName
  entering := h.entering.trans hs.entering

/-- The state after a nested block. -/
def closed (s : Scoping) : Scoping := { s with table := s.table.pop }

/-- A nested block: its scope is opened, filled, passed and closed. -/
theorem passes_block {s s₂ s₃ : Scoping} {ds : List Decl}
    (hfill : Fills s.table.scopes.size (fun _ => False) ds s.opened s₂)
    (hpass : Passes s₂ s₃) : Passes s s₃.closed where
  valid := hpass.valid.pop
  stack := by
    show s₃.table.stack.tail = s.table.stack
    rw [hpass.stack, hfill.below]
    rfl
  blockName := hpass.blockName.trans hfill.blockName
  entering := hpass.entering.trans hfill.entering
  redefined := hpass.redefined.trans hfill.redefined
  grows := by
    -- the scope that was filled is younger than every scope of `s`
    have hopen : s.table.Grows (fun _ => False) (fun _ => False) s₂.table :=
      (Table.grows_push s.table s.blockName).trans hfill.grows
        (fun id hid h => Nat.ne_of_lt hid h) (fun _ _ h => h)
    exact (hopen.append hpass.grows).append (Table.grows_pop s₃.table)

/-- The state in which the statements of a nested block are entered. -/
def furnished (s : Scoping) (locals : Forest) : Scoping := s.opened.after locals

theorem fills_furnished {fn : String} {here : ScopeId} {s : Scoping} (hs : Inside fn here s)
    {locals : Forest} (hl : locals.Leaves Kind.isObject) :
    Fills s.table.scopes.size (fun _ => False) locals.decls s.opened (s.furnished locals) :=
  fills_of_objects hl (inside_opened hs).valid (inside_opened hs).top

/-- The scope of a nested block holds the declarations of the block. -/
theorem meaning?_furnished {fn : String} {here : ScopeId} {s : Scoping}
    (hs : Inside fn here s) {locals : Forest} (hl : locals.Leaves Kind.isObject)
    (name : String) :
    (s.furnished locals).table.meaning? s.table.scopes.size name =
      Decl.find? locals.decls name := by
  rw [(fills_furnished hs hl).entry, opened, Table.meaning?_push_self, Option.none_or]

theorem heading?_furnished {fn : String} {here : ScopeId} {s : Scoping}
    (hs : Inside fn here s) {locals : Forest} (hl : locals.Leaves Kind.isObject) :
    (s.furnished locals).table.heading? s.table.scopes.size = some (fn, some here) := by
  have hlt : s.table.scopes.size < s.opened.table.scopes.size :=
    lt_of_top? (inside_opened hs).valid (inside_opened hs).top
  rw [(fills_furnished hs hl).grows.heading_eq _ hlt, opened, Table.heading?_push_self,
    hs.top, hs.blockName]

theorem inside_furnished {fn : String} {here : ScopeId} {s : Scoping}
    (hs : Inside fn here s) {locals : Forest} (hl : locals.Leaves Kind.isObject) :
    Inside fn s.table.scopes.size (s.furnished locals) :=
  (fills_furnished hs hl).inside (inside_opened hs)

/-- Walking a nested block. -/
theorem after_block {l : Label} (hk : l.kind = .compound) {fn : String} {here : ScopeId}
    {s : Scoping} (hs : Inside fn here s) (locals stmts rest : Forest) :
    s.after (.node l locals stmts .nil rest) =
      ((s.furnished locals).after stmts).closed.after rest := by
  rw [after_node, enter_of_compound hk hs]
  show (exit (l.inScope s.table.scopes.size) _).after rest = _
  rw [exit_of_compound (l := l.inScope _) hk]
  rfl

/-- Walking a plain node. -/
theorem after_plain {l : Label} (hk : l.kind.isPlain = true) (s : Scoping)
    (a b c rest : Forest) :
    s.after (.node l a b c rest) = ((((enter l s).2.after a).after b).after c).after rest := by
  obtain ⟨hc, hf⟩ := not_block_of_isPlain hk
  rw [after_node, exit_of_plain]
  · exact hc
  · exact hf

/-- A chain of statements passes. -/
theorem passes_of_inner {f : Forest} (hf : f.Inner) {fn : String} {here : ScopeId}
    {s : Scoping} (hs : Inside fn here s) : Passes s (s.after f) := by
  induction hf generalizing here s with
  | nil => exact Passes.refl hs.valid
  | @block l locals stmts rest hk hlocals _ _ ihstmts ihrest =>
      have hbody := ihstmts (inside_furnished hs hlocals)
      have hblock := passes_block (fills_furnished hs hlocals) hbody
      rw [after_block hk hs]
      exact hblock.trans (ihrest (hblock.inside hs))
  | @plain l a b c rest hk _ _ _ _ iha ihb ihc ihr =>
      have h₁ := passes_enter_of_plain hk hs
      have h₂ := h₁.trans (iha (h₁.inside hs))
      have h₃ := h₂.trans (ihb (h₂.inside hs))
      have h₄ := h₃.trans (ihc (h₃.inside hs))
      rw [after_plain hk]
      exact h₄.trans (ihr (h₄.inside hs))

end Scoping

end CMinus
