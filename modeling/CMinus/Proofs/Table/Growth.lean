import CMinus.Proofs.Table.Lookup

/-!
# How a table grows

A table never forgets.  `Table.Grows` compares an earlier stage of a table with
a later one: scopes keep their headings, symbols keep what their declaration
said, and a name that had a meaning keeps it.  Two predicates say where the
later stage may know more: an *open* scope may have gained names, and an *open*
symbol may have gained parameters.  Everything else is as it was.

The predicates only matter for what already existed, so a stage that opens a
scope, fills it and closes it again leaves every older scope closed.  That is
what `Grows.trans` is stated for, and what makes the table of a finished
program answer the questions of a pass that was still building it.

## Main results

* `Grows.trans` and one `grows_` lemma per operation;
* `Grows.meaning?_eq`: a closed scope means by a name what it meant before;
* `Grows.lookup_eq_or`: if only the outermost scope was open, look-up from
  inside differs only where a name had no meaning and the outermost scope has
  given it one since.
-/

namespace CMinus

/-- What a declaration says about the name it introduces. -/
structure Decl where
  name : String
  ty : Ty
  params : List Ty := []
  line : UInt32
  deriving DecidableEq

namespace Symbol

/-- What a symbol says about its name. -/
def decl (s : Symbol) : Decl := ⟨s.name, s.ty, s.params, s.firstLine⟩

/-- The part of a symbol that is settled when it is declared. -/
def fixed (s : Symbol) : Symbol := { s with lines := [s.firstLine], params := [] }

theorem decl_eq (s : Symbol) :
    s.decl = ⟨s.fixed.name, s.fixed.ty, s.params, s.fixed.firstLine⟩ := rfl

end Symbol

namespace Table

/-- The settled part of a symbol. -/
def fixed? (t : Table) (id : SymbolId) : Option Symbol := t.symbols[id]?.map Symbol.fixed

/-- The parameters of a symbol. -/
def params? (t : Table) (id : SymbolId) : Option (List Ty) := t.symbols[id]?.map (·.params)

/-- What a name means in a scope itself. -/
def meaning? (t : Table) (scope : ScopeId) (name : String) : Option Decl :=
  (t.lookupLocal scope name).bind fun id => t.symbols[id]?.map Symbol.decl

/-- A name is known to a scope if it has an entry there. -/
theorem isSome_meaning? (t : Table) (scope : ScopeId) (name : String) :
    (t.meaning? scope name).isSome = (t.lookupLocal scope name).isSome := by
  rw [meaning?]
  cases hid : t.lookupLocal scope name with
  | none => rfl
  | some id =>
      obtain ⟨_, sym, _, _, hsym, _⟩ := exists_symbol_of_lookupLocal hid
      simp [hsym]

/-- A new scope knows no name. -/
@[simp] theorem meaning?_push_self (t : Table) (scopeName name : String) :
    (t.push scopeName).meaning? t.scopes.size name = none := by
  rw [← Option.not_isSome_iff_eq_none, isSome_meaning?, lookupLocal_push]
  intro hsome
  obtain ⟨id, hid⟩ := Option.isSome_iff_exists.mp hsome
  exact Nat.lt_irrefl _ (lt_of_lookupLocal hid)

/-- The second table is a later stage of the first, in which only open scopes
have new names and only open symbols have new parameters. -/
structure Grows (openScope : ScopeId → Prop) (openSymbol : SymbolId → Prop)
    (t t' : Table) : Prop where
  scopes_le : t.scopes.size ≤ t'.scopes.size
  symbols_le : t.symbols.size ≤ t'.symbols.size
  heading_eq : ∀ id < t.scopes.size, t'.heading? id = t.heading? id
  fixed_eq : ∀ id < t.symbols.size, t'.fixed? id = t.fixed? id
  params_eq : ∀ id < t.symbols.size, ¬openSymbol id → t'.params? id = t.params? id
  kept : ∀ scope name id, t.lookupLocal scope name = some id →
    t'.lookupLocal scope name = some id
  closed : ∀ scope < t.scopes.size, ¬openScope scope →
    ∀ name, t'.lookupLocal scope name = t.lookupLocal scope name

/-- The second table is a later stage of the first, in which only the outermost
scope has new names. -/
abbrev Extends (t t' : Table) : Prop := t.Grows (· = 0) (fun _ => False) t'

namespace Grows

variable {O O' : ScopeId → Prop} {P P' : SymbolId → Prop} {t t' t'' : Table}

theorem refl (t : Table) : Grows O P t t where
  scopes_le := Nat.le_refl _
  symbols_le := Nat.le_refl _
  heading_eq := fun _ _ => rfl
  fixed_eq := fun _ _ => rfl
  params_eq := fun _ _ _ => rfl
  kept := fun _ _ _ h => h
  closed := fun _ _ _ _ => rfl

/-- Stages compose.  What the second stage opens may be closed for the whole,
as long as it is newer than the first table. -/
theorem trans (h : Grows O P t t') (h' : Grows O' P' t' t'')
    (hO : ∀ id < t.scopes.size, O' id → O id)
    (hP : ∀ id < t.symbols.size, P' id → P id) : Grows O P t t'' where
  scopes_le := Nat.le_trans h.scopes_le h'.scopes_le
  symbols_le := Nat.le_trans h.symbols_le h'.symbols_le
  heading_eq := by
    intro id hid
    rw [h'.heading_eq id (Nat.lt_of_lt_of_le hid h.scopes_le), h.heading_eq id hid]
  fixed_eq := by
    intro id hid
    rw [h'.fixed_eq id (Nat.lt_of_lt_of_le hid h.symbols_le), h.fixed_eq id hid]
  params_eq := by
    intro id hid hclosed
    rw [h'.params_eq id (Nat.lt_of_lt_of_le hid h.symbols_le) (fun hp => hclosed (hP id hid hp)),
      h.params_eq id hid hclosed]
  kept := fun scope name id hid => h'.kept scope name id (h.kept scope name id hid)
  closed := by
    intro scope hscope hclosed name
    rw [h'.closed scope (Nat.lt_of_lt_of_le hscope h.scopes_le)
        (fun ho => hclosed (hO scope hscope ho)) name,
      h.closed scope hscope hclosed name]

theorem append (h : Grows O P t t') (h' : Grows O P t' t'') : Grows O P t t'' :=
  h.trans h' (fun _ _ ho => ho) (fun _ _ hp => hp)

theorem mono (h : Grows O P t t') (hO : ∀ id, O id → O' id) (hP : ∀ id, P id → P' id) :
    Grows O' P' t t' where
  scopes_le := h.scopes_le
  symbols_le := h.symbols_le
  heading_eq := h.heading_eq
  fixed_eq := h.fixed_eq
  params_eq := fun id hid hclosed => h.params_eq id hid fun hp => hclosed (hP id hp)
  kept := h.kept
  closed := fun scope hscope hclosed => h.closed scope hscope fun ho => hclosed (hO scope ho)

end Grows

/-! ## The operations as stages -/

section Operations

variable {O : ScopeId → Prop} {P : SymbolId → Prop} {t : Table}

theorem heading?_push_of_lt {id : ScopeId} (h : id < t.scopes.size) (scopeName : String) :
    (t.push scopeName).heading? id = t.heading? id := by
  simp only [heading?, push, Array.getElem?_push, if_neg (Nat.ne_of_lt h)]

/-- The heading of a new scope. -/
@[simp] theorem heading?_push_self (t : Table) (scopeName : String) :
    (t.push scopeName).heading? t.scopes.size = some (scopeName, t.top?) := by
  simp [heading?, push]

/-- A scope opened inside another one leaves a single root. -/
theorem rooted_push (hr : t.Rooted) {here : ScopeId} (htop : t.top? = some here)
    (scopeName : String) : (t.push scopeName).Rooted := by
  intro id hid hne
  by_cases hold : id < t.scopes.size
  · rw [heading?_push_of_lt hold]
    exact hr id hold hne
  · have heq : id = t.scopes.size := by
      simp only [push, Array.size_push] at hid
      omega
    exact ⟨scopeName, here, by rw [heq, heading?_push_self, htop]⟩

theorem grows_push (t : Table) (scopeName : String) : Grows O P t (t.push scopeName) where
  scopes_le := by simp [push]
  symbols_le := Nat.le_refl _
  heading_eq := fun _ hid => heading?_push_of_lt hid scopeName
  fixed_eq := fun _ _ => rfl
  params_eq := fun _ _ _ => rfl
  kept := by
    intro scope name id h
    rwa [lookupLocal_push]
  closed := fun scope _ _ name => lookupLocal_push t scopeName scope name

theorem grows_pop (t : Table) : Grows O P t t.pop :=
  { Grows.refl t with }

theorem grows_discard (t : Table) : Grows O P t t.discard :=
  { Grows.refl t with }

/-- What is read off every symbol stays if a change of one symbol keeps it. -/
theorem map_modify {β : Type} (view : Symbol → β) (t : Table) (k : SymbolId)
    {f : Symbol → Symbol}
    (hf : ∀ sym, t.symbols[k]? = some sym → view (f sym) = view sym) :
    (t.symbols.modify k f).toList.map view = t.symbols.toList.map view := by
  refine List.ext_getElem? fun i => ?_
  simp only [List.getElem?_map, Array.getElem?_toList, Array.getElem?_modify]
  split
  · next hk =>
      subst hk
      cases hsym : t.symbols[k]? with
      | none => rfl
      | some sym => exact congrArg some (hf sym hsym)
  · rfl

/-- A use is recorded behind the line of the declaration. -/
theorem grows_reference (hv : t.Valid) (k : SymbolId) (line : UInt32) :
    Grows O P t (t.reference k line) where
  scopes_le := Nat.le_refl _
  symbols_le := by simp [reference]
  heading_eq := fun _ _ => rfl
  fixed_eq := by
    intro id _
    simp only [fixed?, reference, Array.getElem?_modify]
    split
    · cases hsym : t.symbols[id]? with
      | none => rfl
      | some sym =>
          have hne := hv.dated hsym
          cases hlines : sym.lines with
          | nil => exact absurd hlines hne
          | cons first more => simp [Symbol.fixed, Symbol.firstLine, hlines]
    · rfl
  params_eq := by
    intro id _ _
    simp only [params?, reference, Array.getElem?_modify]
    split
    · cases t.symbols[id]? <;> rfl
    · rfl
  kept := by
    intro scope name id h
    rwa [lookupLocal_reference]
  closed := fun scope _ _ name => lookupLocal_reference t k line scope name

@[simp] theorem fixed?_addParameter (t : Table) (k : SymbolId) (ty : Ty) (id : SymbolId) :
    (t.addParameter k ty).fixed? id = t.fixed? id := by
  simp only [fixed?, addParameter, Array.getElem?_modify]
  split
  · cases t.symbols[id]? <;> rfl
  · rfl

theorem grows_addParameter {k : SymbolId} (hk : P k) (t : Table) (ty : Ty) :
    Grows O P t (t.addParameter k ty) where
  scopes_le := Nat.le_refl _
  symbols_le := by simp [addParameter]
  heading_eq := fun _ _ => rfl
  fixed_eq := fun id _ => fixed?_addParameter t k ty id
  params_eq := by
    intro id _ hclosed
    have hne : k ≠ id := fun h => hclosed (h ▸ hk)
    simp only [params?, addParameter, Array.getElem?_modify, if_neg hne]
  kept := by
    intro scope name id h
    rwa [lookupLocal_addParameter]
  closed := fun scope _ _ name => lookupLocal_addParameter t k ty scope name

/-- A declaration keeps every heading. -/
@[simp] theorem heading?_declare (t : Table) (scope : ScopeId) (name : String) (ty : Ty)
    (line : UInt32) (id : ScopeId) :
    (t.declare scope name ty line).2.heading? id = t.heading? id := by
  cases hfree : t.lookupLocal scope name with
  | some k => rw [declare_of_lookupLocal_eq_some hfree]
  | none =>
      rw [declare_of_lookupLocal_eq_none hfree]
      simp only [heading?, Array.getElem?_modify]
      split
      · cases t.scopes[id]? <;> rfl
      · rfl

@[simp] theorem size_scopes_declare (t : Table) (scope : ScopeId) (name : String) (ty : Ty)
    (line : UInt32) : (t.declare scope name ty line).2.scopes.size = t.scopes.size := by
  cases hfree : t.lookupLocal scope name with
  | some k => rw [declare_of_lookupLocal_eq_some hfree]
  | none => simp [declare_of_lookupLocal_eq_none hfree]

theorem grows_declare (hv : t.Valid) {scope : ScopeId} (hscope : scope < t.scopes.size)
    (hO : O scope) (name : String) (ty : Ty) (line : UInt32) :
    Grows O P t (t.declare scope name ty line).2 := by
  cases hfree : t.lookupLocal scope name with
  | some k =>
      rw [declare_of_lookupLocal_eq_some hfree]
      exact Grows.refl t
  | none =>
      have hlookup := hv.lookupLocal_declare hscope hfree ty line
      have hheading := heading?_declare t scope name ty line
      have hsymbol : ∀ id < t.symbols.size,
          (t.declare scope name ty line).2.symbols[id]? = t.symbols[id]? := by
        intro id hid
        rw [declare_of_lookupLocal_eq_none hfree, Array.getElem?_push,
          if_neg (Nat.ne_of_lt hid)]
      refine
        { scopes_le := by rw [size_scopes_declare]
          symbols_le := by simp [declare_of_lookupLocal_eq_none hfree]
          heading_eq := fun id _ => hheading id
          fixed_eq := fun id hid => by rw [fixed?, hsymbol id hid, fixed?]
          params_eq := fun id hid _ => by rw [params?, hsymbol id hid, params?]
          kept := ?_
          closed := ?_ }
      · intro scope' name' id h
        rw [hlookup, if_neg]
        · exact h
        · rintro ⟨rfl, rfl⟩
          rw [hfree] at h
          exact absurd h (by simp)
      · intro scope' _ hclosed name'
        rw [hlookup, if_neg]
        rintro ⟨rfl, _⟩
        exact hclosed hO

/-- The scope of a declaration learns one name, unless it knew it already. -/
theorem meaning?_declare (hv : t.Valid) {scope : ScopeId} (hscope : scope < t.scopes.size)
    (name : String) (ty : Ty) (line : UInt32) (name' : String) :
    (t.declare scope name ty line).2.meaning? scope name' =
      (t.meaning? scope name').or
        (if name' = name then some { name, ty, line } else none) := by
  cases hfree : t.lookupLocal scope name with
  | some k =>
      rw [declare_of_lookupLocal_eq_some hfree]
      by_cases hname : name' = name
      · obtain ⟨_, sym, _, _, hsym, _⟩ := exists_symbol_of_lookupLocal hfree
        simp [meaning?, hname, hfree, hsym]
      · simp [hname]
  | none =>
      have hlookup := hv.lookupLocal_declare hscope hfree ty line scope name'
      by_cases hname : name' = name
      · subst hname
        rw [if_pos ⟨rfl, rfl⟩] at hlookup
        rw [meaning?, hlookup, meaning?, hfree, declare_of_lookupLocal_eq_none hfree]
        simp [nextSymbol, fresh, Symbol.decl, Symbol.firstLine]
      · rw [if_neg (fun h => hname h.2)] at hlookup
        have hold : ∀ id, t.lookupLocal scope name' = some id →
            (t.declare scope name ty line).2.symbols[id]? = t.symbols[id]? := by
          intro id hid
          rw [declare_of_lookupLocal_eq_none hfree, Array.getElem?_push,
            if_neg (Nat.ne_of_lt (symbol_lt_of_lookupLocal hid))]
        rw [meaning?, hlookup, meaning?, if_neg hname, Option.or_none]
        cases hid : t.lookupLocal scope name' with
        | none => rfl
        | some id => simp only [Option.bind_some, hold id hid]

end Operations

/-! ## What a later stage still answers -/

namespace Grows

variable {O : ScopeId → Prop} {P : SymbolId → Prop} {t t' : Table}

/-- A closed symbol says what it said before. -/
theorem decl_eq (h : Grows O P t t') {id : SymbolId} (hid : id < t.symbols.size)
    (hclosed : ¬P id) : t'.symbols[id]?.map Symbol.decl = t.symbols[id]?.map Symbol.decl := by
  have hfixed := h.fixed_eq id hid
  have hparams := h.params_eq id hid hclosed
  simp only [fixed?, params?] at hfixed hparams
  cases hs : t.symbols[id]? with
  | none => simpa [hs] using hfixed
  | some s =>
      cases hs' : t'.symbols[id]? with
      | none => simp [hs, hs'] at hfixed
      | some s' =>
          simp only [hs, hs', Option.map_some, Option.some.injEq] at hfixed hparams ⊢
          rw [s.decl_eq, s'.decl_eq, hfixed, hparams]

/-- The type of a symbol never changes. -/
theorem tyOf?_eq (h : Grows O P t t') {id : SymbolId} (hid : id < t.symbols.size) :
    t'.tyOf? id = t.tyOf? id := by
  have hfixed := congrArg (Option.map Symbol.ty) (h.fixed_eq id hid)
  simpa only [fixed?, tyOf?, Option.map_map, Function.comp_def, Symbol.fixed] using hfixed

/-- A closed scope means by a name what it meant before, unless the symbol
itself is open. -/
theorem meaning?_eq_of_closed (h : Grows O P t t') {scope : ScopeId}
    (hscope : scope < t.scopes.size) (hclosed : ¬O scope) {name : String}
    (hsymbol : ∀ id, t.lookupLocal scope name = some id → ¬P id) :
    t'.meaning? scope name = t.meaning? scope name := by
  rw [meaning?, meaning?, h.closed scope hscope hclosed name]
  cases hid : t.lookupLocal scope name with
  | none => rfl
  | some id => exact h.decl_eq (symbol_lt_of_lookupLocal hid) (hsymbol id hid)

/-- With no symbol open, a closed scope means by a name what it meant before. -/
theorem meaning?_eq (h : Grows O (fun _ => False) t t') {scope : ScopeId}
    (hscope : scope < t.scopes.size) (hclosed : ¬O scope) (name : String) :
    t'.meaning? scope name = t.meaning? scope name :=
  h.meaning?_eq_of_closed hscope hclosed (fun _ _ hp => hp)

/-- A name that is still unknown was unknown. -/
theorem lookupLocal_eq_none (h : Grows O P t t') {scope : ScopeId} {name : String}
    (hlater : t'.lookupLocal scope name = none) : t.lookupLocal scope name = none := by
  cases hid : t.lookupLocal scope name with
  | none => rfl
  | some id =>
      rw [h.kept scope name id hid] at hlater
      cases hlater

/-- The scopes around a scope never change. -/
theorem chain_eq (h : Grows O P t t') (hv : t.Valid) (hv' : t'.Valid) {scope : ScopeId}
    (hscope : scope < t.scopes.size) : t'.chain scope = t.chain scope := by
  induction scope using Nat.strongRecOn with
  | _ scope ih =>
      obtain ⟨name, parent, hh⟩ := exists_heading? hscope
      have hh' := (h.heading_eq scope hscope).trans hh
      cases parent with
      | none => rw [chain_of_root hh, chain_of_root hh']
      | some p =>
          have hp := hv.parent_lt_of_heading? hh
          rw [hv.chain_of_parent hh, hv'.chain_of_parent hh', ih p hp (Nat.lt_trans hp hscope)]

/-- With only the outermost scope open, look-up can only change from nothing to
what the outermost scope has gained. -/
theorem lookup_eq_or (h : Grows (· = 0) P t t') (hv : t.Valid) (hv' : t'.Valid)
    {scope : ScopeId} (hscope : scope < t.scopes.size) (name : String) :
    t'.lookup scope name = t.lookup scope name ∨
      t.lookup scope name = none ∧ t'.lookup scope name = t'.lookupLocal 0 name := by
  induction scope using Nat.strongRecOn with
  | _ scope ih =>
      obtain ⟨scopeName, parent, hh⟩ := exists_heading? hscope
      have hh' : t'.heading? scope = some (scopeName, parent) := by
        rw [h.heading_eq scope hscope, hh]
      cases parent with
      | none =>
          rw [lookup_of_root hh, lookup_of_root hh']
          by_cases hzero : scope = 0
          · subst hzero
            cases hid : t.lookupLocal 0 name with
            | none => exact .inr ⟨rfl, rfl⟩
            | some id => exact .inl (h.kept 0 name id hid)
          · exact .inl (h.closed scope hscope hzero name)
      | some p =>
          have hp := hv.parent_lt_of_heading? hh
          have hpos : scope ≠ 0 := by
            rintro rfl
            exact Nat.not_lt_zero p hp
          rw [hv.lookup_of_parent hh, hv'.lookup_of_parent hh',
            h.closed scope hscope hpos name]
          cases t.lookupLocal scope name with
          | some id => exact .inl rfl
          | none => exact ih p hp (Nat.lt_trans hp hscope)

end Grows

end Table

end CMinus
