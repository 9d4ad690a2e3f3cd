import CMinus.Scoping
import CMinus.Typing
import CMinus.Proofs.Table.Growth

/-!
# Reading a table with every id checked

The queries of a table are total: they read the registries through `[i]?`, and
an id that a registry lacks counts as a name that is not there.  A reader who
wants to know that no such id is ever used cannot see it from the result.

`Guarded` has the same queries as partial functions.  Each of them makes its
reads one by one, and one read outside a registry leaves it without a result;
the two that follow parents also give up when they have not reached the
outermost scope within a bound.  In a valid table, and started in a scope that
exists, a guarded query always has a result, and it is that of the total one
(`lookupLocal_eq`, `lookup_eq`, `enclosing_eq`).  So the total queries read
nothing outside the registries, and end.
-/

namespace CMinus

namespace Guarded

/-! ## The queries -/

/-- Search filed symbols for a name, reading each of them. -/
def search (t : Table) (name : String) : List SymbolId → Option (Option SymbolId)
  | [] => some none
  | id :: ids => do
    let sym ← t.symbols[id]?
    if sym.name = name then some (some id) else search t name ids

/-- What `name` means in the scope itself: the scope is read, then the bucket of
the name, then the symbols in it. -/
def lookupLocal (t : Table) (scope : ScopeId) (name : String) : Option (Option SymbolId) := do
  let s ← t.scopes[scope]?
  let ids ← s.buckets[(Bucket.ofName name).val]?
  search t name ids

/-- The nearest declaration of `name`, in at most `bound` scopes. -/
def lookup (t : Table) (name : String) : (bound : Nat) → ScopeId → Option (Option SymbolId)
  | 0, _ => none
  | bound + 1, scope => do
    match ← lookupLocal t scope name with
    | some id => some (some id)
    | none =>
      let s ← t.scopes[scope]?
      match s.parent with
      | none => some none
      | some p => lookup t name bound p

/-- The function that a scope belongs to, searched in at most `bound` scopes.
`shadowed` remembers that something else of the right name was passed. -/
def enclosing (t : Table) :
    (bound : Nat) → ScopeId → (shadowed : Bool) → Option (Enclosing SymbolId)
  | 0, _, _ => none
  | bound + 1, scope, shadowed => do
    let s ← t.scopes[scope]?
    match s.parent with
    | none => some (if shadowed then .redefined else .topLevel)
    | some p =>
      match ← lookupLocal t p s.name with
      | none => enclosing t bound p shadowed
      | some id =>
        let sym ← t.symbols[id]?
        if sym.ty.isFunction then some (.function id) else enclosing t bound p true

/-- The function whose parameters a scope collects. -/
def signature (t : Table) (scope : ScopeId) : Option (Option SymbolId) := do
  let s ← t.scopes[scope]?
  match s.parent with
  | none => some none
  | some p =>
    match ← lookupLocal t p s.name with
    | none => some none
    | some id =>
      let sym ← t.symbols[id]?
      some (if sym.ty.isFunction then some id else none)

/-- The symbol that a use refers to. -/
def resolve (t : Table) (scope? : Option ScopeId) (name : String) (line : UInt32) :
    Option (Option Symbol) :=
  match scope? with
  | none => some none
  | some scope => do
    match ← lookup t name (scope + 1) scope with
    | none => some none
    | some id =>
      let sym ← t.symbols[id]?
      some (if sym.firstLine ≤ line then some sym else none)

/-- The type of the function that a return with this mark belongs to. -/
def enclosingTy (t : Table) (scope? : Option ScopeId) : Option (Enclosing (Option Ty)) :=
  match scope? with
  | none => some .topLevel
  | some scope => do
    match ← enclosing t (scope + 1) scope false with
    | .function id =>
      let sym ← t.symbols[id]?
      some (.function (some sym.ty))
    | .redefined => some .redefined
    | .topLevel => some .topLevel

/-! ## The operations -/

/-- Declare a name.  What is written are the scope and the bucket that looking
the name up has read. -/
def declare (t : Table) (scope : ScopeId) (name : String) (ty : Ty) (line : UInt32) :
    Option (Declared × Table) := do
  let _ ← lookupLocal t scope name
  some (t.declare scope name ty line)

/-- Record a use of a symbol that exists. -/
def reference (t : Table) (id : SymbolId) (line : UInt32) : Option Table := do
  let _ ← t.symbols[id]?
  some (t.reference id line)

/-- Add a parameter to a function that exists. -/
def addParameter (t : Table) (id : SymbolId) (ty : Ty) : Option Table := do
  let _ ← t.symbols[id]?
  some (t.addParameter id ty)

/-! ## Agreement with the total queries -/

section Agreement

variable {t : Table}

theorem search_eq {ids : List SymbolId} (h : ∀ id ∈ ids, id < t.symbols.size)
    (name : String) :
    search t name ids = some (ids.find? fun id => (t.symbols[id]?).any (·.name = name)) := by
  induction ids with
  | nil => rfl
  | cons id ids ih =>
      have hid : id < t.symbols.size := h id (by simp)
      have htail := ih fun id' hid' => h id' (by simp [hid'])
      by_cases hname : t.symbols[id].name = name
      · simp [search, hid, hname]
      · simp [search, hid, hname, htail]

/-- A symbol that is found exists. -/
theorem exists_symbol {scope : ScopeId} {name : String} {id : SymbolId}
    (h : t.lookupLocal scope name = some id) :
    ∃ sym, t.symbols[id]? = some sym ∧ t.isFunction id = sym.ty.isFunction := by
  obtain ⟨_, sym, _, _, hsym, _⟩ := Table.exists_symbol_of_lookupLocal h
  exact ⟨sym, hsym, by simp [Table.isFunction, Table.tyOf?, hsym]⟩

/-- A function that the search ends at exists. -/
theorem exists_symbol_of_enclosing {scope : ScopeId} {id : SymbolId}
    (h : t.enclosing scope = .function id) : ∃ sym, t.symbols[id]? = some sym := by
  have hfun : t.isFunction id = true := by
    unfold Table.enclosing at h
    cases howner : (t.owners scope).find? t.isFunction with
    | some owner =>
        simp only [howner, Enclosing.function.injEq] at h
        rw [← h]
        exact List.find?_some howner
    | none =>
        simp only [howner] at h
        split at h <;> cases h
  simp only [Table.isFunction, Table.tyOf?, Option.any_map, Option.any_eq_true] at hfun
  obtain ⟨sym, hsym, _⟩ := hfun
  exact ⟨sym, hsym⟩

variable (hv : t.Valid) {scope : ScopeId} (h : scope < t.scopes.size)

include hv h

theorem lookupLocal_eq (name : String) :
    lookupLocal t scope name = some (t.lookupLocal scope name) := by
  have hs : t.scopes[scope]? = some t.scopes[scope] := Array.getElem?_eq_getElem h
  have hb : t.scopes[scope].buckets[(Bucket.ofName name).val]? =
      some (t.scopes[scope].bucket (.ofName name)) :=
    Vector.getElem?_eq_getElem (Bucket.ofName name).isLt
  have hfiled : ∀ id ∈ t.scopes[scope].bucket (.ofName name), id < t.symbols.size := by
    intro id hid
    obtain ⟨sym, hsym, _⟩ := hv.filed hs hid
    exact (Array.getElem?_eq_some_iff.mp hsym).1
  unfold lookupLocal Table.lookupLocal
  simp only [hs, hb, bind, Option.bind_some]
  exact search_eq hfiled name

theorem lookup_eq (name : String) {bound : Nat} (hbound : scope < bound) :
    lookup t name bound scope = some (t.lookup scope name) := by
  induction scope using Nat.strongRecOn generalizing bound with
  | _ scope ih =>
      cases bound with
      | zero => exact absurd hbound (Nat.not_lt_zero _)
      | succ b =>
          obtain ⟨scopeName, parent, hh⟩ := Table.exists_heading? h
          obtain ⟨s, hs, _, hp⟩ := Table.heading?_eq_some_iff.mp hh
          have hlocal := lookupLocal_eq hv h name
          cases parent with
          | none =>
              rw [Table.lookup_of_root hh]
              cases hfound : t.lookupLocal scope name <;>
                simp [lookup, hlocal, hfound, hs, hp]
          | some p =>
              have hlt := hv.parent_lt_of_heading? hh
              have hparent := ih p hlt (Nat.lt_trans hlt h)
                (Nat.lt_of_lt_of_le hlt (Nat.le_of_lt_succ hbound))
              rw [hv.lookup_of_parent hh]
              cases hfound : t.lookupLocal scope name <;>
                simp [lookup, hlocal, hfound, hs, hp, hparent]

/-- The search passes over what is no function, and remembers that it did. -/
theorem enclosing_eq_of_shadowed {bound : Nat} (hbound : scope < bound) (shadowed : Bool) :
    enclosing t bound scope shadowed =
      some (match (t.owners scope).find? t.isFunction with
        | some id => .function id
        | none => if shadowed || !(t.owners scope).isEmpty then .redefined else .topLevel) := by
  induction scope using Nat.strongRecOn generalizing bound shadowed with
  | _ scope ih =>
      cases bound with
      | zero => exact absurd hbound (Nat.not_lt_zero _)
      | succ b =>
          obtain ⟨scopeName, parent, hh⟩ := Table.exists_heading? h
          obtain ⟨s, hs, hname, hp⟩ := Table.heading?_eq_some_iff.mp hh
          cases parent with
          | none => simp [enclosing, hs, hp, Table.owners_of_root hh]
          | some p =>
              have hlt := hv.parent_lt_of_heading? hh
              have hparent := ih p hlt (Nat.lt_trans hlt h)
                (Nat.lt_of_lt_of_le hlt (Nat.le_of_lt_succ hbound))
              have hlocal := lookupLocal_eq hv (Nat.lt_trans hlt h) scopeName
              rw [hv.owners_of_parent hh]
              cases hfound : t.lookupLocal p scopeName with
              | none => simp [enclosing, hs, hp, hname, hlocal, hfound, hparent]
              | some id =>
                  obtain ⟨sym, hsym, hfun⟩ := exists_symbol hfound
                  by_cases hf : sym.ty.isFunction = true
                  · simp [enclosing, hs, hp, hname, hlocal, hfound, hsym, hfun, hf]
                  · simp [enclosing, hs, hp, hname, hlocal, hfound, hsym, hfun, hf, hparent]

theorem enclosing_eq {bound : Nat} (hbound : scope < bound) :
    enclosing t bound scope false = some (t.enclosing scope) := by
  rw [enclosing_eq_of_shadowed hv h hbound]
  unfold Table.enclosing
  cases hfind : (t.owners scope).find? t.isFunction with
  | some id => simp only [hfind]
  | none => cases hempty : (t.owners scope).isEmpty <;> simp [hfind, hempty]

theorem signature_eq : signature t scope = some (t.signature? scope) := by
  obtain ⟨scopeName, parent, hh⟩ := Table.exists_heading? h
  obtain ⟨s, hs, hname, hp⟩ := Table.heading?_eq_some_iff.mp hh
  cases parent with
  | none => simp [signature, Table.signature?, hs, hp]
  | some p =>
      have hlt := hv.parent_lt_of_heading? hh
      have hlocal := lookupLocal_eq hv (Nat.lt_trans hlt h) scopeName
      cases hfound : t.lookupLocal p scopeName with
      | none => simp [signature, Table.signature?, hs, hp, hname, hlocal, hfound]
      | some id =>
          obtain ⟨sym, hsym, hfun⟩ := exists_symbol hfound
          cases hf : sym.ty.isFunction <;>
            simp [signature, Table.signature?, hs, hp, hname, hlocal, hfound, hsym,
              Option.filter_some, hfun, hf]

theorem declare_eq (name : String) (ty : Ty) (line : UInt32) :
    declare t scope name ty line = some (t.declare scope name ty line) := by
  simp [declare, lookupLocal_eq hv h]

omit h in
/-- A use whose mark, if it has one, is a scope of the table. -/
theorem resolve_eq {scope? : Option ScopeId}
    (hscope : ∀ id, scope? = some id → id < t.scopes.size) (name : String) (line : UInt32) :
    resolve t scope? name line = some (t.resolveSymbol scope? name line) := by
  cases scope? with
  | none => rfl
  | some scope =>
      unfold resolve Table.resolveSymbol Table.resolve
      simp only [lookup_eq hv (hscope scope rfl) name (Nat.lt_succ_self scope), bind,
        Option.bind_some]
      cases hfound : t.lookup scope name with
      | none => rfl
      | some id =>
          obtain ⟨sc, _, hid⟩ := List.exists_of_findSome?_eq_some hfound
          obtain ⟨sym, hsym, _⟩ := exists_symbol hid
          by_cases hline : sym.firstLine ≤ line
          · simp [hsym, Option.filter_some, hline]
          · simp [hsym, Option.filter_some, hline]

omit h in
/-- A return whose mark, if it has one, is a scope of the table. -/
theorem enclosingTy_eq {scope? : Option ScopeId}
    (hscope : ∀ id, scope? = some id → id < t.scopes.size) :
    enclosingTy t scope? = some (t.enclosingTy scope?) := by
  cases scope? with
  | none => rfl
  | some scope =>
      unfold enclosingTy Table.enclosingTy
      simp only [enclosing_eq hv (hscope scope rfl) (Nat.lt_succ_self scope), bind,
        Option.bind_some]
      cases hfound : t.enclosing scope with
      | function id =>
          obtain ⟨sym, hsym⟩ := exists_symbol_of_enclosing hfound
          simp [hsym, Enclosing.map, Table.tyOf?]
      | redefined => rfl
      | topLevel => rfl

end Agreement

theorem reference_eq {t : Table} {id : SymbolId} (h : id < t.symbols.size) (line : UInt32) :
    reference t id line = some (t.reference id line) := by
  simp [reference, h]

theorem addParameter_eq {t : Table} {id : SymbolId} (h : id < t.symbols.size) (ty : Ty) :
    addParameter t id ty = some (t.addParameter id ty) := by
  simp [addParameter, h]

end Guarded

end CMinus
