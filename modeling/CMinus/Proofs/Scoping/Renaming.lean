import CMinus.Proofs.Scoping.Flat
import CMinus.Proofs.Typing.Renaming

/-!
# Names under scoping

The first pass over a program and over the same program under other names.  A
renaming moves every symbol to another bucket of its scope, so the two tables
look different; but a valid table finds a symbol exactly by its name and its
scope, and an injective renaming changes no comparison of names.  That is the
relation between the two runs: the same scopes and symbols under the same ids,
the names of the program renamed (`Table.Renamed`).

Three names in a table are not the program's own, and are not renamed with it.
The built-in functions have theirs kept by the renaming (`IsRenaming`).  The
parameter of `output` is alone in a scope that is closed before the program
begins, so no name of the program is ever compared with it (`Table.Sealed`).  The
outermost scope has a name that only blocks at the outermost level are given, and
a program has none: inside a function blocks are called like the function.
-/

namespace CMinus

/-- A renaming of identifiers under which the built-in functions keep their
names. -/
structure IsRenaming (r : String → String) : Prop where
  injective : Function.Injective r
  input : r "input" = "input"
  output : r "output" = "output"

/-- The symbol `id` under a new name, unless it is built in. -/
def Symbol.rename (r : String → String) (id : SymbolId) (s : Symbol) : Symbol :=
  if id < 3 then s else { s with name := r s.name }

/-- The object under a new name. -/
def Object.rename (r : String → String) (o : Object) : Object := { o with name := r o.name }

/-- The heading of the scope `id` under a new name, unless it is built in. -/
def renameHeading (r : String → String) (id : ScopeId) (h : String × Option ScopeId) :
    String × Option ScopeId :=
  (if id < 2 then h.1 else r h.1, h.2)

namespace Symbol

variable (r : String → String) (id : SymbolId) (s : Symbol)

@[simp] theorem ty_rename : (s.rename r id).ty = s.ty := by
  unfold rename
  split <;> rfl

@[simp] theorem params_rename : (s.rename r id).params = s.params := by
  unfold rename
  split <;> rfl

@[simp] theorem scope_rename : (s.rename r id).scope = s.scope := by
  unfold rename
  split <;> rfl

@[simp] theorem firstLine_rename : (s.rename r id).firstLine = s.firstLine := by
  unfold rename
  split <;> rfl

@[simp] theorem profile_rename : Typing.profile (s.rename r id) = Typing.profile s := by
  simp [Typing.profile]

end Symbol

namespace Table

open Scoping (Later start lt_of_top?)

/-! ## The scope of the built-in parameter -/

/-- The scope of `output` is closed for good: it is not open, nothing else is
declared in it, and no scope is inside it. -/
structure Sealed (t : Table) : Prop where
  valid : t.Valid
  later : Later start.table t
  foreign : ∀ id sym, t.fixed? id = some sym → 3 ≤ id → sym.scope ≠ 1
  notOpen : 1 ∉ t.openScopes
  notParent : ∀ id name, t.heading? id ≠ some (name, some 1)

theorem heading?_eq_none_iff {t : Table} {id : ScopeId} :
    t.heading? id = none ↔ t.scopes.size ≤ id := by
  rw [heading?, Option.map_eq_none_iff, Array.getElem?_eq_none_iff]

theorem lt_of_fixed? {t : Table} {id : SymbolId} {sym : Symbol} (h : t.fixed? id = some sym) :
    id < t.symbols.size := by
  obtain ⟨_, hsym, _⟩ := Option.map_eq_some_iff.mp h
  exact (Array.getElem?_eq_some_iff.mp hsym).1

namespace Sealed

variable {t t' : Table}

theorem top_ne (h : t.Sealed) {here : ScopeId} (htop : t.top? = some here) : here ≠ 1 := by
  rintro rfl
  rw [← head?_openScopes] at htop
  exact h.notOpen (List.mem_of_mem_head? htop)

theorem two_le_scopes (h : t.Sealed) : 2 ≤ t.scopes.size := h.later.scopes_le

theorem three_le_symbols (h : t.Sealed) : 3 ≤ t.symbols.size := h.later.symbols_le

/-- A built-in symbol has the name of a built-in function or is the parameter. -/
theorem builtin (h : t.Sealed) {id : SymbolId} {sym : Symbol} (hsym : t.symbols[id]? = some sym)
    (hid : id < 3) : sym.name = "input" ∨ sym.name = "output" ∨ sym.scope = 1 := by
  have hbuiltins : ∀ old ∈ start.table.symbols.toList,
      old.fixed.name = "input" ∨ old.fixed.name = "output" ∨ old.fixed.scope = 1 := by decide
  have hfixed := h.later.fixed_eq id hid
  rw [fixed?, hsym, Option.map_some] at hfixed
  obtain ⟨old, hold, heq⟩ := Option.map_eq_some_iff.mp hfixed.symm
  have hname := hbuiltins old (Array.mem_toList_iff.mpr (Array.mem_of_getElem? hold))
  rw [heq] at hname
  exact hname

/-- A symbol that was there before is still where it was. -/
theorem foreign_of_lt (h : t.Sealed) (hl : Later t t') {id : SymbolId} {sym : Symbol}
    (hlt : id < t.symbols.size) (hsym : t'.fixed? id = some sym) (hid : 3 ≤ id) :
    sym.scope ≠ 1 := by
  rw [hl.fixed_eq id hlt] at hsym
  exact h.foreign id sym hsym hid

/-- Changes that make neither a symbol nor a scope, and open none. -/
theorem of_same (h : t.Sealed) (hv : t'.Valid) (hl : Later t t')
    (hsize : t'.symbols.size = t.symbols.size)
    (hopen : ∀ id ∈ t'.openScopes, id ∈ t.openScopes)
    (hheading : ∀ id, t'.heading? id = t.heading? id) : t'.Sealed where
  valid := hv
  later := h.later.append hl
  foreign := fun _ _ hsym => h.foreign_of_lt hl (hsize ▸ lt_of_fixed? hsym) hsym
  notOpen := fun hmem => h.notOpen (hopen 1 hmem)
  notParent := fun id name hid => h.notParent id name ((hheading id).symm.trans hid)

theorem pop (h : t.Sealed) : t.pop.Sealed := by
  refine h.of_same h.valid.pop (grows_pop t) rfl ?_ (fun _ => rfl)
  intro id hid
  rw [openScopes_pop] at hid
  exact List.mem_of_mem_tail hid

theorem discard (h : t.Sealed) : t.discard.Sealed :=
  h.of_same h.valid.discard (grows_discard t) rfl (by simp [openScopes, Table.discard])
    (fun _ => rfl)

theorem reference (h : t.Sealed) (k : SymbolId) (line : UInt32) :
    (t.reference k line).Sealed :=
  h.of_same (h.valid.reference k line) (grows_reference h.valid k line)
    (by simp [Table.reference]) (fun _ hid => hid) (fun _ => rfl)

theorem addParameter (h : t.Sealed) (k : SymbolId) (ty : Ty) : (t.addParameter k ty).Sealed :=
  h.of_same (h.valid.addParameter k ty) (grows_addParameter trivial t ty)
    (by simp [Table.addParameter]) (fun _ hid => hid) (fun _ => rfl)

theorem push (h : t.Sealed) (name : String) : (t.push name).Sealed where
  valid := h.valid.push name
  later := h.later.append (grows_push t name)
  foreign := h.foreign
  notOpen := by
    rw [openScopes_push, List.mem_cons, not_or]
    exact ⟨Nat.ne_of_lt h.two_le_scopes, h.notOpen⟩
  notParent := by
    intro id name' hid
    by_cases hold : id < t.scopes.size
    · rw [heading?_push_of_lt hold] at hid
      exact h.notParent id name' hid
    · have hlt := lt_of_heading? hid
      rw [Table.push, Array.size_push] at hlt
      have hnew := Nat.le_antisymm (Nat.le_of_lt_succ hlt) (Nat.not_lt.mp hold)
      rw [hnew, heading?_push_self] at hid
      exact h.top_ne (congrArg Prod.snd (Option.some.inj hid)) rfl

theorem declare (h : t.Sealed) {here : ScopeId} (hhere : here < t.scopes.size) (hne : here ≠ 1)
    (name : String) (ty : Ty) (line : UInt32) : (t.declare here name ty line).2.Sealed := by
  have hl : Later t (t.declare here name ty line).2 :=
    grows_declare h.valid hhere trivial name ty line
  refine ⟨h.valid.declare hhere name ty line, h.later.append hl, ?_, ?_, ?_⟩
  · intro id sym hsym hid
    by_cases hold : id < t.symbols.size
    · exact h.foreign_of_lt hl hold hsym hid
    · -- the symbol is new, and in the scope of the declaration
      have hlt := lt_of_fixed? hsym
      have hle := Scoping.size_symbols_declare_le t here name ty line
      obtain rfl : id = t.symbols.size :=
        Nat.le_antisymm (Nat.le_of_lt_succ (Nat.lt_of_lt_of_le hlt hle)) (Nat.not_lt.mp hold)
      rw [Scoping.fixed?_declare_of_lt hlt] at hsym
      rw [← Option.some.inj hsym]
      exact hne
  · rw [openScopes_declare]
    exact h.notOpen
  · intro id name'
    rw [heading?_declare]
    exact h.notParent id name'

end Sealed

end Table

namespace Scoping

open Table (Sealed)

theorem sealed_start : start.table.Sealed where
  valid := outside_start.valid
  later := Table.Grows.refl _
  foreign := fun _ _ hsym hid => absurd (Table.lt_of_fixed? hsym) (Nat.not_lt.mpr hid)
  notOpen := by decide
  notParent := by
    intro id name hid
    match id, Table.lt_of_heading? hid with
    | 0, _ =>
        have hparent : (none : Option ScopeId) = some 1 := congrArg Prod.snd (Option.some.inj hid)
        cases hparent
    | 1, _ =>
        have hparent : some (0 : ScopeId) = some 1 := congrArg Prod.snd (Option.some.inj hid)
        cases hparent
    | k + 2, hlt => exact absurd hlt (Nat.not_lt.mpr (Nat.le_add_left 2 k))

/-- The innermost scope is not the sealed one, so nothing is done to that. -/
theorem sealed_enter (l : Label) {s : Scoping} (h : s.table.Sealed) :
    (enter l s).2.table.Sealed := by
  cases htop : s.table.top? with
  | none => simpa only [enter, htop] using h
  | some here =>
      have hdeclare := h.declare (lt_of_top? h.valid htop) (h.top_ne htop)
      have hchange := change_enter l htop
      generalize (enter l s).2.table = t' at hchange
      cases hchange with
      | same => exact h
      | used => exact h.reference _ _
      | object => exact hdeclare _ _ _
      | parameter => exact (hdeclare _ _ _).addParameter _ _
      | block => exact h.push _
      | function => exact (hdeclare _ _ _).push _

theorem sealed_exit (l : Label) {s : Scoping} (h : s.table.Sealed) :
    (exit l s).table.Sealed := by
  rcases table_exit l s with heq | heq
  · rw [heq]
    exact h
  · rw [heq]
    exact h.pop

/-- Nor is it in a whole walk, and no node is marked with it. -/
theorem sealed_moment {s : Scoping} (h : s.table.Sealed) {f : Forest} {m : Moment Scoping}
    (hm : m ∈ s.moments f) : m.state.table.Sealed :=
  ((Forest.walk_related enter leave (R := fun s s' => s.table.Sealed → s'.table.Sealed)
    (fun _ h => h) (fun h h' hs => h' (h hs)) (fun l _ => sealed_enter l)
    (fun t s h => by rw [leave_eq]; exact sealed_exit t.label h) f s).2 m hm).1 h

end Scoping

namespace Table

open Scoping (lt_of_top?)

/-! ## A table under new names -/

/-- The second table has the scopes and symbols of the first under the same ids,
with the names of the program renamed. -/
structure Renamed (r : String → String) (t t' : Table) : Prop where
  valid : t'.Valid
  stack : t'.stack = t.stack
  heading : ∀ id, t'.heading? id = (t.heading? id).map (renameHeading r id)
  symbol : ∀ id : SymbolId, t'.symbols[id]? = t.symbols[id]?.map (Symbol.rename r id)

namespace Renamed

variable {r : String → String} {t t' : Table}

theorem top (h : Renamed r t t') : t'.top? = t.top? := by
  rw [top?, h.stack, top?]

theorem tyOf?_eq (h : Renamed r t t') (id : SymbolId) : t'.tyOf? id = t.tyOf? id := by
  simp [tyOf?, h.symbol, Function.comp_def]

theorem isFunction_eq (h : Renamed r t t') (id : SymbolId) :
    t'.isFunction id = t.isFunction id := by
  rw [isFunction, h.tyOf?_eq, isFunction]

theorem symbols_size (h : Renamed r t t') : t'.symbols.size = t.symbols.size := by
  have hiff : ∀ n, t'.symbols.size ≤ n ↔ t.symbols.size ≤ n := by
    intro n
    rw [← Array.getElem?_eq_none_iff, h.symbol, Option.map_eq_none_iff,
      Array.getElem?_eq_none_iff]
  exact Nat.le_antisymm ((hiff _).mpr (Nat.le_refl _)) ((hiff _).mp (Nat.le_refl _))

theorem scopes_size (h : Renamed r t t') : t'.scopes.size = t.scopes.size := by
  have hiff : ∀ n, t'.scopes.size ≤ n ↔ t.scopes.size ≤ n := by
    intro n
    rw [← heading?_eq_none_iff, h.heading, Option.map_eq_none_iff, heading?_eq_none_iff]
  exact Nat.le_antisymm ((hiff _).mpr (Nat.le_refl _)) ((hiff _).mp (Nat.le_refl _))

/-- The heading of a scope of the program. -/
theorem heading_of_two_le (h : Renamed r t t') {id : ScopeId} (hid : 2 ≤ id) {name : String}
    {parent : Option ScopeId} (hh : t.heading? id = some (name, parent)) :
    t'.heading? id = some (r name, parent) := by
  rw [h.heading, hh, Option.map_some, renameHeading, if_neg (Nat.not_lt.mpr hid)]

section Lookup

variable (hr : IsRenaming r) (h : Renamed r t t') (hs : t.Sealed)

include hr hs in
/-- Outside the sealed scope every symbol bears the new name: the built-in
functions are fixed by the renaming. -/
theorem name_rename {id : SymbolId} {sym : Symbol} (hsym : t.symbols[id]? = some sym)
    (hne : sym.scope ≠ 1) : (sym.rename r id).name = r sym.name := by
  unfold Symbol.rename
  split
  · next hid =>
      rcases hs.builtin hsym hid with hname | hname | hscope
      · rw [hname, hr.input]
      · rw [hname, hr.output]
      · exact absurd hscope hne
  · rfl

include hr h hs

/-- A name means in a scope what the new name means there. -/
theorem lookupLocal_eq {scope : ScopeId} (hne : scope ≠ 1) (name : String) :
    t'.lookupLocal scope (r name) = t.lookupLocal scope name := by
  apply Option.ext
  intro id
  rw [h.valid.lookupLocal_eq_some_iff, hs.valid.lookupLocal_eq_some_iff, h.symbol]
  constructor
  · rintro ⟨_, hmap, hname, hscope⟩
    obtain ⟨sym, hsym, rfl⟩ := Option.map_eq_some_iff.mp hmap
    rw [Symbol.scope_rename] at hscope
    rw [name_rename hr hs hsym (hscope ▸ hne)] at hname
    exact ⟨sym, hsym, hr.injective hname, hscope⟩
  · rintro ⟨sym, hsym, rfl, rfl⟩
    exact ⟨sym.rename r id, by rw [hsym, Option.map_some], name_rename hr hs hsym hne,
      Symbol.scope_rename r id sym⟩

omit hr in
/-- A scope that is not sealed has a parent that is not sealed. -/
theorem heading_cases {scope : ScopeId} (hscope : scope < t.scopes.size) (hne : scope ≠ 1) :
    (∃ name name', t.heading? scope = some (name, none) ∧
        t'.heading? scope = some (name', none)) ∨
      ∃ name p, t.heading? scope = some (name, some p) ∧
        t'.heading? scope = some (r name, some p) ∧ p < scope ∧ p ≠ 1 := by
  obtain ⟨name, parent, hh⟩ := exists_heading? hscope
  cases parent with
  | none => exact .inl ⟨name, _, hh, by rw [h.heading, hh, Option.map_some]; rfl⟩
  | some p =>
      have hp := hs.valid.parent_lt_of_heading? hh
      have hne' : p ≠ 1 := by
        rintro rfl
        exact hs.notParent scope name hh
      have htwo : 2 ≤ scope := Nat.lt_of_le_of_ne (Nat.zero_lt_of_lt hp) (Ne.symm hne)
      exact .inr ⟨name, p, hh, h.heading_of_two_le htwo hh, hp, hne'⟩

theorem lookup_eq {scope : ScopeId} (hscope : scope < t.scopes.size) (hne : scope ≠ 1)
    (name : String) : t'.lookup scope (r name) = t.lookup scope name := by
  induction scope using Nat.strongRecOn with
  | _ scope ih =>
      have hlocal := lookupLocal_eq hr h hs hne name
      rcases heading_cases h hs hscope hne with ⟨_, _, hh, hh'⟩ | ⟨_, p, hh, hh', hp, hne'⟩
      · rw [lookup_of_root hh, lookup_of_root hh', hlocal]
      · rw [hs.valid.lookup_of_parent hh, h.valid.lookup_of_parent hh', hlocal,
          ih p hp (Nat.lt_trans hp hscope) hne']

theorem owners_eq {scope : ScopeId} (hscope : scope < t.scopes.size) (hne : scope ≠ 1) :
    t'.owners scope = t.owners scope := by
  induction scope using Nat.strongRecOn with
  | _ scope ih =>
      rcases heading_cases h hs hscope hne with
        ⟨_, _, hh, hh'⟩ | ⟨name, p, hh, hh', hp, hne'⟩
      · rw [owners_of_root hh, owners_of_root hh']
      · rw [hs.valid.owners_of_parent hh, h.valid.owners_of_parent hh',
          lookupLocal_eq hr h hs hne' name, ih p hp (Nat.lt_trans hp hscope) hne']

theorem signature?_eq {scope : ScopeId} (hscope : scope < t.scopes.size) (hne : scope ≠ 1) :
    t'.signature? scope = t.signature? scope := by
  rw [Scoping.signature?_eq, Scoping.signature?_eq]
  rcases heading_cases h hs hscope hne with ⟨_, _, hh, hh'⟩ | ⟨name, p, hh, hh', _, hne'⟩
  · rw [hh, hh']
    rfl
  · simp only [hh, hh', Option.bind_some, lookupLocal_eq hr h hs hne' name]
    rw [show t'.isFunction = t.isFunction from funext h.isFunction_eq]

/-- The second pass is answered alike. -/
theorem answers {scope : ScopeId} (hscope : scope < t.scopes.size) (hne : scope ≠ 1)
    (line : UInt32) : Typing.Answers r t t' (some scope) line := by
  have hresolve : ∀ name, t'.resolve (some scope) (r name) line =
      t.resolve (some scope) name line := by
    intro name
    simp only [resolve, bind, Option.bind_some, lookup_eq hr h hs hscope hne, h.symbol,
      Option.any_map, Symbol.firstLine_rename]
  refine ⟨hresolve, fun name => ?_, ?_⟩
  · rw [resolveSymbol, resolveSymbol, hresolve]
    cases t.resolve (some scope) name line with
    | none => rfl
    | some id =>
        show t'.symbols[id]?.map Typing.profile = t.symbols[id]?.map Typing.profile
        simp only [h.symbol, Option.map_map, Function.comp_def, Symbol.profile_rename]
  · simp only [enclosingTy, enclosing, owners_eq hr h hs hscope hne,
      show t'.isFunction = t.isFunction from funext h.isFunction_eq,
      show t'.tyOf? = t.tyOf? from funext h.tyOf?_eq]

end Lookup

/-! ## The operations under new names -/

theorem pop (h : Renamed r t t') : Renamed r t.pop t'.pop where
  valid := h.valid.pop
  stack := by simp only [Table.pop, h.stack]
  heading := h.heading
  symbol := h.symbol

theorem discard (h : Renamed r t t') : Renamed r t.discard t'.discard where
  valid := h.valid.discard
  stack := rfl
  heading := h.heading
  symbol := h.symbol

theorem push (h : Renamed r t t') (htwo : 2 ≤ t.scopes.size) (name : String) :
    Renamed r (t.push name) (t'.push (r name)) where
  valid := h.valid.push (r name)
  stack := by simp only [Table.push, nextScope, h.scopes_size, h.stack]
  heading := by
    intro id
    rcases Nat.lt_trichotomy id t.scopes.size with hlt | rfl | hgt
    · rw [heading?_push_of_lt hlt, heading?_push_of_lt (h.scopes_size ▸ hlt), h.heading]
    · rw [heading?_push_self, ← h.scopes_size, heading?_push_self, h.top, Option.map_some,
        renameHeading, if_neg (Nat.not_lt.mpr (h.scopes_size ▸ htwo))]
    · rw [heading?_eq_none_iff.mpr, heading?_eq_none_iff.mpr, Option.map_none]
      · simp only [Table.push, Array.size_push]
        omega
      · simp only [Table.push, Array.size_push, h.scopes_size]
        omega
  symbol := h.symbol

/-- Changing a symbol in what is not its name. -/
theorem modify (h : Renamed r t t') (k : SymbolId) {f : Symbol → Symbol}
    (hf : ∀ id s, f (s.rename r id) = (f s).rename r id)
    (hv : ({ t' with symbols := t'.symbols.modify k f } : Table).Valid) :
    Renamed r { t with symbols := t.symbols.modify k f }
      { t' with symbols := t'.symbols.modify k f } where
  valid := hv
  stack := h.stack
  heading := h.heading
  symbol := by
    intro id
    simp only [Array.getElem?_modify, h.symbol]
    split
    · simp only [Option.map_map, Function.comp_def, hf]
    · rfl

theorem reference (h : Renamed r t t') (k : SymbolId) (line : UInt32) :
    Renamed r (t.reference k line) (t'.reference k line) := by
  refine h.modify k (fun id s => ?_) (h.valid.reference k line)
  unfold Symbol.rename
  split <;> rfl

theorem addParameter (h : Renamed r t t') (k : SymbolId) (ty : Ty) :
    Renamed r (t.addParameter k ty) (t'.addParameter k ty) := by
  refine h.modify k (fun id s => ?_) (h.valid.addParameter k ty)
  unfold Symbol.rename
  split <;> rfl

theorem declare (hr : IsRenaming r) (h : Renamed r t t') (hs : t.Sealed) {here : ScopeId}
    (hhere : here < t.scopes.size) (hne : here ≠ 1) (name : String) (ty : Ty) (line : UInt32) :
    Renamed r (t.declare here name ty line).2 (t'.declare here (r name) ty line).2 := by
  have hlookup := lookupLocal_eq hr h hs hne name
  have hvalid := h.valid.declare (h.scopes_size ▸ hhere) (r name) ty line
  have hheading : ∀ id, (t'.declare here (r name) ty line).2.heading? id =
      ((t.declare here name ty line).2.heading? id).map (renameHeading r id) := by
    intro id
    rw [heading?_declare, heading?_declare, h.heading]
  cases hfree : t.lookupLocal here name with
  | some k =>
      rw [declare_of_lookupLocal_eq_some hfree,
        declare_of_lookupLocal_eq_some (hlookup.trans hfree)]
      exact h
  | none =>
      have hfree' := hlookup.trans hfree
      refine ⟨hvalid, ?_, hheading, fun id => ?_⟩
      · rw [declare_of_lookupLocal_eq_none hfree, declare_of_lookupLocal_eq_none hfree', h.stack]
      · rw [declare_of_lookupLocal_eq_none hfree, declare_of_lookupLocal_eq_none hfree']
        simp only [Array.getElem?_push, h.symbols_size, h.symbol]
        split
        · next hid =>
            have hthree : ¬id < 3 := by
              rw [hid]
              exact Nat.not_lt.mpr hs.three_le_symbols
            simp only [Option.map_some, Symbol.rename, if_neg hthree, fresh, h.stack]
        · rfl

end Renamed

end Table

end CMinus
