import CMinus.Proofs.Typing.Appending

/-!
# The signatures of functions

A parameter is declared in the scope of its function and finds the function again
by name, in the scope around.  Nothing in that step says that the symbol it finds is
the one its function has made: another declaration may have had the name first, and
then a flag has to stop the parameter from extending a signature that is not its
own.  The flag is set by one node and cleared by another.

For programs the outcome is simple.  A function that makes a symbol gives it the
types of its parameters, each name counting once; one that makes none changes no
signature at all.  Both follow from what a function does to the outermost scope
(`Scoping.adds_finished`): what was declared before it keeps its parameters.

That only functions have parameters holds for trees of every shape, since a
parameter is added to nothing else (`Table.FunctionsOnly`).

## Main results

* `Scoping.functionsOnly_finalTable`: a symbol with parameters is a function;
* `Scoping.makes_function`, `Scoping.symbol_of_function`: the symbol of a function;
* `Scoping.reports_redefinition`, `Scoping.params?_redefinition`: a redefinition;
* `build_signatures`: all of it, for a program that is built in a fresh session.
-/

namespace CMinus

/-! ## Parts of a program -/

namespace Forest

/-- What is appended to a program is declared behind it. -/
theorem globals_append (f g : Forest) : (f.append g).globals = f.globals ++ g.globals := by
  induction f with
  | nil => rfl
  | node l a b c rest _ _ _ ih => simp only [append, globals, ih, List.append_assoc]

/-- Both parts of a chain at the outermost level are at the outermost level. -/
theorem Outer.of_append {f g : Forest} (h : (f.append g).Outer) : f.Outer ∧ g.Outer := by
  induction f with
  | nil => exact ⟨.nil, h⟩
  | node l a b c rest _ _ _ ih =>
      cases h with
      | object hk hrest => exact ⟨.object hk (ih hrest).1, (ih hrest).2⟩
      | function hk hparams hblock hlocals hstmts hrest =>
          exact ⟨.function hk hparams hblock hlocals hstmts (ih hrest).1, (ih hrest).2⟩

theorem Outer.head {l : Label} {a b c rest : Forest} (h : (node l a b c rest).Outer) :
    (node l a b c .nil).Outer := by
  cases h with
  | object hk => exact .object hk .nil
  | function hk hparams hblock hlocals hstmts =>
      exact .function hk hparams hblock hlocals hstmts .nil

end Forest

/-! ## Only functions have parameters -/

namespace Table

/-- Only functions have parameters. -/
def FunctionsOnly (t : Table) : Prop :=
  ∀ (id : SymbolId) (sym : Symbol), t.symbols[id]? = some sym → sym.ty.isFunction = false →
    sym.params = []

namespace FunctionsOnly

variable {t : Table}

theorem reference (h : t.FunctionsOnly) (k : SymbolId) (line : UInt32) :
    (t.reference k line).FunctionsOnly := by
  intro id sym hsym hty
  rw [Table.reference, Array.getElem?_modify] at hsym
  split at hsym
  · obtain ⟨old, hold, rfl⟩ := Option.map_eq_some_iff.mp hsym
    exact h id old hold hty
  · exact h id sym hsym hty

theorem declare (h : t.FunctionsOnly) (scope : ScopeId) (name : String) (ty : Ty)
    (line : UInt32) : (t.declare scope name ty line).2.FunctionsOnly := by
  cases hfree : t.lookupLocal scope name with
  | some k =>
      rw [declare_of_lookupLocal_eq_some hfree]
      exact h
  | none =>
      intro id sym hsym hty
      rw [declare_of_lookupLocal_eq_none hfree, Array.getElem?_push] at hsym
      split at hsym
      · obtain rfl := Option.some.inj hsym
        rfl
      · exact h id sym hsym hty

theorem addParameter (h : t.FunctionsOnly) {k : SymbolId} (hk : t.isFunction k = true)
    (ty : Ty) : (t.addParameter k ty).FunctionsOnly := by
  intro id sym hsym hty
  rw [Table.addParameter, Array.getElem?_modify] at hsym
  split at hsym
  · next heq =>
      obtain ⟨old, hold, rfl⟩ := Option.map_eq_some_iff.mp hsym
      rw [Table.isFunction, Table.tyOf?, heq, hold, Option.map_some, Option.any_some] at hk
      exact absurd (hk.symm.trans hty) (by simp)
  · exact h id sym hsym hty

end FunctionsOnly

end Table

namespace Scoping

/-- A parameter is added to a function, also after its own declaration. -/
theorem isFunction_of_signature? {t : Table} (hv : t.Valid) {here scope : ScopeId}
    {id : SymbolId} (hsig : t.signature? here = some id) (hscope : scope < t.scopes.size)
    (name : String) (ty : Ty) (line : UInt32) :
    (t.declare scope name ty line).2.isFunction id = true := by
  obtain ⟨_, _, _, hid, hfun⟩ := signature?_eq_some hsig
  have hgrows : Later t (t.declare scope name ty line).2 :=
    Table.grows_declare hv hscope trivial name ty line
  rw [Table.isFunction, hgrows.tyOf?_eq (Table.symbol_lt_of_lookupLocal hid)]
  exact hfun

theorem Change.functionsOnly {here : ScopeId} {l : Label} {t t' : Table} (hv : t.Valid)
    (htop : t.top? = some here) (hchange : Change here l t t') (h : t.FunctionsOnly) :
    t'.FunctionsOnly := by
  cases hchange with
  | same | block => exact h
  | used => exact h.reference _ _
  | object => exact h.declare _ _ _ _
  | parameter _ hsig =>
      exact (h.declare _ _ _ _).addParameter
        (isFunction_of_signature? hv hsig (lt_of_top? hv htop) _ _ _) _
  | function => exact h.declare _ _ _ _

/-- In a finished table, only functions have parameters. -/
theorem functionsOnly_finalTable (f : Forest) : (finalTable f).FunctionsOnly := by
  have hstart : start.table.FunctionsOnly := by
    intro id sym hsym
    have hbuiltins : ∀ sym ∈ start.table.symbols.toList,
        sym.ty.isFunction = false → sym.params = [] := by decide
    exact hbuiltins sym (Array.mem_toList_iff.mpr (Array.mem_of_getElem? hsym))
  exact invariant_after Change.functionsOnly (fun _ h => h) outside_start.valid hstart f

/-! ## One function of a program -/

section Function

variable {pre params body third rest : Forest} {l : Label} {name : String} {spec : Spec}
  (hf : (pre.append (.node l params body third rest)).Outer)
  (hk : l.kind = .funDecl name spec)

include hf

/-- A function of a program is entered at the outermost level. -/
theorem outside_before : Outside (start.after pre) := (adds_program hf.of_append.1).outside

/-- A name is free when a function is entered if no earlier declaration has it. -/
theorem isSome_lookupLocal_before (name : String) :
    ((start.after pre).table.lookupLocal 0 name).isSome =
      (Decl.find? (builtins ++ pre.globals) name).isSome := by
  rw [← Table.isSome_meaning?]
  exact congrArg Option.isSome (meaning?_finalTable hf.of_append.1 name)

include hk

/-- A function with a free name is the next symbol. -/
theorem lookupLocal_function (hfree : Decl.find? (builtins ++ pre.globals) name = none) :
    (enter l (start.after pre)).2.table.lookupLocal 0 name =
      some (start.after pre).table.symbols.size := by
  have hs := outside_before hf
  have hlocal : (start.after pre).table.lookupLocal 0 name = none := by
    have hsome := isSome_lookupLocal_before hf name
    rw [hfree] at hsome
    simpa using hsome
  rw [enter_of_function hk hs]
  exact lookupLocal_declared name spec l.line hs hlocal

theorem makes_function (hfree : Decl.find? (builtins ++ pre.globals) name = none) :
    Makes l (start.after pre).table (enter l (start.after pre)).2.table := by
  have hlt := Table.symbol_lt_of_lookupLocal (lookupLocal_function hf hk hfree)
  rcases (entered_enter l _ (outside_before hf).valid).symbols with hsame | hmakes
  · rw [hsame] at hlt
    exact absurd hlt (Nat.lt_irrefl _)
  · exact hmakes

/-- The symbol that a function makes has the types of its parameters. -/
theorem symbol_of_function (hfree : Decl.find? (builtins ++ pre.globals) name = none) :
    ∃ sym, (finalTable (pre.append (.node l params body third rest))).symbols[
        (start.after pre).table.symbols.size]? = some sym ∧ sym.scope = 0 ∧
      sym.decl =
        ⟨name, .functionReturning spec, Decl.signature [] params.decls, l.line⟩ := by
  have hid : (finalTable (pre.append (.node l params body third rest))).lookupLocal 0 name =
      some (start.after pre).table.symbols.size := by
    have hm : (⟨l, start.after pre⟩ : Moment Scoping) ∈
        (start.after pre).moments (.node l params body third rest) := by
      rw [moments_node]
      exact List.mem_cons_self
    have hkept := (later_end (outside_before hf).valid hm).kept 0 name _
      (lookupLocal_function hf hk hfree)
    rw [← after_append] at hkept
    exact hkept
  have hmeaning := meaning?_finalTable hf name
  rw [Forest.globals_append, ← List.append_assoc, Decl.find?_append, hfree, Option.none_or,
    Forest.globals, Label.global?_of_function hk, Option.toList_some, List.singleton_append,
    Table.meaning?, hid, Option.bind_some, Decl.find?, List.find?_cons_of_pos (by simp)]
    at hmeaning
  obtain ⟨sym, hsym, hdecl⟩ := Option.map_eq_some_iff.mp hmeaning
  obtain ⟨sym', hsym', _, hscope⟩ := (valid_end _).lookupLocal_eq_some_iff.mp hid
  obtain rfl : sym = sym' := Option.some.inj (hsym.symm.trans hsym')
  exact ⟨sym, hsym, hscope, hdecl⟩

/-- A function whose name is taken is reported. -/
theorem log_redefinition (htaken : (Decl.find? (builtins ++ pre.globals) name).isSome = true) :
    ∃ more, ((start.after pre).after (.node l params body third .nil)).log.entries.toList =
      (start.after pre).log.entries.toList ++ .redefinition name l.line :: more := by
  have hs := outside_before hf
  have hcomplaint : (start.after pre).complaint l = some (.redefinition name l.line) := by
    simp only [complaint, hs.top, hk, Option.bind_some, functionComplaint,
      isSome_lookupLocal_before hf name, htaken, if_true]
  rw [log_after, reports_node, hcomplaint]
  exact ⟨_, rfl⟩

omit hk in
/-- A declaration of a program changes the parameters of no earlier symbol. -/
theorem params?_before {id : SymbolId} (hid : id < (start.after pre).table.symbols.size) :
    ((start.after pre).after (.node l params body third .nil)).table.params? id =
      (start.after pre).table.params? id :=
  (adds_of_outer hf.of_append.2.head (outside_before hf)).grows.params_eq id hid (fun h => h)

end Function

/-! ## Building a program -/

/-- The signatures of a program that is built in a fresh session. -/
structure Signatures (f : Forest) (table : Table) : Prop where
  /-- A function whose name no earlier declaration has makes a symbol, and this has
  the types of the function's parameters. -/
  made : ∀ {pre params body third rest : Forest} {l : Label} {name : String} {spec : Spec},
    f = pre.append (.node l params body third rest) → l.kind = .funDecl name spec →
    Decl.find? (builtins ++ pre.globals) name = none →
    Makes l (start.after pre).table (enter l (start.after pre)).2.table ∧
      ∃ sym, table.symbols[(start.after pre).table.symbols.size]? = some sym ∧
        sym.scope = 0 ∧ sym.decl =
          ⟨name, .functionReturning spec, Decl.signature [] params.decls, l.line⟩
  /-- A function whose name is taken is reported, and when the walk is past it, every
  symbol from before has the parameters it had. -/
  redefined : ∀ {pre params body third rest : Forest} {l : Label} {name : String}
      {spec : Spec},
    f = pre.append (.node l params body third rest) → l.kind = .funDecl name spec →
    (Decl.find? (builtins ++ pre.globals) name).isSome = true →
    (∃ more, ((start.after pre).after (.node l params body third .nil)).log.entries.toList =
      (start.after pre).log.entries.toList ++ .redefinition name l.line :: more) ∧
      ∀ id < (start.after pre).table.symbols.size,
        ((start.after pre).after (.node l params body third .nil)).table.params? id =
          (start.after pre).table.params? id
  input : table.meaning? 0 "input" = some ⟨"input", .intFunction, [], 0⟩
  output : table.meaning? 0 "output" = some ⟨"output", .voidFunction, [.int], 0⟩
  /-- Nothing but functions has parameters. -/
  others : ∀ (id : SymbolId) (sym : Symbol), table.symbols[id]? = some sym →
    sym.ty.isFunction = false → sym.params = []

end Scoping

open Scoping in
/-- The signatures of a program are exact. -/
theorem build_signatures (config : Config) {f : Forest} (hf : f.IsProgram) :
    ∃ finished session, (Session.start config).build f = .ok (finished, session) ∧
      Signatures f session.table := by
  refine ⟨_, _, build_start config f, ?_⟩
  exact
    { made := by
        rintro pre params body third rest l name spec rfl hk hfree
        exact ⟨makes_function hf.outer hk hfree, symbol_of_function hf.outer hk hfree⟩
      redefined := by
        rintro pre params body third rest l name spec rfl hk htaken
        exact ⟨log_redefinition hf.outer hk htaken, fun id hid => params?_before hf.outer hid⟩
      input := by
        rw [meaning?_finalTable hf.outer, Decl.find?_append]
        rfl
      output := by
        rw [meaning?_finalTable hf.outer, Decl.find?_append]
        rfl
      others := functionsOnly_finalTable f }

/-- A function with a parameter of its own name, the same parameter again, and one
that is `void`. -/
def crowdedFunction : Tree :=
  .funDecl "f" .int [.param "f" .int 1, .param "f" .int 1, .param "v" .void 1,
    .arrayParam "a" .int 1] (.compound [] [.returnValue (.var "f" 2) 2] 1) 1

/-- The function again, with another parameter. -/
def repeatedFunction : Tree :=
  .funDecl "f" .void [.param "x" .int 3] (.compound [] [.returnVoid 4] 3) 3

/-- Functions that lose their names to an earlier one and to a built-in one. -/
def clashingProgram : Forest := .ofTrees [crowdedFunction, repeatedFunction,
  .funDecl "input" .int [.param "y" .int 5] (.compound [] [.returnValue (.var "y" 6) 6] 5) 5]

open Scoping in
theorem build_signatures_clashingProgram :
    clashingProgram.IsProgram ∧
      ∃ finished session, (Session.start {}).build clashingProgram = .ok (finished, session) ∧
        Signatures clashingProgram session.table ∧
        (∃ sym, session.table.symbols[3]? = some sym ∧ sym.name = "f" ∧
          sym.params = [.int, .poison, .intArray]) ∧
        ∃ more, ((start.after (.ofTrees [crowdedFunction])).after
            (.ofTrees [repeatedFunction])).log.entries.toList =
          (start.after (.ofTrees [crowdedFunction])).log.entries.toList ++
            .redefinition "f" 3 :: more := by
  have hshape : clashingProgram.IsProgram := by decide
  obtain ⟨finished, session, hbuild, hsignatures⟩ := build_signatures {} hshape
  obtain ⟨_, sym, hsym, _, hdecl⟩ := @Signatures.made _ _ hsignatures .nil _ _ _ _ _ _ _
    rfl rfl rfl
  have hagain := (@Signatures.redefined _ _ hsignatures (.ofTrees [crowdedFunction])
    _ _ _ _ _ _ _ rfl rfl rfl).1
  exact ⟨hshape, finished, session, hbuild, hsignatures,
    ⟨sym, hsym, congrArg Decl.name hdecl, congrArg Decl.params hdecl⟩, hagain⟩

end CMinus
