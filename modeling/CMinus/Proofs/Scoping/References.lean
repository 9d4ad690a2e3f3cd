import CMinus.Proofs.Scoping.Ledger

/-!
# The reference lists

A symbol keeps the line of its declaration and then one line for every recorded
use.  A use is recorded while the table grows, on whatever its name means at that
moment, so the list depends on when each scope learned the name: a later
declaration in a nearer scope must not attract an earlier use, and a declaration
that failed must attract none.

The list can nevertheless be read off the finished tree and the finished table.
`Label.refersTo?` goes from the scope that a node is marked with outwards and stops
at the first scope that has a symbol of that name which was made before the node.
The chain of scopes is the one the walk saw, since headings never change, and the
symbols made before are those it knew (`Scoping.declarations_moment`).

The uses of one name of one scope are then a view of the table that declarations
leave alone and that a use extends if it refers there (`Scoping.usesOf_enter`), and
`Forest.follows_walk` adds the uses up.

## Main results

* `Scoping.refersTo?_eq`: what a node refers to, read off the finished tree;
* `Scoping.usesOf_after`: the uses of a name of a scope, in preorder;
* `build_references`: the reference list of every symbol, and the symbol of every
  use.
-/

namespace CMinus

/-- What a node refers to, as a scope and a name: the nearest scope that has one of
the earlier symbols under the name that the node uses. -/
def Label.refersTo? (t : Table) (earlier : List Declaration) (u : Label) :
    Option (ScopeId × String) :=
  u.kind.use?.bind fun name => u.marks.scope.bind fun here =>
    ((t.chain here).find? fun scope => Declaration.holds earlier scope name).map (·, name)

/-- The lines of the nodes that refer to a name of a scope, in preorder, where
`earlier` says which symbols there are before each position. -/
def Forest.referenceLines (f : Forest) (t : Table) (earlier : Nat → List Declaration)
    (scope : ScopeId) (name : String) : List UInt32 :=
  f.preorder.zipIdx.filterMap fun (u, i) =>
    if u.refersTo? t (earlier i) = some (scope, name) then some u.line else none

namespace Table

/-! ## The uses of a name of a scope -/

/-- The lines on which uses of a name of a scope are recorded. -/
def usesOf (t : Table) (scope : ScopeId) (name : String) : List UInt32 :=
  ((t.lookupLocal scope name).bind (t.symbols[·]?)).elim [] (·.lines.tail)

/-- The nearest scope that knows the name. -/
def nearest? (t : Table) (here : ScopeId) (name : String) : Option ScopeId :=
  (t.chain here).find? fun scope => t.knows scope name

theorem lookup_eq_nearest? (t : Table) (here : ScopeId) (name : String) :
    t.lookup here name = (t.nearest? here name).bind fun scope => t.lookupLocal scope name := by
  rw [lookup, nearest?]
  induction t.chain here with
  | nil => rfl
  | cons scope scopes ih =>
      rw [List.findSome?_cons, List.find?_cons, knows]
      cases hid : t.lookupLocal scope name with
      | some id => simp [hid]
      | none => exact ih

theorem knows_of_nearest? {t : Table} {here scope : ScopeId} {name : String}
    (h : t.nearest? here name = some scope) : t.knows scope name = true := by
  unfold nearest? at h
  simpa using List.find?_some h

theorem usesOf_eq {t : Table} {scope : ScopeId} {name : String} {id : SymbolId}
    (hid : t.lookupLocal scope name = some id) :
    t.usesOf scope name = t.symbols[id]?.elim [] (·.lines.tail) := by
  rw [usesOf, hid, Option.bind_some]

theorem usesOf_eq_nil {t : Table} {scope : ScopeId} {name : String}
    (hfree : t.lookupLocal scope name = none) : t.usesOf scope name = [] := by
  rw [usesOf, hfree]
  rfl

theorem SameRecords.usesOf {t t' : Table} (h : SameRecords t t') (scope : ScopeId)
    (name : String) : t'.usesOf scope name = t.usesOf scope name := by
  have hrecord : ∀ sym? : Option Symbol,
      (sym?.map Symbol.record).elim [] (·.lines.tail) = sym?.elim [] (·.lines.tail) := by
    intro sym?
    cases sym? <;> rfl
  have hlines : ∀ id : SymbolId,
      t'.symbols[id]?.elim [] (·.lines.tail) = t.symbols[id]?.elim [] (·.lines.tail) := by
    intro id
    have hget := congrArg (·[id]?) h.records
    simp only [Table.records, List.getElem?_map, Array.getElem?_toList] at hget
    rw [← hrecord, hget, hrecord]
  cases hid : t.lookupLocal scope name with
  | none =>
      rw [usesOf_eq_nil hid, usesOf_eq_nil ((h.lookup scope name).trans hid)]
  | some id =>
      rw [usesOf_eq hid, usesOf_eq ((h.lookup scope name).trans hid), hlines]

namespace Valid

variable {t : Table} (hv : t.Valid)

include hv

/-- A new symbol has no uses yet. -/
theorem usesOf_declare {scope : ScopeId} (hscope : scope < t.scopes.size) (name : String)
    (ty : Ty) (line : UInt32) (scope' : ScopeId) (name' : String) :
    (t.declare scope name ty line).2.usesOf scope' name' = t.usesOf scope' name' := by
  cases hfree : t.lookupLocal scope name with
  | some k => rw [declare_of_lookupLocal_eq_some hfree]
  | none =>
      have hlookup := hv.lookupLocal_declare hscope hfree ty line scope' name'
      by_cases hkey : scope' = scope ∧ name' = name
      · obtain ⟨rfl, rfl⟩ := hkey
        rw [if_pos ⟨rfl, rfl⟩] at hlookup
        rw [usesOf_eq hlookup, usesOf_eq_nil hfree, declare_of_lookupLocal_eq_none hfree]
        simp [nextSymbol, fresh]
      · rw [if_neg hkey] at hlookup
        cases hid : t.lookupLocal scope' name' with
        | none => rw [usesOf_eq_nil hid, usesOf_eq_nil (hlookup.trans hid)]
        | some id =>
            have hlt := symbol_lt_of_lookupLocal hid
            rw [usesOf_eq hid, usesOf_eq (hlookup.trans hid),
              declare_of_lookupLocal_eq_none hfree, Array.getElem?_push,
              if_neg (Nat.ne_of_lt hlt)]

/-- A use is recorded on the one symbol of its name and scope. -/
theorem usesOf_reference {scope : ScopeId} {name : String} {id : SymbolId}
    (hid : t.lookupLocal scope name = some id) (line : UInt32) (scope' : ScopeId)
    (name' : String) :
    (t.reference id line).usesOf scope' name' =
      t.usesOf scope' name' ++
        if scope = scope' ∧ name = name' then [line] else [] := by
  cases hid' : t.lookupLocal scope' name' with
  | none =>
      have hne : ¬(scope = scope' ∧ name = name') := by
        rintro ⟨rfl, rfl⟩
        rw [hid] at hid'
        exact absurd hid' (by simp)
      rw [usesOf_eq_nil hid', usesOf_eq_nil ((lookupLocal_reference ..).trans hid'), if_neg hne]
      rfl
  | some k =>
      obtain ⟨sym, hsym, hname, hscope⟩ := hv.lookupLocal_eq_some_iff.mp hid'
      rw [usesOf_eq hid', usesOf_eq ((lookupLocal_reference ..).trans hid'), Table.reference,
        Array.getElem?_modify, hsym]
      by_cases hkey : scope = scope' ∧ name = name'
      · obtain ⟨rfl, rfl⟩ := hkey
        obtain rfl : id = k := Option.some.inj (hid.symm.trans hid')
        rw [if_pos rfl, if_pos ⟨rfl, rfl⟩]
        exact List.tail_append_of_ne_nil (hv.dated hsym)
      · have hne : id ≠ k := by
          rintro rfl
          obtain ⟨sym', hsym', hname', hscope'⟩ := hv.lookupLocal_eq_some_iff.mp hid
          obtain rfl : sym = sym' := Option.some.inj (hsym.symm.trans hsym')
          exact hkey ⟨hscope'.symm.trans hscope, hname'.symm.trans hname⟩
        rw [if_neg hne, if_neg hkey]
        simp

end Valid

end Table

/-! ## One step -/

/-- What a node refers to in the table in which it is entered. -/
def Moment.target? (m : Moment Scoping) : Option (ScopeId × String) :=
  m.label.kind.use?.bind fun name => m.state.table.top?.bind fun here =>
    (m.state.table.nearest? here name).map (·, name)

namespace Scoping

/-- Entering a node adds a use to what it refers to, and to nothing else. -/
theorem usesOf_enter {m : Moment Scoping} {here : ScopeId}
    (htop : m.state.table.top? = some here) (hv : m.state.table.Valid) (scope : ScopeId)
    (name : String) :
    (enter m.label m.state).2.table.usesOf scope name =
      m.state.table.usesOf scope name ++
        (if m.target? = some (scope, name) then some m.label.line else none).toList := by
  rw [Moment.target?, htop]
  cases effect_enter m.label htop with
  | idle _ hu h => simp [hu, h.usesOf]
  | declared _ hu h => simp [hu, h.usesOf, hv.usesOf_declare (lt_of_top? hv htop)]
  | @used name' _ hu h =>
      rw [h, hu, Table.lookup_eq_nearest?]
      cases hnear : m.state.table.nearest? here name' with
      | none => simp [hnear]
      | some scope' =>
          obtain ⟨id, hid⟩ := Option.isSome_iff_exists.mp (Table.knows_of_nearest? hnear)
          simp only [Option.bind_some, hnear, hid, Option.elim_some, Option.map_some,
            Option.some.injEq, Prod.mk.injEq]
          rw [hv.usesOf_reference hid]
          split <;> rfl

/-! ## The whole walk -/

/-- The symbols that there are before the node at a position is entered, as their
declarations. -/
def symbolsBefore (f : Forest) (i : Nat) : List Declaration :=
  Declaration.builtins ++ createdBy ((start.moments f).take i)

section Walk

variable {f : Forest}

/-- From a moment to the end the table only grows. -/
theorem later_moment {m : Moment Scoping} (hm : m ∈ start.moments f) :
    Later m.state.table (finalTable f) := by
  have hentered := entered_enter m.label m.state (valid_moment outside_start.valid hm)
  exact (hentered.later.append (later_end outside_start.valid hm)).append (Table.grows_discard _)

/-- What a node of the finished tree refers to is what it meant when it was
entered. -/
theorem refersTo?_eq {i : Nat} {m : Moment Scoping} (hm : (start.moments f)[i]? = some m) :
    Label.refersTo? (finalTable f) (symbolsBefore f i)
        { m.label with marks := (enter m.label m.state).1 } = m.target? := by
  have hmem := List.mem_of_getElem? hm
  obtain ⟨here, htop⟩ := top?_moment hmem
  unfold Label.refersTo? Moment.target?
  cases huse : m.label.kind.use? with
  | none => rfl
  | some name =>
      have hmark : (enter m.label m.state).1.scope = some here := by
        have hopens : m.label.kind.opens = false := by
          cases hl : m.label.kind <;> simp_all [Kind.use?, Kind.opens, Kind.isFunction]
        rw [enter_eq m.label htop]
        exact (sameLevel_step hopens m.state here m.label.line).top.trans htop
      have hv := valid_moment outside_start.valid hmem
      have hchain : (finalTable f).chain here = m.state.table.chain here :=
        (later_moment hmem).chain_eq hv (valid_end f) (lt_of_top? hv htop)
      have hknows : m.state.table.knows = Declaration.holds (symbolsBefore f i) := by
        rw [hv.knows_eq, declarations_moment hm, symbolsBefore]
      simp only [Option.bind_some, hmark, htop, hchain, Table.nearest?, hknows]

/-- The uses of a name of a scope are on the lines of the nodes that refer to it. -/
theorem usesOf_after (scope : ScopeId) (name : String) :
    (finalTable f).usesOf scope name =
      (start.marked f).referenceLines (finalTable f) (symbolsBefore f) scope name := by
  have hfollows : Forest.Follows (fun s : Scoping => s.table.usesOf scope name)
      (fun lines m => lines ++
        (if m.target? = some (scope, name) then some m.label.line else none).toList)
      (start.table.usesOf scope name) (start.moments f)
      ((start.after f).table.usesOf scope name) := by
    refine Forest.follows_walk enter leave (fun t s => (records_leave t s).usesOf scope name) ?_
    intro m hm
    obtain ⟨here, htop⟩ := top?_moment hm
    exact usesOf_enter htop (valid_moment outside_start.valid hm) scope name
  have hstart : start.table.usesOf scope name = [] := by
    have hbuiltins : ∀ sym ∈ start.table.symbols.toList, sym.lines.tail = [] := by decide
    cases hid : start.table.lookupLocal scope name with
    | none => exact Table.usesOf_eq_nil hid
    | some id =>
        obtain ⟨_, sym, _, _, hsym, _⟩ := Table.exists_symbol_of_lookupLocal hid
        rw [Table.usesOf_eq hid, hsym]
        exact hbuiltins sym (Array.mem_toList_iff.mpr (Array.mem_of_getElem? hsym))
  have hend := hfollows.eq_append
  rw [hstart, List.nil_append] at hend
  show (start.after f).table.usesOf scope name = _
  rw [hend, Forest.referenceLines, preorder_marked, List.zipIdx_map, List.filterMap_map]
  refine (filterMap_zipIdx fun i m hm => ?_).symm
  simp only [Function.comp_apply, Prod.map_apply, id_eq]
  rw [refersTo?_eq hm]

/-- What a node refers to is declared, by one symbol. -/
theorem existsUnique_symbol {i : Nat} {u : Label}
    (hu : (start.marked f).preorder[i]? = some u) {scope : ScopeId} {name : String}
    (h : u.refersTo? (finalTable f) (symbolsBefore f i) = some (scope, name)) :
    ∃! id : SymbolId, ∃ sym : Symbol, (finalTable f).symbols[id]? = some sym ∧
      sym.name = name ∧ sym.scope = scope := by
  rw [preorder_marked, List.getElem?_map, Option.map_eq_some_iff] at hu
  obtain ⟨m, hm, rfl⟩ := hu
  rw [refersTo?_eq hm] at h
  obtain ⟨used, _, htop⟩ := Option.bind_eq_some_iff.mp h
  obtain ⟨here, _, hmap⟩ := Option.bind_eq_some_iff.mp htop
  obtain ⟨nearest, hnear, hkey⟩ := Option.map_eq_some_iff.mp hmap
  obtain ⟨rfl, rfl⟩ := Prod.mk.inj hkey
  -- the name is known when the node is entered, and keeps its meaning
  obtain ⟨id, hid⟩ := Option.isSome_iff_exists.mp (Table.knows_of_nearest? hnear)
  have hfinal := (later_moment (List.mem_of_getElem? hm)).kept nearest used id hid
  simp only [← (valid_end f).lookupLocal_eq_some_iff]
  exact ⟨id, hfinal, fun _ h => Option.some.inj (h.symm.trans hfinal)⟩

end Walk

/-! ## Building a tree -/

/-- The account of the uses in a tree that is built in a fresh session, given the
finished tree. -/
structure ReferenceAccount (f finished : Forest) (table : Table) : Prop where
  /-- A symbol was made by a declaration, and keeps the line of this declaration
  and then the lines of the nodes that refer to it. -/
  lines : ∀ (id : SymbolId) (sym : Symbol), table.symbols[id]? = some sym →
    ∃ d, (Declaration.builtins ++ createdBy (start.moments f))[id]? = some d ∧
      d.scope = sym.scope ∧ d.name = sym.name ∧
      sym.lines = d.line ::
        finished.referenceLines table (symbolsBefore f) sym.scope sym.name
  /-- A node that refers to something refers to one symbol. -/
  once : ∀ (i : Nat) (u : Label), finished.preorder[i]? = some u →
    ∀ scope name, u.refersTo? table (symbolsBefore f i) = some (scope, name) →
      ∃! id : SymbolId, ∃ sym : Symbol, table.symbols[id]? = some sym ∧
        sym.name = name ∧ sym.scope = scope

end Scoping

open Scoping in
/-- The reference lists of a tree of any shape that is built in a fresh session. -/
theorem build_references (config : Config) (f : Forest) :
    ∃ finished session, (Session.start config).build f = .ok (finished, session) ∧
      finished.bare = f.bare ∧ ReferenceAccount f finished session.table := by
  refine ⟨_, _, build_start config f, bare_marked start f, ?_, ?_⟩
  · intro id sym hsym
    have hsym' : (start.after f).table.symbols[id]? = some sym := hsym
    have hdeclared : (Declaration.builtins ++ createdBy (start.moments f))[id]? =
        some sym.declaration := by
      rw [← declarations_after, Table.declarations, List.getElem?_map, Array.getElem?_toList,
        hsym', Option.map_some]
    refine ⟨sym.declaration, hdeclared, rfl, rfl, ?_⟩
    have huses := usesOf_after (f := f) sym.scope sym.name
    rw [Table.usesOf_eq ((valid_end f).found hsym), hsym, Option.elim_some] at huses
    rw [← huses]
    obtain ⟨first, uses, hlines⟩ := List.exists_cons_of_ne_nil ((valid_end f).dated hsym)
    simp [Symbol.declaration, Symbol.firstLine, hlines]
  · intro i u hu scope name h
    exact existsUnique_symbol hu h

/-- A later declaration does not attract an earlier use, although it is nearer. -/
example :
    (Scoping.finalTable (.ofTrees [
      .varDecl "x" .int 1,
      .compound [] [.var "x" 2, .varDecl "x" .int 3, .var "x" 4] 2])).symbols.toList.map
        (·.lines) = [[0], [0], [0], [1, 2], [3, 4]] := by
  decide +kernel

end CMinus
