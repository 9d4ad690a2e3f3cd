import Mathlib.Data.List.Basic
import CMinus.Proofs.Typing.Total

/-!
# The ledger of declarations

Five kinds of nodes declare a name, and three paths of the first pass handle
them: variables, parameters and functions.  This file shows that the paths agree.
`Kind.declares?` says what each kind declares, and a declaration is made or
attempted in the scope that is innermost when its node is entered
(`Moment.declaration?`).  Whether it makes a symbol depends on the declarations
before it and on nothing else, so the symbols of a finished table and the reports
of the pass can be computed from the list of declarations alone.

What one step does is said once, in `Effect`: it declares, records a use, or
changes nothing but open scopes and parameters.  The statements about a whole walk
are obtained from it with `Forest.follows_walk`: the declarations of the table
grow by those that are created, and the names known to a scope by those that are
declared.  The second of these turns "known to the table" into "declared earlier in
the tree" (`knows_moment`), for trees of every shape.

## Main results

* `Scoping.effect_enter`: what entering a node does, up to parameters;
* `Scoping.knows_moment`: what a scope knows when a node is entered;
* `Scoping.declarations_moment`, `Scoping.declarations_after`: the symbols, at every
  moment and at the end;
* `Scoping.reports_eq`: the reports;
* `build_ledger`: the whole account, for a tree that is built in a fresh session.
-/

namespace CMinus

/-- The type of a variable or a parameter; `void` is no type for one. -/
def Spec.objectTy : Spec → Ty → Ty
  | .int, ty => ty
  | .void, _ => .poison

namespace Kind

/-- What a node declares: a name, and the type that its kind and its type word
prescribe. -/
def declares? : Kind → Option (String × Ty)
  | varDecl name spec | param name spec => some (name, spec.objectTy .int)
  | arrayDecl name spec _ | arrayParam name spec => some (name, spec.objectTy .intArray)
  | funDecl name spec => some (name, .functionReturning spec)
  | _ => none

/-- Where a variable or a parameter is declared `void`. -/
def voidSite? : Kind → Option VoidSite
  | varDecl _ .void | arrayDecl _ .void _ => some .variable
  | param _ .void => some .parameter
  | arrayParam _ .void => some .arrayParameter
  | _ => none

theorem declares?_of_object? {k : Kind} {o : Object} (h : k.object? = some o) :
    k.declares? = some (o.name, o.ty) := by
  have hty : ∀ (spec : Spec) (ty : Ty),
      spec.objectTy ty = if spec = .void then .poison else ty := by
    intro spec ty
    cases spec <;> rfl
  cases k <;> simp [object?] at h <;> subst h <;> simp only [declares?, Object.ty, hty]

/-- Poison is the type of what is declared `void` and is no function. -/
theorem isSome_voidSite? {k : Kind} {name : String} {ty : Ty}
    (h : k.declares? = some (name, ty)) : k.voidSite?.isSome = decide (ty = .poison) := by
  cases k with
  | varDecl _ spec | arrayDecl _ spec | param _ spec | arrayParam _ spec | funDecl _ spec =>
      obtain ⟨_, rfl⟩ := Prod.mk.inj (Option.some.inj h)
      cases spec <;> rfl
  | _ => simp [declares?] at h

end Kind

/-! ## Declarations and the table -/

/-- What a table keeps of a declaration for good. -/
structure Declaration where
  scope : ScopeId
  name : String
  ty : Ty
  line : UInt32
  deriving DecidableEq

namespace Declaration

/-- The declarations that every program starts with. -/
def builtins : List Declaration :=
  [⟨0, "input", .intFunction, 0⟩, ⟨0, "output", .voidFunction, 0⟩, ⟨1, "value", .int, 0⟩]

/-- The declaration is of this name in this scope. -/
def isFor (scope : ScopeId) (name : String) (d : Declaration) : Bool :=
  d.scope = scope && d.name = name

/-- One of the declarations is of this name in this scope. -/
def holds (ds : List Declaration) (scope : ScopeId) (name : String) : Bool :=
  ds.any (isFor scope name)

/-- The name and the line of a declaration that was poisoned. -/
def poisoned? (d : Declaration) : Option (String × UInt32) :=
  if d.ty = .poison then some (d.name, d.line) else none

end Declaration

/-- The name and the line in a report of a `void` declaration. -/
def Diagnostic.voided? : Diagnostic → Option (String × UInt32)
  | voidDeclaration _ name line => some (name, line)
  | _ => none

/-- What the table keeps of a symbol's declaration. -/
def Symbol.declaration (s : Symbol) : Declaration := ⟨s.scope, s.name, s.ty, s.firstLine⟩

/-- A symbol without its parameters. -/
def Symbol.record (s : Symbol) : Symbol := { s with params := [] }

namespace Table

/-- The declarations of all symbols, in the order in which these were made. -/
def declarations (t : Table) : List Declaration := t.symbols.toList.map Symbol.declaration

/-- The symbols without their parameters, in the order in which they were made. -/
def records (t : Table) : List Symbol := t.symbols.toList.map Symbol.record

/-- The name is declared in this very scope. -/
def knows (t : Table) (scope : ScopeId) (name : String) : Bool :=
  (t.lookupLocal scope name).isSome

theorem declarations_eq_map_records (t : Table) :
    t.declarations = t.records.map Symbol.declaration := by
  rw [declarations, records, List.map_map]
  rfl

/-- The tables have the same declared names and differ in nothing of a symbol but
its parameters. -/
structure SameRecords (t t' : Table) : Prop where
  records : t'.records = t.records
  lookup : ∀ scope name, t'.lookupLocal scope name = t.lookupLocal scope name

namespace SameRecords

variable {t t' : Table}

theorem refl (t : Table) : SameRecords t t := ⟨rfl, fun _ _ => rfl⟩

theorem push (t : Table) (name : String) : SameRecords t (t.push name) :=
  ⟨rfl, lookupLocal_push t name⟩

theorem addParameter (t : Table) (k : SymbolId) (ty : Ty) :
    SameRecords t (t.addParameter k ty) :=
  ⟨map_modify Symbol.record t k fun _ _ => rfl, lookupLocal_addParameter t k ty⟩

theorem declarations (h : SameRecords t t') : t'.declarations = t.declarations := by
  rw [declarations_eq_map_records, h.records, declarations_eq_map_records]

theorem knows (h : SameRecords t t') (scope : ScopeId) (name : String) :
    t'.knows scope name = t.knows scope name := by
  rw [Table.knows, h.lookup, Table.knows]

end SameRecords

/-- A declaration of a free name is added to those of the table. -/
theorem declarations_declare (t : Table) (scope : ScopeId) (name : String) (ty : Ty)
    (line : UInt32) :
    (t.declare scope name ty line).2.declarations =
      t.declarations ++ if t.knows scope name then [] else [⟨scope, name, ty, line⟩] := by
  rw [knows]
  cases hfree : t.lookupLocal scope name with
  | some k => simp [declare_of_lookupLocal_eq_some hfree]
  | none =>
      rw [declare_of_lookupLocal_eq_none hfree]
      simp [declarations, fresh, Symbol.declaration, Symbol.firstLine]

/-- After a declaration its name is known to its scope. -/
theorem Valid.knows_declare {t : Table} (hv : t.Valid) {scope : ScopeId}
    (hscope : scope < t.scopes.size) (name : String) (ty : Ty) (line : UInt32)
    (scope' : ScopeId) (name' : String) :
    (t.declare scope name ty line).2.knows scope' name' =
      (t.knows scope' name' || Declaration.isFor scope' name' ⟨scope, name, ty, line⟩) := by
  by_cases hkey : scope' = scope ∧ name' = name
  · obtain ⟨rfl, rfl⟩ := hkey
    unfold knows Declaration.isFor
    cases hfree : t.lookupLocal scope' name' with
    | some k => simp [declare_of_lookupLocal_eq_some hfree, hfree]
    | none => simp [hv.lookupLocal_declare hscope hfree]
  · have hother : Declaration.isFor scope' name' ⟨scope, name, ty, line⟩ = false := by
      rw [Bool.eq_false_iff]
      intro hfor
      simp only [Declaration.isFor, Bool.and_eq_true, decide_eq_true_eq] at hfor
      exact hkey ⟨hfor.1.symm, hfor.2.symm⟩
    rw [hother, Bool.or_false, knows, knows]
    cases hfree : t.lookupLocal scope name with
    | some k => rw [declare_of_lookupLocal_eq_some hfree]
    | none => rw [hv.lookupLocal_declare hscope hfree, if_neg hkey]

/-- A use changes no declaration. -/
theorem Valid.declarations_reference {t : Table} (hv : t.Valid) (k : SymbolId) (line : UInt32) :
    (t.reference k line).declarations = t.declarations := by
  refine map_modify Symbol.declaration t k fun sym hsym => ?_
  obtain ⟨first, uses, hlines⟩ := List.exists_cons_of_ne_nil (hv.dated hsym)
  simp [Symbol.declaration, Symbol.firstLine, hlines]

/-- A name is known to a scope if a symbol of the table declares it there. -/
theorem Valid.knows_eq {t : Table} (hv : t.Valid) :
    t.knows = Declaration.holds t.declarations := by
  funext scope name
  rw [Bool.eq_iff_iff, knows, Option.isSome_iff_exists]
  simp only [hv.lookupLocal_eq_some_iff, Declaration.holds, Declaration.isFor, List.any_eq_true,
    declarations, List.mem_map, Bool.and_eq_true, decide_eq_true_eq]
  constructor
  · rintro ⟨id, sym, hsym, hname, hscope⟩
    exact ⟨_, ⟨sym, by simpa using Array.mem_of_getElem? hsym, rfl⟩, hscope, hname⟩
  · rintro ⟨_, ⟨sym, hsym, rfl⟩, hscope, hname⟩
    obtain ⟨id, hid⟩ := List.mem_iff_getElem?.mp hsym
    exact ⟨id, sym, by simpa using hid, hname, hscope⟩

end Table

/-! ## One step -/

namespace Scoping

/-- What entering a node does to a table whose innermost open scope is `here`, up to
the parameters of functions. -/
inductive Effect (here : ScopeId) (l : Label) (t t' : Table) : Prop
  | idle (hd : l.kind.declares? = none) (hu : l.kind.use? = none) (h : t.SameRecords t')
  | declared {name : String} {ty : Ty} (hd : l.kind.declares? = some (name, ty))
      (hu : l.kind.use? = none) (h : (t.declare here name ty l.line).2.SameRecords t')
  | used {name : String} (hd : l.kind.declares? = none) (hu : l.kind.use? = some name)
      (h : t' = (t.lookup here name).elim t (t.reference · l.line))

theorem effect_enter (l : Label) {s : Scoping} {here : ScopeId}
    (htop : s.table.top? = some here) : Effect here l s.table (enter l s).2.table := by
  cases huse : l.kind.use? with
  | some name =>
      have hd : l.kind.declares? = none := by
        cases hl : l.kind <;> simp_all [Kind.use?, Kind.declares?]
      exact .used hd huse (table_enter_of_use huse htop)
  | none =>
      rw [enter_eq l htop]
      show Effect here l s.table (s.step here l.kind l.line).table
      by_cases hvar : l.kind.isObject = true
      · obtain ⟨o, ho, hstep⟩ := step_of_object hvar
        rw [hstep, declareObject_eq]
        exact .declared (Kind.declares?_of_object? ho) huse (.refl _)
      by_cases hparam : l.kind.isParam = true
      · obtain ⟨o, ho, hstep⟩ := step_of_param hparam
        rw [hstep, declareParameter_eq, declareObject_eq]
        dsimp only
        split
        · exact .declared (Kind.declares?_of_object? ho) huse (.addParameter _ _ _)
        · exact .declared (Kind.declares?_of_object? ho) huse (.refl _)
      cases hl : l.kind with
      | compound =>
          simp only [step, openBlock]
          split
          · exact .idle (by rw [hl]; rfl) huse (.refl _)
          · exact .idle (by rw [hl]; rfl) huse (.push _ _)
      | funDecl name spec =>
          have hdeclared : Effect here l s.table
              ((s.table.declare here name (.functionReturning spec) l.line).2.push name) :=
            .declared (by rw [hl]; rfl) huse (.push _ _)
          simp only [step, declareFunction]
          split
          all_goals
            next hresult =>
              rw [hresult] at hdeclared
              exact hdeclared
      | var | call => simp [hl, Kind.use?] at huse
      | varDecl | arrayDecl => simp [hl, Kind.isObject] at hvar
      | param | arrayParam => simp [hl, Kind.isParam] at hparam
      | _ => exact .idle (by rw [hl]; rfl) huse (.refl _)

end Scoping

namespace Moment

/-- The declaration that a node makes, or attempts, in the scope that is innermost
when it is entered. -/
def declaration? (m : Moment Scoping) : Option Declaration :=
  m.state.table.top?.bind fun here =>
    m.label.kind.declares?.map fun (name, ty) => ⟨here, name, ty, m.label.line⟩

/-- The declaration, if its name is not known to its scope. -/
def created? (m : Moment Scoping) (known : ScopeId → String → Bool) : Option Declaration :=
  m.declaration?.filter fun d => !known d.scope d.name

/-- The one report on a declaration: of its name, if this is known to its scope, and
otherwise of its type. -/
def report? (m : Moment Scoping) (known : ScopeId → String → Bool) : Option Diagnostic :=
  m.declaration?.bind fun d =>
    if known d.scope d.name then some (.redefinition d.name d.line)
    else m.label.kind.voidSite?.map fun site => .voidDeclaration site d.name d.line

end Moment

namespace Scoping

section Moment

variable {m : Moment Scoping} {here : ScopeId} (htop : m.state.table.top? = some here)

include htop

theorem declaration?_eq :
    m.declaration? = m.label.kind.declares?.map fun (name, ty) =>
      ⟨here, name, ty, m.label.line⟩ := by
  rw [Moment.declaration?, htop, Option.bind_some]

theorem complaint_eq : m.state.complaint m.label = m.report? m.state.table.knows := by
  rw [complaint, Moment.report?, declaration?_eq htop, htop, Option.bind_some]
  cases hl : m.label.kind with
  | funDecl name spec => rfl
  | varDecl name spec | arrayDecl name spec | param name spec | arrayParam name spec =>
      cases spec <;> rfl
  | _ => rfl

variable (hv : m.state.table.Valid)

include hv

theorem declarations_enter :
    (enter m.label m.state).2.table.declarations =
      m.state.table.declarations ++ (m.created? m.state.table.knows).toList := by
  rw [Moment.created?, declaration?_eq htop]
  cases effect_enter m.label htop with
  | idle hd _ h => simp [hd, h.declarations]
  | @declared name ty hd _ h =>
      rw [h.declarations, Table.declarations_declare, hd]
      cases hknown : m.state.table.knows here name <;> simp [hknown, Option.filter_some]
  | @used name hd _ h =>
      rw [h, hd]
      cases m.state.table.lookup here name with
      | none => simp
      | some id => simpa using hv.declarations_reference id m.label.line

theorem knows_enter (scope : ScopeId) (name : String) :
    (enter m.label m.state).2.table.knows scope name =
      (m.state.table.knows scope name || m.declaration?.any (Declaration.isFor scope name)) := by
  rw [declaration?_eq htop]
  cases effect_enter m.label htop with
  | idle hd _ h => simp [hd, h.knows]
  | declared hd _ h =>
      rw [h.knows, hv.knows_declare (lt_of_top? hv htop), hd]
      rfl
  | @used name' hd _ h =>
      rw [h, hd]
      cases m.state.table.lookup here name' with
      | none => simp
      | some id => simp [Table.knows]

end Moment

/-- Leaving a node keeps what depends on the scopes and symbols only. -/
theorem records_leave (t : Tree) (s : Scoping) : s.table.SameRecords (leave t s).2.table := by
  rw [leave_eq]
  rcases table_exit t.label s with h | h
  · rw [h]
    exact .refl _
  · rw [h]
    exact ⟨rfl, fun _ _ => rfl⟩

/-! ## The whole walk -/

/-- The name is declared in the scope by one of the moments, or from the start. -/
def declaredIn (ms : List (Moment Scoping)) : ScopeId → String → Bool :=
  Declaration.holds (Declaration.builtins ++ ms.filterMap Moment.declaration?)

/-- The declarations of a walk that are the first of their name in their scope. -/
def createdBy (ms : List (Moment Scoping)) : List Declaration :=
  ms.zipIdx.filterMap fun (m, i) => m.created? (declaredIn (ms.take i))

/-- The reports of a walk: one for each declaration that is not the first of its name
in its scope, and one for each variable or parameter that is, but is `void`. -/
def reportsBy (ms : List (Moment Scoping)) : List Diagnostic :=
  ms.zipIdx.filterMap fun (m, i) => m.report? (declaredIn (ms.take i))

/-- What is read off the entries of a list may depend on their positions. -/
theorem filterMap_zipIdx {α β : Type} {ms : List α} {g : α → Option β}
    {h : α × Nat → Option β} (hgh : ∀ i m, ms[i]? = some m → h (m, i) = g m) :
    ms.zipIdx.filterMap h = ms.filterMap g := by
  have hfst : ms.filterMap g = ms.zipIdx.filterMap fun p => g p.1 := by
    conv_lhs => rw [← List.zipIdx_map_fst 0 ms]
    rw [List.filterMap_map]
    rfl
  rw [hfst]
  apply List.filterMap_congr
  intro p hp
  exact hgh p.2 p.1 (List.mem_zipIdx_iff_getElem?.mp hp)

section Walk

variable {f : Forest}

theorem declarations_start : start.table.declarations = Declaration.builtins := rfl

theorem top?_moment {m : Moment Scoping} (hm : m ∈ start.moments f) :
    ∃ here, m.state.table.top? = some here :=
  (room_moment room_start hm).exists_top

/-- A name is known to a scope when a node is entered exactly if it was declared
there before. -/
theorem knows_moment {i : Nat} {m : Moment Scoping} (hm : (start.moments f)[i]? = some m) :
    m.state.table.knows = declaredIn ((start.moments f).take i) := by
  funext scope name
  have hfollows : Forest.Follows (fun s : Scoping => s.table.knows scope name)
      (fun b m => b || m.declaration?.any (Declaration.isFor scope name))
      (start.table.knows scope name) (start.moments f)
      ((start.after f).table.knows scope name) := by
    refine Forest.follows_walk enter leave (fun t s => (records_leave t s).knows scope name) ?_
    intro m hm
    obtain ⟨here, htop⟩ := top?_moment hm
    exact knows_enter htop (valid_moment outside_start.valid hm) scope name
  rw [(hfollows.take hm).eq_any, outside_start.valid.knows_eq, declarations_start, declaredIn,
    Declaration.holds, Declaration.holds, List.any_append, List.any_filterMap]
  rfl

/-- The declarations that make symbols are those of names that the table does not
know. -/
theorem createdBy_take (n : Nat) :
    createdBy ((start.moments f).take n) =
      ((start.moments f).take n).filterMap fun m => m.created? m.state.table.knows := by
  refine filterMap_zipIdx fun i m hm => ?_
  rw [List.getElem?_take] at hm
  split at hm
  · next hi =>
      dsimp only
      rw [List.take_take, Nat.min_eq_left (Nat.le_of_lt hi), knows_moment hm]
  · exact absurd hm (by simp)

theorem follows_declarations :
    Forest.Follows (fun s : Scoping => s.table.declarations)
      (fun ds m => ds ++ (m.created? m.state.table.knows).toList)
      Declaration.builtins (start.moments f) (start.after f).table.declarations := by
  rw [← declarations_start]
  refine Forest.follows_walk enter leave (fun t s => (records_leave t s).declarations) ?_
  intro m hm
  obtain ⟨here, htop⟩ := top?_moment hm
  exact declarations_enter htop (valid_moment outside_start.valid hm)

/-- When a node is entered, the table has the symbols that were created before. -/
theorem declarations_moment {i : Nat} {m : Moment Scoping}
    (hm : (start.moments f)[i]? = some m) :
    m.state.table.declarations =
      Declaration.builtins ++ createdBy ((start.moments f).take i) := by
  rw [createdBy_take]
  exact (follows_declarations.take hm).eq_append

theorem declarations_after :
    (start.after f).table.declarations =
      Declaration.builtins ++ createdBy (start.moments f) := by
  have hall := createdBy_take (f := f) (start.moments f).length
  rw [List.take_length] at hall
  rw [hall]
  exact follows_declarations.eq_append

theorem reports_eq : start.reports f = reportsBy (start.moments f) := by
  refine (filterMap_zipIdx fun i m hm => ?_).symm
  obtain ⟨here, htop⟩ := top?_moment (List.mem_of_getElem? hm)
  rw [complaint_eq htop, knows_moment hm]

/-- A declaration is reported as `void` exactly if it makes a poisoned symbol. -/
theorem voided?_report? (m : Moment Scoping) (known : ScopeId → String → Bool) :
    (m.report? known).bind Diagnostic.voided? =
      (m.created? known).bind Declaration.poisoned? := by
  unfold Moment.report? Moment.created?
  cases hd : m.declaration? with
  | none => rfl
  | some d =>
      obtain ⟨here, _, hmap⟩ := Option.bind_eq_some_iff.mp hd
      obtain ⟨⟨name, ty⟩, hdeclares, rfl⟩ := Option.map_eq_some_iff.mp hmap
      have hsite := Kind.isSome_voidSite? hdeclares
      cases hknown : known here name with
      | true => simp [Option.filter_some, hknown, Diagnostic.voided?]
      | false =>
          cases hvoid : m.label.kind.voidSite? with
          | none =>
              have hty : ty ≠ .poison := by simpa [hvoid] using hsite
              simp [Option.filter_some, hknown, Declaration.poisoned?, hty]
          | some site =>
              have hty : ty = .poison := by simpa [hvoid] using hsite
              simp [Option.filter_some, hknown, Declaration.poisoned?, Diagnostic.voided?, hty]

theorem voids_eq :
    (reportsBy (start.moments f)).filterMap Diagnostic.voided? =
      (Declaration.builtins ++ createdBy (start.moments f)).filterMap
        Declaration.poisoned? := by
  have hbuiltins : Declaration.builtins.filterMap Declaration.poisoned? = [] := rfl
  rw [List.filterMap_append, hbuiltins, List.nil_append, reportsBy, createdBy,
    List.filterMap_filterMap, List.filterMap_filterMap]
  apply List.filterMap_congr
  intro p _
  exact voided?_report? p.1 _

end Walk

/-! ## Building a tree -/

/-- The account of the declarations of a tree that is built in a fresh session. -/
structure Ledger (f : Forest) (session : Session) : Prop where
  /-- The walk enters every node, in preorder. -/
  entered : (start.moments f).map (·.label) = f.preorder
  /-- Some scope is innermost whenever a node is entered, so that every declaration
  is made or attempted in one. -/
  placed : ∀ m ∈ start.moments f, ∃ here, m.state.table.top? = some here
  /-- The symbols are the built-in ones and then one for each declaration whose name
  was not declared in its scope before. -/
  symbols : session.table.declarations = Declaration.builtins ++ createdBy (start.moments f)
  /-- Every other declaration is reported as a redefinition, a first one only if it
  is `void`, and nothing else is reported. -/
  reports : session.log.entries.toList = reportsBy (start.moments f)
  /-- The `void` declarations that are reported are the poisoned symbols. -/
  voids : session.log.entries.toList.filterMap Diagnostic.voided? =
    session.table.declarations.filterMap Declaration.poisoned?

end Scoping

open Scoping in
/-- Building a tree of any shape in a fresh session accounts for each of its
declarations once: by a symbol, or by the report of a redefinition. -/
theorem build_ledger (config : Config) (f : Forest) :
    ∃ session, (Session.start config).build f = .ok (start.marked f, session) ∧
      Ledger f session := by
  have hlog : (start.after f).log.entries.toList = reportsBy (start.moments f) := by
    rw [log_after, reports_eq]
    rfl
  refine ⟨_, build_start config f, ?_⟩
  exact
    { entered := Forest.labels_moments enter leave f start
      placed := fun _ hm => top?_moment hm
      symbols := declarations_after
      reports := hlog
      voids := by
        show _ = (start.after f).table.declarations.filterMap Declaration.poisoned?
        rw [hlog, voids_eq, declarations_after] }

end CMinus
