import CMinus.Proofs.Scoping.Flat
import CMinus.Proofs.Typing.Returns

/-!
# Returns outside every function

A return that is inside no function is wrong whatever it returns.  The rules ask
`Table.enclosing` for the function around it, and that search goes by names: a
block that belongs to no function is named like the outermost scope, and so the
search looks for `globalName` in every scope around the return.  As a rule
nothing of that name is there, the search comes to its end, and the return is
reported.

A program may declare the name, though.  Then the search takes the declaration
for the owner of the block.  If it is a variable the block counts as the body of
a function that lost its name, and nothing is reported; if it is a function, the
return is checked against that function.

`Typing.Reported` says which of this happens, and `analyze_outside` that the
analysis does exactly that, for every flat program.  Where no node declares
`globalName`, every return outside functions is reported.

## Main results

* `Table.Unowned.enclosing_cases`: what the search finds from outside;
* `Typing.judge_outside`: what the rules then say of a return;
* `analyze_outside`: all of it for the tree of a finished analysis;
* `analyze_silentReturn`: a return outside functions that nobody reports.
-/

namespace CMinus

namespace Table.Unowned

variable {t : Table} {scope : ScopeId}

/-- The owners are what the name of the outermost scope means in the scopes
around. -/
theorem owners_eq (h : t.Unowned scope) (hv : t.Valid) :
    t.owners scope = (t.chain scope).tail.filterMap fun p => t.lookupLocal p globalName := by
  induction h with
  | root hheading => rw [owners_of_root hheading, chain_of_root hheading]; rfl
  | @block id p hheading hparent ih =>
      have hchain : ∃ outer, t.chain p = p :: outer := by
        cases hparent with
        | root hroot => exact ⟨[], chain_of_root hroot⟩
        | block hp _ => exact ⟨_, hv.chain_of_parent hp⟩
      obtain ⟨outer, houter⟩ := hchain
      rw [houter] at ih
      rw [hv.owners_of_parent hheading, hv.chain_of_parent hheading, ih, houter]
      simp only [List.tail_cons, List.filterMap_cons]
      cases t.lookupLocal p globalName <;> rfl

/-- With functions in the outermost scope only, the search from a scope that
belongs to no function ends in one of three ways. -/
theorem enclosing_cases (h : t.Unowned scope) (hv : t.Valid)
    (hplain : ∀ p, p ≠ 0 → t.NoFunctionIn p) :
    (t.enclosing scope = .topLevel ∧
        ∀ p ∈ (t.chain scope).tail, t.lookupLocal p globalName = none) ∨
      (∃ id, t.enclosing scope = .function id ∧ 0 ∈ (t.chain scope).tail ∧
        t.lookupLocal 0 globalName = some id ∧ t.isFunction id = true) ∨
      (t.enclosing scope = .redefined ∧
        (∃ p ∈ (t.chain scope).tail, t.lookupLocal p globalName ≠ none) ∧
        (0 ∈ (t.chain scope).tail → ∀ id, t.lookupLocal 0 globalName = some id →
          t.isFunction id = false)) := by
  have howners := h.owners_eq hv
  cases hfind : (t.owners scope).find? t.isFunction with
  | some id =>
      have hend : t.enclosing scope = .function id := by simp only [enclosing, hfind]
      have hfun : t.isFunction id = true := List.find?_some hfind
      have hmem := List.mem_of_find?_eq_some hfind
      rw [howners, List.mem_filterMap] at hmem
      obtain ⟨p, hp, hid⟩ := hmem
      have hzero : p = 0 := by
        apply Classical.byContradiction
        intro hne
        rw [hplain p hne globalName id hid] at hfun
        exact absurd hfun (by simp)
      subst hzero
      exact .inr (.inl ⟨id, hend, hp, hid, hfun⟩)
  | none =>
      have hend : t.enclosing scope =
          if (t.owners scope).isEmpty then .topLevel else .redefined := by
        simp only [enclosing, hfind]
      rw [List.find?_eq_none] at hfind
      by_cases hempty : t.owners scope = []
      · rw [hempty] at hend howners
        exact .inl ⟨hend, List.filterMap_eq_nil_iff.mp howners.symm⟩
      · rw [List.isEmpty_eq_false_iff.mpr hempty] at hend
        refine .inr (.inr ⟨hend, ?_, ?_⟩)
        · obtain ⟨id, hid⟩ := List.exists_mem_of_ne_nil _ hempty
          rw [howners, List.mem_filterMap] at hid
          obtain ⟨p, hp, hid⟩ := hid
          exact ⟨p, hp, by simp [hid]⟩
        · intro hzero id hid
          have hmem : id ∈ t.owners scope := by
            rw [howners, List.mem_filterMap]
            exact ⟨0, hzero, hid⟩
          simpa using hfind id hmem

end Table.Unowned

namespace Typing

/-- The return would be right in a function of this type. -/
def returnFits (n : Tree) (ty : Ty) : Bool :=
  match n.label.kind with
  | .returnValue => ty = .intFunction && n.first.ty? = some .int
  | .returnVoid => ty = .voidFunction
  | _ => false

/-- When a return that is marked with `scope`, and inside no function, is
reported: nothing around it bears the name of the outermost scope, or what bears
it at the outermost level is a function that the return does not fit. -/
def Reported (t : Table) (scope : ScopeId) (n : Tree) : Prop :=
  (∀ p ∈ (t.chain scope).tail, t.lookupLocal p globalName = none) ∨
    ∃ id ty, 0 ∈ (t.chain scope).tail ∧ t.lookupLocal 0 globalName = some id ∧
      t.tyOf? id = some ty ∧ ty.isFunction = true ∧ returnFits n ty = false

/-- The verdict on a return, by what the search has found. -/
theorem judge_return (poisonFailed : Bool) (table : Table) {n : Tree}
    (hk : n.label.kind.isReturn = true) :
    (judge poisonFailed table n).complaint =
      match table.enclosingTy n.label.marks.scope with
      | .topLevel => some (.invalidReturnType n.label.line)
      | .redefined => none
      | .function ty =>
        if ty.any (returnFits n) then none else some (.invalidReturnType n.label.line) := by
  unfold judge
  cases hl : n.label.kind with
  | returnValue =>
      simp only [judgeReturnValue, Verdict.statement]
      cases table.enclosingTy n.label.marks.scope with
      | topLevel | redefined => rfl
      | function ty =>
          cases ty with
          | none => rfl
          | some ty => cases ty <;> simp [returnFits, hl]
  | returnVoid =>
      simp only [judgeReturnVoid, Verdict.statement]
      cases table.enclosingTy n.label.marks.scope with
      | topLevel | redefined => rfl
      | function ty =>
          cases ty with
          | none => rfl
          | some ty => cases ty <;> simp [returnFits, hl]
  | _ => simp [hl, Kind.isReturn] at hk

/-- A return outside functions is reported once or not at all, as `Reported`
says. -/
theorem judge_outside (poisonFailed : Bool) {table : Table} (hv : table.Valid)
    (hplain : ∀ p, p ≠ 0 → table.NoFunctionIn p) {n : Tree} {scope : ScopeId}
    (hscope : n.label.marks.scope = some scope) (hunowned : table.Unowned scope)
    (hk : n.label.kind.isReturn = true) :
    ((judge poisonFailed table n).complaint = some (.invalidReturnType n.label.line) ↔
        Reported table scope n) ∧
      ((judge poisonFailed table n).complaint = none ↔ ¬Reported table scope n) := by
  rw [judge_return poisonFailed table hk, hscope, Table.enclosingTy]
  obtain ⟨hend, hnone⟩ | ⟨id, hend, hzero, hid, hfun⟩ | ⟨hend, ⟨p, hp, hsome⟩, hnone⟩ :=
    hunowned.enclosing_cases hv hplain
  · have hreported : Reported table scope n := .inl hnone
    simp [hend, Enclosing.map, hreported]
  · obtain ⟨ty, hty, hisfun⟩ := (Option.any_eq_true _ _).mp hfun
    cases hfits : returnFits n ty with
    | false =>
        have hreported : Reported table scope n :=
          .inr ⟨id, ty, hzero, hid, hty, hisfun, hfits⟩
        simp [hend, Enclosing.map, hty, hfits, hreported]
    | true =>
        have hsilent : ¬Reported table scope n := by
          rintro (hall | ⟨id', ty', _, hid', hty', _, hfits'⟩)
          · rw [hall 0 hzero] at hid
            exact absurd hid (by simp)
          · obtain rfl := Option.some.inj (hid.symm.trans hid')
            obtain rfl := Option.some.inj (hty.symm.trans hty')
            rw [hfits] at hfits'
            exact absurd hfits' (by simp)
        simp [hend, Enclosing.map, hty, hfits, hsilent]
  · have hsilent : ¬Reported table scope n := by
      rintro (hall | ⟨id, ty, hzero, hid, hty, hfun, _⟩)
      · exact hsome (hall p hp)
      · have hno := hnone hzero id hid
        rw [Table.isFunction, hty] at hno
        simp [hfun] at hno
    simp [hend, Enclosing.map, hsilent]

variable (poisonFailed : Bool) (table : Table)

/-- Typing leaves the nodes outside functions where they are. -/
theorem sites_outsiders_typed (f : Forest) :
    (typed poisonFailed table f).outsiders.map (·.label.site) =
      f.outsiders.map (·.label.site) := by
  induction f with
  | nil => rfl
  | node l a b c rest iha ihb ihc ihr =>
      simp only [typed, Forest.outsiders, List.map_cons, List.map_append, ihr]
      have hkind : ∀ ty, (withTy l ty).kind = l.kind := fun _ => rfl
      rw [hkind]
      cases l.kind.isFunction with
      | true => rfl
      | false =>
          simp only [Bool.false_eq_true, if_false, List.map_append, iha, ihb, ihc]
          rfl

end Typing

namespace Scoping

/-- In a flat program only the outermost scope holds functions. -/
theorem noFunctionIn_of_flat {f : Forest} (hf : f.Flat) {scope : ScopeId} (hne : scope ≠ 0) :
    (finalTable f).NoFunctionIn scope := by
  intro name id hid
  obtain ⟨sym, hsym, _, hscope⟩ := (valid_end f).lookupLocal_eq_some_iff.mp hid
  cases hfun : (finalTable f).isFunction id with
  | false => rfl
  | true =>
      have hty : sym.ty.isFunction = true := by
        simpa [Table.isFunction, Table.tyOf?, hsym] using hfun
      exact absurd (hscope.symm.trans (scope_eq_zero_of_function hf hsym hty)) hne

end Scoping

open Scoping Typing in
/-- Returns outside functions, in a flat program.  The tree is the one that was
given, but for its marks.  The log holds the reports of the first pass, all about
declarations, and then the complaints about the nodes of the tree in postorder.  A
return inside no function is complained of once if `Reported` says so, and not at
all otherwise; and if no node of the program declares the name of the outermost
scope, it is. -/
theorem analyze_outside (config : Config) {f : Forest} (hf : f.Flat) :
    ∃ a reports, analyze config f = .ok a ∧ a.forest.bare = f.bare ∧
      a.log.entries.toList = reports ++ (a.forest.postorder.filterMap fun n =>
        (judge config.poisonFailed a.table n).complaint) ∧
      (∀ d ∈ reports, d.isDeclaration = true) ∧
      ∀ n ∈ a.forest.outsiders, n.label.kind.isReturn = true →
        ∃ scope, n.label.marks.scope = some scope ∧
          ((judge config.poisonFailed a.table n).complaint =
              some (.invalidReturnType n.label.line) ↔ Reported a.table scope n) ∧
          ((judge config.poisonFailed a.table n).complaint = none ↔
            ¬Reported a.table scope n) ∧
          ((∀ l ∈ f.preorder, l.kind.isExpr = false → l.kind.name? ≠ some globalName) →
            Reported a.table scope n) := by
  obtain ⟨log, hanalyze, hlog⟩ := analyze_total config f
  refine ⟨_, _, hanalyze, bare_typed_marked _ _ f, hlog,
    fun _ => isDeclaration_of_mem_reports, ?_⟩
  intro n hn hk
  have hsite : n.label.site ∈ (start.marked f).outsiders.map (·.label.site) := by
    rw [← sites_outsiders_typed config.poisonFailed (finalTable f)]
    exact List.mem_map_of_mem hn
  obtain ⟨n', hn', heq⟩ := List.mem_map.mp hsite
  have hkind : n'.label.kind = n.label.kind := congrArg (·.1) heq
  have hmark : n'.label.marks.scope = n.label.marks.scope := congrArg (·.2.2) heq
  have hplain : n'.label.kind.isFunction = false := by
    rw [hkind]
    cases hl : n.label.kind <;> simp_all [Kind.isReturn, Kind.isFunction]
  obtain ⟨scope, hscope, hunowned⟩ := unowned_of_mem_outsiders hf outside_start hn' hplain
  rw [hmark] at hscope
  have hjudge := judge_outside config.poisonFailed (valid_end f)
    (fun _ => noFunctionIn_of_flat hf) hscope (hunowned.later (Table.grows_discard _)) hk
  refine ⟨scope, hscope, hjudge.1, hjudge.2, fun hnames => .inl fun p _ => ?_⟩
  exact lookupLocal_eq_none (by decide) hnames p

/-- Returns at the outermost level: one before all blocks, one in a block, one in
a function and one in a block behind it.  The name of the outermost scope is
declared between them. -/
def strayReturns : Forest := .ofTrees [
  .returnVoid 1,
  .varDecl "global" .int 2,
  .compound [.varDecl "x" .int 3] [.returnValue (.var "x" 4) 4] 3,
  .funDecl "main" .void [] (.compound [] [.returnVoid 6] 5) 5,
  .ifThen (.const 1 7) (.compound [] [.compound [] [.returnVoid 8] 8] 7) 7]

open Scoping Typing in
/-- Only the return at the outermost level is reported: around the two in blocks the
search finds the variable. -/
theorem analyze_outside_strayReturns :
    strayReturns.Flat ∧
      ∃ a reports, analyze {} strayReturns = .ok a ∧
        a.log.entries.toList = [.invalidReturnType 1] ∧
        ((a.forest.outsiders.filter (·.label.kind.isReturn)).map fun n =>
            (n.label.line, (judge true a.table n).complaint)) =
          [(1, some (.invalidReturnType 1)), (4, none), (8, none)] ∧
        a.forest.bare = strayReturns.bare ∧
        a.log.entries.toList = reports ++ (a.forest.postorder.filterMap fun n =>
          (judge true a.table n).complaint) ∧
        (∀ d ∈ reports, d.isDeclaration = true) ∧
        ∀ n ∈ a.forest.outsiders, n.label.kind.isReturn = true →
          ∃ scope, n.label.marks.scope = some scope ∧
            ((judge true a.table n).complaint = some (.invalidReturnType n.label.line) ↔
              Reported a.table scope n) ∧
            ((judge true a.table n).complaint = none ↔ ¬Reported a.table scope n) ∧
            ((∀ l ∈ strayReturns.preorder, l.kind.isExpr = false →
                l.kind.name? ≠ some globalName) → Reported a.table scope n) := by
  have hflat : strayReturns.Flat := by decide
  obtain ⟨a, reports, hanalyze, houtside⟩ := analyze_outside {} hflat
  obtain rfl := Except.ok.inj (hanalyze.symm.trans (analyze_eq_run {} strayReturns))
  exact ⟨hflat, _, reports, hanalyze, by decide +kernel, by decide +kernel, houtside⟩

/-- A variable with the name of the outermost scope, and a return in a block. -/
def silentReturn : Forest :=
  .ofTrees [.varDecl "global" .int 1, .compound [] [.returnVoid 3] 2]

/-- A return outside functions that nobody reports. -/
theorem analyze_silentReturn :
    silentReturn.Flat ∧
      (∃ n ∈ silentReturn.outsiders, n.label.kind = .returnVoid ∧ n.label.line = 3) ∧
      (analyze {} silentReturn).toOption.map (·.log.entries.toList) = some [] := by
  decide +kernel

end CMinus
