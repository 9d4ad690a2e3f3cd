import CMinus.Proofs.Typing.Reports

/-!
# Undeclared names

The name of a variable that is assigned to is looked up twice, by the rule for the
variable and by the rule for the assignment.  If it resolves to nothing, either
rule has a reason to complain, and the one for the assignment has to find out
whether the other one did.  All it sees of the target is a type, and it takes
poison for an answer.

Poison is no proof of that: it also comes from a poisoned symbol or from a bad
index.  But then the name resolves, and the question does not arise.  The other
way round the answer is reliable.  Both rules resolve the name in the scope and on
the line of the target, and a variable that does not resolve is poisoned
(`ty_judge_of_unresolved`).  So as long as variables are what is assigned to, every
variable that does not resolve is reported once, by its own rule
(`analyze_undeclared`).
-/

namespace CMinus

namespace Kind

/-- The name of a variable. -/
def varName? : Kind → Option String
  | var name => some name
  | _ => none

/-- The name of what is called. -/
def callName? : Kind → Option String
  | call name => some name
  | _ => none

end Kind

namespace Diagnostic

/-- A variable is reported as undeclared. -/
def isUndeclaredVariable : Diagnostic → Bool
  | undeclaredVariable .. => true
  | _ => false

/-- A function is reported as undeclared. -/
def isUndeclaredFunction : Diagnostic → Bool
  | undeclaredFunction .. => true
  | _ => false

theorem isUndeclaredVariable_of_isDeclaration {d : Diagnostic} (h : d.isDeclaration = true) :
    d.isUndeclaredVariable = false := by
  cases d <;> simp_all [isDeclaration, isUndeclaredVariable]

theorem isUndeclaredFunction_of_isDeclaration {d : Diagnostic} (h : d.isDeclaration = true) :
    d.isUndeclaredFunction = false := by
  cases d <;> simp_all [isDeclaration, isUndeclaredFunction]

end Diagnostic

/-- The report on a node that uses a name, if the name resolves to nothing there. -/
def Table.unresolved? (t : Table) (name? : Option String)
    (report : String → UInt32 → Diagnostic) (l : Label) : Option Diagnostic :=
  name?.bind fun name =>
    if t.resolve l.marks.scope name l.line = none then some (report name l.line) else none

namespace Forest

/-- Variables are assigned to, and nothing else. -/
def AssignsVars (f : Forest) : Prop :=
  ∀ t ∈ f.nodes, t.label.kind = .assign → t.first.head?.any (·.kind.isVar) = true

instance (f : Forest) : Decidable f.AssignsVars :=
  inferInstanceAs (Decidable (∀ t ∈ f.nodes, t.label.kind = .assign →
    t.first.head?.any (·.kind.isVar) = true))

theorem assignsVars_bare (f : Forest) : f.bare.AssignsVars ↔ f.AssignsVars := by
  unfold AssignsVars
  rw [nodes_bare, List.forall_mem_map]
  simp only [Tree.bare, head?_bare, Option.any_map]
  rfl

/-- The target of an assignment is a node of the forest, and a variable. -/
theorem AssignsVars.exists_target {f : Forest} (hf : f.AssignsVars) {n : Tree}
    (hn : n ∈ f.nodes) (hk : n.label.kind = .assign) :
    ∃ m ∈ f.nodes, n.first.head? = some m.label ∧ ∃ name, m.label.kind = .var name := by
  obtain ⟨l, hhead, hvar⟩ := (Option.any_eq_true _ _).mp (hf n hn hk)
  obtain ⟨m, hm, rfl⟩ := List.mem_map.mp (mem_preorder_of_head? hhead)
  refine ⟨m, mem_nodes_of_mem_subtree hn (by simp [Tree.subtree, hm]), hhead, ?_⟩
  cases hkind : m.label.kind <;> simp_all [Kind.isVar]

end Forest

namespace Typing

variable {poisonFailed : Bool} {table : Table} {t : Tree} {name : String}

theorem resolveSymbol_eq_none_iff {scope? : Option ScopeId} {line : UInt32} :
    table.resolveSymbol scope? name line = none ↔ table.resolve scope? name line = none := by
  rw [← Option.not_isSome_iff_eq_none, Guarded.isSome_resolveSymbol, Option.not_isSome_iff_eq_none]

/-! ## Variables and calls -/

/-- A variable that resolves to nothing is poisoned. -/
theorem ty_judge_of_unresolved (hk : t.label.kind = .var name)
    (hnone : table.resolve t.label.marks.scope name t.label.line = none) :
    (judge poisonFailed table t).ty = some .poison := by
  simp [judge, hk, judgeVar, resolveSymbol_eq_none_iff.mpr hnone, Verdict.poisoned]

/-- A variable is reported as undeclared if it resolves to nothing. -/
theorem filter_complaint_var (hk : t.label.kind = .var name) :
    (judge poisonFailed table t).complaint.filter Diagnostic.isUndeclaredVariable =
      table.unresolved? t.label.kind.varName? .undeclaredVariable t.label := by
  simp only [judge, hk, judgeVar, Table.unresolved?, Kind.varName?, Option.bind_some,
    ← resolveSymbol_eq_none_iff]
  cases table.resolveSymbol t.label.marks.scope name t.label.line with
  | none => rfl
  | some sym =>
      simp only [reduceCtorEq, if_false]
      split
      · rfl
      · split <;> rfl

/-- A call is reported as undeclared if it resolves to nothing. -/
theorem filter_complaint_call (hk : t.label.kind = .call name) :
    (judge poisonFailed table t).complaint.filter Diagnostic.isUndeclaredFunction =
      table.unresolved? t.label.kind.callName? .undeclaredFunction t.label := by
  simp only [judge, hk, judgeCall, Table.unresolved?, Kind.callName?, Option.bind_some,
    ← resolveSymbol_eq_none_iff]
  cases table.resolveSymbol t.label.marks.scope name t.label.line with
  | none => rfl
  | some sym =>
      simp only [reduceCtorEq, if_false]
      split
      · rfl
      · dsimp only
        split <;> rfl

/-- No other node is reported as an undeclared function. -/
theorem filter_complaint_function (t : Tree) :
    (judge poisonFailed table t).complaint.filter Diagnostic.isUndeclaredFunction =
      table.unresolved? t.label.kind.callName? .undeclaredFunction t.label := by
  cases hcall : t.label.kind.callName? with
  | some name =>
      have hk : t.label.kind = .call name := by
        cases hl : t.label.kind <;> simp_all [Kind.callName?]
      rw [← hcall]
      exact filter_complaint_call hk
  | none =>
      rw [Table.unresolved?, Option.bind_none, Option.filter_eq_none_iff]
      intro d hd
      cases complains_of_judge _ _ hd with
      | unknownFunction hk => simp [hk, Kind.callName?] at hcall
      | _ => simp [Diagnostic.isUndeclaredFunction]

/-! ## Assignments -/

/-- An assignment to a variable leaves it to the variable to be reported. -/
theorem filter_complaint_assign (hk : t.label.kind = .assign) {m : Tree}
    (hhead : t.first.head? = some m.label) (hm : m.label.kind = .var name)
    (hty : m.label.marks.ty = (judge poisonFailed table m).ty) :
    (judge poisonFailed table t).complaint.filter Diagnostic.isUndeclaredVariable = none := by
  simp only [judge, hk, judgeAssign, hhead, Option.bind_some, hm, Kind.name?, Option.getD_some]
  cases hid : table.resolve m.label.marks.scope name m.label.line with
  | none =>
      have htarget : t.first.ty? = some .poison := by
        rw [Forest.ty?, hhead, Option.bind_some, hty, ty_judge_of_unresolved hm hid]
      simp [htarget]
  | some id =>
      dsimp only
      split <;> rfl

/-- On the finished tree, the variables that do not resolve are reported as undeclared,
and no other node is. -/
theorem filter_complaint_variable {f : Forest}
    (hvars : (typed poisonFailed table f).AssignsVars)
    (ht : t ∈ (typed poisonFailed table f).nodes) :
    (judge poisonFailed table t).complaint.filter Diagnostic.isUndeclaredVariable =
      table.unresolved? t.label.kind.varName? .undeclaredVariable t.label := by
  cases hvar : t.label.kind.varName? with
  | some name =>
      have hk : t.label.kind = .var name := by
        cases hl : t.label.kind <;> simp_all [Kind.varName?]
      rw [← hvar]
      exact filter_complaint_var hk
  | none =>
      rw [Table.unresolved?, Option.bind_none]
      by_cases hk : t.label.kind = .assign
      · obtain ⟨m, hm, hhead, name, hname⟩ := hvars.exists_target ht hk
        exact filter_complaint_assign hk hhead hname (ty_of_mem_nodes poisonFailed table hm)
      · rw [Option.filter_eq_none_iff]
        intro d hd
        cases complains_of_judge _ _ hd with
        | unknownVariable hk => simp [hk, Kind.varName?] at hvar
        | unknownTarget hassign => exact absurd hassign hk
        | _ => simp [Diagnostic.isUndeclaredVariable]

end Typing

open Scoping Typing in
/-- Diagnostics of a sort that is never about a declaration come from the rules. -/
theorem filter_reports_append_complaints {p : Diagnostic → Bool}
    (hp : ∀ {d : Diagnostic}, d.isDeclaration = true → p d = false) (poisonFailed : Bool)
    (table : Table) (s : Scoping) (f g : Forest) :
    (s.reports f ++ complaints poisonFailed table g).filter p =
      g.postorder.filterMap fun n => (judge poisonFailed table n).complaint.filter p := by
  have hreports : (s.reports f).filter p = [] := by
    rw [List.filter_eq_nil_iff]
    intro d hd
    simp [hp (isDeclaration_of_mem_reports hd)]
  rw [List.filter_append, hreports, List.nil_append, complaints, List.filter_filterMap]

open Scoping Typing in
/-- Every name that is not declared is reported once per use, in every tree in which
variables are what is assigned to.  The reports on undeclared variables are, in
postorder, one for each variable that resolves to nothing, with its name and its
line; an assignment makes none of its own.  The reports on undeclared functions are,
in postorder, one for each call that resolves to nothing. -/
theorem analyze_undeclared (config : Config) {f : Forest} (hf : f.AssignsVars) :
    ∃ a, analyze config f = .ok a ∧ a.forest.bare = f.bare ∧
      a.log.entries.toList.filter Diagnostic.isUndeclaredVariable =
        (a.forest.postorder.filterMap fun n =>
          a.table.unresolved? n.label.kind.varName? .undeclaredVariable n.label) ∧
      (∀ n ∈ a.forest.nodes, n.label.kind = .assign → ∀ name line,
        (judge config.poisonFailed a.table n).complaint ≠
          some (.undeclaredVariable name line)) ∧
      a.log.entries.toList.filter Diagnostic.isUndeclaredFunction =
        a.forest.postorder.filterMap fun n =>
          a.table.unresolved? n.label.kind.callName? .undeclaredFunction n.label := by
  obtain ⟨log, hanalyze, hlog⟩ := analyze_total config f
  have hbare := bare_typed_marked config.poisonFailed (finalTable f) f
  have hvars : (typed config.poisonFailed (finalTable f) (start.marked f)).AssignsVars := by
    rw [← Forest.assignsVars_bare, hbare, Forest.assignsVars_bare]
    exact hf
  refine ⟨_, hanalyze, hbare, ?_, ?_, ?_⟩
  · rw [hlog, filter_reports_append_complaints
      Diagnostic.isUndeclaredVariable_of_isDeclaration]
    exact List.filterMap_congr fun n hn =>
      filter_complaint_variable hvars (Forest.mem_postorder.mp hn)
  · intro n hn hk name line hcomplaint
    have hvar := filter_complaint_variable hvars hn
    rw [hcomplaint, hk] at hvar
    cases hvar
  · rw [hlog, filter_reports_append_complaints
      Diagnostic.isUndeclaredFunction_of_isDeclaration]
    exact List.filterMap_congr fun n _ => filter_complaint_function n

/-- Names that are declared too late, as a target, below an index and in a call, and a
target that is poisoned for another reason. -/
def lateProgram : Forest := .ofTrees [
  .funDecl "main" .void [] (.compound [.varDecl "x" .int 2, .varDecl "ghost" .void 2] [
    .assign (.var "late" 3)
      (.assign (.index "late" (.var "x" 3) 3) (.call "help" [.var "late" 3] 3) 3) 3,
    .assign (.var "ghost" 4) (.const 1 4) 4] 1) 1,
  .varDecl "late" .int 5,
  .funDecl "help" .int [.param "late" .int 6] (.compound [] [] 6) 6]

open Typing in
theorem analyze_undeclared_lateProgram :
    lateProgram.AssignsVars ∧
      ∃ a, analyze {} lateProgram = .ok a ∧ a.forest.bare = lateProgram.bare ∧
        a.log.entries.toList.filter Diagnostic.isUndeclaredVariable =
          (a.forest.postorder.filterMap fun n =>
            a.table.unresolved? n.label.kind.varName? .undeclaredVariable n.label) ∧
        (∀ n ∈ a.forest.nodes, n.label.kind = .assign → ∀ name line,
          (judge true a.table n).complaint ≠ some (.undeclaredVariable name line)) ∧
        a.log.entries.toList.filter Diagnostic.isUndeclaredFunction =
          a.forest.postorder.filterMap fun n =>
            a.table.unresolved? n.label.kind.callName? .undeclaredFunction n.label :=
  have hvars : lateProgram.AssignsVars := by decide
  ⟨hvars, analyze_undeclared {} hvars⟩

/-- Each of the three uses of the late variable is reported, and the poisoned target is
not. -/
example :
    (analyze {} lateProgram).toOption.map (fun a =>
      a.log.entries.toList.filter Diagnostic.isUndeclaredVariable) =
      some [.undeclaredVariable "late" 3, .undeclaredVariable "late" 3,
        .undeclaredVariable "late" 3] := by
  decide +kernel

end CMinus
