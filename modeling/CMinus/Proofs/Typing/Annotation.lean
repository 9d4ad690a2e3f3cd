import CMinus.Proofs.Typing.Access

/-!
# What an analysis writes on a tree

An analysis ends for every tree, whatever its shape and whatever marks it bears
already, and then every node has been written on.  The scope is one of the
table.  The type is what the node's rule says: statements get none, expressions
get one, and the only rule that may leave an expression without a type is the
one for operators, if failed operators are not poisoned.

The registries grow by at most one entry per node, so ids of 32 bits are wide
enough for every tree of up to 4294967293 nodes.
-/

namespace CMinus

namespace Scoping

/-! ## The size of the table -/

/-- A step makes at most one scope. -/
theorem size_scopes_enter_le (l : Label) (s : Scoping) :
    (enter l s).2.table.scopes.size ≤ s.table.scopes.size + 1 := by
  cases htop : s.table.top? with
  | none =>
      simp only [enter, htop]
      exact Nat.le_succ _
  | some here =>
      have hchange := change_enter l htop
      generalize (enter l s).2.table = t' at hchange
      cases hchange with
      | same | used => exact Nat.le_succ _
      | object => simp
      | parameter => simp [Table.addParameter]
      | block => simp [Table.push]
      | function => simp [Table.push]

theorem size_scopes_leave (t : Tree) (s : Scoping) :
    (leave t s).2.table.scopes.size = s.table.scopes.size := by
  rw [leave_eq]
  rcases table_exit t.label s with h | h
  · rw [h]
  · rw [h]
    rfl

/-- Two scopes and three symbols are there from the start. -/
theorem size_finalTable_le (f : Forest) :
    (finalTable f).scopes.size ≤ f.nodes.length + 2 ∧
      (finalTable f).symbols.size ≤ f.nodes.length + 3 := by
  have hscopes := Forest.count_walk_le enter leave (fun s : Scoping => s.table.scopes.size)
    size_scopes_enter_le size_scopes_leave f start
  have hsymbols := Forest.count_walk_le enter leave (fun s : Scoping => s.table.symbols.size)
    size_symbols_enter_le size_symbols_leave f start
  rw [Nat.add_comm] at hscopes hsymbols
  exact ⟨hscopes, hsymbols⟩

end Scoping

namespace Typing

/-! ## The type of a node -/

variable (poisonFailed : Bool) (table : Table)

/-- Both operands of the node are integers. -/
def operandsFit (t : Tree) : Prop := t.first.ty? = some .int ∧ t.second.ty? = some .int

/-- No rule gives a statement a type. -/
theorem ty_judge_of_statement {t : Tree} (hk : t.label.kind.isExpr = false) :
    (judge poisonFailed table t).ty = none := by
  unfold judge
  cases hl : t.label.kind <;> simp_all [Kind.isExpr, judgeReturnValue, judgeReturnVoid,
    Verdict.statement]

theorem ty_judgeOp_eq_none_iff (t : Tree) :
    (judgeOp poisonFailed t).ty = none ↔ poisonFailed = false ∧ ¬operandsFit t := by
  unfold judgeOp operandsFit
  by_cases hfit : t.first.ty? = some .int ∧ t.second.ty? = some .int
  · simp [hfit, Verdict.typed]
  · cases poisonFailed <;> simp [hfit]

theorem ty_judgeVar_ne_none (t : Tree) (name : String) : (judgeVar table t name).ty ≠ none := by
  unfold judgeVar
  split
  · simp [Verdict.poisoned]
  · split
    · simp [Verdict.typed]
    · split <;> simp [Verdict.typed, Verdict.poisoned]

theorem ty_judgeAssign_ne_none (t : Tree) : (judgeAssign table t).ty ≠ none := by
  unfold judgeAssign
  dsimp only
  split
  · simp
  · split <;> simp [Verdict.typed, Verdict.poisoned]

theorem ty_judgeCall_ne_none (t : Tree) (name : String) :
    (judgeCall table t name).ty ≠ none := by
  unfold judgeCall
  split
  · simp [Verdict.poisoned]
  · split <;> simp [Verdict.poisoned]

/-- Only a failed operator that is not poisoned is an expression without a
type. -/
theorem ty_judge_of_expression {t : Tree} (hk : t.label.kind.isExpr = true) :
    (judge poisonFailed table t).ty = none ↔
      poisonFailed = false ∧ (∃ o, t.label.kind = .op o) ∧ ¬operandsFit t := by
  unfold judge
  cases hl : t.label.kind with
  | op o => simp [ty_judgeOp_eq_none_iff]
  | const value => simp [Verdict.typed]
  | var name => simp [ty_judgeVar_ne_none table t name]
  | assign => simp [ty_judgeAssign_ne_none table t]
  | call name => simp [ty_judgeCall_ne_none table t name]
  | _ => simp [hl, Kind.isExpr] at hk

/-- What an analysis has written on a node of the finished tree. -/
structure Annotated (t : Tree) : Prop where
  /-- The scope is one of the table. -/
  scope : ∃ id, t.label.marks.scope = some id ∧ id < table.scopes.size
  /-- A statement has no type. -/
  statement : t.label.kind.isExpr = false → t.label.marks.ty = none
  /-- An expression has one, unless it is an operator that failed and failed
  operators are not poisoned. -/
  expression : t.label.kind.isExpr = true →
    (t.label.marks.ty = none ↔
      poisonFailed = false ∧ (∃ o, t.label.kind = .op o) ∧ ¬operandsFit t)

end Typing

open Scoping Typing in
/-- An analysis succeeds on a tree of any shape and with any marks, every read it
makes is inside a registry, and it annotates each node of the tree and changes
nothing else about it. -/
theorem analyze_annotates (config : Config) (f : Forest) :
    ∃ a, analyze config f = .ok a ∧ Guarded.analyze config f = some a ∧
      a.table.scopes.size ≤ f.nodes.length + 2 ∧
      a.table.symbols.size ≤ f.nodes.length + 3 ∧
      a.forest.bare = f.bare ∧
      ∀ n ∈ a.forest.nodes, Annotated config.poisonFailed a.table n := by
  obtain ⟨log, hanalyze, _⟩ := analyze_total config f
  have hguarded := Guarded.analyze_eq config f
  rw [hanalyze] at hguarded
  obtain ⟨hscopes, hsymbols⟩ := size_finalTable_le f
  refine ⟨_, hanalyze, hguarded, hscopes, hsymbols, bare_typed_marked _ _ f, ?_⟩
  intro n hn
  have hty := ty_of_mem_nodes config.poisonFailed (finalTable f) hn
  obtain ⟨l, hl, hsite⟩ := exists_site_of_mem_nodes _ _ hn
  obtain ⟨id, hid, hlt⟩ := exists_scope_lt outside_start.valid room_start hl
  have hscope : n.label.marks.scope = l.marks.scope := congrArg (·.2.2) hsite
  exact
    { scope := ⟨id, hscope.trans hid, hlt⟩
      statement := fun hk => hty.trans (ty_judge_of_statement _ _ hk)
      expression := fun hk => by rw [hty]; exact ty_judge_of_expression _ _ hk }

end CMinus
