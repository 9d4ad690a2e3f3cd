import CMinus.Proofs.Scoping.Access

/-!
# Typing with every read checked

The second pass once more, with the guarded reads of the table.  A rule reads
the table from one scope at most, and `Typing.consultedAt` says from which.
Where that scope exists, the guarded rule has a result, and it is that of the
total one (`Guarded.judge_eq`).

`Guarded.analyze` puts the two guarded passes together.  It makes every read
that an analysis makes, and one read outside a registry would leave it without
a result; `Guarded.analyze_eq` says that it has one for every tree, and the same
as the analysis itself.
-/

namespace CMinus

namespace Guarded

/-! ## The rules -/

/-- The rule for a variable. -/
def judgeVar (table : Table) (t : Tree) (name : String) : Option Verdict := do
  match ← resolve table t.label.marks.scope name t.label.line with
  | none => some (.poisoned (.undeclaredVariable name t.label.line))
  | some symbol =>
    if t.first.isEmpty then some (.typed symbol.ty)
    else if t.first.ty? = some .int then some (.typed .int)
    else some (.poisoned (.invalidIndex name t.label.line))

/-- The rule for an assignment, which looks up the name of its target from the
scope of its target. -/
def judgeAssign (table : Table) (t : Tree) : Option Verdict := do
  let target := t.first.ty?
  let value := t.second.ty?
  let name := ((t.first.head?.bind (·.kind.name?))).getD ""
  let scope? := t.first.head?.bind (·.marks.scope)
  let line := (t.first.head?.map (·.line)).getD 0
  match ← resolve table scope? name line with
  | none =>
    some
      { ty := some .poison
        complaint :=
          if target = some .poison then none
          else some (.undeclaredVariable name t.label.line) }
  | some _ =>
    if target = value || target = some .poison || value = some .poison then
      some (.typed (target.getD .poison))
    else some (.poisoned (.assignmentType name t.label.line))

/-- The rule for a call. -/
def judgeCall (table : Table) (t : Tree) (name : String) : Option Verdict := do
  match ← resolve table t.label.marks.scope name t.label.line with
  | none => some (.poisoned (.undeclaredFunction name t.label.line))
  | some symbol =>
    match symbol.ty.result? with
    | none => some (.poisoned (.invalidFunctionCall name t.label.line))
    | some result =>
      let args := t.first.labels.map (·.marks.ty)
      some
        { ty := some result
          complaint :=
            if Typing.argumentsFit args symbol.params then none
            else some (.parameter name t.label.line) }

/-- The rule for a return of a value. -/
def judgeReturnValue (table : Table) (t : Tree) : Option Verdict := do
  let owner ← enclosingTy table t.label.marks.scope
  some (.statement
    (match owner with
      | .function (some .intFunction) => t.first.ty? = some .int
      | .redefined => true
      | _ => false)
    (.invalidReturnType t.label.line))

/-- The rule for a return without a value. -/
def judgeReturnVoid (table : Table) (t : Tree) : Option Verdict := do
  let owner ← enclosingTy table t.label.marks.scope
  some (.statement
    (match owner with
      | .function (some .voidFunction) | .redefined => true
      | _ => false)
    (.invalidReturnType t.label.line))

/-- The rule for a node whose children are typed.  The remaining kinds are judged
without a table. -/
def judge (poisonFailed : Bool) (table : Table) (t : Tree) : Option Verdict :=
  match t.label.kind with
  | .var name => judgeVar table t name
  | .assign => judgeAssign table t
  | .call name => judgeCall table t name
  | .returnValue => judgeReturnValue table t
  | .returnVoid => judgeReturnVoid table t
  | _ => some (Typing.judge poisonFailed .empty t)

/-- Leave a node: write its type and report its complaint. -/
def conclude (poisonFailed : Bool) (table : Table) (t : Tree) (log : Log) :
    Option (Marks × Log) := do
  let verdict ← judge poisonFailed table t
  some ({ t.label.marks with ty := verdict.ty }, log.report? verdict.complaint)

/-- Both passes over one program. -/
def analyze (config : Config) (f : Forest) : Option Analysis := do
  let table ← withBuiltins .empty
  let (f, s) ← walk enter leave f { table, log := {} }
  let table := s.table.discard
  let (f, log) ← walk (fun l log => some (l.marks, log))
    (conclude config.poisonFailed table) f s.log
  some { config, table, log, forest := f }

/-! ## Agreement with the total rules -/

/-- A use that resolves resolves to a symbol that exists. -/
theorem isSome_resolveSymbol (t : Table) (scope? : Option ScopeId) (name : String)
    (line : UInt32) :
    (t.resolveSymbol scope? name line).isSome = (t.resolve scope? name line).isSome := by
  unfold Table.resolveSymbol
  cases hid : t.resolve scope? name line with
  | none => rfl
  | some id =>
      obtain ⟨scope, _, hfilter⟩ := Option.bind_eq_some_iff.mp hid
      obtain ⟨_, hline⟩ := Option.filter_eq_some_iff.mp hfilter
      obtain ⟨sym, hsym, _⟩ := (Option.any_eq_true _ _).mp hline
      simp [hsym]

section Agreement

variable {table : Table} (hv : table.Valid) {t : Tree}

include hv

theorem judgeVar_eq (hscope : ∀ id, t.label.marks.scope = some id → id < table.scopes.size)
    (name : String) : judgeVar table t name = some (Typing.judgeVar table t name) := by
  unfold judgeVar Typing.judgeVar
  simp only [resolve_eq hv hscope, bind, Option.bind_some]
  cases table.resolveSymbol t.label.marks.scope name t.label.line with
  | none => rfl
  | some symbol =>
      dsimp only
      split
      · rfl
      · split <;> rfl

theorem judgeCall_eq (hscope : ∀ id, t.label.marks.scope = some id → id < table.scopes.size)
    (name : String) : judgeCall table t name = some (Typing.judgeCall table t name) := by
  unfold judgeCall Typing.judgeCall
  simp only [resolve_eq hv hscope, bind, Option.bind_some]
  cases table.resolveSymbol t.label.marks.scope name t.label.line with
  | none => rfl
  | some symbol => cases hresult : symbol.ty.result? <;> simp [hresult]

theorem judgeAssign_eq
    (hscope : ∀ id, t.first.head?.bind (·.marks.scope) = some id → id < table.scopes.size) :
    judgeAssign table t = some (Typing.judgeAssign table t) := by
  unfold judgeAssign Typing.judgeAssign
  simp only [resolve_eq hv hscope, bind, Option.bind_some]
  cases hhead : t.first.head? with
  | none => rfl
  | some l =>
      -- one side asks for a symbol, the other for its id
      have hsome := isSome_resolveSymbol table l.marks.scope (l.kind.name?.getD "") l.line
      simp only [Option.bind_some, Option.map_some, Option.getD_some]
      cases hid : table.resolve l.marks.scope (l.kind.name?.getD "") l.line with
      | none =>
          rw [hid, Option.isSome_none, Option.isSome_eq_false_iff, Option.isNone_iff_eq_none]
            at hsome
          simp only [hsome]
      | some id =>
          rw [hid, Option.isSome_some, Option.isSome_iff_exists] at hsome
          obtain ⟨symbol, hsymbol⟩ := hsome
          simp only [hsymbol]
          split <;> rfl

theorem judgeReturnValue_eq
    (hscope : ∀ id, t.label.marks.scope = some id → id < table.scopes.size) :
    judgeReturnValue table t = some (Typing.judgeReturnValue table t) := by
  unfold judgeReturnValue
  rw [enclosingTy_eq hv hscope]
  rfl

theorem judgeReturnVoid_eq
    (hscope : ∀ id, t.label.marks.scope = some id → id < table.scopes.size) :
    judgeReturnVoid table t = some (Typing.judgeReturnVoid table t) := by
  unfold judgeReturnVoid
  rw [enclosingTy_eq hv hscope]
  rfl

/-- A rule has its result if the scope that it consults exists. -/
theorem judge_eq (poisonFailed : Bool)
    (hscope : ∀ id, Typing.consultedAt t = some id → id < table.scopes.size) :
    judge poisonFailed table t = some (Typing.judge poisonFailed table t) := by
  unfold judge Typing.judge
  unfold Typing.consultedAt at hscope
  cases hk : t.label.kind with
  | var name => exact judgeVar_eq hv (by simpa only [hk] using hscope) name
  | call name => exact judgeCall_eq hv (by simpa only [hk] using hscope) name
  | assign => exact judgeAssign_eq hv (by simpa only [hk] using hscope)
  | returnValue => exact judgeReturnValue_eq hv (by simpa only [hk] using hscope)
  | returnVoid => exact judgeReturnVoid_eq hv (by simpa only [hk] using hscope)
  | _ => rfl

theorem conclude_eq (poisonFailed : Bool)
    (hscope : ∀ id, Typing.consultedAt t = some id → id < table.scopes.size) (log : Log) :
    conclude poisonFailed table t log = some (Typing.leave poisonFailed table t log) := by
  simp only [conclude, judge_eq hv poisonFailed hscope, bind, Option.bind_some, Typing.leave]

end Agreement

end Guarded

namespace Typing

variable (poisonFailed : Bool) (table : Table)

/-- Typing keeps every mark that a table knows. -/
theorem knownTo_typed {t : Table} {f : Forest} (hf : f.KnownTo t) :
    (typed poisonFailed table f).KnownTo t := by
  intro l hl id hid
  obtain ⟨n, hn, rfl⟩ := List.mem_map.mp hl
  obtain ⟨l', hl', hsite⟩ := exists_site_of_mem_nodes poisonFailed table hn
  have hscope : n.label.marks.scope = l'.marks.scope := congrArg (·.2.2) hsite
  exact hf l' hl' id (hscope ▸ hid)

/-- When a node is left, the table has the scope that its rule consults. -/
theorem consultedAt_lt_of_mem_departures {t : Table} {f : Forest} (hf : f.KnownTo t)
    {log : Log} {d : Departure Log}
    (hd : d ∈ f.departures (fun l log => (l.marks, log)) (leave poisonFailed table) log)
    {id : ScopeId} (hid : consultedAt d.tree = some id) : id < t.scopes.size := by
  have hfst := run_fst poisonFailed table
  unfold run visitor at hfst
  induction f generalizing log with
  | nil => simp at hd
  | node l a b c rest iha ihb ihc ihr =>
      have ha : a.KnownTo t := fun l' h => hf l' (by simp [h])
      have hb : b.KnownTo t := fun l' h => hf l' (by simp [h])
      have hc : c.KnownTo t := fun l' h => hf l' (by simp [h])
      have hrest : rest.KnownTo t := fun l' h => hf l' (by simp [h])
      simp only [Forest.departures, hfst, List.mem_append, List.mem_cons] at hd
      rcases hd with ((hd | hd) | hd) | rfl | hd
      · exact iha ha hd
      · exact ihb hb hd
      · exact ihc hc hd
      · have hnode := Forest.knownTo_node (hf l (by simp)) (knownTo_typed poisonFailed table ha)
          (knownTo_typed poisonFailed table hb) (knownTo_typed poisonFailed table hc)
          (Forest.knownTo_nil t)
        have hmem : id ∈ consulted (.node l (typed poisonFailed table a)
            (typed poisonFailed table b) (typed poisonFailed table c) .nil) := by
          simp only [consulted, List.mem_append, Option.mem_toList]
          exact .inl (.inl (.inl (.inl hid)))
        obtain ⟨l', hl', hscope⟩ := mem_consulted hmem
        exact hnode l' hl' id hscope
      · exact ihr hrest hd

end Typing

open Scoping Typing in
/-- Every read of an analysis is inside a registry: the guarded analysis has a
result for every tree, and it is that of the analysis. -/
theorem Guarded.analyze_eq (config : Config) (f : Forest) :
    Guarded.analyze config f = (CMinus.analyze config f).toOption := by
  have hscoping : walk enter leave f { table := Table.empty.withBuiltins, log := {} } =
      some (start.marked f, start.after f) :=
    walk_scoping_eq outside_start.valid room_start f
  have htyping : walk (fun l log => some (l.marks, log))
      (conclude config.poisonFailed (finalTable f)) (start.marked f) (start.after f).log =
        some (run config.poisonFailed (finalTable f) (start.after f).log (start.marked f)) := by
    refine walk_eq (fun _ _ => rfl) ?_
    intro d hd
    refine conclude_eq (valid_end f) _ ?_ d.state
    exact fun id hid => consultedAt_lt_of_mem_departures _ _ (knownTo_marked f) hd hid
  rw [analyze_eq_run, ← run_fst]
  unfold Guarded.analyze
  simp only [withBuiltins_empty, hscoping, bind, Option.bind_some]
  rw [show (start.after f).table.discard = finalTable f from rfl, htyping]
  rfl

end CMinus
