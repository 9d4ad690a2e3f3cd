import Mathlib.Logic.Equiv.Basic
import CMinus.Proofs.Scoping.Renaming

/-!
# Analysis under new names

The analysis of a program under other names is the analysis of the program, under
those names: it gives the same types, opens the same scopes, makes the same
symbols and reports the same mistakes.  In particular no name is special but
those of the built-in functions.

Both passes are shown to commute with the renaming.  For the first one the states
of the two walks are related (`Scoping.Alike`): a step keeps the relation
(`Alike.enter`, `Alike.exit`), and so does a walk (`Alike.after`).  The name that
the next block gets needs care.  Outside functions it is that of the outermost
scope, which is not renamed; a function replaces it by its own name, which is.
Hence the walk of a function has a stronger relation (`Scoping.AlikeInside`), and
between functions, where a program has no blocks, the name is left open.

For the second pass it is enough that the two finished tables answer alike.
-/

namespace CMinus

namespace Kind

variable (r : String → String) (k : Kind)

@[simp] theorem isFunction_rename : (k.rename r).isFunction = k.isFunction := by
  cases k <;> rfl

@[simp] theorem opens_rename : (k.rename r).opens = k.opens := by
  cases k <;> rfl

end Kind

namespace Forest

theorem functionFree_node {l : Label} {a b c rest : Forest} (hl : l.kind.isFunction = false)
    (ha : a.FunctionFree) (hb : b.FunctionFree) (hc : c.FunctionFree)
    (hrest : rest.FunctionFree) : (node l a b c rest).FunctionFree := by
  simp only [FunctionFree, preorder_node, List.forall_mem_cons, List.forall_mem_append]
  exact ⟨hl, ⟨⟨ha, hb⟩, hc⟩, hrest⟩

theorem functionFree_nil : nil.FunctionFree := by
  simp [FunctionFree]

theorem Leaves.functionFree {admitted : Kind → Bool}
    (hadmitted : ∀ k, admitted k = true → k ≠ .compound ∧ k.isFunction = false) {f : Forest}
    (h : f.Leaves admitted) : f.FunctionFree := by
  induction h with
  | nil => exact functionFree_nil
  | cons hk _ ih =>
      exact functionFree_node (hadmitted _ hk).2 functionFree_nil functionFree_nil
        functionFree_nil ih

theorem Inner.functionFree {f : Forest} (h : f.Inner) : f.FunctionFree := by
  induction h with
  | nil => exact functionFree_nil
  | block hk hlocals _ _ ihstmts ihrest =>
      exact functionFree_node (by rw [hk]; rfl)
        (hlocals.functionFree fun _ => Scoping.not_block_of_isObject) ihstmts functionFree_nil
        ihrest
  | plain hk _ _ _ _ iha ihb ihc ihr =>
      exact functionFree_node (Scoping.not_block_of_isPlain hk).2 iha ihb ihc ihr

end Forest

namespace Scoping

/-! ## One step under new names -/

/-- The two states differ in names only. -/
structure Alike (r : String → String) (s s' : Scoping) : Prop where
  closed : s.table.Sealed
  table : Table.Renamed r s.table s'.table
  log : s'.log.entries.toList = s.log.entries.toList.map (Diagnostic.rename r)
  entering : s'.entering = s.entering
  redefined : s'.redefined = s.redefined

section Step

variable {r : String → String} (hr : IsRenaming r) {s s' : Scoping} (h : Alike r s s')
  {here : ScopeId} (htop : s.table.top? = some here)

include hr h htop

theorem complaint_rename_object (o : Object) (line : UInt32) :
    (o.rename r).complaint s'.table here line =
      (o.complaint s.table here line).map (Diagnostic.rename r) := by
  have hlookup := h.table.lookupLocal_eq hr h.closed (h.closed.top_ne htop) o.name
  simp only [Object.complaint, Object.rename, hlookup]
  by_cases hknown : (s.table.lookupLocal here o.name).isSome = true
  · simp [hknown, Diagnostic.rename]
  · by_cases hvoid : o.spec = .void <;> simp [hknown, hvoid, Diagnostic.rename]

theorem complaint_rename (l : Label) :
    s'.complaint (l.rename r) = (s.complaint l).map (Diagnostic.rename r) := by
  have hobject := complaint_rename_object hr h htop
  simp only [complaint, h.table.top, htop, Option.bind_some, Label.kind_rename]
  cases hl : l.kind with
  | funDecl name spec =>
      have hlookup := h.table.lookupLocal_eq hr h.closed (h.closed.top_ne htop) name
      simp only [Kind.rename, functionComplaint, hlookup]
      split <;> rfl
  | varDecl name spec => exact hobject ⟨name, spec, .int, .variable⟩ l.line
  | arrayDecl name spec size => exact hobject ⟨name, spec, .intArray, .variable⟩ l.line
  | param name spec => exact hobject ⟨name, spec, .int, .parameter⟩ l.line
  | arrayParam name spec => exact hobject ⟨name, spec, .intArray, .arrayParameter⟩ l.line
  | _ => rfl

/-- Declaring an object. -/
theorem renamed_declareObject (o : Object) (line : UInt32) :
    Table.Renamed r (s.declareObject here o.name o.spec o.base o.site line).2.table
      (s'.declareObject here (r o.name) o.spec o.base o.site line).2.table := by
  have hrenamed := declareObject_eq s' here (o.rename r) line
  simp only [Object.rename] at hrenamed
  rw [declareObject_eq, hrenamed]
  exact h.table.declare hr h.closed (lt_of_top? h.closed.valid htop) (h.closed.top_ne htop)
    o.name o.ty line

/-- Declaring a parameter, of the same function. -/
theorem renamed_declareParameter (o : Object) (line : UInt32) :
    Table.Renamed r (s.declareParameter here o.name o.spec o.base o.site line).table
      (s'.declareParameter here (r o.name) o.spec o.base o.site line).table := by
  have hne := h.closed.top_ne htop
  have hobject := renamed_declareObject hr h htop o line
  have hrenamed := declareParameter_eq s' here (o.rename r) line
  simp only [Object.rename, h.table.lookupLocal_eq hr h.closed hne,
    h.table.signature?_eq hr h.closed (lt_of_top? h.closed.valid htop) hne, h.redefined]
    at hrenamed
  rw [declareParameter_eq, hrenamed]
  dsimp only
  split
  · exact hobject.addParameter _ _
  · exact hobject

/-- Using a name. -/
theorem renamed_use (name : String) (line : UInt32) :
    Table.Renamed r (s.use here name line).table (s'.use here (r name) line).table := by
  rw [use_eq, use_eq, h.table.lookup_eq hr h.closed (lt_of_top? h.closed.valid htop)
    (h.closed.top_ne htop)]
  cases s.table.lookup here name with
  | none => exact h.table
  | some id => exact h.table.reference id line

/-- Declaring a function, and opening its scope. -/
theorem renamed_declareFunction (name : String) (spec : Spec) (line : UInt32) :
    Table.Renamed r (s.declareFunction here name spec line).table
      (s'.declareFunction here (r name) spec line).table := by
  have hdeclare := h.table.declare hr h.closed (lt_of_top? h.closed.valid htop)
    (h.closed.top_ne htop) name (.functionReturning spec) line
  rw [declareFunction_eq, declareFunction_eq]
  refine hdeclare.push ?_ name
  rw [Table.size_scopes_declare]
  exact h.closed.two_le_scopes

/-- Entering any node.  A block is named by the register, which must have been
renamed for it. -/
theorem renamed_step (l : Label) (hblock : l.kind = .compound → s'.blockName = r s.blockName) :
    Table.Renamed r (s.step here l.kind l.line).table
      (s'.step here (l.rename r).kind (l.rename r).line).table := by
  rw [Label.kind_rename, Label.line_rename]
  cases hl : l.kind with
  | compound =>
      simp only [Kind.rename, step, openBlock, h.entering, hblock hl]
      split
      · exact h.table
      · exact h.table.push h.closed.two_le_scopes s.blockName
  | varDecl name spec =>
      exact renamed_declareObject hr h htop ⟨name, spec, .int, .variable⟩ l.line
  | arrayDecl name spec size =>
      exact renamed_declareObject hr h htop ⟨name, spec, .intArray, .variable⟩ l.line
  | funDecl name spec => exact renamed_declareFunction hr h htop name spec l.line
  | param name spec =>
      exact renamed_declareParameter hr h htop ⟨name, spec, .int, .parameter⟩ l.line
  | arrayParam name spec =>
      exact renamed_declareParameter hr h htop ⟨name, spec, .intArray, .arrayParameter⟩ l.line
  | var name | call name => exact renamed_use hr h htop name l.line
  | _ => exact h.table

/-- The registers are set alike. -/
theorem registers_step (l : Label) :
    (s'.step here (l.rename r).kind (l.rename r).line).entering =
        (s.step here l.kind l.line).entering ∧
      (s'.step here (l.rename r).kind (l.rename r).line).redefined =
        (s.step here l.kind l.line).redefined := by
  rw [Label.kind_rename, Label.line_rename]
  rcases l.kind.opens_cases with hk | ⟨name, spec, hk⟩ | hk
  · simp only [hk, Kind.rename, step, openBlock, h.entering]
    split <;> exact ⟨rfl, h.redefined⟩
  · have hlookup := h.table.lookupLocal_eq hr h.closed (h.closed.top_ne htop) name
    simp only [hk, Kind.rename, step, declareFunction_eq, hlookup, and_self]
  · have hlevel := sameLevel_step hk s here l.line
    have hlevel' := sameLevel_step ((Kind.opens_rename r l.kind).trans hk) s' here l.line
    exact ⟨hlevel'.entering.trans (h.entering.trans hlevel.entering.symm),
      hlevel'.redefined.trans (h.redefined.trans hlevel.redefined.symm)⟩

end Step

section Node

variable {r : String → String} (hr : IsRenaming r) {s s' : Scoping}

include hr

/-- Entering a node keeps the states alike, and writes the same marks. -/
theorem Alike.enter (h : Alike r s s') {l : Label}
    (hblock : l.kind = .compound → s'.blockName = r s.blockName) :
    Alike r (enter l s).2 (Scoping.enter (l.rename r) s').2 ∧
      (Scoping.enter (l.rename r) s').1 = (Scoping.enter l s).1 := by
  cases htop : s.table.top? with
  | none =>
      simp only [Scoping.enter, h.table.top, htop]
      exact ⟨h, rfl⟩
  | some here =>
      have hclosed := sealed_enter l h.closed
      have htable := renamed_step hr h htop l hblock
      have hlog : (Scoping.enter (l.rename r) s').2.log.entries.toList =
          (Scoping.enter l s).2.log.entries.toList.map (Diagnostic.rename r) := by
        rw [log_enter, log_enter, Log.toList_report?, Log.toList_report?, h.log,
          complaint_rename hr h htop l, List.map_append, Option.toList_map]
      obtain ⟨hentering, hredefined⟩ := registers_step hr h htop l
      rw [enter_eq l htop] at hclosed hlog ⊢
      rw [enter_eq (l.rename r) (h.table.top.trans htop)] at hlog ⊢
      refine ⟨⟨hclosed, htable, hlog, hentering, hredefined⟩, ?_⟩
      simp only [Label.marks_rename, htable.top]

omit hr in
/-- So does leaving it. -/
theorem Alike.exit (h : Alike r s s') (l : Label) :
    Alike r (exit l s) (Scoping.exit (l.rename r) s') := by
  have hclosed := sealed_exit l h.closed
  unfold Scoping.exit leave at hclosed ⊢
  cases hl : l.kind with
  | compound =>
      simp only [Label.kind_rename, hl, Kind.rename] at hclosed ⊢
      exact ⟨hclosed, h.table.pop, h.log, h.entering, h.redefined⟩
  | funDecl name spec =>
      simp only [Label.kind_rename, hl, Kind.rename, h.entering] at hclosed ⊢
      refine ⟨hclosed, ?_, h.log, rfl, rfl⟩
      split
      · exact h.table.pop
      · exact h.table
  | _ =>
      simp only [Label.kind_rename, hl, Kind.rename] at hclosed ⊢
      exact h

end Node

/-! ## A walk under new names -/

/-- The two states differ in names only, and so do the names that they have for
the next block. -/
structure AlikeInside (r : String → String) (s s' : Scoping) : Prop extends Alike r s s' where
  blockName : s'.blockName = r s.blockName

/-- Walking the chain and the renamed chain leads to related states and leaves the
same marks behind. -/
structure Tracks (r : String → String) (R : Scoping → Scoping → Prop) (s s' : Scoping)
    (f : Forest) : Prop where
  alike : R (s.after f) (s'.after (f.rename r))
  marked : s'.marked (f.rename r) = (s.marked f).rename r

namespace Tracks

variable {r : String → String} {R Ra Rb Rc : Scoping → Scoping → Prop} {s s' : Scoping}

theorem nil (h : R s s') : Tracks r R s s' .nil := ⟨h, rfl⟩

/-- A node is tracked if it is marked alike and all of its parts are tracked. -/
theorem node {l : Label} {a b c rest : Forest}
    (hmarks : (enter (l.rename r) s').1 = (enter l s).1)
    (ha : Tracks r Ra (enter l s).2 (enter (l.rename r) s').2 a)
    (hb : Tracks r Rb ((enter l s).2.after a) ((enter (l.rename r) s').2.after (a.rename r)) b)
    (hc : Tracks r Rc (((enter l s).2.after a).after b)
      (((enter (l.rename r) s').2.after (a.rename r)).after (b.rename r)) c)
    (hrest : Tracks r R
      (exit { l with marks := (enter l s).1 } ((((enter l s).2.after a).after b).after c))
      (exit (Label.rename r { l with marks := (enter l s).1 })
        ((((enter (l.rename r) s').2.after (a.rename r)).after (b.rename r)).after (c.rename r)))
      rest) : Tracks r R s s' (.node l a b c rest) := by
  constructor
  · rw [Forest.rename, after_node, after_node, hmarks]
    exact hrest.alike
  · rw [Forest.rename, marked_node, marked_node, hmarks]
    simp only [Forest.rename, ha.marked, hb.marked, hc.marked, ← hrest.marked]
    rfl

end Tracks

/-- Only a function changes the name of blocks. -/
theorem blockName_enter {l : Label} (hl : l.kind.isFunction = false) (s : Scoping) :
    (enter l s).2.blockName = s.blockName := by
  rcases l.kind.opens_cases with hk | ⟨name, spec, hk⟩ | hk
  · cases htop : s.table.top? with
    | none => simp only [enter, htop]
    | some here =>
        rw [enter_block hk htop]
        split <;> rfl
  · simp [hk, Kind.isFunction] at hl
  · exact (sameLevel_enter hk s).blockName

theorem blockName_exit {l : Label} (hl : l.kind.isFunction = false) (s : Scoping) :
    (exit l s).blockName = s.blockName := by
  cases hk : l.kind <;> simp_all [exit, leave, Kind.isFunction]

section Walk

variable {r : String → String} (hr : IsRenaming r) {s s' : Scoping}

include hr

theorem AlikeInside.enter (h : AlikeInside r s s') {l : Label}
    (hl : l.kind.isFunction = false) :
    AlikeInside r (enter l s).2 (Scoping.enter (l.rename r) s').2 ∧
      (Scoping.enter (l.rename r) s').1 = (Scoping.enter l s).1 := by
  obtain ⟨henter, hmarks⟩ := h.toAlike.enter hr (l := l) fun _ => h.blockName
  refine ⟨⟨henter, ?_⟩, hmarks⟩
  rw [blockName_enter hl, blockName_enter ((Kind.isFunction_rename r l.kind).trans hl),
    h.blockName]

omit hr in
theorem AlikeInside.exit (h : AlikeInside r s s') {l : Label}
    (hl : l.kind.isFunction = false) :
    AlikeInside r (exit l s) (Scoping.exit (l.rename r) s') := by
  refine ⟨h.toAlike.exit l, ?_⟩
  rw [blockName_exit hl, blockName_exit ((Kind.isFunction_rename r l.kind).trans hl),
    h.blockName]

/-- A walk without functions. -/
theorem AlikeInside.after {f : Forest} (hf : f.FunctionFree) (h : AlikeInside r s s') :
    Tracks r (AlikeInside r) s s' f := by
  induction f generalizing s s' with
  | nil => exact .nil h
  | node l a b c rest iha ihb ihc ihr =>
      obtain ⟨hl, ha, hb, hc, hrest⟩ := hf.parts
      obtain ⟨h₁, hmarks⟩ := h.enter hr hl
      have h₂ := iha ha h₁
      have h₃ := ihb hb h₂.alike
      have h₄ := ihc hc h₃.alike
      exact .node hmarks h₂ h₃ h₄
        (ihr hrest (h₄.alike.exit (l := { l with marks := (Scoping.enter l s).1 }) hl))

/-- A function names the blocks inside it. -/
theorem Alike.enter_function (h : Alike r s s') (hroom : Room s) {l : Label} {name : String}
    {spec : Spec} (hk : l.kind = .funDecl name spec) :
    AlikeInside r (Scoping.enter l s).2 (Scoping.enter (l.rename r) s').2 ∧
      (Scoping.enter (l.rename r) s').1 = (Scoping.enter l s).1 := by
  obtain ⟨here, htop⟩ := hroom.exists_top
  obtain ⟨henter, hmarks⟩ := h.enter hr (l := l) (by simp [hk])
  refine ⟨⟨henter, ?_⟩, hmarks⟩
  rw [enter_eq l htop, enter_eq (l.rename r) (h.table.top.trans htop)]
  simp only [Label.kind_rename, hk, Kind.rename, step, declareFunction_eq]

/-- A program. -/
theorem Alike.after {f : Forest} (hf : f.Outer) (h : Alike r s s') (hroom : Room s) :
    Tracks r (Alike r) s s' f := by
  induction hf generalizing s s' with
  | nil => exact .nil h
  | @object l rest hk _ ih =>
      have hblock : l.kind ≠ .compound := (not_block_of_isObject hk).1
      obtain ⟨h₁, hmarks⟩ := h.enter hr (l := l) fun hc => absurd hc hblock
      exact .node hmarks (.nil h₁) (.nil h₁) (.nil h₁)
        (ih (h₁.exit { l with marks := (Scoping.enter l s).1 })
          (hroom.sibling l .nil .nil .nil))
  | @function l block name spec params locals stmts rest hk hp hblock hl hstmts _ ih =>
      have hparams : params.FunctionFree := hp.functionFree fun _ => not_block_of_isParam
      have hbody : (Forest.node block locals stmts .nil .nil).FunctionFree :=
        Forest.functionFree_node (by rw [hblock]; rfl)
          (hl.functionFree fun _ => not_block_of_isObject) hstmts.functionFree
          Forest.functionFree_nil Forest.functionFree_nil
      obtain ⟨h₁, hmarks⟩ := h.enter_function hr hroom hk
      have h₂ := h₁.after hr hparams
      have h₃ := h₂.alike.after hr hbody
      exact .node hmarks h₂ h₃ (.nil h₃.alike)
        (ih (h₃.alike.toAlike.exit { l with marks := (Scoping.enter l s).1 })
          (hroom.sibling l params (.node block locals stmts .nil .nil) .nil))

end Walk

theorem renamed_start (r : String → String) : Table.Renamed r start.table start.table where
  valid := outside_start.valid
  stack := rfl
  heading := by
    intro id
    by_cases hid : id < 2
    · have hsame : renameHeading r id = fun h => h := by
        funext h
        rw [renameHeading, if_pos hid]
      rw [hsame, Option.map_id']
    · have hnone : start.table.heading? id = none :=
        Table.heading?_eq_none_iff.mpr (Nat.not_lt.mp hid)
      rw [hnone, Option.map_none]
  symbol := by
    intro id
    by_cases hid : id < 3
    · have hsame : Symbol.rename r id = fun sym => sym := by
        funext sym
        rw [Symbol.rename, if_pos hid]
      rw [hsame, Option.map_id']
    · have hnone : start.table.symbols[id]? = none :=
        Array.getElem?_eq_none (Nat.not_lt.mp hid)
      rw [hnone, Option.map_none]

theorem alike_start (r : String → String) : Alike r start start :=
  ⟨sealed_start, renamed_start r, rfl, rfl, rfl⟩

end Scoping

open Scoping Typing in
/-- The analysis of a program commutes with renaming its identifiers, injectively
and without touching the built-in functions.  The finished tree has the same
scopes and types.  The scopes have the same parents, and the names of those that
the program opened are renamed; the symbols are the same in everything but the
names of those that the program declared.  The diagnostics are the same, about
the new names. -/
theorem analyze_rename (config : Config) {r : String → String} (hr : Function.Injective r)
    (hinput : r "input" = "input") (houtput : r "output" = "output") {f : Forest}
    (hf : f.IsProgram) :
    ∃ a b, analyze config f = .ok a ∧ analyze config (f.rename r) = .ok b ∧
      b.forest = a.forest.rename r ∧
      (∀ id, b.table.heading? id =
        (a.table.heading? id).map fun h => (if id < 2 then h.1 else r h.1, h.2)) ∧
      (∀ id : SymbolId, b.table.symbols[id]? =
        a.table.symbols[id]?.map fun s => if id < 3 then s else { s with name := r s.name }) ∧
      b.log.entries.toList = a.log.entries.toList.map (Diagnostic.rename r) := by
  have hrenaming : IsRenaming r := ⟨hr, hinput, houtput⟩
  obtain ⟨log, hanalyze, hlog⟩ := analyze_total config f
  obtain ⟨log', hanalyze', hlog'⟩ := analyze_total config (f.rename r)
  obtain ⟨halike, hmarked⟩ := (alike_start r).after hrenaming hf.outer room_start
  have htable : Table.Renamed r (finalTable f) (finalTable (f.rename r)) := halike.table.discard
  have hanswers : AnswersAll r (finalTable f) (finalTable (f.rename r)) (start.marked f) := by
    intro l hl
    obtain ⟨m, hm, rfl⟩ := exists_moment_of_mem_marked hl
    obtain ⟨id, hid, htop⟩ := exists_scope_enter (room_moment room_start hm) m.label
    have hclosed := sealed_enter m.label (sealed_moment sealed_start hm)
    have hlt := Nat.lt_of_lt_of_le (lt_of_top? hclosed.valid htop)
      (later_end outside_start.valid hm).scopes_le
    rw [show ({ m.label with marks := (enter m.label m.state).1 } : Label).marks.scope = some id
      from hid]
    exact htable.answers hrenaming halike.closed.discard hlt (hclosed.top_ne htop) _
  obtain ⟨htyped, hcomplaints⟩ :=
    typed_rename config.poisonFailed hanswers (targetsNamed_marked hf)
  have hreports : start.reports (f.rename r) = (start.reports f).map (Diagnostic.rename r) := by
    have hentries := halike.log
    rw [log_after, log_after] at hentries
    exact hentries
  refine ⟨_, _, hanalyze, hanalyze', ?_, htable.heading, htable.symbol, ?_⟩
  · rw [hmarked, htyped]
  · rw [hlog, hlog', hmarked, htyped, hcomplaints, hreports, List.map_append]

/-- Exchanges names of a program with those of the outermost scope and of the
built-in parameter. -/
def exchange : String ≃ String := (Equiv.swap "depth" "global").trans (Equiv.swap "climb" "value")

theorem analyze_rename_nestedProgram :
    Function.Injective exchange ∧ exchange "input" = "input" ∧ exchange "output" = "output" ∧
      nestedProgram.IsProgram ∧
      ∃ a b, analyze {} nestedProgram = .ok a ∧
        analyze {} (nestedProgram.rename exchange) = .ok b ∧
        b.forest = a.forest.rename exchange ∧
        (∀ id, b.table.heading? id =
          (a.table.heading? id).map fun h => (if id < 2 then h.1 else exchange h.1, h.2)) ∧
        (∀ id : SymbolId, b.table.symbols[id]? = a.table.symbols[id]?.map fun s =>
          if id < 3 then s else { s with name := exchange s.name }) ∧
        b.log.entries.toList = a.log.entries.toList.map (Diagnostic.rename exchange) :=
  have hr : Function.Injective exchange := exchange.injective
  have hinput : exchange "input" = "input" := by decide
  have houtput : exchange "output" = "output" := by decide
  have hshape : nestedProgram.IsProgram := by decide
  ⟨hr, hinput, houtput, hshape, analyze_rename {} hr hinput houtput hshape⟩

end CMinus
