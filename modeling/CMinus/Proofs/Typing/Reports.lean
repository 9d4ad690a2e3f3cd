import Mathlib.Data.List.Forall2
import Mathlib.Data.List.ReduceOption
import CMinus.Proofs.Typing.Causes

/-!
# The order of the diagnostics

Both passes visit every node twice, but each of them looks at a node at one of
the two moments only: the first pass on entering it, the second on leaving it.
What a node contributes to the log is therefore at most one diagnostic per pass.
It is even at most one in all, because no kind of node is of interest to both
passes: `Kind.reporter?` names the pass that may report it, and blocks and
literals are never reported.

The log of an analysis is then two lists of contributions, one entry per node
each: those of the first pass in preorder, and behind them those of the second
in postorder (`ReportedInOrder`).  There are never more diagnostics than nodes,
since the nodes that the two passes report are different ones
(`length_contributions_le`).
-/

namespace CMinus

/-- The two passes of an analysis, as those who report. -/
inductive Reporter where
  | scoping
  | typing
  deriving DecidableEq

/-- The pass that may report a node of this kind. -/
def Kind.reporter? : Kind → Option Reporter
  | varDecl .. | arrayDecl .. | funDecl .. | param .. | arrayParam .. => some .scoping
  | op _ | var _ | assign | call _ | ifThen | ifElse | whileDo | returnValue | returnVoid =>
    some .typing
  | compound | const _ => none

/-- Whether a diagnostic is one that the pass makes: the first pass reports
redefinitions and `void` declarations, the second all the rest. -/
def Reporter.makes : Reporter → Diagnostic → Bool
  | scoping, d => d.isDeclaration
  | typing, d => !d.isDeclaration

/-- What a node may contribute to the log in a pass: nothing, or one diagnostic of
that pass on the line of the node, and this only if the pass reports such nodes. -/
def Label.Contributes (l : Label) (pass : Reporter) (contribution : Option Diagnostic) : Prop :=
  ∀ d, contribution = some d →
    l.kind.reporter? = some pass ∧ pass.makes d = true ∧ d.line = l.line

namespace Scoping

/-- A declaration is reported on its own line. -/
theorem line_of_complaint {s : Scoping} {l : Label} {d : Diagnostic}
    (h : s.complaint l = some d) : d.line = l.line := by
  obtain ⟨here, _, h⟩ := Option.bind_eq_some_iff.mp h
  split at h
  · unfold functionComplaint at h
    split at h
    · cases h
      rfl
    · cases h
  · obtain ⟨o, _, ho⟩ := Option.bind_eq_some_iff.mp h
    unfold Object.complaint at ho
    split at ho
    · cases ho
      rfl
    · split at ho
      · cases ho
        rfl
      · cases ho

/-- Only a declaration is reported when it is entered. -/
theorem reporter?_of_complaint {s : Scoping} {l : Label} {d : Diagnostic}
    (h : s.complaint l = some d) : l.kind.reporter? = some .scoping := by
  cases ho : l.kind.object? with
  | some o => cases hl : l.kind <;> simp_all [Kind.object?, Kind.reporter?]
  | none =>
      cases hf : l.kind.isFunction with
      | true => cases hl : l.kind <;> simp_all [Kind.isFunction, Kind.reporter?]
      | false =>
          rw [complaint_eq_none ho hf] at h
          cases h

theorem contributes_complaint (s : Scoping) (l : Label) :
    l.Contributes .scoping (s.complaint l) :=
  fun _ h => ⟨reporter?_of_complaint h, isDeclaration_of_complaint h, line_of_complaint h⟩

/-- What every node contributes to the first pass, in preorder. -/
def contributions (s : Scoping) (f : Forest) : List (Option Diagnostic) :=
  (s.moments f).map fun m => m.state.complaint m.label

theorem reduceOption_contributions (s : Scoping) (f : Forest) :
    (s.contributions f).reduceOption = s.reports f := by
  simp only [contributions, reports, List.reduceOption, List.filterMap_map]
  rfl

/-- The log grows by what the nodes contribute when they are entered. -/
theorem forall₂_contributions (s : Scoping) (f : Forest) :
    List.Forall₂ (fun m d => (enter m.label m.state).2.log = m.state.log.report? d ∧
      m.label.Contributes .scoping d) (s.moments f) (s.contributions f) :=
  List.forall₂_map_right_iff.mpr (List.forall₂_same.mpr fun m _ =>
    ⟨log_enter m.label m.state, contributes_complaint m.state m.label⟩)

end Scoping

namespace Typing

variable (poisonFailed : Bool) (table : Table)

/-- What the rule for a node may complain of. -/
inductive Complains (t : Tree) : Diagnostic → Prop
  | operator {o : BinOp} (hk : t.label.kind = .op o) :
      Complains t (.invalidExpression t.label.line)
  | unknownVariable {name : String} (hk : t.label.kind = .var name) :
      Complains t (.undeclaredVariable name t.label.line)
  | index {name : String} (hk : t.label.kind = .var name) :
      Complains t (.invalidIndex name t.label.line)
  | unknownTarget {name : String} (hk : t.label.kind = .assign) :
      Complains t (.undeclaredVariable name t.label.line)
  | assignment {name : String} (hk : t.label.kind = .assign) :
      Complains t (.assignmentType name t.label.line)
  | unknownFunction {name : String} (hk : t.label.kind = .call name) :
      Complains t (.undeclaredFunction name t.label.line)
  | noFunction {name : String} (hk : t.label.kind = .call name) :
      Complains t (.invalidFunctionCall name t.label.line)
  | arguments {name : String} (hk : t.label.kind = .call name) :
      Complains t (.parameter name t.label.line)
  | condition (hk : t.label.kind = .ifThen ∨ t.label.kind = .ifElse ∨ t.label.kind = .whileDo) :
      Complains t (.invalidCondition t.label.line)
  | result (hk : t.label.kind = .returnValue ∨ t.label.kind = .returnVoid) :
      Complains t (.invalidReturnType t.label.line)

theorem complaint_statement {ok : Bool} {d e : Diagnostic}
    (h : (Verdict.statement ok e).complaint = some d) : d = e := by
  cases ok with
  | true => cases h
  | false => exact (Option.some.inj h).symm

theorem complains_of_judge {t : Tree} {d : Diagnostic}
    (h : (judge poisonFailed table t).complaint = some d) : Complains t d := by
  unfold judge at h
  cases hl : t.label.kind with
  | op o =>
      simp only [hl, judgeOp] at h
      split at h
      · cases h
      · cases h
        exact .operator hl
  | var name =>
      simp only [hl, judgeVar] at h
      split at h
      · cases h
        exact .unknownVariable hl
      · split at h
        · cases h
        · split at h
          · cases h
          · cases h
            exact .index hl
  | assign =>
      simp only [hl, judgeAssign] at h
      split at h
      · split at h
        · cases h
        · cases h
          exact .unknownTarget hl
      · split at h
        · cases h
        · cases h
          exact .assignment hl
  | call name =>
      simp only [hl, judgeCall] at h
      split at h
      · cases h
        exact .unknownFunction hl
      · split at h
        · cases h
          exact .noFunction hl
        · dsimp only at h
          split at h
          · cases h
          · cases h
            exact .arguments hl
  | ifThen | ifElse | whileDo =>
      rw [hl] at h
      rw [complaint_statement h]
      exact .condition (by simp [hl])
  | returnValue | returnVoid =>
      rw [hl] at h
      rw [complaint_statement h]
      exact .result (by simp [hl])
  | _ =>
      rw [hl] at h
      cases h

theorem isDeclaration_of_judge {t : Tree} {d : Diagnostic}
    (h : (judge poisonFailed table t).complaint = some d) : d.isDeclaration = false := by
  cases complains_of_judge poisonFailed table h <;> rfl

/-- Blocks, literals and declarations are beyond complaint. -/
theorem reporter?_of_judge {t : Tree} {d : Diagnostic}
    (h : (judge poisonFailed table t).complaint = some d) :
    t.label.kind.reporter? = some .typing := by
  cases complains_of_judge poisonFailed table h with
  | condition hk => rcases hk with hk | hk | hk <;> rw [hk] <;> rfl
  | result hk => rcases hk with hk | hk <;> rw [hk] <;> rfl
  | _ hk => rw [hk]; rfl

/-- What the first pass may report, no rule complains of. -/
theorem complaint_eq_none_of_reporter? {t : Tree}
    (h : t.label.kind.reporter? = some .scoping) :
    (judge poisonFailed table t).complaint = none := by
  cases hcomplaint : (judge poisonFailed table t).complaint with
  | none => rfl
  | some d =>
      rw [reporter?_of_judge poisonFailed table hcomplaint] at h
      cases h

theorem contributes_judge (t : Tree) :
    t.label.Contributes .typing (judge poisonFailed table t).complaint :=
  fun d h => ⟨reporter?_of_judge poisonFailed table h,
    by simp [Reporter.makes, isDeclaration_of_judge poisonFailed table h],
    complainsOn_judge poisonFailed table t d h⟩

/-- What every node of a typed tree contributes to the second pass, in postorder. -/
def contributions (f : Forest) : List (Option Diagnostic) :=
  f.postorder.map fun n => (judge poisonFailed table n).complaint

theorem reduceOption_contributions (f : Forest) :
    (contributions poisonFailed table f).reduceOption = complaints poisonFailed table f := by
  simp only [contributions, complaints, List.reduceOption, List.filterMap_map]
  rfl

/-- The log grows by what the nodes contribute when they are left. -/
theorem forall₂_contributions (f : Forest) :
    List.Forall₂ (fun n d =>
      (∀ log, (leave poisonFailed table n log).2 = log.report? d) ∧
        n.label.Contributes .typing d) f.postorder (contributions poisonFailed table f) :=
  List.forall₂_map_right_iff.mpr (List.forall₂_same.mpr fun n _ =>
    ⟨fun _ => rfl, contributes_judge poisonFailed table n⟩)

/-- A node that the first pass may report adds nothing to the log of the second. -/
theorem leave_snd_of_reporter? {t : Tree} (h : t.label.kind.reporter? = some .scoping)
    (log : Log) : (leave poisonFailed table t log).2 = log := by
  show log.report? (judge poisonFailed table t).complaint = log
  rw [complaint_eq_none_of_reporter? poisonFailed table h]
  rfl

end Typing

/-! ## Counting contributions -/

section Contributions

variable {α β : Type} {pass : Reporter} {xs : List α} {ys : List β}
  {ds es : List (Option Diagnostic)}

/-- The contributions to a pass are not more than the nodes that it may report. -/
theorem length_reduceOption_le_countP (label : α → Label)
    (h : List.Forall₂ (fun x d => (label x).Contributes pass d) xs ds) :
    ds.reduceOption.length ≤
      (xs.map fun x => (label x).kind).countP (·.reporter? = some pass) := by
  induction h with
  | nil => exact Nat.le_refl _
  | @cons x d xs ds hx _ ih =>
      rw [List.map_cons, List.countP_cons]
      cases d with
      | none =>
          rw [List.reduceOption_cons_of_none]
          omega
      | some d =>
          have hreporter := (hx d rfl).1
          rw [List.reduceOption_cons_of_some, List.length_cons, if_pos (by simpa using hreporter)]
          omega

/-- No kind of node is reported by both passes. -/
theorem countP_reporter?_le (ks : List Kind) :
    ks.countP (·.reporter? = some .scoping) + ks.countP (·.reporter? = some .typing) ≤
      ks.length := by
  have hother : ks.countP (·.reporter? = some .typing) ≤
      ks.countP fun k => ¬k.reporter? = some .scoping := by
    refine List.countP_mono_left fun k _ hk => ?_
    simp_all
  have hall := List.length_eq_countP_add_countP
    (fun k : Kind => decide (k.reporter? = some .scoping)) (l := ks)
  simp only [decide_eq_true_eq] at hall
  omega

/-- The contributions to both passes are not more than the nodes, if the passes go
through the same nodes. -/
theorem length_contributions_le (label : α → Label) (label' : β → Label)
    (hkinds : (ys.map fun y => (label' y).kind).Perm (xs.map fun x => (label x).kind))
    (hds : List.Forall₂ (fun x d => (label x).Contributes .scoping d) xs ds)
    (hes : List.Forall₂ (fun y e => (label' y).Contributes .typing e) ys es) :
    ds.reduceOption.length + es.reduceOption.length ≤ xs.length := by
  have hscoping := length_reduceOption_le_countP label hds
  have htyping := length_reduceOption_le_countP label' hes
  have hboth := countP_reporter?_le (xs.map fun x => (label x).kind)
  rw [hkinds.countP_eq] at htyping
  rw [List.length_map] at hboth
  omega

end Contributions

open Scoping Typing in
/-- The finished tree has the kinds of the moments of the first pass, node by node. -/
theorem kinds_typed_marked (poisonFailed : Bool) (table : Table) (f : Forest) :
    (typed poisonFailed table (start.marked f)).nodes.map (·.label.kind) =
      (start.moments f).map (·.label.kind) := by
  have hkinds : (typed poisonFailed table (start.marked f)).preorder.map (·.kind) =
      f.preorder.map (·.kind) := by
    rw [← Forest.kinds_bare, bare_typed_marked, Forest.kinds_bare]
  rw [← Forest.labels_moments enter leave f start, Forest.preorder, List.map_map,
    List.map_map] at hkinds
  exact hkinds

/-- The account of the diagnostics of a finished analysis: `entering` says what each
node contributes to the first pass, in preorder, and `leaving` what each node
contributes to the second, in postorder. -/
structure ReportedInOrder (f : Forest) (a : Analysis)
    (entering leaving : List (Option Diagnostic)) : Prop where
  /-- The log is what the one pass reports and then what the other does. -/
  log : a.log.entries.toList = entering.reduceOption ++ leaving.reduceOption
  /-- Entering a node in the first pass adds its contribution to the log. -/
  first : List.Forall₂ (fun m d => (Scoping.enter m.label m.state).2.log = m.state.log.report? d ∧
    m.label.Contributes .scoping d) (Scoping.start.moments f) entering
  /-- Leaving a node in the second pass adds its contribution to the log. -/
  second : List.Forall₂ (fun n d =>
    (∀ log, (Typing.leave a.config.poisonFailed a.table n log).2 = log.report? d) ∧
      n.label.Contributes .typing d) a.forest.postorder leaving
  /-- A node that is reported on entering is not reported on leaving. -/
  once : ∀ (i : Nat) (n : Tree) (d : Diagnostic), a.forest.nodes[i]? = some n →
    entering[i]? = some (some d) →
    ∀ log, (Typing.leave a.config.poisonFailed a.table n log).2 = log
  /-- There are at most as many diagnostics as nodes. -/
  size : a.log.entries.size ≤ f.nodes.length

open Scoping Typing in
/-- A tree of any shape is reported in a fixed order, at most once per node.  The
first pass enters the nodes in preorder, the second leaves them in postorder; the
log holds the contributions to the first and then those to the second. -/
theorem analyze_reportedInOrder (config : Config) (f : Forest) :
    ∃ a entering leaving, analyze config f = .ok a ∧ a.forest.bare = f.bare ∧
      (start.moments f).map (·.label) = f.preorder ∧ ReportedInOrder f a entering leaving := by
  obtain ⟨log, hanalyze, hlog⟩ := analyze_total config f
  let tree := typed config.poisonFailed (finalTable f) (start.marked f)
  have hlabels : (start.moments f).map (·.label) = f.preorder :=
    Forest.labels_moments enter leave f start
  have hkinds : tree.nodes.map (·.label.kind) = (start.moments f).map (·.label.kind) :=
    kinds_typed_marked _ _ f
  have hfirst := Scoping.forall₂_contributions start f
  have hsecond := Typing.forall₂_contributions config.poisonFailed (finalTable f) tree
  rw [← Scoping.reduceOption_contributions, ← Typing.reduceOption_contributions] at hlog
  refine ⟨_, _, _, hanalyze, bare_typed_marked _ _ f, hlabels, hlog, hfirst, hsecond, ?_, ?_⟩
  · intro i n d hn hd
    rw [Scoping.contributions, List.getElem?_map, Option.map_eq_some_iff] at hd
    obtain ⟨m, hm, hcomplaint⟩ := hd
    have hkind : n.label.kind = m.label.kind := by
      have hat := congrArg (·[i]?) hkinds
      simpa only [List.getElem?_map, show tree.nodes[i]? = some n from hn, hm, Option.map_some,
        Option.some.injEq] using hat
    exact leave_snd_of_reporter? _ _ (hkind ▸ reporter?_of_complaint hcomplaint)
  · have hperm := tree.postorder_perm.map (·.label.kind)
    rw [hkinds] at hperm
    have hle := length_contributions_le Moment.label Tree.label hperm
      (hfirst.imp fun _ _ h => h.2) (hsecond.imp fun _ _ h => h.2)
    rwa [← List.length_append, ← hlog, Array.length_toList, ← List.length_map (f := Moment.label),
      hlabels, Forest.preorder, List.length_map] at hle

end CMinus
