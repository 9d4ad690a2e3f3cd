import CMinus.Proofs.Typing.Total

/-!
# Two runs with and without poisoned operators

The only rule that reads the switch `poisonFailed` is the one for operators, and
only for an operator that fails.  So two runs that differ in the switch are one
run until an operator fails.  From there on they may go different ways: a type
that is poisoned in one run and missing in the other silences some of the rules
above it and sets off others, and each run may report what the other does not.

`Parting` relates what two such runs have reported.  Either they have reported
the same and no operator was among it, and then they also agree in whatever has
been computed so far; or they have reported the same up to a failed operator,
and nothing is said about the rest.  The relation is kept by appending, where
the second part only needs to be related if the first has not parted the runs
(`Parting.append`), so an induction over the tree suffices.

Both logs get an entry when the runs part.  Whether there was an error is
therefore the same in both (`analyze_poison_independent`).
-/

namespace CMinus

/-- The diagnostic is about an operator that failed. -/
def Diagnostic.isFailedOperator : Diagnostic → Bool
  | invalidExpression _ => true
  | _ => false

/-- The diagnostics through the first one about a failed operator. -/
def Diagnostic.throughFailed : List Diagnostic → List Diagnostic
  | [] => []
  | d :: ds => if d.isFailedOperator then [d] else d :: throughFailed ds

theorem Diagnostic.throughFailed_append {ds : List Diagnostic}
    (hds : ∀ d ∈ ds, d.isFailedOperator = false) (ds' : List Diagnostic) :
    throughFailed (ds ++ ds') = ds ++ throughFailed ds' := by
  induction ds with
  | nil => rfl
  | cons d ds ih =>
      have hd : d.isFailedOperator = false := hds d (by simp)
      have htail := ih fun d' hd' => hds d' (by simp [hd'])
      simp [throughFailed, hd, htail]

/-- What two runs have reported: the same, without a failed operator, and then
`P` holds of them; or the same up to a failed operator. -/
inductive Parting (P : Prop) : List Diagnostic → List Diagnostic → Prop
  | together {ds : List Diagnostic} (h : P) (hds : ∀ d ∈ ds, d.isFailedOperator = false) :
      Parting P ds ds
  | parted (ds : List Diagnostic) {rest rest' : List Diagnostic} {d : Diagnostic}
      (hds : ∀ d ∈ ds, d.isFailedOperator = false) (hd : d.isFailedOperator = true) :
      Parting P (ds ++ d :: rest) (ds ++ d :: rest')

namespace Parting

variable {P Q : Prop} {xs ys xs' ys' : List Diagnostic}

theorem mono (h : Parting P xs ys) (hPQ : P → Q) : Parting Q xs ys := by
  cases h with
  | together h hds => exact .together (hPQ h) hds
  | parted ds hds hd => exact .parted ds hds hd

/-- Two runs that have not parted go on together. -/
theorem append (h : Parting P xs ys) (h' : P → Parting Q xs' ys') :
    Parting Q (xs ++ xs') (ys ++ ys') := by
  cases h with
  | parted ds hds hd =>
      rw [List.append_assoc, List.append_assoc]
      exact .parted ds hds hd
  | together hP hds =>
      cases h' hP with
      | together hQ hds' =>
          refine .together hQ fun d hd => ?_
          rcases List.mem_append.mp hd with hd | hd
          · exact hds d hd
          · exact hds' d hd
      | parted ds' hds' hd =>
          rw [← List.append_assoc, ← List.append_assoc]
          refine .parted (xs ++ ds') (fun d hd => ?_) hd
          rcases List.mem_append.mp hd with hd | hd
          · exact hds d hd
          · exact hds' d hd

theorem throughFailed_eq (h : Parting P xs ys) :
    Diagnostic.throughFailed xs = Diagnostic.throughFailed ys := by
  cases h with
  | together => rfl
  | parted _ hds hd =>
      rw [Diagnostic.throughFailed_append hds, Diagnostic.throughFailed_append hds]
      simp only [Diagnostic.throughFailed, hd, if_true]

/-- If no operator failed in one of the runs, they have not parted. -/
theorem eq_of_not_failed (h : Parting P xs ys)
    (hnone : (∀ d ∈ xs, d.isFailedOperator = false) ∨
      ∀ d ∈ ys, d.isFailedOperator = false) : P ∧ xs = ys := by
  cases h with
  | together h _ => exact ⟨h, rfl⟩
  | @parted _ _ _ d _ hd =>
      have hnot : d.isFailedOperator = false := by
        rcases hnone with hnone | hnone
        · exact hnone d (by simp)
        · exact hnone d (by simp)
      rw [hd] at hnot
      exact absurd hnot (by simp)

/-- One run has reported something if the other has. -/
theorem eq_nil_iff (h : Parting P xs ys) : xs = [] ↔ ys = [] := by
  cases h with
  | together => exact Iff.rfl
  | parted => simp

end Parting

namespace Typing

variable (table : Table)

/-! ## One node -/

/-- Only the rule for operators complains of a failed operator. -/
theorem any_isFailedOperator_judge (poisonFailed : Bool) {t : Tree}
    (hk : ∀ o, t.label.kind ≠ .op o) :
    (judge poisonFailed table t).complaint.any Diagnostic.isFailedOperator = false := by
  have hstatement : ∀ (ok : Bool) (d : Diagnostic), d.isFailedOperator = false →
      (Verdict.statement ok d).complaint.any Diagnostic.isFailedOperator = false := by
    intro ok d hd
    cases ok <;> simp [Verdict.statement, hd]
  unfold judge
  cases hl : t.label.kind with
  | op o => exact absurd hl (hk o)
  | var name =>
      simp only [judgeVar]
      split
      · rfl
      · split
        · rfl
        · split <;> rfl
  | assign =>
      simp only [judgeAssign]
      split
      · split <;> rfl
      · split <;> rfl
  | call name =>
      simp only [judgeCall]
      split
      · rfl
      · split
        · rfl
        · split <;> rfl
  | ifThen | ifElse | whileDo | returnValue | returnVoid => exact hstatement _ _ rfl
  | _ => rfl

/-- Only the rule for operators reads the switch. -/
theorem judge_true_eq_false {t : Tree} (hk : ∀ o, t.label.kind ≠ .op o) :
    judge true table t = judge false table t := by
  unfold judge
  cases hl : t.label.kind with
  | op o => exact absurd hl (hk o)
  | _ => rfl

/-- At one node the two runs go on together or part. -/
theorem parting_judge (t : Tree) :
    Parting (judge true table t = judge false table t)
      (judge true table t).complaint.toList (judge false table t).complaint.toList := by
  by_cases hk : ∃ o, t.label.kind = .op o
  · obtain ⟨o, hl⟩ := hk
    have hjudge : ∀ poisonFailed, judge poisonFailed table t = judgeOp poisonFailed t := by
      intro poisonFailed
      unfold judge
      rw [hl]
    simp only [hjudge, judgeOp]
    split
    · exact .together rfl (by simp [Verdict.typed])
    · exact .parted [] (by simp) rfl
  · have hnot : ∀ o, t.label.kind ≠ .op o := fun o hl => hk ⟨o, hl⟩
    have heq := judge_true_eq_false table hnot
    rw [heq]
    refine .together rfl fun d hd => ?_
    have hany := any_isFailedOperator_judge table false hnot
    rwa [Option.mem_toList.mp hd] at hany

/-! ## A whole tree -/

/-- The two runs over a tree: the finished trees are equal unless the runs have
parted. -/
theorem parting_typed (f : Forest) :
    Parting (typed true table f = typed false table f)
      (complaints true table (typed true table f))
      (complaints false table (typed false table f)) := by
  induction f with
  | nil => exact .together rfl (by simp [typed, complaints_nil])
  | node l a b c rest iha ihb ihc ihr =>
      have hslots := (iha.append fun ha => ihb.mono fun hb => And.intro ha hb).append
        fun hab => ihc.mono fun hc => And.intro hab hc
      simp only [typed, complaints_node, judge_withTy]
      refine hslots.append ?_
      rintro ⟨⟨ha, hb⟩, hc⟩
      rw [ha, hb, hc]
      refine (parting_judge table _).append fun hself => ihr.mono fun hr => ?_
      rw [hself, hr]

end Typing

open Scoping Typing in
/-- The switch decides nothing but what follows a failed operator.  With it on
and off, on any tree: the tables are equal, and so are the trees but for types;
the reports are the same through the first failed operator; where no operator
fails in one of the runs, both are the same in everything; and if one of them
finds an error, so does the other. -/
theorem analyze_poison_independent (config : Config) (f : Forest) :
    ∃ a b, analyze { config with poisonFailed := true } f = .ok a ∧
      analyze { config with poisonFailed := false } f = .ok b ∧
      a.table = b.table ∧
      a.forest.bare = b.forest.bare ∧
      a.forest.preorder.map Label.site = b.forest.preorder.map Label.site ∧
      Diagnostic.throughFailed a.log.entries.toList =
        Diagnostic.throughFailed b.log.entries.toList ∧
      ((∀ d ∈ a.log.entries.toList, d.isFailedOperator = false) ∨
          (∀ d ∈ b.log.entries.toList, d.isFailedOperator = false) →
        a.log = b.log ∧ a.forest = b.forest) ∧
      a.hadError = b.hadError := by
  obtain ⟨log, hanalyze, hlog⟩ := analyze_total { config with poisonFailed := true } f
  obtain ⟨log', hanalyze', hlog'⟩ := analyze_total { config with poisonFailed := false } f
  have hreports : ∀ d ∈ start.reports f, d.isFailedOperator = false := by
    intro d hd
    have hdecl := isDeclaration_of_mem_reports hd
    cases d <;> simp_all [Diagnostic.isDeclaration, Diagnostic.isFailedOperator]
  have hparting := (Parting.together trivial hreports).append fun _ =>
    parting_typed (finalTable f) (start.marked f)
  rw [← hlog, ← hlog'] at hparting
  refine ⟨_, _, hanalyze, hanalyze', rfl, ?_, ?_, hparting.throughFailed_eq, ?_, ?_⟩
  · rw [bare_typed, bare_typed]
  · rw [sites_typed, sites_typed]
  · intro hnone
    obtain ⟨hforest, hentries⟩ := hparting.eq_of_not_failed hnone
    exact ⟨congrArg Log.mk (Array.toList_inj.mp hentries), hforest⟩
  · have hiff : log.hadError = true ↔ log'.hadError = true := by
      rw [Log.hadError_iff, Log.hadError_iff, Ne, Ne, hparting.eq_nil_iff]
    exact Bool.eq_iff_iff.mpr hiff

/-- Behind the failed operator the runs may differ: an assignment accepts a
poisoned value, and complains of one without a type. -/
example :
    let program := Forest.ofTrees [.arrayDecl "a" .int 3 1, .varDecl "x" .int 1,
      .assign (.var "x" 2) (.op .add (.var "a" 2) (.const 1 2) 2) 2]
    let reported := fun poisonFailed =>
      (analyze { poisonFailed } program).toOption.map (·.log.entries.toList)
    reported true = some [.invalidExpression 2] ∧
      reported false = some [.invalidExpression 2, .assignmentType "x" 2] := by
  decide +kernel

end CMinus
