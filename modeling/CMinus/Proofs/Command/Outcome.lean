import CMinus.Command.Run
import CMinus.Proofs.Exchange.Outlines
import CMinus.Proofs.Typing.Poison

/-!
# What a run of the command shows

The command loads a program, analyses it and prints what the analysis reports.
Two things can go wrong with a program that is about to be analysed, and neither
does: the passes are not out of order, since the command starts a session of its
own, and the second pass finds no mark that it does not know.  So only loading can
fail, and what the command prints and how it exits is read off the analysis
(`outcome_of_load`).

Four flags say what to show and how to go on behind a failed operator.  Two runs on
one input exit alike whatever their flags are (`exit_outcome_eq`), and print the same
if they agree about the table and about operators (`stdout_outcome_eq`).  That the
switch for operators has no say in the exit is not plain: it can change the log, but
the log is empty with it if and only if it is empty without
(`hadError_eq_of_analyze`).
-/

namespace CMinus

namespace Typing

/-- A pass over a tree has complaints with the switch if it has some without. -/
theorem complaints_eq_nil_iff (poisonFailed poisonFailed' : Bool) (table : Table) (f : Forest) :
    complaints poisonFailed table (typed poisonFailed table f) = [] ↔
      complaints poisonFailed' table (typed poisonFailed' table f) = [] := by
  have hparting := (parting_typed table f).eq_nil_iff
  cases poisonFailed <;> cases poisonFailed'
  · exact Iff.rfl
  · exact hparting.symm
  · exact hparting
  · exact Iff.rfl

end Typing

/-! ## Two analyses of one program -/

section Analyses

variable {config config' : Config} {f : Forest} {a a' : Analysis}
  (h : analyze config f = .ok a) (h' : analyze config' f = .ok a')

include h in
theorem config_of_analyze : a.config = config := by
  rw [analyze_eq_run] at h
  exact Except.ok.inj h ▸ rfl

include h h'

/-- The table does not depend on the options. -/
theorem table_eq_of_analyze : a.table = a'.table := by
  rw [analyze_eq_run] at h h'
  rw [← Except.ok.inj h, ← Except.ok.inj h']

/-- The log depends on the switch for operators only. -/
theorem log_eq_of_analyze (hpoison : config.poisonFailed = config'.poisonFailed) :
    a.log = a'.log := by
  rw [analyze_eq_run] at h h'
  rw [← Except.ok.inj h, ← Except.ok.inj h', hpoison]

open Scoping Typing in
/-- Whether there was an error depends on none of the options. -/
theorem hadError_eq_of_analyze : a.hadError = a'.hadError := by
  obtain ⟨log, hanalyze, hlog⟩ := analyze_total config f
  obtain ⟨log', hanalyze', hlog'⟩ := analyze_total config' f
  obtain rfl := Except.ok.inj (hanalyze.symm.trans h)
  obtain rfl := Except.ok.inj (hanalyze'.symm.trans h')
  -- the first pass does not read the options, so the logs differ in complaints only
  have hcomplaints := complaints_eq_nil_iff config.poisonFailed config'.poisonFailed
    (finalTable f) (start.marked f)
  have hempty : log.entries.toList = [] ↔ log'.entries.toList = [] := by
    rw [hlog, hlog', List.append_eq_nil_iff, List.append_eq_nil_iff, hcomplaints]
  refine Bool.eq_iff_iff.mpr ?_
  show log.hadError = true ↔ log'.hadError = true
  rw [Log.hadError_iff, Log.hadError_iff, Ne, Ne, hempty]

end Analyses

namespace Command

/-- The program that an input holds.  The content of the input is its text, or what
the system says about why it cannot be read. -/
def load (content : Except String String) : Except Failure Forest :=
  content.mapError Failure.unreadable >>= Exchange.parse

/-- What a run of the command on the content of its input leaves behind. -/
def outcome (o : Options) (content : Except String String) : Outcome :=
  runOn o (content.mapError Failure.unreadable)

/-- Loading has failures of its own: the input cannot be read, is in no known
format, or has a node without room for all its slots. -/
theorem failure_of_load {content : Except String String} {failure : Failure}
    (h : load content = .error failure) :
    (∃ detail, failure = .unreadable detail) ∨ (∃ detail, failure = .badFormat detail) ∨
      ∃ count line, failure = .tooManySlots count line := by
  cases content with
  | error detail => exact .inl ⟨detail, (Except.error.inj h).symm⟩
  | ok text =>
      replace h : Exchange.parse text = .error failure := h
      unfold Exchange.parse at h
      split at h
      · exact .inr (.inl ⟨_, (Except.error.inj h).symm⟩)
      · split at h
        · exact .inr (.inl ⟨_, (Except.error.inj h).symm⟩)
        · next outline _ =>
            rcases outline.toForest_cases with ⟨_, f, hf, _⟩ | ⟨line, count, _, herror⟩
            · rw [hf] at h
              cases h
            · rw [herror] at h
              exact .inr (.inr ⟨count, line, (Except.error.inj h).symm⟩)

/-- A run on an input that cannot be loaded. -/
theorem outcome_of_load_error {content : Except String String} {failure : Failure}
    (h : load content = .error failure) (o : Options) :
    (outcome o content).exit = 2 ∧ (outcome o content).stdout = "" := by
  rw [load] at h
  rw [outcome, runOn, h]
  exact ⟨rfl, rfl⟩

/-- A run on an input that can be loaded shows its analysis. -/
theorem outcome_of_load {content : Except String String} {f : Forest}
    (h : load content = .ok f) (o : Options) :
    ∃ a, analyze (config o) f = .ok a ∧
      (outcome o content).exit = (if a.hadError then 1 else 0) ∧
      (outcome o content).stdout = a.report := by
  rw [load] at h
  obtain ⟨log, hanalyze, _⟩ := analyze_total (config o) f
  refine ⟨_, hanalyze, ?_⟩
  rw [outcome, runOn, h]
  simp only [runForest, hanalyze, and_self]

/-- Two runs on one input have the same exit. -/
theorem exit_outcome_eq (content : Except String String) (o o' : Options) :
    (outcome o content).exit = (outcome o' content).exit := by
  cases hload : load content with
  | error failure =>
      rw [(outcome_of_load_error hload o).1, (outcome_of_load_error hload o').1]
  | ok f =>
      obtain ⟨a, ha, hexit, _⟩ := outcome_of_load hload o
      obtain ⟨a', ha', hexit', _⟩ := outcome_of_load hload o'
      rw [hexit, hexit', hadError_eq_of_analyze ha ha']

/-- Two runs on one input print the same if they agree in the table and in how to
treat operators. -/
theorem stdout_outcome_eq (content : Except String String) {o o' : Options}
    (htrace : o.has .trace = o'.has .trace)
    (hkeep : o.has .keepUntyped = o'.has .keepUntyped) :
    (outcome o content).stdout = (outcome o' content).stdout := by
  cases hload : load content with
  | error failure =>
      rw [(outcome_of_load_error hload o).2, (outcome_of_load_error hload o').2]
  | ok f =>
      obtain ⟨a, ha, _, hstdout⟩ := outcome_of_load hload o
      obtain ⟨a', ha', _, hstdout'⟩ := outcome_of_load hload o'
      have hlog : a.log = a'.log := log_eq_of_analyze ha ha' (by simp only [config, hkeep])
      have hconfig : a.config.trace = a'.config.trace := by
        rw [config_of_analyze ha, config_of_analyze ha']
        exact htrace
      rw [hstdout, hstdout', Analysis.report, Analysis.report, hlog, hconfig,
        table_eq_of_analyze ha ha']

/-- What a run of the command shows of its input, and what the flags have to do with
it. -/
structure Shows (o : Options) (content : Except String String) : Prop where
  /-- The run fails exactly if the input cannot be loaded. -/
  fails_iff : (outcome o content).exit = 2 ↔ ∃ failure, load content = .error failure
  /-- Then nothing is printed, and the order of the passes is never the reason. -/
  failed : ∀ failure, load content = .error failure →
    (outcome o content).stdout = "" ∧ ∀ reason, failure ≠ .outOfOrder reason
  /-- Otherwise the analysis succeeds.  Its diagnostics are printed each on a line, and
  the table behind them if it was asked for; the exit tells whether there were any. -/
  analysed : ∀ f, load content = .ok f → ∃ a, analyze (config o) f = .ok a ∧
    (outcome o content).stdout =
      String.join (a.log.entries.toList.map fun d => d.text ++ "\n") ++
        (if o.has .trace then "\nSymbol table:\n\n" ++ a.table.listing else "") ∧
    (outcome o content).exit = if a.log.entries.toList = [] then 0 else 1
  /-- Every other choice of flags has the same exit. -/
  exit_eq : ∀ o', (outcome o' content).exit = (outcome o content).exit
  /-- And it prints the same, if it agrees about the table and about operators. -/
  stdout_eq : ∀ o', o'.has .trace = o.has .trace → o'.has .keepUntyped = o.has .keepUntyped →
    (outcome o' content).stdout = (outcome o content).stdout

/-- The command shows the analysis of what it can load, and the flags change nothing
but what is shown. -/
theorem outcome_shows (o : Options) (content : Except String String) : Shows o content where
  fails_iff := by
    cases hload : load content with
    | error failure => simp [(outcome_of_load_error hload o).1]
    | ok f =>
        obtain ⟨a, _, hexit, _⟩ := outcome_of_load hload o
        rw [hexit]
        cases a.hadError <;> simp
  failed := by
    intro failure hload
    refine ⟨(outcome_of_load_error hload o).2, ?_⟩
    rintro reason rfl
    rcases failure_of_load hload with ⟨_, h⟩ | ⟨_, h⟩ | ⟨_, _, h⟩ <;> cases h
  analysed := by
    intro f hload
    obtain ⟨a, ha, hexit, hstdout⟩ := outcome_of_load hload o
    refine ⟨a, ha, ?_, ?_⟩
    · rw [hstdout, Analysis.report, config_of_analyze ha]
      rfl
    · have herror : a.hadError = true ↔ a.log.entries.toList ≠ [] := a.log.hadError_iff
      by_cases hempty : a.log.entries.toList = []
      · rw [hexit, if_pos hempty, if_neg fun h => herror.mp h hempty]
      · rw [hexit, if_neg hempty, if_pos (herror.mpr hempty)]
  exit_eq := fun o' => exit_outcome_eq content o' o
  stdout_eq := fun _ htrace hkeep => stdout_outcome_eq content htrace hkeep

/-- A call of an unknown function, with and without what goes to the other stream. -/
example :
    let text := "program=[\x7bline=2,kind=\x7bcall=\x7bname=\"f\"\x7d\x7d\x7d]"
    let shown := fun flags => outcome { input := "calls.toml", flags } (.ok text)
    (shown []).stdout = "Error: Undeclared Function 'f' at line 2\n" ∧ (shown []).exit = 1 ∧
      (shown [.verbose, .dumpTree]).exit = 1 ∧ (shown [.trace, .keepUntyped]).exit = 1 := by
  decide +kernel

end Command

end CMinus
