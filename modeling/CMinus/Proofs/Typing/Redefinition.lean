import CMinus.Proofs.Tree.Removal
import CMinus.Proofs.Typing.Total

/-!
# Redefinitions

A declaration whose name is taken in its scope is reported and otherwise left
alone.  For a variable or a parameter this can be said without looking into the
table: the program without the declaration is analysed to the same table, to the
same finished tree without the node, and to the same diagnostics without the report
(`analyze_erase_redefinition`).

The two walks of the first pass are in the same state until one of them enters the
declaration, and from then on in states that differ in one entry of the log
(`Scoping.Ahead`).  No step reads the log, so the difference stays what it is
(`Scoping.Ahead.walk`).

The second pass reads the finished chains in the slots of a node.  A declaration is
only ever missing from the chains of a function or a block, about which the rules
have nothing to say; every other chain has the labels that it had
(`Typing.Keeps`).

A function whose name is taken is a different matter: it still opens its scope and
is walked through.
-/

namespace CMinus

namespace Scoping

/-! ## One report more -/

/-- The first state has the report `d` behind the earlier ones, which the second has
not; apart from that the two are equal. -/
structure Ahead (earlier : List Diagnostic) (d : Diagnostic) (s s' : Scoping) : Prop where
  same : ∃ log, s' = { s with log }
  reported : ∃ later, s.log.entries.toList = earlier ++ d :: later ∧
    s'.log.entries.toList = earlier ++ later

/-- A step does not read the log. -/
theorem step_withLog (s : Scoping) (log : Log) (here : ScopeId) (k : Kind) (line : UInt32) :
    ∃ log', { s with log }.step here k line = { s.step here k line with log := log' } := by
  have hobject : ∀ o : Object, ∃ log',
      ({ s with log }.declareObject here o.name o.spec o.base o.site line).2 =
        { (s.declareObject here o.name o.spec o.base o.site line).2 with log := log' } := by
    intro o
    rw [declareObject_eq, declareObject_eq]
    exact ⟨_, rfl⟩
  have hparam : ∀ o : Object, ∃ log',
      { s with log }.declareParameter here o.name o.spec o.base o.site line =
        { s.declareParameter here o.name o.spec o.base o.site line with log := log' } := by
    intro o
    rw [declareParameter_eq, declareParameter_eq, declareObject_eq, declareObject_eq]
    dsimp only
    split
    · exact ⟨_, rfl⟩
    · exact ⟨_, rfl⟩
  cases k with
  | compound =>
      simp only [step, openBlock]
      split
      · exact ⟨_, rfl⟩
      · exact ⟨_, rfl⟩
  | varDecl name spec => exact hobject ⟨name, spec, .int, .variable⟩
  | arrayDecl name spec size => exact hobject ⟨name, spec, .intArray, .variable⟩
  | param name spec => exact hparam ⟨name, spec, .int, .parameter⟩
  | arrayParam name spec => exact hparam ⟨name, spec, .intArray, .arrayParameter⟩
  | funDecl name spec =>
      simp only [step, declareFunction]
      split
      · exact ⟨_, rfl⟩
      · exact ⟨_, rfl⟩
  | var name | call name =>
      simp only [step, use_eq]
      exact ⟨_, rfl⟩
  | _ => exact ⟨_, rfl⟩

theorem enter_withLog (l : Label) (s : Scoping) (log : Log) :
    ∃ log', enter l { s with log } = ((enter l s).1, { (enter l s).2 with log := log' }) := by
  cases htop : s.table.top? with
  | none => exact ⟨log, by simp only [enter, htop]⟩
  | some here =>
      obtain ⟨log', hstep⟩ := step_withLog s log here l.kind l.line
      refine ⟨log', ?_⟩
      rw [enter_eq l htop, enter_eq (s := { s with log }) l htop, hstep]

theorem exit_withLog (l : Label) (s : Scoping) (log : Log) :
    exit l { s with log } = { exit l s with log } := by
  unfold exit leave
  cases l.kind <;> rfl

theorem log_exit (l : Label) (s : Scoping) : (exit l s).log = s.log := log_leave { label := l } s

namespace Ahead

variable {earlier : List Diagnostic} {d : Diagnostic} {s s' : Scoping}

theorem enter (h : Ahead earlier d s s') (l : Label) :
    (enter l s').1 = (enter l s).1 ∧ Ahead earlier d (enter l s).2 (enter l s').2 := by
  obtain ⟨⟨log, rfl⟩, later, hlog, hlog'⟩ := h
  have hcomplaint : { s with log }.complaint l = s.complaint l := rfl
  obtain ⟨log', henter⟩ := enter_withLog l s log
  refine ⟨by rw [henter], ⟨log', by rw [henter]⟩, later ++ (s.complaint l).toList, ?_, ?_⟩
  · rw [log_enter, Log.toList_report?, hlog, List.append_assoc, List.cons_append]
  · rw [log_enter, Log.toList_report?, hlog', hcomplaint, List.append_assoc]

theorem exit (h : Ahead earlier d s s') (l : Label) :
    Ahead earlier d (exit l s) (exit l s') := by
  obtain ⟨⟨log, rfl⟩, hreported⟩ := h
  refine ⟨⟨log, exit_withLog l s log⟩, ?_⟩
  rw [log_exit, log_exit]
  exact hreported

/-- Nor does a walk read the log. -/
theorem walk (h : Ahead earlier d s s') (f : Forest) :
    Ahead earlier d (s.after f) (s'.after f) ∧ s'.marked f = s.marked f := by
  induction f generalizing s s' with
  | nil => exact ⟨h, rfl⟩
  | node l a b c rest iha ihb ihc ihr =>
      obtain ⟨hmarks, h₁⟩ := h.enter l
      obtain ⟨h₂, hma⟩ := iha h₁
      obtain ⟨h₃, hmb⟩ := ihb h₂
      obtain ⟨h₄, hmc⟩ := ihc h₃
      obtain ⟨h₅, hmr⟩ := ihr (h₄.exit { l with marks := (Scoping.enter l s).1 })
      constructor
      · rw [after_node, after_node, hmarks]
        exact h₅
      · simp only [marked_node, hmarks, hma, hmb, hmc, hmr]

end Ahead

/-! ## A name that is taken -/

/-- An object that is reported as a redefinition finds its name taken in the innermost
scope. -/
theorem exists_taken {s : Scoping} {l : Label} {o : Object} (ho : l.kind.object? = some o)
    {name : String} {line : UInt32} (h : s.complaint l = some (.redefinition name line)) :
    ∃ here id, s.table.top? = some here ∧ s.table.lookupLocal here o.name = some id := by
  obtain ⟨here, htop, h⟩ := Option.bind_eq_some_iff.mp h
  have hcomplaint : o.complaint s.table here l.line = some (.redefinition name line) := by
    cases hl : l.kind <;> simp_all [Kind.object?]
  unfold Object.complaint at hcomplaint
  split at hcomplaint
  · next hsome =>
      obtain ⟨id, hid⟩ := Option.isSome_iff_exists.mp hsome
      exact ⟨here, id, htop, hid⟩
  · split at hcomplaint <;> cases hcomplaint

/-- A variable or a parameter whose name is taken leaves a report behind and nothing
else. -/
theorem ahead_of_redefinition {s : Scoping} {l : Label}
    (hk : l.kind.isObject = true ∨ l.kind.isParam = true) {name : String} {line : UInt32}
    (h : s.complaint l = some (.redefinition name line)) :
    Ahead s.log.entries.toList (.redefinition name line) (enter l s).2 s := by
  refine ⟨⟨s.log, ?_⟩, [], ?_, ?_⟩
  · rcases hk with hk | hk
    · obtain ⟨o, ho, hstep⟩ := step_of_object hk
      obtain ⟨here, id, htop, hid⟩ := exists_taken ho h
      rw [enter_eq l htop, hstep, declareObject_eq, Table.declare_of_lookupLocal_eq_some hid]
    · obtain ⟨o, ho, hstep⟩ := step_of_param hk
      obtain ⟨here, id, htop, hid⟩ := exists_taken ho h
      rw [enter_eq l htop, hstep, declareParameter_eq, declareObject_eq,
        Table.declare_of_lookupLocal_eq_some hid, hid]
  · rw [log_enter, h, Log.toList_report?]
    rfl
  · rw [List.append_nil]

/-! ## A walk that misses a leaf -/

theorem length_moments (s : Scoping) (f : Forest) : (s.moments f).length = f.nodes.length := by
  have hlength := congrArg List.length (Forest.labels_moments enter leave f s)
  rwa [List.length_map, Forest.preorder, List.length_map] at hlength

theorem length_nodes_marked (s : Scoping) (f : Forest) :
    (s.marked f).nodes.length = f.nodes.length := by
  rw [← Forest.length_nodes_bare, bare_marked, Forest.length_nodes_bare]

/-- A place in the middle part of a list. -/
theorem getElem?_middle {α : Type} (before behind : List α) {part : List α} {i : Nat}
    (hi : i < part.length) : (before ++ part ++ behind)[before.length + i]? = part[i]? := by
  rw [List.append_assoc, List.getElem?_append_right (Nat.le_add_right _ _),
    Nat.add_sub_cancel_left, List.getElem?_append_left hi]

section Moments

variable (s : Scoping) (l : Label) {a b c rest : Forest} {i : Nat}

theorem moment_first (hi : i < a.nodes.length) :
    (s.moments (.node l a b c rest))[i + 1]? = ((enter l s).2.moments a)[i]? := by
  rw [moments_node, List.getElem?_cons_succ, List.append_assoc, List.append_assoc,
    List.getElem?_append_left (by rwa [length_moments])]

theorem moment_second (hi : i < b.nodes.length) :
    (s.moments (.node l a b c rest))[a.nodes.length + i + 1]? =
      (((enter l s).2.after a).moments b)[i]? := by
  rw [← length_moments (enter l s).2 a, moments_node, List.getElem?_cons_succ,
    List.append_assoc (_ ++ _)]
  exact getElem?_middle _ _ (by rwa [length_moments])

theorem moment_third (hi : i < c.nodes.length) :
    (s.moments (.node l a b c rest))[a.nodes.length + b.nodes.length + i + 1]? =
      ((((enter l s).2.after a).after b).moments c)[i]? := by
  rw [← length_moments (enter l s).2 a, ← length_moments ((enter l s).2.after a) b,
    ← List.length_append, moments_node, List.getElem?_cons_succ]
  exact getElem?_middle _ _ (by rwa [length_moments])

theorem moment_rest :
    (s.moments (.node l a b c rest))[a.nodes.length + b.nodes.length + c.nodes.length + i + 1]? =
      ((exit { l with marks := (enter l s).1 }
        ((((enter l s).2.after a).after b).after c)).moments rest)[i]? := by
  rw [← length_moments (enter l s).2 a, ← length_moments ((enter l s).2.after a) b,
    ← length_moments (((enter l s).2.after a).after b) c, ← List.length_append,
    ← List.length_append, moments_node, List.getElem?_cons_succ,
    List.getElem?_append_right (Nat.le_add_right _ _), Nat.add_sub_cancel_left]

end Moments

/-- If entering a leaf leaves a report behind and nothing else, then so does the walk
over the tree with the leaf, against the walk over the tree without it. -/
theorem ahead_of_omits {l : Label} {i : Nat} {f g : Forest} (h : f.Omits l i g) {s : Scoping}
    {m : Moment Scoping} (hm : (s.moments f)[i]? = some m) (hk : m.label.kind.opens = false)
    {earlier : List Diagnostic} {d : Diagnostic}
    (hinert : Ahead earlier d (enter m.label m.state).2 m.state) :
    Ahead earlier d (s.after f) (s.after g) ∧
      Forest.Omits { m.label with marks := (enter m.label m.state).1 } i (s.marked f)
        (s.marked g) := by
  -- along the path to the leaf the walks agree before it and stay one report apart behind it
  induction h generalizing s with
  | @here rest =>
      rw [moments_node] at hm
      obtain rfl := Option.some.inj hm
      obtain ⟨hahead, hmarked⟩ := hinert.walk rest
      have hexit : ∀ s', exit { l with marks := (enter l s).1 } s' = s' :=
        exit_of_not_opens (l := { l with marks := (enter l s).1 }) hk
      rw [after_node, marked_node, hmarked]
      simp only [hexit]
      exact ⟨hahead, .here⟩
  | @first i k a a' b c rest h ih =>
      rw [moment_first s k h.lt] at hm
      obtain ⟨h₂, hforest⟩ := ih hm
      obtain ⟨h₃, hmb⟩ := h₂.walk b
      obtain ⟨h₄, hmc⟩ := h₃.walk c
      obtain ⟨h₅, hmr⟩ := (h₄.exit { k with marks := (enter k s).1 }).walk rest
      simp only [after_node, marked_node, hmb, hmc, hmr]
      exact ⟨h₅, .first hforest⟩
  | @second i k a b b' c rest h ih =>
      rw [moment_second s k h.lt] at hm
      obtain ⟨h₃, hforest⟩ := ih hm
      obtain ⟨h₄, hmc⟩ := h₃.walk c
      obtain ⟨h₅, hmr⟩ := (h₄.exit { k with marks := (enter k s).1 }).walk rest
      simp only [after_node, marked_node, hmc, hmr]
      rw [← length_nodes_marked (enter k s).2 a]
      exact ⟨h₅, .second hforest⟩
  | @third i k a b c c' rest h ih =>
      rw [moment_third s k h.lt] at hm
      obtain ⟨h₄, hforest⟩ := ih hm
      obtain ⟨h₅, hmr⟩ := (h₄.exit { k with marks := (enter k s).1 }).walk rest
      simp only [after_node, marked_node, hmr]
      rw [← length_nodes_marked (enter k s).2 a, ← length_nodes_marked ((enter k s).2.after a) b]
      exact ⟨h₅, .third hforest⟩
  | @rest i k a b c rest rest' h ih =>
      rw [moment_rest s k] at hm
      obtain ⟨h₅, hforest⟩ := ih hm
      simp only [after_node, marked_node]
      rw [← length_nodes_marked (enter k s).2 a, ← length_nodes_marked ((enter k s).2.after a) b,
        ← length_nodes_marked (((enter k s).2.after a).after b) c]
      exact ⟨h₅, .rest hforest⟩

end Scoping

/-! ## Typing without a declaration -/

namespace Forest

theorem head?_eq_head?_labels (f : Forest) : f.head? = f.labels.head? := by
  cases f <;> rfl

theorem isEmpty_eq_isEmpty_labels (f : Forest) : f.isEmpty = f.labels.isEmpty := by
  cases f <;> rfl

end Forest

namespace Typing

variable (poisonFailed : Bool) (table : Table)

theorem length_nodes_typed (f : Forest) :
    (typed poisonFailed table f).nodes.length = f.nodes.length := by
  rw [← Forest.length_nodes_bare, bare_typed, Forest.length_nodes_bare]

/-- Nothing is said about a declaration of a variable or a parameter. -/
theorem judge_of_object {t : Tree}
    (hk : t.label.kind.isObject = true ∨ t.label.kind.isParam = true) :
    judge poisonFailed table t = {} := by
  unfold judge
  cases hl : t.label.kind <;> simp_all [Kind.isObject, Kind.isParam]

/-- A rule reads the labels of the chains in the first two slots, and this only for
statements and expressions. -/
theorem judge_congr {l : Label} {a a' b b' c c' : Forest}
    (h : l.kind.isPlain = true → a'.labels = a.labels ∧ b'.labels = b.labels) :
    judge poisonFailed table ⟨l, a', b', c'⟩ = judge poisonFailed table ⟨l, a, b, c⟩ := by
  by_cases hplain : l.kind.isPlain = true
  · obtain ⟨ha, hb⟩ := h hplain
    simp only [judge, judgeOp, judgeVar, judgeAssign, judgeCall, judgeReturnValue,
      judgeReturnVoid, Forest.ty?, Forest.head?_eq_head?_labels,
      Forest.isEmpty_eq_isEmpty_labels, ha, hb]
  · cases hl : l.kind <;> simp_all [judge, Kind.isPlain]

/-- What typing a chain and typing the chain without a declaration have in common: the
node is missing from the finished chain and nothing else is different.  Where no
declaration may stand, the finished chain itself has the same labels. -/
structure Keeps (d : Label) (i : Nat) (r : Role) (f g : Forest) : Prop where
  forest : (typed poisonFailed table f).Omits (withTy d none) i (typed poisonFailed table g)
  complaints_eq : complaints poisonFailed table (typed poisonFailed table g) =
    complaints poisonFailed table (typed poisonFailed table f)
  labels_eq : r.isInner = true →
    (typed poisonFailed table g).labels = (typed poisonFailed table f).labels

/-- A declaration that is left out changes no verdict. -/
theorem keeps_of_omits {d : Label} {i : Nat} {f g : Forest} (h : f.Omits d i g)
    (hd : d.kind.isObject = true ∨ d.kind.isParam = true) {r : Role} (hf : f.fits r = true) :
    Keeps poisonFailed table d i r f g := by
  have hlength := length_nodes_typed poisonFailed table
  -- a rule that reads a slot is for a node below which no declaration may stand
  induction h generalizing r with
  | @here rest =>
      have htyped : typed poisonFailed table (.node d .nil .nil .nil rest) =
          .node (withTy d none) .nil .nil .nil (typed poisonFailed table rest) := by
        rw [typed, judge_of_object poisonFailed table hd]
        rfl
      constructor
      · rw [htyped]
        exact .here
      · rw [htyped, complaints_node, judge_withTy, judge_of_object poisonFailed table hd]
        rfl
      · intro hr
        rcases Forest.admits_of_isInner hr (Forest.fits_node.mp hf).1 with hk | hk
        · simp [hk, Kind.isObject, Kind.isParam] at hd
        · cases hl : d.kind <;> simp_all [Kind.isObject, Kind.isParam, Kind.isPlain]
  | @first i l a a' b c rest h ih =>
      obtain ⟨hforest, hcomplaints, hlabels⟩ := ih (Forest.fits_node.mp hf).2.1
      have hjudge : judge poisonFailed table ⟨l, typed poisonFailed table a',
          typed poisonFailed table b, typed poisonFailed table c⟩ =
            judge poisonFailed table ⟨l, typed poisonFailed table a,
              typed poisonFailed table b, typed poisonFailed table c⟩ :=
        judge_congr _ _ fun hk => ⟨hlabels (Forest.isInner_role_of_isPlain hk .first), rfl⟩
      constructor
      · rw [typed, typed, hjudge]
        exact .first hforest
      · simp only [typed, complaints_node, judge_withTy, hjudge, hcomplaints]
      · intro _
        simp only [typed, Forest.labels, hjudge]
  | @second i l a b b' c rest h ih =>
      obtain ⟨hforest, hcomplaints, hlabels⟩ := ih (Forest.fits_node.mp hf).2.2.1
      have hjudge : judge poisonFailed table ⟨l, typed poisonFailed table a,
          typed poisonFailed table b', typed poisonFailed table c⟩ =
            judge poisonFailed table ⟨l, typed poisonFailed table a,
              typed poisonFailed table b, typed poisonFailed table c⟩ :=
        judge_congr _ _ fun hk => ⟨rfl, hlabels (Forest.isInner_role_of_isPlain hk .second)⟩
      constructor
      · rw [typed, typed, hjudge, ← hlength a]
        exact .second hforest
      · simp only [typed, complaints_node, judge_withTy, hjudge, hcomplaints]
      · intro _
        simp only [typed, Forest.labels, hjudge]
  | @third i l a b c c' rest h ih =>
      obtain ⟨hforest, hcomplaints, _⟩ := ih (Forest.fits_node.mp hf).2.2.2.1
      have hjudge : judge poisonFailed table ⟨l, typed poisonFailed table a,
          typed poisonFailed table b, typed poisonFailed table c'⟩ =
            judge poisonFailed table ⟨l, typed poisonFailed table a,
              typed poisonFailed table b, typed poisonFailed table c⟩ :=
        judge_congr _ _ fun _ => ⟨rfl, rfl⟩
      constructor
      · rw [typed, typed, hjudge, ← hlength a, ← hlength b]
        exact .third hforest
      · simp only [typed, complaints_node, judge_withTy, hjudge, hcomplaints]
      · intro _
        simp only [typed, Forest.labels, hjudge]
  | @rest i l a b c rest rest' h ih =>
      obtain ⟨hforest, hcomplaints, hlabels⟩ := ih (Forest.fits_node.mp hf).2.2.2.2
      constructor
      · rw [typed, typed, ← hlength a, ← hlength b, ← hlength c]
        exact .rest hforest
      · simp only [typed, complaints_node, hcomplaints]
      · intro hr
        simp only [typed, Forest.labels, hlabels (Forest.isInner_after hr)]

end Typing

/-- A report can be read off the log. -/
theorem Log.eq_some_of_report? {log : Log} {d : Diagnostic} {d? : Option Diagnostic}
    (h : log.report? d? = log.report d) : d? = some d := by
  have hentries := congrArg (fun log : Log => log.entries.toList) h
  simp only [toList_report?, toList_report, List.append_cancel_left_eq] at hentries
  cases d? with
  | none => cases hentries
  | some d' => exact congrArg some (List.head_eq_of_cons_eq hentries)

/-- The variable or parameter that a program declares at a moment can be left out. -/
theorem Scoping.omits_of_moment {f : Forest} (hf : f.IsProgram) {s : Scoping} {i : Nat}
    {m : Moment Scoping} (hm : (s.moments f)[i]? = some m)
    (hk : m.label.kind.isObject = true ∨ m.label.kind.isParam = true) :
    f.Omits m.label i (f.eraseIdx i) := by
  have hlabel : f.preorder[i]? = some m.label := by
    rw [← Forest.labels_moments enter leave f s, List.getElem?_map]
    exact congrArg (Option.map (·.label)) hm
  rw [Forest.preorder, List.getElem?_map] at hlabel
  obtain ⟨n, hn, hself⟩ := Option.map_eq_some_iff.mp hlabel
  rw [← hself] at hk
  have hleaf := Forest.eq_leaf_of_fits hf (List.mem_of_getElem? hn) hk
  rw [hleaf, hself] at hn
  obtain ⟨g, hg⟩ := Forest.exists_omits hn
  rwa [← hg.eq_eraseIdx]

open Scoping Typing in
/-- A variable or a parameter whose name is taken has no effect but the report.  If the
first pass reports the node in the `i`-th place of a program as a redefinition, then
the program without this node is analysed to the same table, to the same finished tree
without the node, and to the same diagnostics without the one that is reported when
the node is entered. -/
theorem analyze_erase_redefinition (config : Config) {f : Forest} (hf : f.IsProgram) {i : Nat}
    {m : Moment Scoping} (hm : (start.moments f)[i]? = some m)
    (hk : m.label.kind.isObject = true ∨ m.label.kind.isParam = true) {name : String}
    {line : UInt32}
    (hreport : (enter m.label m.state).2.log = m.state.log.report (.redefinition name line)) :
    ∃ a b, analyze config f = .ok a ∧ analyze config (f.eraseIdx i) = .ok b ∧
      b.table = a.table ∧
      b.forest = a.forest.eraseIdx i ∧ b.forest.preorder = a.forest.preorder.eraseIdx i ∧
      a.log.entries.toList[m.state.log.entries.size]? = some (.redefinition name line) ∧
      b.log.entries.toList = a.log.entries.toList.eraseIdx m.state.log.entries.size := by
  obtain ⟨log, hanalyze, hlog⟩ := analyze_total config f
  obtain ⟨log', hanalyze', hlog'⟩ := analyze_total config (f.eraseIdx i)
  have hcomplaint : m.state.complaint m.label = some (.redefinition name line) := by
    rw [log_enter] at hreport
    exact Log.eq_some_of_report? hreport
  have hopens : m.label.kind.opens = false := by
    cases hl : m.label.kind <;> simp_all [Kind.isObject, Kind.isParam, Kind.opens,
      Kind.isFunction]
  obtain ⟨⟨⟨_, hsame⟩, later, hreported, hreported'⟩, hmarked⟩ :=
    ahead_of_omits (omits_of_moment hf hm hk) hm hopens (ahead_of_redefinition hk hcomplaint)
  have htable : finalTable (f.eraseIdx i) = finalTable f := by
    rw [finalTable, hsame, finalTable]
  have hfits : (start.marked f).fits .program = true := by
    rw [← Forest.fits_bare, bare_marked, Forest.fits_bare]
    exact hf
  obtain ⟨htyped, hcomplaints, _⟩ :=
    keeps_of_omits config.poisonFailed (finalTable f) hmarked hk hfits
  have hreports : ∀ f, start.reports f = (start.after f).log.entries.toList :=
    fun f => (log_after start f).symm
  rw [hreports, hreported, List.append_assoc, List.cons_append] at hlog
  rw [htable] at hanalyze' hlog'
  rw [hreports, hreported', hcomplaints, List.append_assoc] at hlog'
  refine ⟨_, _, hanalyze, hanalyze', rfl, htyped.eq_eraseIdx, htyped.preorder_eq, ?_, ?_⟩
  · show log.entries.toList[m.state.log.entries.size]? = _
    rw [hlog, ← Array.length_toList, List.getElem?_append_right (Nat.le_refl _), Nat.sub_self]
    rfl
  · show log'.entries.toList = log.entries.toList.eraseIdx m.state.log.entries.size
    rw [hlog, hlog', ← Array.length_toList, List.eraseIdx_append_of_length_le (Nat.le_refl _),
      Nat.sub_self, List.eraseIdx_cons_zero]

/-- A variable, a parameter and a local variable, each of them declared a second time
with another type. -/
def twiceProgram : Forest := .ofTrees [
  .varDecl "x" .int 1,
  .arrayDecl "x" .void 3 2,
  .funDecl "f" .int [.param "a" .int 3, .arrayParam "a" .void 4]
    (.compound [.varDecl "b" .int 5, .varDecl "b" .void 6] [
      .assign (.var "b" 7) (.call "f" [.var "a" 7] 7) 7,
      .returnValue (.op .add (.var "b" 8) (.var "x" 8) 8) 8] 4) 3]

open Scoping in
theorem analyze_erase_redefinition_twiceProgram :
    twiceProgram.IsProgram ∧
      ∃ m, (start.moments twiceProgram)[4]? = some m ∧
        m.label.kind = .arrayParam "a" .void ∧
        (enter m.label m.state).2.log = m.state.log.report (.redefinition "a" 4) ∧
        ∃ a b, analyze {} twiceProgram = .ok a ∧
          analyze {} (twiceProgram.eraseIdx 4) = .ok b ∧
          b.table = a.table ∧
          b.forest = a.forest.eraseIdx 4 ∧ b.forest.preorder = a.forest.preorder.eraseIdx 4 ∧
          a.log.entries.toList[m.state.log.entries.size]? = some (.redefinition "a" 4) ∧
          b.log.entries.toList = a.log.entries.toList.eraseIdx m.state.log.entries.size := by
  have hprogram : twiceProgram.IsProgram := by decide
  have hfourth : ((start.moments twiceProgram)[4]?.any fun m =>
      m.label.kind = .arrayParam "a" .void ∧
        (enter m.label m.state).2.log = m.state.log.report (.redefinition "a" 4)) = true := by
    decide +kernel
  obtain ⟨m, hm, htaken⟩ := (Option.any_eq_true _ _).mp hfourth
  obtain ⟨hkind, hreport⟩ := of_decide_eq_true htaken
  exact ⟨hprogram, m, hm, hkind, hreport,
    analyze_erase_redefinition {} hprogram hm (.inr (by rw [hkind]; rfl)) hreport⟩

end CMinus
