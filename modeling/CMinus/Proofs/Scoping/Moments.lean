import CMinus.Proofs.Scoping.Program

/-!
# The moments of scoping

The first pass, read as the list of its moments: each node with the state in
which it is entered.  There is one equation per case of a program's shape, in
the states that `after_block` and `after_function` name.

The log is a first use of the list.  Every moment makes at most one report, and
the log of a walk is the log from before with these reports behind it
(`Scoping.log_after`).
-/

namespace CMinus

namespace Scoping

/-- The moments of the first pass. -/
def moments (s : Scoping) (f : Forest) : List (Moment Scoping) := f.moments enter leave s

theorem moments_node (s : Scoping) (l : Label) (a b c rest : Forest) :
    s.moments (.node l a b c rest) =
      ⟨l, s⟩ :: ((enter l s).2.moments a ++ ((enter l s).2.after a).moments b ++
        (((enter l s).2.after a).after b).moments c ++
        (exit { l with marks := (enter l s).1 }
          ((((enter l s).2.after a).after b).after c)).moments rest) := by
  simp only [moments, Forest.moments, after, visitor, leave_eq]

theorem moments_plain {l : Label} (hc : l.kind ≠ .compound) (hf : l.kind.isFunction = false)
    (s : Scoping) (a b c rest : Forest) :
    s.moments (.node l a b c rest) =
      ⟨l, s⟩ :: ((enter l s).2.moments a ++ ((enter l s).2.after a).moments b ++
        (((enter l s).2.after a).after b).moments c ++
        ((((enter l s).2.after a).after b).after c).moments rest) := by
  rw [moments_node, exit_of_plain (l := { l with marks := (enter l s).1 }) hc hf]

theorem moments_block {l : Label} (hk : l.kind = .compound) {fn : String} {here : ScopeId}
    {s : Scoping} (hs : Inside fn here s) (locals stmts rest : Forest) :
    s.moments (.node l locals stmts .nil rest) =
      ⟨l, s⟩ :: (s.opened.moments locals ++ (s.furnished locals).moments stmts ++
        ((s.furnished locals).after stmts).closed.moments rest) := by
  rw [moments_node, enter_of_compound hk hs]
  show _ :: (_ ++ _ ++ [] ++ (exit (l.inScope s.table.scopes.size) _).moments rest) = _
  rw [exit_of_compound (l := l.inScope _) hk, List.append_nil]
  rfl

theorem moments_function {s : Scoping} {l block : Label} {name : String} {spec : Spec}
    {params locals stmts : Forest} (hk : l.kind = .funDecl name spec) (hs : Outside s)
    (hp : params.Leaves Kind.isParam) (hblock : block.kind = .compound)
    (hl : locals.Leaves Kind.isObject) (hstmts : stmts.Inner) (rest : Forest) :
    s.moments (.node l params (.node block locals stmts .nil .nil) .nil rest) =
      ⟨l, s⟩ :: ((s.declared name spec l.line).moments params ++
        (⟨block, (enter l s).2.after params⟩ :: ((s.headed l params).moments locals ++
          (s.equipped l params locals).moments stmts)) ++
        (s.finished l params locals stmts).moments rest) := by
  rw [moments_node, moments_node, after_node, enter_body hk hs hp hblock,
    ← exit_body hk hs hp hl hstmts hblock, enter_of_function hk hs]
  simp only [moments, Forest.moments_nil, List.append_nil]
  rfl

/-- The label of a moment is one of the tree. -/
theorem label_mem_of_mem_moments {s : Scoping} {f : Forest} {m : Moment Scoping}
    (hm : m ∈ s.moments f) : m.label ∈ f.preorder := by
  rw [← Forest.labels_moments enter leave f s]
  exact List.mem_map_of_mem hm

/-- What a walk reports, in the order of the walk. -/
def reports (s : Scoping) (f : Forest) : List Diagnostic :=
  (s.moments f).filterMap fun m => m.state.complaint m.label

@[simp] theorem reports_nil (s : Scoping) : s.reports .nil = [] := rfl

private theorem filterMap_moments_cons (m : Moment Scoping) (ms : List (Moment Scoping)) :
    (m :: ms).filterMap (fun m => m.state.complaint m.label) =
      (m.state.complaint m.label).toList ++
        ms.filterMap fun m => m.state.complaint m.label := by
  rw [List.filterMap_cons]
  cases m.state.complaint m.label <;> rfl

theorem reports_node (s : Scoping) (l : Label) (a b c rest : Forest) :
    s.reports (.node l a b c rest) =
      (s.complaint l).toList ++ ((enter l s).2.reports a ++ ((enter l s).2.after a).reports b ++
        (((enter l s).2.after a).after b).reports c ++
        (exit { l with marks := (enter l s).1 }
          ((((enter l s).2.after a).after b).after c)).reports rest) := by
  simp only [reports, moments_node, filterMap_moments_cons, List.filterMap_append]

/-- The log of a walk holds what was there before and then its reports. -/
theorem log_after (s : Scoping) (f : Forest) :
    (s.after f).log.entries.toList = s.log.entries.toList ++ s.reports f := by
  have hfollows : Forest.Follows (fun s : Scoping => s.log.entries.toList)
      (fun ds m => ds ++ (m.state.complaint m.label).toList) s.log.entries.toList (s.moments f)
      (s.after f).log.entries.toList := by
    apply Forest.follows_walk enter leave
    · intro t s
      rw [log_leave]
    · intro m _
      rw [log_enter, Log.toList_report?]
  exact hfollows.eq_append

/-- The first pass reports on declarations only. -/
theorem isDeclaration_of_mem_reports {s : Scoping} {f : Forest} {d : Diagnostic}
    (hd : d ∈ s.reports f) : d.isDeclaration = true := by
  obtain ⟨m, _, hcomplaint⟩ := List.mem_filterMap.mp hd
  exact isDeclaration_of_complaint hcomplaint

/-- A node that is neither a block nor a function. -/
theorem reports_plain {l : Label} (hc : l.kind ≠ .compound) (hf : l.kind.isFunction = false)
    (s : Scoping) (a b c rest : Forest) :
    s.reports (.node l a b c rest) =
      (s.complaint l).toList ++ ((enter l s).2.reports a ++ ((enter l s).2.after a).reports b ++
        (((enter l s).2.after a).after b).reports c ++
        ((((enter l s).2.after a).after b).after c).reports rest) := by
  rw [reports_node, exit_of_plain (l := { l with marks := (enter l s).1 }) hc hf]

/-- A kind that declares nothing is not reported. -/
theorem complaint_eq_none {l : Label} (ho : l.kind.object? = none)
    (hf : l.kind.isFunction = false) (s : Scoping) : s.complaint l = none := by
  unfold complaint
  cases s.table.top? with
  | none => rfl
  | some here => cases hl : l.kind <;> simp_all [Kind.isFunction, Kind.object?]

/-- A nested block is reported for its declarations and statements only. -/
theorem reports_block {l : Label} (hk : l.kind = .compound) {fn : String} {here : ScopeId}
    {s : Scoping} (hs : Inside fn here s) (locals stmts rest : Forest) :
    s.reports (.node l locals stmts .nil rest) =
      s.opened.reports locals ++ (s.furnished locals).reports stmts ++
        ((s.furnished locals).after stmts).closed.reports rest := by
  have hself : s.complaint l = none :=
    complaint_eq_none (by rw [hk]; rfl) (by rw [hk]; rfl) s
  simp only [reports, moments_block hk hs, filterMap_moments_cons, List.filterMap_append, hself]
  rfl

/-- A function is reported for its name and for what is inside it. -/
theorem reports_function {s : Scoping} {l block : Label} {name : String} {spec : Spec}
    {params locals stmts : Forest} (hk : l.kind = .funDecl name spec) (hs : Outside s)
    (hp : params.Leaves Kind.isParam) (hblock : block.kind = .compound)
    (hl : locals.Leaves Kind.isObject) (hstmts : stmts.Inner) (rest : Forest) :
    s.reports (.node l params (.node block locals stmts .nil .nil) .nil rest) =
      (functionComplaint s.table 0 name l.line).toList ++
        ((s.declared name spec l.line).reports params ++
          ((s.headed l params).reports locals ++ (s.equipped l params locals).reports stmts) ++
          (s.finished l params locals stmts).reports rest) := by
  have hself : s.complaint l = functionComplaint s.table 0 name l.line := by
    simp only [complaint, hs.top, hk, Option.bind_some]
  have hbody : ((enter l s).2.after params).complaint block = none :=
    complaint_eq_none (by rw [hblock]; rfl) (by rw [hblock]; rfl) _
  simp only [reports, moments_function hk hs hp hblock hl hstmts, filterMap_moments_cons,
    List.filterMap_append, hself, hbody]
  rfl

end Scoping

end CMinus
