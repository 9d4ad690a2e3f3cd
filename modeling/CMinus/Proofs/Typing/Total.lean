import CMinus.Proofs.Scoping.Balance
import CMinus.Proofs.Scoping.Resolution

/-!
# Every tree is analysed to the end

The second pass refuses a tree that is marked with a scope the table lacks.  The
marks it gets to see come from the first pass, whatever was on the tree before:
a scope is open whenever a node is entered, so every old mark is overwritten,
and the scope written there is one of the table and stays one.  Hence the pass
never refuses (`analyze_eq_run`), for trees of every shape, and its diagnostics
are those of the two passes in turn (`analyze_total`).

What every change of a table keeps holds of the finished table of any tree too
(`Scoping.invariant_after`).

On the tree that is left behind, every node carries the type that its rule
gives it from the finished children (`Typing.ty_of_mem_nodes`), so what the
rules say about one node can be read off the finished tree.
-/

namespace CMinus

namespace Scoping

/-! ## The finished table of any tree -/

theorem evolves_after (s : Scoping) (f : Forest) : Evolves s (s.after f) :=
  (Forest.walk_related enter leave Evolves.refl Evolves.trans evolves_enter evolves_leave f s).1

theorem valid_after {s : Scoping} (hv : s.table.Valid) (f : Forest) :
    (s.after f).table.Valid :=
  (evolves_after s f hv).1

theorem later_after {s : Scoping} (hv : s.table.Valid) (f : Forest) :
    Later s.table (s.after f).table :=
  (evolves_after s f hv).2.1

theorem valid_end (f : Forest) : (finalTable f).Valid :=
  (valid_after outside_start.valid f).discard

/-- What every change of a valid table keeps, and closing a scope too, holds at the
end of a walk if it holds at its start. -/
theorem invariant_after {P : Table → Prop}
    (hchange : ∀ {here : ScopeId} {l : Label} {t t' : Table}, t.Valid → t.top? = some here →
      Change here l t t' → P t → P t')
    (hpop : ∀ {t : Table}, t.Valid → P t → P t.pop) {s : Scoping} (hv : s.table.Valid)
    (hs : P s.table) (f : Forest) : P (s.after f).table := by
  have hwalk : s.table.Valid ∧ P s.table → (s.after f).table.Valid ∧ P (s.after f).table :=
    (Forest.walk_related
      (R := fun s s' => s.table.Valid ∧ P s.table → s'.table.Valid ∧ P s'.table) enter leave
      (fun _ h => h) (fun h h' hs => h' (h hs)) ?_ ?_ f s).1
  · exact (hwalk ⟨hv, hs⟩).2
  · rintro l s ⟨hv, hs⟩
    refine ⟨(entered_enter l s hv).valid, ?_⟩
    cases htop : s.table.top? with
    | none => simpa only [enter, htop] using hs
    | some here => exact hchange hv htop (change_enter l htop) hs
  · rintro t s ⟨hv, hs⟩
    rw [leave_eq]
    rcases table_exit t.label s with h | h
    · rw [h]
      exact ⟨hv, hs⟩
    · rw [h]
      exact ⟨hv.pop, hpop hv hs⟩

/-- Every mark that a walk leaves behind is a scope of the table at its end. -/
theorem exists_scope_lt {s : Scoping} (hv : s.table.Valid) (hroom : Room s) {f : Forest}
    {l : Label} (hl : l ∈ (s.marked f).preorder) :
    ∃ id, l.marks.scope = some id ∧ id < (s.after f).table.scopes.size := by
  obtain ⟨m, hm, rfl⟩ := exists_moment_of_mem_marked hl
  obtain ⟨id, hid, htop⟩ := exists_scope_enter (room_moment hroom hm) m.label
  have hvalid := (entered_enter m.label m.state (valid_moment hv hm)).valid
  exact ⟨id, hid, Nat.lt_of_lt_of_le (lt_of_top? hvalid htop) (later_end hv hm).scopes_le⟩

theorem knownTo_marked (f : Forest) : (start.marked f).KnownTo (finalTable f) := by
  intro l hl id hid
  obtain ⟨scope, hscope, hlt⟩ := exists_scope_lt outside_start.valid room_start hl
  rw [hscope] at hid
  exact Option.some.inj hid ▸ hlt

end Scoping

namespace Typing

variable (poisonFailed : Bool) (table : Table)

/-- A node of the finished tree has the type that its rule gives it. -/
theorem ty_of_mem_nodes {f : Forest} {n : Tree} (hn : n ∈ (typed poisonFailed table f).nodes) :
    n.label.marks.ty = (judge poisonFailed table n).ty := by
  induction f with
  | nil => simp [typed, Forest.nodes] at hn
  | node l a b c rest iha ihb ihc ihr =>
      simp only [typed, Forest.nodes, List.mem_cons, List.mem_append] at hn
      rcases hn with rfl | ((hn | hn) | hn) | hn
      · rw [judge_withTy]
        rfl
      · exact iha hn
      · exact ihb hn
      · exact ihc hn
      · exact ihr hn

/-- A node of the finished tree has the scope that the first pass gave it. -/
theorem exists_site_of_mem_nodes {f : Forest} {n : Tree}
    (hn : n ∈ (typed poisonFailed table f).nodes) :
    ∃ l ∈ f.preorder, n.label.site = l.site := by
  have hsite : n.label.site ∈ (typed poisonFailed table f).preorder.map Label.site :=
    List.mem_map_of_mem (List.mem_map_of_mem hn)
  rw [sites_typed] at hsite
  obtain ⟨l, hl, heq⟩ := List.mem_map.mp hsite
  exact ⟨l, hl, heq.symm⟩

end Typing

open Scoping Typing in
/-- A tree of any shape is analysed to the end, by the one pass and then the
other. -/
theorem analyze_eq_run (config : Config) (f : Forest) :
    analyze config f =
      .ok { config, table := finalTable f
            log := (run config.poisonFailed (finalTable f) (start.after f).log
              (start.marked f)).2
            forest := typed config.poisonFailed (finalTable f) (start.marked f) } := by
  simp only [analyze, build_start, bind, Except.bind]
  rw [Session.check_eq rfl (knownTo_marked f)]
  rfl

open Scoping Typing in
/-- The table is that of the first pass, and the log has its reports and then the
complaints of the second. -/
theorem analyze_total (config : Config) (f : Forest) :
    let tree := typed config.poisonFailed (finalTable f) (start.marked f)
    ∃ log, analyze config f = .ok { config, table := finalTable f, log, forest := tree } ∧
      log.entries.toList =
        start.reports f ++ complaints config.poisonFailed (finalTable f) tree := by
  intro tree
  have hlog := run_snd config.poisonFailed (finalTable f) (start.after f).log (start.marked f)
  rw [log_after] at hlog
  exact ⟨_, analyze_eq_run config f, hlog⟩

end CMinus
