import CMinus.Proofs.Typing.Total

/-!
# Marks from an earlier analysis

A tree may arrive with marks on it: scopes of a table that is gone, types that an
earlier analysis gave.  Both passes work in place, so such a mark would count if
a pass read it before writing it.

The first pass reads one mark, the scope of a function that is being left, and
that scope was written when the function was entered.  Some scope is open then,
whatever the shape of the tree, so no old scope survives the pass; old types do
(`Scoping.marked_bare`).  The second pass reads the types of the children of a
node and writes the type of the node itself, and it goes from the leaves upwards,
so all types that it reads are its own (`Typing.typed_untyped`).

Hence an analysis sees nothing but what the parser wrote (`analyze_bare`).
-/

namespace CMinus

namespace Forest

/-- The forest without its types. -/
def untyped : Forest → Forest
  | nil => nil
  | node l a b c rest =>
    node (Typing.withTy l none) a.untyped b.untyped c.untyped rest.untyped

end Forest

namespace Scoping

/-! ## The first pass -/

/-- With a scope open, entering a node reads its kind and its line. -/
theorem enter_bare {s : Scoping} (hroom : Room s) (l : Label) :
    enter l.bare s = ({ scope := (enter l s).1.scope }, (enter l s).2) := by
  obtain ⟨here, htop⟩ := hroom.exists_top
  rw [enter_eq l.bare htop, enter_eq l htop]
  rfl

/-- Leaving a node reads its kind and its scope. -/
theorem exit_withTy (l : Label) (ty : Option Ty) (s : Scoping) :
    exit (Typing.withTy l ty) s = exit l s := by
  unfold exit leave
  cases hl : l.kind <;> simp [Typing.withTy, hl]

/-- A walk that has room does to the bare tree what it does to the tree, and
leaves the same scopes behind. -/
theorem walk_bare (f : Forest) {s : Scoping} (hroom : Room s) :
    s.after f.bare = s.after f ∧ s.marked f.bare = (s.marked f).untyped := by
  induction f generalizing s with
  | nil => exact ⟨rfl, rfl⟩
  | node l a b c rest iha ihb ihc ihr =>
      have h₁ := hroom.enter l
      have h₂ := h₁.after a
      have h₃ := h₂.after b
      have hlabel : { l.bare with marks := { scope := (enter l s).1.scope } } =
          Typing.withTy { l with marks := (enter l s).1 } none := rfl
      obtain ⟨hr, hmr⟩ := ihr (hroom.sibling l a b c)
      obtain ⟨ha, hma⟩ := iha h₁
      obtain ⟨hb, hmb⟩ := ihb h₂
      obtain ⟨hc, hmc⟩ := ihc h₃
      constructor
      · rw [Forest.bare, after_node, after_node, enter_bare hroom, hlabel, exit_withTy]
        simp only [ha, hb, hc, hr]
      · rw [Forest.bare, marked_node, marked_node, enter_bare hroom, hlabel]
        simp only [exit_withTy, ha, hb, hc, hma, hmb, hmc, hmr, Forest.untyped]

theorem after_bare (f : Forest) : start.after f.bare = start.after f :=
  (walk_bare f room_start).1

/-- No scope of an earlier analysis survives the first pass. -/
theorem marked_bare (f : Forest) : start.marked f.bare = (start.marked f).untyped :=
  (walk_bare f room_start).2

end Scoping

namespace Typing

/-! ## The second pass -/

/-- Every type that the second pass reads is one that it has written. -/
theorem typed_untyped (poisonFailed : Bool) (table : Table) (f : Forest) :
    typed poisonFailed table f.untyped = typed poisonFailed table f := by
  induction f with
  | nil => rfl
  | node l a b c rest iha ihb ihc ihr =>
      rw [Forest.untyped, typed, typed, iha, ihb, ihc, ihr, judge_withTy]
      rfl

/-- Hence its reports are the same, too. -/
theorem run_untyped (poisonFailed : Bool) (table : Table) (log : Log) (f : Forest) :
    run poisonFailed table log f.untyped = run poisonFailed table log f := by
  have hforest : (run poisonFailed table log f.untyped).1 = (run poisonFailed table log f).1 := by
    rw [run_fst, run_fst, typed_untyped]
  have hentries : (run poisonFailed table log f.untyped).2.entries.toList =
      (run poisonFailed table log f).2.entries.toList := by
    rw [run_snd, run_snd, typed_untyped]
  exact Prod.ext hforest (congrArg Log.mk (Array.toList_inj.mp hentries))

end Typing

open Scoping Typing in
/-- An analysis sees what the parser wrote. -/
theorem analyze_bare (config : Config) (f : Forest) :
    analyze config f.bare = analyze config f := by
  have htable : finalTable f.bare = finalTable f := by
    rw [finalTable, finalTable, after_bare]
  rw [analyze_eq_run, analyze_eq_run, htable, after_bare, marked_bare, run_untyped,
    typed_untyped]

open Scoping Typing in
/-- Marks that a tree arrives with do not count.  Two trees of any shape that
differ in their marks only are analysed to one result: the same table, the same
diagnostics, the same finished tree.  In particular the finished tree is analysed
to itself, with the same table and the same diagnostics again. -/
theorem analyze_ignores_marks (config : Config) {f g : Forest} (h : f.bare = g.bare) :
    ∃ a, analyze config f = .ok a ∧ analyze config g = .ok a ∧
      analyze config a.forest = .ok a := by
  have hf := analyze_eq_run config f
  refine ⟨_, hf, ?_, ?_⟩
  · rw [← analyze_bare, ← h, analyze_bare, hf]
  · rw [← analyze_bare, bare_typed_marked, analyze_bare, hf]

/-- A function that redefines a variable, with types that it cannot have and
scopes that no table has. -/
def staleProgram : Forest := .ofTrees [
  { label := ⟨.varDecl "f" .int, 1, { ty := some .poison, scope := some 9 }⟩ },
  { label := ⟨.funDecl "f" .int, 2, { ty := some .void, scope := some 7 }⟩
    second := .ofTrees [
      { label := ⟨.compound, 2, { scope := some 4 }⟩
        second := .ofTrees [
          { label := ⟨.returnValue, 3, { ty := some .int }⟩
            first := .ofTrees [
              { label := ⟨.op .add, 3, { ty := some .poison, scope := some 8 }⟩
                first := .ofTrees [
                  { label := ⟨.var "f", 3, { ty := some .intArray, scope := some 1 }⟩ }]
                second := .ofTrees [
                  { label := ⟨.call "input", 3, { ty := none, scope := some 0 }⟩ }] }] }] }] }]

theorem analyze_ignores_marks_staleProgram :
    staleProgram ≠ staleProgram.bare ∧ staleProgram.bare = staleProgram.bare.bare ∧
      ∃ a, analyze {} staleProgram = .ok a ∧ analyze {} staleProgram.bare = .ok a ∧
        analyze {} a.forest = .ok a :=
  have hbare : staleProgram.bare = staleProgram.bare.bare := by decide
  ⟨by decide, hbare, analyze_ignores_marks {} hbare⟩

end CMinus
