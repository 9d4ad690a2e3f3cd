import CMinus.Analysis
import CMinus.Proofs.Scoping.Lexical
import CMinus.Proofs.Scoping.Moments

/-!
# The verdicts of a program

The second pass threads a log through a walk, but no rule reads the log.  What
it does is therefore a function of the tree: `Typing.typed` is the tree it
leaves behind (`Typing.run_fst`), and the diagnostics it adds are the complaints
of the rules about the nodes of that tree, in postorder (`Typing.run_snd`).  A
node of the finished tree carries all that its rule has looked at, so its verdict
can be read off later as well as during the walk.

The pass refuses a tree whose marks the table does not know.  Lexical marks are
all known, so a program is always analysed to the end (`analyze_eq`).
-/

namespace CMinus

/-- What a label says apart from a type. -/
def Label.site (l : Label) : Kind × UInt32 × Option ScopeId := (l.kind, l.line, l.marks.scope)

namespace Typing

variable (poisonFailed : Bool) (table : Table)

/-- A label with the type of a verdict. -/
def withTy (l : Label) (ty : Option Ty) : Label := { l with marks := { l.marks with ty } }

@[simp] theorem site_withTy (l : Label) (ty : Option Ty) : (withTy l ty).site = l.site := rfl

/-- The tree as the second pass leaves it behind. -/
def typed : Forest → Forest
  | .nil => .nil
  | .node l a b c rest =>
    .node (withTy l (judge poisonFailed table ⟨l, typed a, typed b, typed c⟩).ty)
      (typed a) (typed b) (typed c) (typed rest)

/-- The complaints of the rules about the nodes of a typed tree. -/
def complaints (f : Forest) : List Diagnostic :=
  f.postorder.filterMap fun t => (judge poisonFailed table t).complaint

/-- A rule does not read the type that its own node has. -/
theorem judge_withTy (l : Label) (ty : Option Ty) (a b c : Forest) :
    judge poisonFailed table ⟨withTy l ty, a, b, c⟩ = judge poisonFailed table ⟨l, a, b, c⟩ :=
  rfl

theorem complaints_nil : complaints poisonFailed table .nil = [] := rfl

theorem complaints_node (l : Label) (a b c rest : Forest) :
    complaints poisonFailed table (.node l a b c rest) =
      complaints poisonFailed table a ++ complaints poisonFailed table b ++
        complaints poisonFailed table c ++
        ((judge poisonFailed table ⟨l, a, b, c⟩).complaint.toList ++
          complaints poisonFailed table rest) := by
  simp only [complaints, Forest.postorder, List.filterMap_append, List.filterMap_cons]
  cases (judge poisonFailed table ⟨l, a, b, c⟩).complaint <;> rfl

/-- The second pass leaves the typed tree behind. -/
theorem run_fst (log : Log) (f : Forest) :
    (run poisonFailed table log f).1 = typed poisonFailed table f := by
  unfold run visitor
  induction f generalizing log with
  | nil => rfl
  | node l a b c rest iha ihb ihc ihr =>
      simp only [Forest.walk_marking_node, leave, typed, withTy, iha, ihb, ihc, ihr]

/-- The second pass reports the complaints about the typed tree, in postorder. -/
theorem run_snd (log : Log) (f : Forest) :
    (run poisonFailed table log f).2.entries.toList =
      log.entries.toList ++ complaints poisonFailed table (typed poisonFailed table f) := by
  have hfst := run_fst poisonFailed table
  unfold run visitor at hfst ⊢
  induction f generalizing log with
  | nil => simp [typed, complaints_nil]
  | node l a b c rest iha ihb ihc ihr =>
      rw [typed, complaints_node, judge_withTy]
      simp only [Forest.walk_marking_node, leave, hfst, ihr, Log.toList_report?, ihc, ihb, iha,
        List.append_assoc]

/-! ## What typing leaves alone -/

theorem sites_typed (f : Forest) :
    (typed poisonFailed table f).preorder.map Label.site = f.preorder.map Label.site := by
  induction f with
  | nil => rfl
  | node l a b c rest iha ihb ihc ihr =>
      simp only [typed, Forest.preorder_node, List.map_cons, List.map_append, site_withTy,
        iha, ihb, ihc, ihr]

theorem bare_typed (f : Forest) : (typed poisonFailed table f).bare = f.bare := by
  induction f with
  | nil => rfl
  | node l a b c rest iha ihb ihc ihr =>
      simp only [typed, Forest.bare, iha, ihb, ihc, ihr]
      rfl

/-- The two passes leave what the parser wrote alone. -/
theorem bare_typed_marked (f : Forest) :
    (typed poisonFailed table (Scoping.start.marked f)).bare = f.bare :=
  (bare_typed _ _ _).trans (Scoping.bare_marked Scoping.start f)

@[simp] theorem decls_typed (f : Forest) :
    (typed poisonFailed table f).decls = f.decls := by
  rw [← Forest.decls_bare, bare_typed, Forest.decls_bare]

theorem lexicalIn_typed {t : Table} {fn : String} {here : ScopeId} {f : Forest}
    (h : f.LexicalIn t fn here) : (typed poisonFailed table f).LexicalIn t fn here := by
  induction h with
  | nil => exact .nil
  | block hk hscope hheading hentry _ _ _ _ iha ihb ihc ihr =>
      exact .block hk hscope hheading (by simpa using hentry) iha ihb ihc ihr
  | plain hk hscope _ _ _ _ iha ihb ihc ihr =>
      exact .plain hk hscope iha ihb ihc ihr

/-- Typing leaves the scopes of a program alone. -/
theorem lexical_typed {t : Table} {f : Forest} (h : f.Lexical t) :
    (typed poisonFailed table f).Lexical t := by
  induction h with
  | nil => exact .nil
  | object hk hscope _ ih => exact .object hk hscope ih
  | function hk hblock hscope hsame hheading hentry hparams hlocals hstmts _ ih =>
      exact .function hk hblock hscope hsame hheading (by simpa using hentry)
        (lexicalIn_typed _ _ hparams) (lexicalIn_typed _ _ hlocals)
        (lexicalIn_typed _ _ hstmts) ih

/-- The scopes that typing consults are marks of the tree. -/
theorem mem_consulted {f : Forest} {id : ScopeId} (h : id ∈ consulted f) :
    ∃ l ∈ f.preorder, l.marks.scope = some id := by
  induction f with
  | nil => simp [consulted] at h
  | node l a b c rest iha ihb ihc ihr =>
      simp only [consulted, List.mem_append, Option.mem_toList] at h
      simp only [Forest.preorder_node, List.mem_cons, List.mem_append]
      have hself : consultedAt ⟨l, a, b, c⟩ = some id →
          l.marks.scope = some id ∨ ∃ l' ∈ a.preorder, l'.marks.scope = some id := by
        intro hat
        cases hk : l.kind <;> simp only [consultedAt, hk, reduceCtorEq] at hat
        case assign =>
          cases a with
          | nil => simp [Forest.head?] at hat
          | node l' => exact .inr ⟨l', by simp, by simpa [Forest.head?] using hat⟩
        all_goals exact .inl hat
      rcases h with (((h | h) | h) | h) | h
      · rcases hself h with h | ⟨l', hl', h⟩
        · exact ⟨l, .inl rfl, h⟩
        · exact ⟨l', .inr (.inl (.inl (.inl hl'))), h⟩
      · obtain ⟨l', hl', h⟩ := iha h
        exact ⟨l', .inr (.inl (.inl (.inl hl'))), h⟩
      · obtain ⟨l', hl', h⟩ := ihb h
        exact ⟨l', .inr (.inl (.inl (.inr hl'))), h⟩
      · obtain ⟨l', hl', h⟩ := ihc h
        exact ⟨l', .inr (.inl (.inr hl')), h⟩
      · obtain ⟨l', hl', h⟩ := ihr h
        exact ⟨l', .inr (.inr hl'), h⟩

end Typing

/-! ## Marks that a table knows -/

namespace Forest

/-- Every scope that the forest is marked with is one of the table. -/
def KnownTo (f : Forest) (t : Table) : Prop :=
  ∀ l ∈ f.preorder, ∀ id, l.marks.scope = some id → id < t.scopes.size

theorem knownTo_nil (t : Table) : nil.KnownTo t := by
  simp [KnownTo]

theorem knownTo_node {t : Table} {l : Label} {a b c rest : Forest}
    (hl : ∀ id, l.marks.scope = some id → id < t.scopes.size) (ha : a.KnownTo t)
    (hb : b.KnownTo t) (hc : c.KnownTo t) (hrest : rest.KnownTo t) :
    (node l a b c rest).KnownTo t := by
  intro l' hl'
  simp only [preorder_node, List.mem_cons, List.mem_append] at hl'
  rcases hl' with rfl | ((hl' | hl') | hl') | hl'
  · exact hl
  · exact ha l' hl'
  · exact hb l' hl'
  · exact hc l' hl'
  · exact hrest l' hl'

theorem LexicalIn.knownTo {t : Table} {fn : String} {here : ScopeId} {f : Forest}
    (h : f.LexicalIn t fn here) (hhere : here < t.scopes.size) : f.KnownTo t := by
  induction h with
  | nil => exact knownTo_nil t
  | block _ hscope hheading _ _ _ _ _ iha ihb ihc ihr =>
      have hid := Table.lt_of_heading? hheading
      refine knownTo_node ?_ (iha hid) (ihb hid) (ihc hid) (ihr hhere)
      intro id h
      rw [hscope] at h
      exact Option.some.inj h ▸ hid
  | plain _ hscope _ _ _ _ iha ihb ihc ihr =>
      refine knownTo_node ?_ (iha hhere) (ihb hhere) (ihc hhere) (ihr hhere)
      intro id h
      rw [hscope] at h
      exact Option.some.inj h ▸ hhere

theorem Lexical.knownTo {t : Table} {f : Forest} (h : f.Lexical t)
    (hpos : 0 < t.scopes.size) : f.KnownTo t := by
  induction h with
  | nil => exact knownTo_nil t
  | object _ hscope _ ih =>
      refine knownTo_node ?_ (knownTo_nil t) (knownTo_nil t) (knownTo_nil t) ih
      intro id h
      rw [hscope] at h
      exact Option.some.inj h ▸ hpos
  | function _ _ hscope hsame hheading _ hparams hlocals hstmts _ ih =>
      have hid := Table.lt_of_heading? hheading
      have hblock := knownTo_node (fun id h => by
        rw [hsame] at h
        exact Option.some.inj h ▸ hid)
        (hlocals.knownTo hid) (hstmts.knownTo hid) (knownTo_nil t) (knownTo_nil t)
      refine knownTo_node ?_ (hparams.knownTo hid) hblock (knownTo_nil t) ih
      intro id h
      rw [hscope] at h
      exact Option.some.inj h ▸ hid

end Forest

/-- A tree whose marks are known is typed to the end. -/
theorem Session.check_eq {s : Session} (hphase : s.phase = .symbolsBuilt) {f : Forest}
    (hf : f.KnownTo s.table) :
    s.check f =
      .ok (Typing.typed s.config.poisonFailed s.table f,
        { s with
          log := (Typing.run s.config.poisonFailed s.table s.log f).2
          phase := .typesChecked }) := by
  have hnone : (Typing.consulted f).find? (s.table.scopes.size ≤ ·) = none := by
    rw [List.find?_eq_none]
    intro id hid
    obtain ⟨l, hl, hscope⟩ := Typing.mem_consulted hid
    simpa using hf l hl id hscope
  unfold Session.check
  rw [hphase]
  simp only [hnone, ← Typing.run_fst _ _ s.log]

open Scoping Typing in
/-- A program is always analysed to the end: the table is that of the first
pass, and the log has its reports and then the complaints of the second. -/
theorem analyze_eq (config : Config) {f : Forest} (hf : f.Outer) :
    let tree := typed config.poisonFailed (finalTable f) (start.marked f)
    ∃ log, analyze config f = .ok { config, table := finalTable f, log, forest := tree } ∧
      log.entries.toList =
        start.reports f ++ complaints config.poisonFailed (finalTable f) tree := by
  intro tree
  have hknown := (lexical_program hf).knownTo (pos_finalTable hf)
  have hlog := run_snd config.poisonFailed (finalTable f) (start.after f).log (start.marked f)
  rw [log_after] at hlog
  refine ⟨_, ?_, hlog⟩
  simp only [analyze, build_start, bind, Except.bind]
  rw [Session.check_eq rfl hknown]
  rfl

end CMinus
