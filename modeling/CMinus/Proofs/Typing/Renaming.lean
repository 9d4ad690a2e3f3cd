import CMinus.Proofs.Typing.Total

/-!
# Names under typing

A name is only ever compared with other names, so a run of the analysis can be
compared with a run over the same tree under other names.  This file does so for
the second pass, whose rules meet names in two places: they ask the table what a
name means, and they put names into diagnostics.

`Typing.Answers` says of two tables that they answer the questions of a node
alike, the second one under the new names.  Then every rule gives a node and the
renamed node one verdict, up to the names in its complaint
(`Typing.judge_rename`), and the pass over a whole tree commutes with renaming
(`Typing.typed_rename`).

The identity is a renaming, too: with it, the same lemmas say that two tables
which answer alike type one tree alike.

An assignment without a named target is complained of under the empty name, and
that is no name of the program.  So the tree has to name its targets
(`Forest.TargetsNamed`), as every program does.
-/

namespace CMinus

variable (r : String → String)

/-! ## Renaming -/

/-- The kind under a new name. -/
def Kind.rename : Kind → Kind
  | varDecl name spec => varDecl (r name) spec
  | arrayDecl name spec size => arrayDecl (r name) spec size
  | funDecl name spec => funDecl (r name) spec
  | param name spec => param (r name) spec
  | arrayParam name spec => arrayParam (r name) spec
  | var name => var (r name)
  | call name => call (r name)
  | k => k

/-- The label under a new name. -/
def Label.rename (l : Label) : Label := { l with kind := l.kind.rename r }

/-- The forest under new names. -/
def Forest.rename : Forest → Forest
  | nil => nil
  | node l a b c rest => node (l.rename r) a.rename b.rename c.rename rest.rename

/-- The node under new names. -/
def Tree.rename (t : Tree) : Tree :=
  ⟨t.label.rename r, t.first.rename r, t.second.rename r, t.third.rename r⟩

/-- The diagnostic under a new name. -/
def Diagnostic.rename : Diagnostic → Diagnostic
  | redefinition name line => redefinition (r name) line
  | voidDeclaration site name line => voidDeclaration site (r name) line
  | undeclaredVariable name line => undeclaredVariable (r name) line
  | undeclaredFunction name line => undeclaredFunction (r name) line
  | invalidIndex name line => invalidIndex (r name) line
  | assignmentType name line => assignmentType (r name) line
  | invalidFunctionCall name line => invalidFunctionCall (r name) line
  | parameter name line => parameter (r name) line
  | d => d

/-- The verdict under new names. -/
def Verdict.rename (v : Verdict) : Verdict :=
  { v with complaint := v.complaint.map (Diagnostic.rename r) }

@[simp] theorem Kind.name?_rename (k : Kind) : (k.rename r).name? = k.name?.map r := by
  cases k <;> rfl

@[simp] theorem Label.kind_rename (l : Label) : (l.rename r).kind = l.kind.rename r := rfl

@[simp] theorem Label.line_rename (l : Label) : (l.rename r).line = l.line := rfl

@[simp] theorem Label.marks_rename (l : Label) : (l.rename r).marks = l.marks := rfl

namespace Forest

@[simp] theorem head?_rename (f : Forest) :
    (f.rename r).head? = f.head?.map (Label.rename r) := by
  cases f <;> rfl

@[simp] theorem ty?_rename (f : Forest) : (f.rename r).ty? = f.ty? := by
  cases f <;> rfl

@[simp] theorem isEmpty_rename (f : Forest) : (f.rename r).isEmpty = f.isEmpty := by
  cases f <;> rfl

@[simp] theorem labels_rename (f : Forest) :
    (f.rename r).labels = f.labels.map (Label.rename r) := by
  induction f with
  | nil => rfl
  | node l a b c rest _ _ _ ih => simp only [rename, labels, List.map_cons, ih]

@[simp] theorem rename_id (f : Forest) : f.rename id = f := by
  have hlabel : ∀ l : Label, l.rename id = l := by
    rintro ⟨kind, line, marks⟩
    cases kind <;> rfl
  induction f with
  | nil => rfl
  | node l a b c rest iha ihb ihc ihr => simp only [rename, hlabel, iha, ihb, ihc, ihr]

end Forest

@[simp] theorem Diagnostic.rename_id : Diagnostic.rename id = id := by
  funext d
  cases d <;> rfl

namespace Forest

/-- What is assigned to has a name. -/
def TargetsNamed (f : Forest) : Prop :=
  ∀ t ∈ f.nodes, t.label.kind = .assign → ∃ l name, t.first.head? = some l ∧
    l.kind.name? = some name

theorem targetsNamed_nil : nil.TargetsNamed := by
  simp [TargetsNamed, nodes]

theorem targetsNamed_node {l : Label} {a b c rest : Forest} :
    (node l a b c rest).TargetsNamed ↔
      (l.kind = .assign → ∃ l' name, a.head? = some l' ∧ l'.kind.name? = some name) ∧
        a.TargetsNamed ∧ b.TargetsNamed ∧ c.TargetsNamed ∧ rest.TargetsNamed := by
  simp only [TargetsNamed, nodes, List.forall_mem_cons, List.forall_mem_append, and_assoc]

/-- A chain with a use names its targets. -/
theorem targetsNamed_of_fits {f : Forest} {role : Role} (h : f.fits role = true) :
    f.TargetsNamed := by
  induction f generalizing role with
  | nil => exact targetsNamed_nil
  | node l a b c rest iha ihb ihc ihr =>
      obtain ⟨_, ha, hb, hc, hrest⟩ := fits_node.mp h
      refine targetsNamed_node.mpr ⟨?_, iha ha, ihb hb, ihc hc, ihr hrest⟩
      intro hk
      rw [hk] at ha
      obtain ⟨target, _, _, _, rfl, hvar⟩ := exists_node_of_fits (by decide) ha
      replace hvar : target.kind.isVar = true := hvar
      cases hl : target.kind with
      | var name => exact ⟨target, name, rfl, by rw [hl]; rfl⟩
      | _ => simp [hl, Kind.isVar] at hvar

end Forest

/-- The first pass leaves named targets behind. -/
theorem Scoping.targetsNamed_marked {f : Forest} (hf : f.IsProgram) :
    (start.marked f).TargetsNamed := by
  have hfits : (start.marked f).fits .program = true := by
    rw [← Forest.fits_bare, bare_marked, Forest.fits_bare]
    exact hf
  exact Forest.targetsNamed_of_fits hfits

namespace Typing

/-! ## Two tables that answer alike -/

/-- What the rules read of a symbol. -/
def profile (s : Symbol) : Ty × List Ty := (s.ty, s.params)

/-- The second table answers what a node with this scope and line asks as the
first one does, under the new names. -/
structure Answers (t t' : Table) (scope? : Option ScopeId) (line : UInt32) : Prop where
  resolve_eq : ∀ name, t'.resolve scope? (r name) line = t.resolve scope? name line
  profile_eq : ∀ name, (t'.resolveSymbol scope? (r name) line).map profile =
    (t.resolveSymbol scope? name line).map profile
  enclosingTy_eq : t'.enclosingTy scope? = t.enclosingTy scope?

variable {r} {t t' : Table} {poisonFailed : Bool}

section Node

variable {n : Tree} (hself : Answers r t t' n.label.marks.scope n.label.line)

include hself

theorem judgeVar_rename (name : String) :
    judgeVar t' (n.rename r) (r name) = (judgeVar t n name).rename r := by
  have hprofile := hself.profile_eq name
  simp only [judgeVar, Tree.rename, Label.marks_rename, Label.line_rename,
    Forest.isEmpty_rename, Forest.ty?_rename]
  cases hsym : t.resolveSymbol n.label.marks.scope name n.label.line with
  | none =>
      rw [hsym, Option.map_none, Option.map_eq_none_iff] at hprofile
      rw [hprofile]
      rfl
  | some sym =>
      rw [hsym, Option.map_some, Option.map_eq_some_iff] at hprofile
      obtain ⟨sym', hsym', heq⟩ := hprofile
      have hty : sym'.ty = sym.ty := congrArg Prod.fst heq
      rw [hsym']
      dsimp only
      rw [hty]
      split
      · rfl
      · split <;> rfl

theorem judgeCall_rename (name : String) :
    judgeCall t' (n.rename r) (r name) = (judgeCall t n name).rename r := by
  have hprofile := hself.profile_eq name
  have hargs : (n.first.rename r).labels.map (·.marks.ty) =
      n.first.labels.map (·.marks.ty) := by
    simp [Function.comp_def]
  simp only [judgeCall, Tree.rename, Label.marks_rename, Label.line_rename, hargs]
  cases hsym : t.resolveSymbol n.label.marks.scope name n.label.line with
  | none =>
      rw [hsym, Option.map_none, Option.map_eq_none_iff] at hprofile
      rw [hprofile]
      rfl
  | some sym =>
      rw [hsym, Option.map_some, Option.map_eq_some_iff] at hprofile
      obtain ⟨sym', hsym', heq⟩ := hprofile
      have hty : sym'.ty = sym.ty := congrArg Prod.fst heq
      have hparams : sym'.params = sym.params := congrArg Prod.snd heq
      rw [hsym']
      dsimp only
      rw [hty, hparams]
      cases sym.ty.result? with
      | none => rfl
      | some result =>
          dsimp only
          split <;> rfl

omit hself in
theorem judgeAssign_rename {l : Label} {name : String} (hhead : n.first.head? = some l)
    (hname : l.kind.name? = some name) (htarget : Answers r t t' l.marks.scope l.line) :
    judgeAssign t' (n.rename r) = (judgeAssign t n).rename r := by
  simp only [judgeAssign, Tree.rename, Forest.ty?_rename, Forest.head?_rename, hhead, hname,
    Option.map_some, Option.bind_some, Label.kind_rename, Kind.name?_rename, Option.getD_some,
    Label.marks_rename, Label.line_rename, htarget.resolve_eq]
  cases t.resolve l.marks.scope name l.line with
  | none =>
      dsimp only
      split <;> rfl
  | some id =>
      dsimp only
      split <;> rfl

/-- A rule gives a node and the renamed node one verdict. -/
theorem judge_rename (htarget : n.label.kind = .assign → ∃ l name, n.first.head? = some l ∧
      l.kind.name? = some name ∧ Answers r t t' l.marks.scope l.line) :
    judge poisonFailed t' (n.rename r) = (judge poisonFailed t n).rename r := by
  have hstatement : ∀ (ok : Bool) (d : Diagnostic), d.rename r = d →
      Verdict.statement ok d = (Verdict.statement ok d).rename r := by
    intro ok d hd
    cases ok <;> simp [Verdict.statement, Verdict.rename, hd]
  have hfirst : (n.rename r).first.ty? = n.first.ty? := Forest.ty?_rename r _
  have hsecond : (n.rename r).second.ty? = n.second.ty? := Forest.ty?_rename r _
  have henclosing : t'.enclosingTy (n.rename r).label.marks.scope =
      t.enclosingTy n.label.marks.scope := hself.enclosingTy_eq
  have hkind : (n.rename r).label.kind = n.label.kind.rename r := rfl
  unfold judge
  rw [hkind]
  cases hl : n.label.kind with
  | op o =>
      simp only [Kind.rename, judgeOp, hfirst, hsecond]
      split <;> rfl
  | var name => exact judgeVar_rename hself name
  | call name => exact judgeCall_rename hself name
  | assign =>
      obtain ⟨l, name, hhead, hname, hanswers⟩ := htarget hl
      exact judgeAssign_rename hhead hname hanswers
  | ifThen | ifElse | whileDo =>
      simp only [Kind.rename, hfirst]
      exact hstatement _ _ rfl
  | returnValue =>
      simp only [Kind.rename, judgeReturnValue, henclosing, hfirst]
      exact hstatement _ _ rfl
  | returnVoid =>
      simp only [Kind.rename, judgeReturnVoid, henclosing]
      exact hstatement _ _ rfl
  | _ => rfl

end Node

/-! ## The pass over a tree -/

/-- The two tables answer alike at every node of the forest. -/
def AnswersAll (r : String → String) (t t' : Table) (f : Forest) : Prop :=
  ∀ l ∈ f.preorder, Answers r t t' l.marks.scope l.line

theorem answersAll_node {l : Label} {a b c rest : Forest} :
    AnswersAll r t t' (.node l a b c rest) ↔
      Answers r t t' l.marks.scope l.line ∧ AnswersAll r t t' a ∧ AnswersAll r t t' b ∧
        AnswersAll r t t' c ∧ AnswersAll r t t' rest := by
  simp only [AnswersAll, Forest.preorder_node, List.forall_mem_cons, List.forall_mem_append,
    and_assoc]

variable (poisonFailed)

/-- Typing keeps the kind, the line and the scope of a node. -/
theorem head?_typed (table : Table) {f : Forest} {l : Label} (h : f.head? = some l) :
    ∃ ty, (typed poisonFailed table f).head? = some (withTy l ty) := by
  cases f with
  | nil => simp [Forest.head?] at h
  | node l' a b c rest =>
      obtain rfl := Option.some.inj h
      exact ⟨_, rfl⟩

/-- The rule for a node of a tree on which the tables answer alike. -/
theorem judge_rename_typed {l : Label} {a b c rest : Forest}
    (hanswers : AnswersAll r t t' (.node l a b c rest))
    (hnamed : (Forest.node l a b c rest).TargetsNamed) (b' c' : Forest) :
    judge poisonFailed t' (Tree.rename r ⟨l, typed poisonFailed t a, b', c'⟩) =
      (judge poisonFailed t ⟨l, typed poisonFailed t a, b', c'⟩).rename r := by
  obtain ⟨hself, ha, _⟩ := answersAll_node.mp hanswers
  refine judge_rename hself fun hk => ?_
  obtain ⟨target, name, hhead, hname⟩ := (Forest.targetsNamed_node.mp hnamed).1 hk
  obtain ⟨ty, htyped⟩ := head?_typed poisonFailed t hhead
  exact ⟨_, name, htyped, hname, ha target (Forest.mem_preorder_of_head? hhead)⟩

/-- The second pass commutes with renaming, in the tree that it leaves behind and
in what it reports. -/
theorem typed_rename {f : Forest} (hanswers : AnswersAll r t t' f) (hnamed : f.TargetsNamed) :
    typed poisonFailed t' (f.rename r) = (typed poisonFailed t f).rename r ∧
      complaints poisonFailed t' ((typed poisonFailed t f).rename r) =
        (complaints poisonFailed t (typed poisonFailed t f)).map (Diagnostic.rename r) := by
  induction f with
  | nil => exact ⟨rfl, rfl⟩
  | node l a b c rest iha ihb ihc ihr =>
      obtain ⟨_, ha, hb, hc, hrest⟩ := answersAll_node.mp hanswers
      obtain ⟨_, hna, hnb, hnc, hnr⟩ := Forest.targetsNamed_node.mp hnamed
      obtain ⟨iha, hca⟩ := iha ha hna
      obtain ⟨ihb, hcb⟩ := ihb hb hnb
      obtain ⟨ihc, hcc⟩ := ihc hc hnc
      obtain ⟨ihr, hcr⟩ := ihr hrest hnr
      have hjudge := judge_rename_typed poisonFailed hanswers hnamed
        (typed poisonFailed t b) (typed poisonFailed t c)
      rw [Tree.rename] at hjudge
      constructor
      · simp only [Forest.rename, typed, iha, ihb, ihc, ihr, hjudge]
        rfl
      · -- the label is renamed below the type that was written on it
        have hlabel : ∀ ty, (withTy l ty).rename r = withTy (l.rename r) ty := fun _ => rfl
        simp only [typed, Forest.rename, complaints_node, hlabel, judge_withTy, hjudge, hca, hcb,
          hcc, hcr, List.map_append, Verdict.rename, Option.toList_map]

end Typing

end CMinus
