import CMinus.Proofs.Tree.Order

/-!
# The shape of a program

A forest can be anything, but a parser only emits some forests: every slot of
every kind of node has one use, and only certain chains fit that use.  `Role`
names the uses, `Kind.role` is the table that gives each slot its use, and
`Forest.fits` checks a chain against a use.  `Forest.IsProgram` is the use of
the outermost chain.

Scoping looks at very little of that shape.  Below the declarations of a
function it only tells blocks from everything else, and a chain of
declarations is a chain of leaves.  `Forest.Leaves`, `Forest.Inner` and
`Forest.Outer` are that reduced shape, one constructor per case that a proof
about scopes has to treat, and `IsProgram.outer` leads from the full shape to
the reduced one.
-/

namespace CMinus

namespace Kind

/-- A scalar or an array variable is declared. -/
def isObject : Kind → Bool
  | varDecl .. | arrayDecl .. => true
  | _ => false

/-- A parameter is declared. -/
def isParam : Kind → Bool
  | param .. | arrayParam .. => true
  | _ => false

/-- A function is declared. -/
def isFunction : Kind → Bool
  | funDecl .. => true
  | _ => false

/-- A statement or an expression that is no block: it declares nothing and
opens no scope. -/
def isPlain : Kind → Bool
  | ifThen | ifElse | whileDo | returnValue | returnVoid
  | op _ | const _ | var _ | assign | call _ => true
  | compound | varDecl .. | arrayDecl .. | funDecl .. | param .. | arrayParam .. => false

/-- A variable is used. -/
def isVar : Kind → Bool
  | var _ => true
  | _ => false

end Kind

/-- What a chain of nodes is there for. -/
inductive Role where
  /-- The outermost chain. -/
  | program
  | parameters
  | locals
  /-- The block of a function. -/
  | body
  /-- Statements and expressions, any number of them. -/
  | statements
  /-- Expressions, any number of them. -/
  | arguments
  /-- Exactly one expression. -/
  | operand
  /-- At most one expression. -/
  | index
  /-- Exactly one variable. -/
  | target
  /-- A slot that the kind has no use for. -/
  | absent
  deriving DecidableEq

namespace Role

/-- The kinds that may head a chain with this use. -/
def admits : Role → Kind → Bool
  | program, k => k.isObject || k.isFunction
  | parameters, k => k.isParam
  | locals, k => k.isObject
  | body, k => k = .compound
  | statements, k => k = .compound || k.isPlain
  | arguments, k | operand, k | index, k => k.isExpr
  | target, k => k.isVar
  | absent, _ => false

/-- Whether an empty chain will do. -/
def optional : Role → Bool
  | body | operand | target => false
  | _ => true

/-- What the chain behind its first node is there for. -/
def after : Role → Role
  | body | operand | index | target => absent
  | r => r

/-- The uses of a chain below the declarations of a block. -/
def isInner : Role → Bool
  | statements | arguments | operand | index | target | absent => true
  | _ => false

/-- The uses of a chain of expressions. -/
def isExpr : Role → Bool
  | arguments | operand | index | target | absent => true
  | _ => false

/-- The uses of a chain that is exactly one node. -/
def isSingle (r : Role) : Bool := !r.optional && r.after = absent

end Role

/-- The use that a kind of node has for each of its slots. -/
def Kind.role : Kind → Slot → Role
  | compound, .first => .locals
  | compound, .second => .statements
  | funDecl .., .first => .parameters
  | funDecl .., .second => .body
  | ifThen, .first | ifElse, .first | whileDo, .first => .operand
  | ifThen, .second | ifElse, .second | whileDo, .second => .statements
  | ifElse, .third => .statements
  | returnValue, .first => .operand
  | op _, .first | op _, .second => .operand
  | var _, .first => .index
  | assign, .first => .target
  | assign, .second => .operand
  | call _, .first => .arguments
  | _, _ => .absent

namespace Forest

/-- Whether a chain, with all that hangs from it, fits a use. -/
def fits : Forest → Role → Bool
  | nil, r => r.optional
  | node l a b c rest, r =>
    r.admits l.kind &&
      a.fits (l.kind.role .first) && b.fits (l.kind.role .second) &&
      c.fits (l.kind.role .third) && rest.fits r.after

/-- The forest has the shape of a program. -/
def IsProgram (f : Forest) : Prop := f.fits .program = true

instance (f : Forest) : Decidable f.IsProgram := inferInstanceAs (Decidable (_ = _))

@[simp] theorem fits_nil (r : Role) : nil.fits r = r.optional := rfl

theorem fits_node {l : Label} {a b c rest : Forest} {r : Role} :
    (node l a b c rest).fits r = true ↔
      r.admits l.kind = true ∧ a.fits (l.kind.role .first) = true ∧
        b.fits (l.kind.role .second) = true ∧ c.fits (l.kind.role .third) = true ∧
        rest.fits r.after = true := by
  simp only [fits, Bool.and_eq_true, and_assoc]

/-- The shape is read off what the parser wrote. -/
@[simp] theorem fits_bare (f : Forest) (r : Role) : f.bare.fits r = f.fits r := by
  induction f generalizing r with
  | nil => rfl
  | node l a b c rest iha ihb ihc ihr =>
      simp only [bare, fits, iha, ihb, ihc, ihr]
      rfl

/-- Nothing but the empty chain fits a slot without a use. -/
theorem eq_nil_of_fits_absent {f : Forest} (h : f.fits .absent = true) : f = nil := by
  cases f with
  | nil => rfl
  | node l a b c rest => simp [fits, Role.admits] at h

theorem exists_node_of_fits {r : Role} (hr : r.isSingle = true) {f : Forest}
    (h : f.fits r = true) :
    ∃ l a b c, f = node l a b c nil ∧ r.admits l.kind = true := by
  obtain ⟨hoptional, hafter⟩ : r.optional = false ∧ r.after = .absent := by
    simpa [Role.isSingle] using hr
  cases f with
  | nil => simp [hoptional] at h
  | node l a b c rest =>
      obtain ⟨hk, _, _, _, hrest⟩ := fits_node.mp h
      rw [hafter] at hrest
      rw [eq_nil_of_fits_absent hrest]
      exact ⟨l, a, b, c, rfl, hk⟩

/-! ## The shape of expressions -/

theorem isExpr_of_admits {r : Role} (hr : r.isExpr = true) {k : Kind}
    (hk : r.admits k = true) : k.isExpr = true := by
  cases r <;> cases k <;> simp_all [Role.isExpr, Role.admits, Kind.isExpr, Kind.isVar]

/-- Below an expression there are expressions only. -/
theorem isExpr_role {k : Kind} (hk : k.isExpr = true) (i : Slot) :
    (k.role i).isExpr = true := by
  cases k <;> cases i <;> simp_all [Kind.isExpr, Kind.role, Role.isExpr]

/-- Expressions leave their third slot alone. -/
theorem role_third_of_isExpr {k : Kind} (hk : k.isExpr = true) :
    k.role .third = .absent := by
  cases k <;> simp_all [Kind.isExpr, Kind.role]

theorem isExpr_after {r : Role} (hr : r.isExpr = true) : r.after.isExpr = true := by
  cases r <;> simp_all [Role.isExpr, Role.after]

/-! ## The shape that scoping sees -/

/-- A chain of nodes of certain kinds, all without children. -/
inductive Leaves (admitted : Kind → Bool) : Forest → Prop
  | nil : Leaves admitted nil
  | cons {l : Label} {rest : Forest} (hk : admitted l.kind = true)
      (hrest : Leaves admitted rest) : Leaves admitted (node l .nil .nil .nil rest)

/-- What may stand below the declarations of a block. -/
inductive Inner : Forest → Prop
  | nil : Inner nil
  /-- A block with declarations and statements of its own. -/
  | block {l : Label} {locals stmts rest : Forest} (hk : l.kind = .compound)
      (hlocals : Leaves Kind.isObject locals) (hstmts : Inner stmts) (hrest : Inner rest) :
      Inner (node l locals stmts .nil rest)
  /-- Anything else. -/
  | plain {l : Label} {a b c rest : Forest} (hk : l.kind.isPlain = true)
      (ha : Inner a) (hb : Inner b) (hc : Inner c) (hrest : Inner rest) :
      Inner (node l a b c rest)

/-- What may stand at the outermost level. -/
inductive Outer : Forest → Prop
  | nil : Outer nil
  | object {l : Label} {rest : Forest} (hk : l.kind.isObject = true) (hrest : Outer rest) :
      Outer (node l .nil .nil .nil rest)
  /-- A function with its parameters and its block. -/
  | function {l block : Label} {name : String} {spec : Spec}
      {params locals stmts rest : Forest} (hk : l.kind = .funDecl name spec)
      (hparams : Leaves Kind.isParam params) (hblock : block.kind = .compound)
      (hlocals : Leaves Kind.isObject locals) (hstmts : Inner stmts) (hrest : Outer rest) :
      Outer (node l params (node block locals stmts .nil .nil) .nil rest)

/-- Kinds without a use for any of their slots make a chain of leaves. -/
theorem leaves_of_fits {r : Role} {admitted : Kind → Bool} (hafter : r.after = r)
    (hleaf : ∀ k, r.admits k = true → admitted k = true ∧ ∀ i, k.role i = .absent)
    {f : Forest} (h : f.fits r = true) : Leaves admitted f := by
  induction f with
  | nil => exact .nil
  | node l a b c rest _ _ _ ih =>
      obtain ⟨hk, ha, hb, hc, hrest⟩ := fits_node.mp h
      obtain ⟨hadmitted, hslots⟩ := hleaf l.kind hk
      rw [hslots] at ha hb hc
      rw [hafter] at hrest
      rw [eq_nil_of_fits_absent ha, eq_nil_of_fits_absent hb, eq_nil_of_fits_absent hc]
      exact .cons hadmitted (ih hrest)

/-- Declarations of variables are leaves. -/
theorem leaves_of_fits_locals {f : Forest} (h : f.fits .locals = true) :
    Leaves Kind.isObject f := by
  refine leaves_of_fits rfl ?_ h
  intro k hk
  refine ⟨hk, fun i => ?_⟩
  cases k <;> simp_all [Role.admits, Kind.isObject, Kind.role]

/-- Declarations of parameters are leaves. -/
theorem leaves_of_fits_parameters {f : Forest} (h : f.fits .parameters = true) :
    Leaves Kind.isParam f := by
  refine leaves_of_fits rfl ?_ h
  intro k hk
  refine ⟨hk, fun i => ?_⟩
  cases k <;> simp_all [Role.admits, Kind.isParam, Kind.role]

/-- Below the declarations there are blocks and plain nodes only. -/
theorem admits_of_isInner {r : Role} (hr : r.isInner = true) {k : Kind}
    (hk : r.admits k = true) : k = .compound ∨ k.isPlain = true := by
  cases r <;> cases k <;> simp_all [Role.isInner, Role.admits, Kind.isExpr, Kind.isVar,
    Kind.isPlain]

/-- Below a plain node there are no declarations. -/
theorem isInner_role_of_isPlain {k : Kind} (hk : k.isPlain = true) (i : Slot) :
    (k.role i).isInner = true := by
  cases k <;> cases i <;> simp_all [Kind.isPlain, Kind.role, Role.isInner]

theorem isInner_after {r : Role} (hr : r.isInner = true) : r.after.isInner = true := by
  cases r <;> simp_all [Role.isInner, Role.after]

theorem inner_of_fits {f : Forest} {r : Role} (hr : r.isInner = true)
    (h : f.fits r = true) : Inner f := by
  induction f generalizing r with
  | nil => exact .nil
  | node l a b c rest iha ihb ihc ihr =>
      obtain ⟨hk, ha, hb, hc, hrest⟩ := fits_node.mp h
      have hrest := ihr (isInner_after hr) hrest
      rcases admits_of_isInner hr hk with hk | hk
      · rw [hk] at ha hb hc
        rw [eq_nil_of_fits_absent hc]
        exact .block hk (leaves_of_fits_locals ha) (ihb rfl hb) hrest
      · have hslot := isInner_role_of_isPlain hk
        exact .plain hk (iha (hslot .first) ha) (ihb (hslot .second) hb)
          (ihc (hslot .third) hc) hrest

/-- The block of a function: one node, with declarations and statements. -/
theorem exists_block_of_fits_body {f : Forest} (h : f.fits .body = true) :
    ∃ l locals stmts, f = node l locals stmts nil nil ∧ l.kind = .compound ∧
      locals.fits .locals = true ∧ stmts.fits .statements = true := by
  obtain ⟨l, a, b, c, rfl, hk⟩ := exists_node_of_fits (by decide) h
  obtain ⟨-, ha, hb, hc, -⟩ := fits_node.mp h
  have hk : l.kind = .compound := by simpa [Role.admits] using hk
  rw [hk] at ha hb hc
  rw [eq_nil_of_fits_absent hc]
  exact ⟨l, a, b, rfl, hk, ha, hb⟩

/-- A program is a chain of variables and functions. -/
theorem IsProgram.outer {f : Forest} (h : f.IsProgram) : Outer f := by
  induction f with
  | nil => exact .nil
  | node l a b c rest _ _ _ ih =>
      obtain ⟨hk, ha, hb, hc, hrest⟩ := fits_node.mp h
      have hrest := ih hrest
      have hkind : l.kind.isObject = true ∨ l.kind.isFunction = true := by
        simpa [Role.admits] using hk
      rcases hkind with hobject | hfunction
      · have hleaf : Leaves Kind.isObject (node l a b c nil) := by
          refine leaves_of_fits_locals (fits_node.mpr ⟨?_, ha, hb, hc, rfl⟩)
          simpa [Role.admits] using hobject
        cases hleaf with
        | cons => exact .object hobject hrest
      · cases hl : l.kind with
        | funDecl name spec =>
            rw [hl] at ha hb hc
            obtain ⟨block, locals, stmts, rfl, hblock, hlocals, hstmts⟩ :=
              exists_block_of_fits_body hb
            rw [eq_nil_of_fits_absent hc]
            exact .function hl (leaves_of_fits_parameters ha) hblock
              (leaves_of_fits_locals hlocals) (inner_of_fits rfl hstmts) hrest
        | _ => simp [hl, Kind.isFunction] at hfunction

end Forest

end CMinus
