import CMinus.Proofs.Tree.Order
import CMinus.Proofs.Tree.Shape

/-!
# A one-pass checker

The rules of the language, read as one walk over a program with a stack of
environments.  An environment maps the names of one block to what they mean, and
entering a block puts a new environment in front of those around it.  There is
no table, no second pass and no recovery: the checker stops at the first thing
that is wrong.

It is meant to be read rather than run.  A declaration is in order if it is not
of type `void` and its name is new to its block; a function's parameters and the
declarations of its block make up one block.  Expressions have the types that
`Reference.typeOf` gives them, conditions and operands are integers, and a
return fits the word its function is declared with.
-/

namespace CMinus

namespace Reference

/-- What a name means: a type and, for a function, the types of its
parameters. -/
structure Meaning where
  ty : Ty
  params : List Ty := []
  deriving DecidableEq

/-- The names of one block. -/
abbrev Env := List (String × Meaning)

/-- The meaning of a name in the nearest block that declares it. -/
def resolve (envs : List Env) (name : String) : Option Meaning :=
  envs.findSome? fun env => env.lookup name

/-- A block with one more name, which must be new to it. -/
def declare (env : Env) (name : String) (meaning : Meaning) : Option Env :=
  if (env.lookup name).isSome then none else some ((name, meaning) :: env)

/-- The name and type that a variable or a parameter is declared with; there are
none of type `void`. -/
def object? : Kind → Option (String × Ty)
  | .varDecl name .int | .param name .int => some (name, .int)
  | .arrayDecl name .int _ | .arrayParam name .int => some (name, .intArray)
  | _ => none

/-- A block with the variable or parameter that a node declares. -/
def declareKind (env : Env) (kind : Kind) : Option Env :=
  (object? kind).bind fun (name, ty) => declare env name { ty }

/-- A block with all the names that a chain declares. -/
def declareAll : Env → Forest → Option Env
  | env, .nil => some env
  | env, .node l _ _ _ rest => (declareKind env l.kind).bind (declareAll · rest)

/-- The types of a chain of parameters. -/
def signature (params : Forest) : List Ty :=
  params.labels.filterMap fun l => (object? l.kind).map (·.2)

/-- The type of an expression, given those of the chains in its slots. -/
def typeOf (envs : List Env) (kind : Kind) (first second : List Ty) : Option Ty :=
  match kind with
  | .const _ => some .int
  | .op _ => if first = [.int] ∧ second = [.int] then some .int else none
  | .var name => do
    let meaning ← resolve envs name
    if first = [] then some meaning.ty else if first = [.int] then some .int else none
  | .assign => if first = second then first.head? else none
  | .call name => do
    let meaning ← resolve envs name
    if first = meaning.params then meaning.ty.result? else none
  | .compound | .varDecl .. | .arrayDecl .. | .funDecl .. | .param .. | .arrayParam ..
  | .ifThen | .ifElse | .whileDo | .returnValue | .returnVoid => none

/-- The types of a chain of expressions. -/
def typesOf (envs : List Env) : Forest → Option (List Ty)
  | .nil => some []
  | .node l a b _ rest => do
    let first ← typesOf envs a
    let second ← typesOf envs b
    let ty ← typeOf envs l.kind first second
    let more ← typesOf envs rest
    return ty :: more

/-- Whether a chain of statements is in order in a function declared with
`spec`. -/
def acceptsIn (spec : Spec) : (envs : List Env) → Forest → Bool
  | _, .nil => true
  | envs, .node l a b c rest =>
    (match l.kind with
      | .compound =>
        match declareAll [] a with
        | none => false
        | some env => acceptsIn spec (env :: envs) b
      | .ifThen | .ifElse | .whileDo =>
        typesOf envs a = some [.int] && acceptsIn spec envs b && acceptsIn spec envs c
      | .returnValue => spec = .int && typesOf envs a = some [.int]
      | .returnVoid => spec = .void
      | _ => (typesOf envs (.node l a b c .nil)).isSome) &&
    acceptsIn spec envs rest

/-- Whether the block of a function is in order; its declarations join the
parameters. -/
def acceptsBody (spec : Spec) (globals params : Env) : Forest → Bool
  | .nil => false
  | .node _ locals stmts _ _ =>
    match declareAll params locals with
    | none => false
    | some env => acceptsIn spec [env, globals] stmts

/-- Whether a chain of declarations is in order behind those already made.  A
function knows itself and what precedes it. -/
def acceptsFrom : (globals : Env) → Forest → Bool
  | _, .nil => true
  | globals, .node l a b _ rest =>
    match l.kind with
    | .funDecl name spec =>
      match declare globals name ⟨.functionReturning spec, signature a⟩, declareAll [] a with
      | some globals, some params =>
        acceptsBody spec globals params b && acceptsFrom globals rest
      | _, _ => false
    | k =>
      match declareKind globals k with
      | some globals => acceptsFrom globals rest
      | none => false

/-- What every program starts with: `int input(void)` and `void output(int)`. -/
def builtins : Env := [("input", ⟨.intFunction, []⟩), ("output", ⟨.voidFunction, [.int]⟩)]

/-- Whether a program is in order. -/
def accepts (f : Forest) : Bool := acceptsFrom builtins f

/-- A variable at the outermost level. -/
theorem acceptsFrom_object {l : Label} (hk : l.kind.isObject = true) (globals : Env)
    (a b c rest : Forest) :
    acceptsFrom globals (.node l a b c rest) =
      (declareKind globals l.kind).any (acceptsFrom · rest) := by
  cases hl : l.kind <;> simp only [hl, Kind.isObject, Bool.false_eq_true] at hk
  all_goals
    simp only [acceptsFrom, hl]
    split
    · next h => rw [h, Option.any_some]
    · next h => rw [h, Option.any_none]

/-! ## What the checker reads -/

theorem declareAll_bare (env : Env) (f : Forest) : declareAll env f.bare = declareAll env f := by
  induction f generalizing env with
  | nil => rfl
  | node l a b c rest _ _ _ ih =>
      simp only [Forest.bare, declareAll, ih]
      rfl

theorem signature_bare (f : Forest) : signature f.bare = signature f := by
  induction f with
  | nil => rfl
  | node l a b c rest _ _ _ ih =>
      simp only [signature, Forest.bare, Forest.labels, List.filterMap_cons] at ih ⊢
      rw [ih]
      rfl

theorem typesOf_bare (envs : List Env) (f : Forest) : typesOf envs f.bare = typesOf envs f := by
  induction f with
  | nil => rfl
  | node l a b c rest iha ihb _ ihr =>
      simp only [Forest.bare, typesOf, iha, ihb, ihr]
      rfl

theorem acceptsIn_bare (spec : Spec) (envs : List Env) (f : Forest) :
    acceptsIn spec envs f.bare = acceptsIn spec envs f := by
  induction f generalizing envs with
  | nil => rfl
  | node l a b c rest _ ihb ihc ihr =>
      have hself := typesOf_bare envs (.node l a b c .nil)
      simp only [Forest.bare] at hself
      simp only [Forest.bare, acceptsIn, declareAll_bare, typesOf_bare, ihb, ihc, ihr, hself]
      rfl

theorem acceptsBody_bare (spec : Spec) (globals params : Env) (f : Forest) :
    acceptsBody spec globals params f.bare = acceptsBody spec globals params f := by
  cases f with
  | nil => rfl
  | node l locals stmts c rest =>
      simp only [Forest.bare, acceptsBody, declareAll_bare, acceptsIn_bare]

/-- The checker does not read marks. -/
theorem acceptsFrom_bare (globals : Env) (f : Forest) :
    acceptsFrom globals f.bare = acceptsFrom globals f := by
  induction f generalizing globals with
  | nil => rfl
  | node l a b c rest _ _ _ ih =>
      simp only [Forest.bare, acceptsFrom, signature_bare, declareAll_bare, acceptsBody_bare, ih]
      rfl

end Reference

/-- No name is used before, but on the same line as, a global declaration of it.
What precedes a global declaration is all that stands in the declarations before
it. -/
def Forest.NoEarlyUse (f : Forest) : Prop :=
  f.trees.Pairwise fun t d =>
    ∀ u ∈ (Forest.ofTrees [t]).uses, d.label.kind.name? ≠ some u.1 ∨ d.label.line ≠ u.2

instance (f : Forest) : Decidable f.NoEarlyUse := inferInstanceAs (Decidable (List.Pairwise _ _))

theorem Forest.noEarlyUse_bare {f : Forest} : f.bare.NoEarlyUse ↔ f.NoEarlyUse := by
  have htrees : ∀ g : Forest, g.bare.trees =
      g.trees.map fun t => ⟨t.label.bare, t.first.bare, t.second.bare, t.third.bare⟩ := by
    intro g
    induction g with
    | nil => rfl
    | node l a b c rest _ _ _ ih => simp only [bare, trees, ih, List.map_cons]
  rw [NoEarlyUse, htrees, List.pairwise_map]
  refine List.Pairwise.iff fun t d => ?_
  rw [← uses_bare (ofTrees [t])]
  rfl

end CMinus
