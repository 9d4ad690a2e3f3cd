import CMinus.Proofs.Reference.Checker
import CMinus.Proofs.Scoping.Moments

/-!
# Declarations in order

The first pass reports nothing exactly if the one-pass checker gets through all
declarations.  `Reference.tidyFrom` is that part of the checker by itself: it
enters what a program declares and looks at no expression.

An environment of the checker is compared with a scope of the table through the
list of declarations behind both: the scope means by a name what its first
declaration says, and `Reference.Models` says the same of the environment.  As
long as nothing is reported, no name is declared twice and none as `void`, so
the two keep up with each other.

## Main results

* `Reference.models_of_declareAll`: the environment that a chain leads to;
* `Scoping.reports_eq_nil_iff`: a program is reported on unless it is tidy.
-/

namespace CMinus

namespace Reference

/-- Whether the declarations below those of a block are in order. -/
def tidyIn : Forest → Bool
  | .nil => true
  | .node l a b c rest =>
    (if l.kind = .compound then (declareAll [] a).isSome else tidyIn a) &&
      tidyIn b && tidyIn c && tidyIn rest

/-- Whether the declarations in the block of a function are in order. -/
def tidyBody (params : Env) : Forest → Bool
  | .nil => false
  | .node _ locals stmts _ _ => (declareAll params locals).isSome && tidyIn stmts

/-- Whether all declarations of a program are in order. -/
def tidyFrom : (globals : Env) → Forest → Bool
  | _, .nil => true
  | globals, .node l a b _ rest =>
    match l.kind with
    | .funDecl name spec =>
      match declare globals name ⟨.functionReturning spec, signature a⟩, declareAll [] a with
      | some globals, some params => tidyBody params b && tidyFrom globals rest
      | _, _ => false
    | k =>
      match declareKind globals k with
      | some globals => tidyFrom globals rest
      | none => false

theorem tidyFrom_object {l : Label} (hk : l.kind.isObject = true) (globals : Env)
    (a b c rest : Forest) :
    tidyFrom globals (.node l a b c rest) =
      (declareKind globals l.kind).any (tidyFrom · rest) := by
  cases hl : l.kind <;> simp only [hl, Kind.isObject, Bool.false_eq_true] at hk
  all_goals
    simp only [tidyFrom, hl]
    split
    · next h => rw [h, Option.any_some]
    · next h => rw [h, Option.any_none]

theorem tidyIn_bare (f : Forest) : tidyIn f.bare = tidyIn f := by
  induction f with
  | nil => rfl
  | node l a b c rest iha ihb ihc ihr =>
      simp only [Forest.bare, tidyIn, declareAll_bare, iha, ihb, ihc, ihr]
      rfl

theorem tidyBody_bare (params : Env) (f : Forest) : tidyBody params f.bare = tidyBody params f := by
  cases f with
  | nil => rfl
  | node l locals stmts c rest =>
      simp only [Forest.bare, tidyBody, declareAll_bare, tidyIn_bare]

theorem tidyFrom_bare (globals : Env) (f : Forest) :
    tidyFrom globals f.bare = tidyFrom globals f := by
  induction f generalizing globals with
  | nil => rfl
  | node l a b c rest _ _ _ ih =>
      simp only [Forest.bare, tidyFrom, signature_bare, declareAll_bare, tidyBody_bare, ih]
      rfl

end Reference

/-! ## Environments and declarations -/

/-- What a declaration gives to its name. -/
def Decl.meaning (d : Decl) : Reference.Meaning := ⟨d.ty, d.params⟩

namespace Reference

/-- The environment knows what the declarations say, the first of a name
counting. -/
def Models (env : Env) (ds : List Decl) : Prop :=
  ∀ name, env.lookup name = (Decl.find? ds name).map Decl.meaning

theorem models_nil : Models [] [] := fun _ => rfl

theorem isSome_lookup {env : Env} {ds : List Decl} (h : Models env ds) (name : String) :
    (env.lookup name).isSome = (Decl.find? ds name).isSome := by
  rw [h, Option.isSome_map]

theorem declare_eq_some_iff {env env' : Env} {name : String} {m : Meaning} :
    declare env name m = some env' ↔
      env.lookup name = none ∧ env' = (name, m) :: env := by
  unfold declare
  cases env.lookup name with
  | none => simp [eq_comm]
  | some m' => simp

/-- A new name keeps the environment in step with the declarations. -/
theorem models_of_declare {env env' : Env} {ds : List Decl} (h : Models env ds) {d : Decl}
    (hdeclare : declare env d.name d.meaning = some env') : Models env' (ds ++ [d]) := by
  obtain ⟨hnone, rfl⟩ := declare_eq_some_iff.mp hdeclare
  intro name
  rw [Decl.find?_append, Decl.find?_singleton, List.lookup_cons]
  by_cases hname : name = d.name
  · subst hname
    rw [h] at hnone
    rw [Option.map_eq_none_iff] at hnone
    simp [hnone]
  · have hbeq : (name == d.name) = false := by simpa using hname
    simp [hbeq, hname, h name]

/-- The checker and the table read declarations alike, but for those of type
`void`. -/
theorem object?_eq {k : Kind} {o : Object} (ho : k.object? = some o) :
    object? k = if o.spec = .void then none else some (o.name, o.ty) := by
  cases k <;> simp only [Kind.object?, Option.some.injEq, reduceCtorEq] at ho
  all_goals
    subst ho
    rename Spec => spec
    cases spec <;> rfl

theorem declareKind_eq {k : Kind} {o : Object} (ho : k.object? = some o) (env : Env)
    (line : UInt32) :
    declareKind env k =
      if o.spec = .void then none else declare env o.name (o.decl line).meaning := by
  rw [declareKind, object?_eq ho]
  split <;> rfl

theorem models_of_declareKind {env env' : Env} {ds : List Decl} (h : Models env ds)
    {k : Kind} {o : Object} (ho : k.object? = some o)
    (hdeclare : declareKind env k = some env') (line : UInt32) :
    Models env' (ds ++ [o.decl line]) := by
  rw [declareKind_eq ho env line] at hdeclare
  split at hdeclare
  · exact absurd hdeclare (by simp)
  · exact models_of_declare h hdeclare

/-- Kinds that declare a variable or a parameter. -/
def Declares (admitted : Kind → Bool) : Prop :=
  ∀ k, admitted k = true → ∃ o, k.object? = some o

theorem declares_isObject : Declares Kind.isObject := by
  intro k hk
  cases k <;> simp_all [Kind.isObject, Kind.object?]

theorem declares_isParam : Declares Kind.isParam := by
  intro k hk
  cases k <;> simp_all [Kind.isParam, Kind.object?]

/-- A chain that is in order leads to an environment that knows it. -/
theorem models_of_declareAll {admitted : Kind → Bool} (hadmitted : Declares admitted)
    {a : Forest} (ha : a.Leaves admitted) {env env' : Env} {ds : List Decl}
    (h : Models env ds) (hdeclare : declareAll env a = some env') :
    Models env' (ds ++ a.decls) := by
  induction ha generalizing env ds with
  | nil =>
      cases hdeclare
      simpa using h
  | @cons l rest hk _ ih =>
      obtain ⟨o, ho⟩ := hadmitted l.kind hk
      obtain ⟨next, hnext, hrest⟩ := Option.bind_eq_some_iff.mp hdeclare
      have hmodels := ih (models_of_declareKind h ho hnext l.line) hrest
      rwa [List.append_assoc, List.singleton_append, ← Forest.decls_node ho] at hmodels

/-- Parameters that are in order make up the signature that the table gives to
their function. -/
theorem signature_eq {admitted : Kind → Bool} (hadmitted : Declares admitted) {a : Forest}
    (ha : a.Leaves admitted) {env env' : Env} {seen : List String}
    (hseen : ∀ name, name ∈ seen ↔ (env.lookup name).isSome = true)
    (hdeclare : declareAll env a = some env') :
    signature a = Decl.signature seen a.decls := by
  induction ha generalizing env seen with
  | nil => rfl
  | @cons l rest hk _ ih =>
      obtain ⟨o, ho⟩ := hadmitted l.kind hk
      obtain ⟨next, hnext, hrest⟩ := Option.bind_eq_some_iff.mp hdeclare
      rw [declareKind_eq ho env l.line] at hnext
      split at hnext
      · exact absurd hnext (by simp)
      · next hspec =>
          obtain ⟨hnone, rfl⟩ := declare_eq_some_iff.mp hnext
          have hfresh : o.name ∉ seen := by
            rw [hseen, hnone]
            simp
          have hnext' : ∀ name, name ∈ o.name :: seen ↔
              (List.lookup name ((o.name, (o.decl l.line).meaning) :: env)).isSome = true := by
            intro name
            rw [List.mem_cons, hseen, List.lookup_cons]
            by_cases hname : name = o.name
            · simp [hname]
            · have hbeq : (name == o.name) = false := by simpa using hname
              simp [hname, hbeq]
          have hself : signature (.node l .nil .nil .nil rest) = o.ty :: signature rest := by
            simp [signature, Forest.labels, object?_eq ho, hspec]
          rw [hself, Forest.decls_node ho, ih hnext' hrest]
          simp [Decl.signature, Object.decl, hfresh]

/-- A function that is in order joins the globals with the signature that the
table gives to it. -/
theorem models_of_function {globals next env : Env} {ds : List Decl}
    (h : Models globals ds) {params : Forest} (hparams : params.Leaves Kind.isParam)
    (hall : declareAll [] params = some env) {name : String} {spec : Spec}
    (hdeclare : declare globals name ⟨.functionReturning spec, signature params⟩ = some next)
    (line : UInt32) :
    Models next (ds ++
      [⟨name, .functionReturning spec, Decl.signature [] params.decls, line⟩]) := by
  have hseen : ∀ name', name' ∈ ([] : List String) ↔
      (List.lookup name' ([] : Env)).isSome = true := by simp
  rw [signature_eq declares_isParam hparams hseen hall] at hdeclare
  exact models_of_declare h hdeclare

end Reference

/-! ## Reports and declarations -/

namespace Scoping

open Reference

/-- Entering the declaration of a variable or a parameter. -/
theorem fills_enter {l : Label} {o : Object} (ho : l.kind.object? = some o) {s : Scoping}
    {here : ScopeId} (hv : s.table.Valid) (htop : s.table.top? = some here) :
    Fills here (fun _ => True) [o.decl l.line] s (enter l s).2 := by
  have hkind : l.kind.isObject = true ∨ l.kind.isParam = true := by
    cases hl : l.kind <;> simp_all [Kind.object?, Kind.isObject, Kind.isParam]
  rw [enter_eq l htop]
  rcases hkind with hk | hk
  · obtain ⟨o', ho', hstep⟩ := step_of_object hk
    obtain rfl := Option.some.inj (ho.symm.trans ho')
    rw [hstep]
    exact fills_declareObject hv htop o l.line
  · obtain ⟨o', ho', hstep⟩ := step_of_param hk
    obtain rfl := Option.some.inj (ho.symm.trans ho')
    rw [hstep]
    exact fills_declareParameter hv htop (fun _ _ _ => trivial) o l.line

/-- The scope `here` of the state means by each name what the declarations `ds`
say. -/
def Holds (s : Scoping) (here : ScopeId) (ds : List Decl) : Prop :=
  ∀ name, s.table.meaning? here name = Decl.find? ds name

theorem Fills.holds {here : ScopeId} {P : SymbolId → Prop} {ds ds' : List Decl}
    {s s' : Scoping} (h : Fills here P ds' s s') (hs : s.Holds here ds) :
    s'.Holds here (ds ++ ds') := by
  intro name
  rw [h.entry, hs, Decl.find?_append]

section Declaration

variable {s : Scoping} {here : ScopeId} {env : Env} {ds : List Decl}
  (henv : Models env ds) (hs : s.Holds here ds)

include henv hs

theorem isSome_lookupLocal (name : String) :
    (s.table.lookupLocal here name).isSome = (env.lookup name).isSome := by
  rw [← Table.isSome_meaning?, hs, isSome_lookup henv]

/-- A declaration is reported unless it is in order. -/
theorem complaint_eq_none_iff {l : Label} {o : Object} (ho : l.kind.object? = some o)
    (htop : s.table.top? = some here) :
    s.complaint l = none ↔ (declareKind env l.kind).isSome = true := by
  have hcomplaint : s.complaint l = o.complaint s.table here l.line := by
    rw [complaint, htop, Option.bind_some]
    cases hl : l.kind <;> simp_all [Kind.object?]
  rw [hcomplaint, Object.complaint, isSome_lookupLocal henv hs, declareKind_eq ho env l.line,
    declare]
  by_cases hspec : o.spec = .void
  · simp [hspec]
    split <;> simp
  · cases env.lookup o.name <;> simp [hspec]

/-- A chain of declarations is reported unless it is in order. -/
theorem reports_leaves_eq_nil_iff {admitted : Kind → Bool} (hadmitted : Declares admitted)
    {a : Forest} (ha : a.Leaves admitted) (hv : s.table.Valid)
    (htop : s.table.top? = some here) :
    s.reports a = [] ↔ (declareAll env a).isSome = true := by
  induction ha generalizing s env ds with
  | nil => simp [declareAll]
  | @cons l rest hk _ ih =>
      obtain ⟨o, ho⟩ := hadmitted l.kind hk
      obtain ⟨hc, hf⟩ := not_block_of_object? ho
      have hself := complaint_eq_none_iff henv hs ho htop
      have hfill := fills_enter ho hv htop
      rw [reports_plain hc hf]
      cases hdeclare : declareKind env l.kind with
      | none =>
          rw [hdeclare] at hself
          obtain ⟨d, hd⟩ := Option.ne_none_iff_exists'.mp
            (fun h => by simpa using hself.mp h)
          simp [hd, declareAll, hdeclare]
      | some next =>
          have hnone := hself.mpr (by rw [hdeclare]; rfl)
          have hrest := ih (models_of_declareKind henv ho hdeclare l.line) (hfill.holds hs)
            hfill.valid hfill.top
          simpa [hnone, declareAll, hdeclare] using hrest

end Declaration

/-- Statements are reported unless the declarations among them are in order. -/
theorem reports_inner_eq_nil_iff {f : Forest} (hf : f.Inner) {fn : String}
    {here : ScopeId} {s : Scoping} (hs : Inside fn here s) :
    s.reports f = [] ↔ tidyIn f = true := by
  induction hf generalizing here s with
  | nil => simp [tidyIn]
  | @block l locals stmts rest hk hlocals hstmts _ ihstmts ihrest =>
      have hinside := inside_furnished hs hlocals
      have hblock := passes_block (fills_furnished hs hlocals) (passes_of_inner hstmts hinside)
      have hempty : s.opened.Holds s.table.scopes.size [] :=
        fun name => Table.meaning?_push_self s.table s.blockName name
      have hdecls := reports_leaves_eq_nil_iff models_nil hempty declares_isObject hlocals
        (inside_opened hs).valid (inside_opened hs).top
      rw [reports_block hk hs, List.append_eq_nil_iff, List.append_eq_nil_iff, hdecls,
        ihstmts hinside, ihrest (hblock.inside hs)]
      simp [tidyIn, hk]
  | @plain l a b c rest hk ha hb hc _ iha ihb ihc ihr =>
      obtain ⟨hkc, hkf⟩ := not_block_of_isPlain hk
      have h₁ := (passes_enter_of_plain hk hs).inside hs
      have h₂ := (passes_of_inner ha h₁).inside h₁
      have h₃ := (passes_of_inner hb h₂).inside h₂
      have h₄ := (passes_of_inner hc h₃).inside h₃
      have hself : s.complaint l = none := by
        refine complaint_eq_none ?_ hkf s
        cases hl : l.kind <;> simp_all [Kind.isPlain, Kind.object?]
      rw [reports_plain hkc hkf, hself]
      simp only [Option.toList_none, List.nil_append, List.append_eq_nil_iff, iha h₁, ihb h₂,
        ihc h₃, ihr h₄]
      simp [tidyIn, hkc, and_assoc]

theorem functionComplaint_eq_none_iff {s : Scoping} {globals : Env} {ds : List Decl}
    (henv : Models globals ds) (hs : s.Holds 0 ds) (name : String) (line : UInt32)
    (m : Meaning) :
    functionComplaint s.table 0 name line = none ↔ (declare globals name m).isSome = true := by
  rw [functionComplaint, isSome_lookupLocal henv hs, declare]
  cases globals.lookup name <;> simp

/-- A chain at the outermost level is reported unless its declarations are in
order. -/
theorem reports_outer_eq_nil_iff {f : Forest} (hf : f.Outer) {s : Scoping}
    {globals : Env} {ds : List Decl} (hs : Outside s) (henv : Models globals ds)
    (hds : s.Holds 0 ds) : s.reports f = [] ↔ tidyFrom globals f = true := by
  induction hf generalizing s globals ds with
  | nil => simp [tidyFrom]
  | @object l rest hk _ ih =>
      obtain ⟨o, ho⟩ := declares_isObject l.kind hk
      obtain ⟨hc, hf⟩ := not_block_of_isObject hk
      have hself := complaint_eq_none_iff henv hds ho hs.top
      have hfill := fills_enter ho hs.valid hs.top
      rw [reports_plain hc hf, tidyFrom_object hk]
      cases hdeclare : declareKind globals l.kind with
      | none =>
          rw [hdeclare] at hself
          obtain ⟨d, hd⟩ := Option.ne_none_iff_exists'.mp
            (fun h => by simpa using hself.mp h)
          simp [hd]
      | some next =>
          have hnone := hself.mpr (by rw [hdeclare]; rfl)
          have hrest := ih (adds_enter_of_object hs hk .nil).outside
            (models_of_declareKind henv ho hdeclare l.line) (hfill.holds hds)
          simpa [hnone] using hrest
  | @function l block name spec params locals stmts rest hk hp hblock hl hstmts _ ih =>
      have hadds := adds_finished hk hs hp hl hstmts
      have hinside := inside_headed hk hs hp
      have hself := functionComplaint_eq_none_iff henv hds name l.line
        ⟨.functionReturning spec, signature params⟩
      have hempty : (s.declared name spec l.line).Holds s.table.scopes.size [] :=
        meaning?_declared_self name spec l.line
      have hparams := reports_leaves_eq_nil_iff models_nil hempty declares_isParam hp
        (valid_declared name spec l.line hs) (top?_declared name spec l.line)
      have hheaded : (s.headed l params).Holds s.table.scopes.size ([] ++ params.decls) := by
        rw [headed_eq hk hs]
        exact (fills_params name spec l.line hs hp).holds hempty
      have hbody := reports_inner_eq_nil_iff hstmts (inside_equipped hk hs hp hl)
      rw [reports_function hk hs hp hblock hl hstmts, tidyFrom, hk]
      simp only [List.append_eq_nil_iff, Option.toList_eq_nil_iff, hself, hparams, hbody]
      cases hglobals : declare globals name ⟨.functionReturning spec, signature params⟩ with
      | none => simp
      | some next =>
          cases hdeclare : declareAll [] params with
          | none => simp
          | some env =>
              have henv' := models_of_declareAll declares_isParam hp models_nil hdeclare
              have hlocals := reports_leaves_eq_nil_iff henv' hheaded declares_isObject hl
                hinside.valid hinside.top
              have hnext := models_of_function henv hp hdeclare hglobals l.line
              have hfinal : (s.finished l params locals stmts).Holds 0 (ds ++
                  [⟨name, .functionReturning spec, Decl.signature [] params.decls, l.line⟩]) := by
                intro name'
                rw [hadds.entry, hds, Label.global?_of_function hk, Decl.find?_append]
                rfl
              simp [hlocals, ih hadds.outside hnext hfinal, tidyBody, and_assoc]

end Scoping

/-- Both sides start with the same built-in functions. -/
theorem Reference.models_builtins : Models builtins Scoping.builtins := by
  intro name
  simp only [builtins, Scoping.builtins, Decl.find?, List.find?_cons, List.lookup_cons,
    List.lookup_nil, List.find?_nil]
  by_cases hin : name = "input"
  · simp [hin, Decl.meaning]
  · by_cases hout : name = "output"
    · simp [hout, Decl.meaning]
    · have hin' : (name == "input") = false := by simpa using hin
      have hout' : (name == "output") = false := by simpa using hout
      simp [hin', hout', Ne.symm hin, Ne.symm hout]

/-- A program is reported on unless its declarations are in order. -/
theorem Scoping.reports_eq_nil_iff {f : Forest} (hf : f.Outer) :
    start.reports f = [] ↔ Reference.tidyFrom Reference.builtins f = true :=
  reports_outer_eq_nil_iff hf outside_start Reference.models_builtins meaning?_start

end CMinus
