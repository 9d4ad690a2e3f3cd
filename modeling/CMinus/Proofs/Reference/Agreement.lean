import CMinus.Proofs.Reference.Expressions
import CMinus.Proofs.Typing.Returns

/-!
# Two passes against one

The two passes report nothing about a program exactly if the one-pass checker
accepts it.  Declarations and expressions have been compared already; what is
left is to follow the checker through the statements of a function and through
the functions of a program, and to show on the way that its environments go on
holding what the marks of the tree lead to in the table.

In a block the new environment and the scope of the block list the same
declarations, none on a later line than the statements, so the line of a use
rules none of them out.  At the outermost level the table also holds what is only declared later.
It does not count, because it begins on a later line than the use, unless a use
stands on the very line of a later declaration: `Forest.NoEarlyUse` rules that
out.

## Main results

* `Reference.clean_iff_acceptsIn`: statements;
* `Reference.clean_iff_acceptsFrom`: a chain of global declarations;
* `analyze_agrees`: programs.
-/

namespace CMinus

namespace Reference

open Typing

/-! ## The lines of declarations -/

theorem line_mem_of_mem_decls {f : Forest} {d : Decl} (hd : d ∈ f.decls) :
    d.line ∈ f.lines := by
  obtain ⟨l, hl, hdecl⟩ := List.mem_filterMap.mp hd
  obtain ⟨o, _, rfl⟩ := Option.map_eq_some_iff.mp hdecl
  exact List.mem_map_of_mem (Forest.mem_preorder_of_mem_labels hl)

/-- A declaration at the outermost level has the name and the line of its node. -/
theorem eq_of_global? {l : Label} {params : Forest} {d : Decl}
    (hd : l.global? params = some d) : l.kind.name? = some d.name ∧ l.line = d.line := by
  unfold Label.global? at hd
  split at hd
  · next name spec hl =>
      obtain rfl := Option.some.inj hd
      exact ⟨by rw [hl]; rfl, rfl⟩
  · obtain ⟨o, ho, rfl⟩ := Option.map_eq_some_iff.mp hd
    exact ⟨Kind.name?_of_object? ho, rfl⟩

theorem exists_tree_of_mem_globals {f : Forest} {d : Decl} (hd : d ∈ f.globals) :
    ∃ t ∈ f.trees, t.label.kind.name? = some d.name ∧ t.label.line = d.line := by
  induction f with
  | nil => simp [Forest.globals] at hd
  | node l a b c rest _ _ _ ih =>
      simp only [Forest.globals, List.mem_append, Option.mem_toList] at hd
      rcases hd with hd | hd
      · exact ⟨⟨l, a, b, c⟩, by simp [Forest.trees], eq_of_global? hd⟩
      · obtain ⟨t, ht, hself⟩ := ih hd
        exact ⟨t, by simp [Forest.trees, ht], hself⟩

theorem line_mem_of_mem_globals {f : Forest} {d : Decl} (hd : d ∈ f.globals) :
    d.line ∈ f.lines := by
  obtain ⟨t, ht, _, hline⟩ := exists_tree_of_mem_globals hd
  rw [← hline]
  exact List.mem_map_of_mem (List.mem_map_of_mem (Forest.mem_nodes_of_mem_trees ht))

/-! ## Environments without poison -/

theorem noPoison_cons {env : Env} {envs : List Env} (henv : NoPoison [env])
    (henvs : NoPoison envs) : NoPoison (env :: envs) := by
  intro name m hm
  rw [resolve_cons] at hm
  cases hlookup : env.lookup name with
  | none => exact henvs name m (by simpa [hlookup] using hm)
  | some m' => exact henv name m (by simpa [resolve_cons, hlookup] using hm)

theorem noPoison_empty : NoPoison [[]] := by
  intro name m hm
  simp [resolve] at hm

theorem noPoison_of_declare {env env' : Env} (h : NoPoison [env]) {name : String}
    {m : Meaning} (hty : m.ty ≠ .poison) (hparams : Ty.poison ∉ m.params)
    (hdeclare : declare env name m = some env') : NoPoison [env'] := by
  obtain ⟨_, rfl⟩ := declare_eq_some_iff.mp hdeclare
  intro name' m' hm'
  by_cases hname : name' = name
  · subst hname
    obtain rfl : m = m' := by simpa [resolve] using hm'
    exact ⟨hty, hparams⟩
  · have hbeq : (name' == name) = false := by simpa using hname
    exact h name' m' (by simpa [resolve, List.lookup_cons, hbeq] using hm')

theorem noPoison_builtins : NoPoison [builtins] := by
  have houtput : NoPoison [[("output", ⟨.voidFunction, [.int]⟩)]] :=
    noPoison_of_declare noPoison_empty (by decide) (by decide) rfl
  have hinput : declare [("output", ⟨.voidFunction, [.int]⟩)] "input" ⟨.intFunction, []⟩ =
      some builtins := by decide
  exact noPoison_of_declare houtput (by decide) (by decide) hinput

/-- What can be declared is an integer or an array of them. -/
theorem object?_ne_poison {k : Kind} {name : String} {ty : Ty}
    (h : object? k = some (name, ty)) : ty ≠ .poison := by
  unfold object? at h
  split at h <;> simp_all <;> simp [← h.2]

theorem noPoison_of_declareKind {env env' : Env} (h : NoPoison [env]) {k : Kind}
    (hdeclare : declareKind env k = some env') : NoPoison [env'] := by
  obtain ⟨⟨name, ty⟩, hobject, hdeclare⟩ := Option.bind_eq_some_iff.mp hdeclare
  exact noPoison_of_declare h (object?_ne_poison hobject) (by simp) hdeclare

theorem noPoison_of_declareAll {env env' : Env} (h : NoPoison [env]) {a : Forest}
    (hdeclare : declareAll env a = some env') : NoPoison [env'] := by
  induction a generalizing env with
  | nil =>
      cases hdeclare
      exact h
  | node l _ _ _ rest _ _ _ ih =>
      obtain ⟨next, hnext, hrest⟩ := Option.bind_eq_some_iff.mp hdeclare
      exact ih (noPoison_of_declareKind h hnext) hrest

theorem poison_notMem_signature (a : Forest) : Ty.poison ∉ signature a := by
  intro h
  obtain ⟨l, _, hmap⟩ := List.mem_filterMap.mp h
  obtain ⟨⟨name, ty⟩, hobject, rfl⟩ := Option.map_eq_some_iff.mp hmap
  exact object?_ne_poison hobject rfl

/-! ## Statements -/

variable {poisonFailed : Bool} {table : Table}

variable (poisonFailed table) in
/-- Neither pass has anything to say about a chain of statements. -/
def Clean (f : Forest) : Prop := tidyIn f = true ∧ Quiet poisonFailed table f

theorem clean_nil : Clean poisonFailed table .nil := ⟨rfl, quiet_nil _ _⟩

/-- A chain is checked node by node. -/
theorem clean_cons {l : Label} {a b c rest : Forest} :
    Clean poisonFailed table (.node l a b c rest) ↔
      Clean poisonFailed table (.node l a b c .nil) ∧ Clean poisonFailed table rest := by
  have hnil := quiet_nil poisonFailed table
  simp only [Clean, quiet_node, tidyIn, Bool.and_eq_true]
  constructor
  · rintro ⟨⟨htidy, hrest⟩, ha, hb, hc, hself, hqrest⟩
    exact ⟨⟨⟨htidy, trivial⟩, ha, hb, hc, hself, hnil⟩, hrest, hqrest⟩
  · rintro ⟨⟨⟨htidy, _⟩, ha, hb, hc, hself, _⟩, hrest, hqrest⟩
    exact ⟨⟨htidy, hrest⟩, ha, hb, hc, hself, hqrest⟩

theorem acceptsIn_cons (spec : Spec) (envs : List Env) (l : Label) (a b c rest : Forest) :
    acceptsIn spec envs (.node l a b c rest) =
      (acceptsIn spec envs (.node l a b c .nil) && acceptsIn spec envs rest) := by
  simp only [acceptsIn, Bool.and_true]

/-- Expressions declare nothing. -/
theorem tidyIn_of_isExpr {f : Forest} {r : Role} (hr : r.isExpr = true)
    (h : f.fits r = true) : tidyIn f = true := by
  induction f generalizing r with
  | nil => rfl
  | node l a b c rest iha ihb ihc ihr =>
      obtain ⟨hadmits, ha, hb, hc, hrest⟩ := Forest.fits_node.mp h
      have hk := Forest.isExpr_of_admits hr hadmits
      have hslot := Forest.isExpr_role hk
      have hcompound : l.kind ≠ .compound := by
        rintro h
        simp [h, Kind.isExpr] at hk
      simp [tidyIn, hcompound, iha (hslot .first) ha, ihb (hslot .second) hb,
        ihc (hslot .third) hc, ihr (Forest.isExpr_after hr) hrest]

/-- Declarations are not the business of the second pass. -/
theorem quiet_leaf {admitted : Kind → Bool} (hadmitted : Declares admitted) {l : Label}
    (hk : admitted l.kind = true) {rest : Forest} :
    Quiet poisonFailed table (.node l .nil .nil .nil rest) ↔
      Quiet poisonFailed table rest := by
  obtain ⟨o, ho⟩ := hadmitted l.kind hk
  have hself : (verdict poisonFailed table l .nil .nil .nil).complaint = none := by
    cases hl : l.kind <;> simp_all [Kind.object?, verdict, judge]
  have hnil := quiet_nil poisonFailed table
  rw [quiet_node]
  exact ⟨fun h => h.2.2.2.2, fun h => ⟨hnil, hnil, hnil, hself, h⟩⟩

theorem quiet_of_leaves {admitted : Kind → Bool} (hadmitted : Declares admitted)
    {f : Forest} (h : f.Leaves admitted) : Quiet poisonFailed table f := by
  induction h with
  | nil => exact quiet_nil _ _
  | cons hk _ ih => exact (quiet_leaf hadmitted hk).mpr ih

theorem Agrees.quiet_iff {f : Forest} {ts : Option (List Ty)}
    (h : Agrees poisonFailed table f ts) : Quiet poisonFailed table f ↔ ts.isSome = true := by
  cases ts with
  | none => simpa [Agrees] using h
  | some ts => simpa using h.1

/-- An operand is an integer for both sides or for none. -/
theorem Agrees.int_iff {f : Forest} (hfits : f.fits .operand = true)
    {ts : Option (List Ty)} (h : Agrees poisonFailed table f ts) :
    Quiet poisonFailed table f ∧ (typed poisonFailed table f).ty? = some .int ↔
      ts = some [.int] := by
  cases ts with
  | none => simp [show ¬Quiet poisonFailed table f from h]
  | some ts =>
      obtain ⟨hquiet, htys, _⟩ := h
      obtain ⟨ty, rfl⟩ := exists_tys_eq rfl hfits htys
      rw [ty?_typed_of_tys_eq htys]
      simp [hquiet]

/-- A single node that is no block, with nothing declared in its first slot. -/
theorem clean_plain {l : Label} {a b c : Forest} (hk : l.kind ≠ .compound)
    (ha : tidyIn a = true) :
    Clean poisonFailed table (.node l a b c .nil) ↔
      Quiet poisonFailed table a ∧ Clean poisonFailed table b ∧ Clean poisonFailed table c ∧
        (verdict poisonFailed table l a b c).complaint = none := by
  have hnil := quiet_nil poisonFailed table
  simp only [Clean, quiet_node, tidyIn, hk, if_false, ha, Bool.true_and, Bool.and_true,
    Bool.and_eq_true]
  constructor
  · rintro ⟨⟨htb, htc⟩, hqa, hqb, hqc, hself, _⟩
    exact ⟨hqa, ⟨htb, hqb⟩, ⟨htc, hqc⟩, hself⟩
  · rintro ⟨hqa, ⟨htb, hqb⟩, ⟨htc, hqc⟩, hself⟩
    exact ⟨⟨htb, htc⟩, hqa, hqb, hqc, hself, hnil⟩

/-- A single block. -/
theorem clean_block {l : Label} {locals stmts : Forest} (hk : l.kind = .compound)
    (hlocals : locals.Leaves Kind.isObject) :
    Clean poisonFailed table (.node l locals stmts .nil .nil) ↔
      (declareAll [] locals).isSome = true ∧ Clean poisonFailed table stmts := by
  have hnil := quiet_nil poisonFailed table
  have hquiet : Quiet poisonFailed table locals := quiet_of_leaves declares_isObject hlocals
  have hself : (verdict poisonFailed table l locals stmts .nil).complaint = none := by
    rw [verdict, judge, hk]
  simp only [Clean, quiet_node, tidyIn, hk, if_true, Bool.and_true, Bool.and_eq_true]
  constructor
  · rintro ⟨⟨hdeclare, htidy⟩, _, hqstmts, _⟩
    exact ⟨hdeclare, htidy, hqstmts⟩
  · rintro ⟨hdeclare, htidy, hqstmts⟩
    exact ⟨⟨hdeclare, htidy⟩, hquiet, hqstmts, hnil, hself, hnil⟩

section Statements

variable {fn : String} {spec : Spec} {id : SymbolId}
  (hty : table.tyOf? id = some (.functionReturning spec))
  (howner : ∀ scope, table.Within fn scope → table.enclosing scope =
    if table.isFunction id then .function id else .redefined)

variable {envs : List Env} {l : Label} {a b c : Forest}

/-- Expressions, as statements. -/
theorem clean_expr (hfits : (Forest.node l a b c .nil).fits .operand = true)
    (h : Agrees poisonFailed table (.node l a b c .nil)
      (typesOf envs (.node l a b c .nil))) :
    Clean poisonFailed table (.node l a b c .nil) ↔
      acceptsIn spec envs (.node l a b c .nil) = true := by
  have hk : l.kind.isExpr = true := (Forest.fits_node.mp hfits).1
  have haccepts : acceptsIn spec envs (.node l a b c .nil) =
      (typesOf envs (.node l a b c .nil)).isSome := by
    cases hl : l.kind <;> simp_all [Kind.isExpr, acceptsIn]
  rw [haccepts, ← h.quiet_iff, Clean, tidyIn_of_isExpr rfl hfits]
  simp

/-- Conditionals and loops. -/
theorem clean_condition (hk : l.kind = .ifThen ∨ l.kind = .ifElse ∨ l.kind = .whileDo)
    (hfits : a.fits .operand = true) (ha : Agrees poisonFailed table a (typesOf envs a))
    (hb : Clean poisonFailed table b ↔ acceptsIn spec envs b = true)
    (hc : Clean poisonFailed table c ↔ acceptsIn spec envs c = true) :
    Clean poisonFailed table (.node l a b c .nil) ↔
      acceptsIn spec envs (.node l a b c .nil) = true := by
  have hcompound : l.kind ≠ .compound := by
    rcases hk with hk | hk | hk <;> simp [hk]
  have hself : (verdict poisonFailed table l a b c).complaint = none ↔
      (typed poisonFailed table a).ty? = some .int := by
    rcases hk with hk | hk | hk <;> simp [verdict, judge, hk, Verdict.statement]
  have haccepts : acceptsIn spec envs (.node l a b c .nil) =
      (decide (typesOf envs a = some [.int]) && acceptsIn spec envs b &&
        acceptsIn spec envs c) := by
    rcases hk with hk | hk | hk <;> simp [acceptsIn, hk]
  rw [clean_plain hcompound (tidyIn_of_isExpr rfl hfits), hself, hb, hc, haccepts]
  simp only [Bool.and_eq_true, decide_eq_true_eq, ← ha.int_iff hfits]
  constructor
  · rintro ⟨hquiet, haccb, haccc, hint⟩
    exact ⟨⟨⟨hquiet, hint⟩, haccb⟩, haccc⟩
  · rintro ⟨⟨⟨hquiet, hint⟩, haccb⟩, haccc⟩
    exact ⟨hquiet, haccb, haccc, hint⟩

include hty howner

theorem clean_returnValue (hk : l.kind = .returnValue) {scope : ScopeId}
    (hscope : l.marks.scope = some scope) (hwithin : table.Within fn scope)
    (hfits : a.fits .operand = true) (ha : Agrees poisonFailed table a (typesOf envs a)) :
    Clean poisonFailed table (.node l a .nil .nil .nil) ↔
      acceptsIn spec envs (.node l a .nil .nil .nil) = true := by
  have hself : (verdict poisonFailed table l a .nil .nil).complaint = none ↔
      spec = .int ∧ (typed poisonFailed table a).ty? = some .int := by
    rw [verdict, judge_returnValue hscope hty (howner scope hwithin) hk]
    cases spec <;> simp [Ty.functionReturning]
  have haccepts : acceptsIn spec envs (.node l a .nil .nil .nil) =
      (decide (spec = .int) && decide (typesOf envs a = some [.int])) := by
    simp [acceptsIn, hk]
  rw [clean_plain (by simp [hk]) (tidyIn_of_isExpr rfl hfits), hself, haccepts]
  simp only [Bool.and_eq_true, decide_eq_true_eq, ← ha.int_iff hfits]
  constructor
  · rintro ⟨hquiet, _, _, hspec, hint⟩
    exact ⟨hspec, hquiet, hint⟩
  · rintro ⟨hspec, hquiet, hint⟩
    exact ⟨hquiet, clean_nil, clean_nil, hspec, hint⟩

theorem clean_returnVoid (hk : l.kind = .returnVoid) {scope : ScopeId}
    (hscope : l.marks.scope = some scope) (hwithin : table.Within fn scope) :
    Clean poisonFailed table (.node l .nil .nil .nil .nil) ↔
      acceptsIn spec envs (.node l .nil .nil .nil .nil) = true := by
  have hself : (verdict poisonFailed table l .nil .nil .nil).complaint = none ↔
      spec = .void := by
    rw [verdict, judge_returnVoid hscope hty (howner scope hwithin) hk]
    cases spec <;> simp [Ty.functionReturning]
  have haccepts : acceptsIn spec envs (.node l .nil .nil .nil .nil) =
      decide (spec = .void) := by
    simp [acceptsIn, hk]
  rw [clean_plain (by simp [hk]) rfl, hself, haccepts, decide_eq_true_eq]
  constructor
  · rintro ⟨_, _, _, hspec⟩
    exact hspec
  · intro hspec
    exact ⟨quiet_nil _ _, clean_nil, clean_nil, hspec⟩

/-- One statement that is neither a block nor an expression, given agreement about
its operand and its branches. -/
theorem clean_statement (hplain : l.kind.isPlain = true) (hexpr : ¬l.kind.isExpr = true)
    {here : ScopeId} (hscope : l.marks.scope = some here) (hwithin : table.Within fn here)
    (ha : a.fits (l.kind.role .first) = true) (hb : b.fits (l.kind.role .second) = true)
    (hc : c.fits (l.kind.role .third) = true)
    (hoperand : a.fits .operand = true → Agrees poisonFailed table a (typesOf envs a))
    (hsecond : b.fits .statements = true →
      (Clean poisonFailed table b ↔ acceptsIn spec envs b = true))
    (hthird : c.fits .statements = true →
      (Clean poisonFailed table c ↔ acceptsIn spec envs c = true)) :
    Clean poisonFailed table (.node l a b c .nil) ↔
      acceptsIn spec envs (.node l a b c .nil) = true := by
  cases hk : l.kind <;> rw [hk] at ha hb hc
  case ifThen =>
    obtain rfl := Forest.eq_nil_of_fits_absent hc
    exact clean_condition (.inl hk) ha (hoperand ha) (hsecond hb) (hthird rfl)
  case ifElse =>
    exact clean_condition (.inr (.inl hk)) ha (hoperand ha) (hsecond hb) (hthird hc)
  case whileDo =>
    obtain rfl := Forest.eq_nil_of_fits_absent hc
    exact clean_condition (.inr (.inr hk)) ha (hoperand ha) (hsecond hb) (hthird rfl)
  case returnValue =>
    obtain rfl := Forest.eq_nil_of_fits_absent hb
    obtain rfl := Forest.eq_nil_of_fits_absent hc
    exact clean_returnValue hty howner hk hscope hwithin ha (hoperand ha)
  case returnVoid =>
    obtain rfl := Forest.eq_nil_of_fits_absent ha
    obtain rfl := Forest.eq_nil_of_fits_absent hb
    obtain rfl := Forest.eq_nil_of_fits_absent hc
    exact clean_returnVoid hty howner hk hscope hwithin
  case op | const | var | assign | call => simp [hk, Kind.isExpr] at hexpr
  all_goals simp [hk, Kind.isPlain] at hplain

/-- Where the names that are used mean the same, both sides agree about the
statements of a function. -/
theorem clean_iff_acceptsIn {g : Forest} (hfits : g.fits .statements = true)
    {here : ScopeId} (hv : table.Valid) (hlex : g.LexicalIn table fn here)
    (hwithin : table.Within fn here) (hlines : g.lines.Pairwise (· ≤ ·)) {envs : List Env}
    (henvs : NoPoison envs) (hsees : Sees table here envs g.uses) :
    Clean poisonFailed table g ↔ acceptsIn spec envs g = true := by
  induction g generalizing here envs with
  | nil => simp [clean_nil, acceptsIn]
  | node l a b c rest _ ihb ihc ihr =>
      obtain ⟨hadmits, ha, hb, hc, hrest⟩ := Forest.fits_node.mp hfits
      obtain ⟨hsa, hsb, hsc, hsrest⟩ := hsees.parts
      rw [Forest.lines_node, List.pairwise_cons] at hlines
      simp only [List.pairwise_append] at hlines
      obtain ⟨_, ⟨⟨⟨_, hlb, hab⟩, hlc, _⟩, hlrest, _⟩⟩ := hlines
      rw [clean_cons, acceptsIn_cons, Bool.and_eq_true]
      cases hlex with
      | @block _ id _ _ _ _ _ hk _ hheading hentry _ hxb _ hxrest =>
          refine and_congr ?_ (ihr hrest hxrest hwithin hlrest henvs hsrest)
          rw [hk] at ha hb hc
          obtain rfl := Forest.eq_nil_of_fits_absent hc
          have hlocals := Forest.leaves_of_fits_locals ha
          rw [clean_block hk hlocals]
          -- only here do scope and environments change, and both by the same declarations
          cases hdeclare : declareAll [] a with
          | none => simp [acceptsIn, hk, hdeclare]
          | some env =>
              have hmodels := models_of_declareAll declares_isObject hlocals models_nil hdeclare
              have hsees' : Sees table id (env :: envs) b.uses := by
                refine hsb.block hv hheading hentry hmodels ?_
                intro d hd u hu
                exact hab _ (line_mem_of_mem_decls hd) _ (Forest.line_mem_of_mem_uses hu)
              have henv := noPoison_of_declareAll noPoison_empty hdeclare
              have hbody := ihb hb hxb (Table.within_block hheading hentry hwithin) hlb
                (noPoison_cons henv henvs) hsees'
              simp [hbody, acceptsIn, hk, hdeclare]
      | plain hcompound hscope hxa hxb hxc hxrest =>
          refine and_congr ?_ (ihr hrest hxrest hwithin hlrest henvs hsrest)
          have hplain : l.kind.isPlain = true := by simpa [Role.admits, hcompound] using hadmits
          by_cases hexpr : l.kind.isExpr = true
          · have hnode : (Forest.node l a b c .nil).fits .operand = true :=
              Forest.fits_node.mpr ⟨hexpr, ha, hb, hc, rfl⟩
            have hself : Sees table here envs (Forest.node l a b c .nil).uses := by
              rw [Forest.uses_cons] at hsees
              exact hsees.mono fun u hu => List.mem_append_left _ hu
            exact clean_expr hnode (agrees_exprs henvs rfl hnode
              (.plain hcompound hscope hxa hxb hxc .nil) hself)
          · exact clean_statement hty howner hplain hexpr hscope hwithin ha hb hc
              (fun ha => agrees_exprs henvs rfl ha hxa hsa)
              (fun hb => ihb hb hxb hwithin hlb henvs hsb)
              (fun hc => ihc hc hxc hwithin hlc henvs hsc)

/-- The same about the block of a function, whose declarations join the
parameters. -/
theorem clean_iff_acceptsBody {block : Label} {params locals stmts : Forest}
    (hparams : params.Leaves Kind.isParam) (hlocals : locals.Leaves Kind.isObject)
    (hstmts : stmts.fits .statements = true) {here : ScopeId} (hv : table.Valid)
    (hheading : table.heading? here = some (fn, some 0))
    (hentry : ∀ name, table.meaning? here name =
      Decl.find? (params.decls ++ locals.decls) name)
    (hlex : stmts.LexicalIn table fn here) (hlines : stmts.lines.Pairwise (· ≤ ·))
    (hbefore : ∀ d ∈ params.decls ++ locals.decls, ∀ line ∈ stmts.lines, d.line ≤ line)
    {globals env : Env} (hglobals : NoPoison [globals])
    (hsees : Sees table 0 [globals] stmts.uses) (hdeclare : declareAll [] params = some env) :
    tidyBody env (.node block locals stmts .nil .nil) = true ∧ Quiet poisonFailed table stmts ↔
      acceptsBody spec globals env (.node block locals stmts .nil .nil) = true := by
  cases hall : declareAll env locals with
  | none => simp [tidyBody, acceptsBody, hall]
  | some env' =>
      have hmodels := models_of_declareAll declares_isObject hlocals
        (models_of_declareAll declares_isParam hparams models_nil hdeclare) hall
      have henv := noPoison_of_declareAll (noPoison_of_declareAll noPoison_empty hdeclare) hall
      have hsees' : Sees table here [env', globals] stmts.uses := by
        refine hsees.block hv hheading hentry hmodels ?_
        intro d hd u hu
        exact hbefore d hd _ (Forest.line_mem_of_mem_uses hu)
      have hbody : Clean poisonFailed table stmts ↔
          acceptsIn spec [env', globals] stmts = true :=
        clean_iff_acceptsIn hty howner hstmts hv hlex (Table.within_body hheading hentry) hlines
          (noPoison_cons henv hglobals) hsees'
      simpa [tidyBody, acceptsBody, hall, Clean] using hbody

end Statements

/-! ## Programs -/

variable (table) in
/-- The checker has come as far as the chain `g`: its environment holds the
declarations `ds` before the chain, and the table means by a name what these and
then the chain itself say. -/
structure ArrivesAt (globals : Env) (ds : List Decl) (g : Forest) : Prop where
  models : Models globals ds
  noPoison : NoPoison [globals]
  lines : g.lines.Pairwise (· ≤ ·)
  early : g.NoEarlyUse
  before : ∀ d ∈ ds, ∀ line ∈ g.lines, d.line ≤ line
  meaning : ∀ name, table.meaning? 0 name = Decl.find? (ds ++ g.globals) name

namespace ArrivesAt

variable {globals next : Env} {ds : List Decl} {l : Label} {a b c rest : Forest}
  (h : ArrivesAt table globals ds (.node l a b c rest))

include h

/-- What is declared behind a node begins on a later line than the uses in it. -/
theorem later {d : Decl} (hd : d ∈ rest.globals) {u : String × UInt32}
    (hu : u ∈ (Forest.node l a b c .nil).uses) (hname : d.name = u.1) : ¬d.line ≤ u.2 := by
  obtain ⟨t, ht, htname, htline⟩ := exists_tree_of_mem_globals hd
  have hne : d.line ≠ u.2 := by
    rcases (List.pairwise_cons.mp h.early).1 t ht u hu with h | h
    · exact absurd (htname.trans (congrArg some hname)) h
    · rwa [htline] at h
  have hle : u.2 ≤ d.line := by
    have hlines := h.lines
    rw [Forest.lines_cons, List.pairwise_append] at hlines
    exact hlines.2.2 _ (Forest.line_mem_of_mem_uses hu) _ (line_mem_of_mem_globals hd)
  exact fun h => hne (UInt32.le_antisymm h hle)

section Declared

variable {d : Decl} (hd : l.global? a = some d)

include hd

theorem meaning_next (name : String) :
    table.meaning? 0 name = Decl.find? (ds ++ [d] ++ rest.globals) name := by
  rw [h.meaning name, Forest.globals, hd, List.append_assoc]
  rfl

/-- The declaration of the node counts for all that is in the node. -/
theorem line_le {d' : Decl} (hd' : d' ∈ ds ++ [d]) {line : UInt32}
    (hline : line ∈ (Forest.node l a b c rest).lines) : d'.line ≤ line := by
  rcases List.mem_append.mp hd' with hd' | hd'
  · exact h.before d' hd' line hline
  · obtain rfl := List.mem_singleton.mp hd'
    have hlines := h.lines
    rw [Forest.lines_node, List.pairwise_cons] at hlines
    rw [Forest.lines_node, List.mem_cons] at hline
    rw [← (eq_of_global? hd).2]
    rcases hline with rfl | hline
    · exact UInt32.le_refl _
    · exact hlines.1 line hline

/-- The checker arrives at the rest of the chain. -/
theorem step (hmodels : Models next (ds ++ [d])) (hpoison : NoPoison [next]) :
    ArrivesAt table next (ds ++ [d]) rest where
  models := hmodels
  noPoison := hpoison
  lines := by
    have hlines := h.lines
    rw [Forest.lines_cons, List.pairwise_append] at hlines
    exact hlines.2.1
  early := (List.pairwise_cons.mp h.early).2
  before := by
    intro d' hd' line hline
    refine h.line_le hd hd' ?_
    rw [Forest.lines_cons]
    exact List.mem_append_right _ hline
  meaning := h.meaning_next hd

/-- What is used in the node means what the checker has seen declared. -/
theorem sees (hheading : table.heading? 0 = some (globalName, none))
    (hmodels : Models next (ds ++ [d])) :
    Sees table 0 [next] (Forest.node l a b c .nil).uses := by
  refine sees_globals hheading (h.meaning_next hd) hmodels ?_ ?_
  · intro d' hd' u hu
    refine h.line_le hd hd' ?_
    rw [Forest.lines_cons]
    exact List.mem_append_left _ (Forest.line_mem_of_mem_uses hu)
  · intro d' hd' u hu hname
    exact h.later hd' hu hname

end Declared

end ArrivesAt

/-- The statements of a function are behind its declarations. -/
theorem lines_function {l block : Label} {params locals stmts rest : Forest}
    (hlines : (Forest.node l params (.node block locals stmts .nil .nil) .nil
      rest).lines.Pairwise (· ≤ ·)) :
    stmts.lines.Pairwise (· ≤ ·) ∧
      ∀ d ∈ params.decls ++ locals.decls, ∀ line ∈ stmts.lines, d.line ≤ line := by
  simp only [Forest.lines_node, Forest.lines_nil, List.append_nil, List.pairwise_cons,
    List.pairwise_append, List.mem_append, List.mem_cons] at hlines
  obtain ⟨_, ⟨_, ⟨_, _, hstmts, hlocals⟩, hparams⟩, _⟩ := hlines
  refine ⟨hstmts, ?_⟩
  intro d hd line hline
  rcases List.mem_append.mp hd with hd | hd
  · exact hparams _ (line_mem_of_mem_decls hd) line (.inr (.inr hline))
  · exact hlocals _ (line_mem_of_mem_decls hd) line hline

theorem quiet_function {l block : Label} {name : String} {spec : Spec}
    {params locals stmts rest : Forest} (hk : l.kind = .funDecl name spec)
    (hblock : block.kind = .compound) (hparams : params.Leaves Kind.isParam)
    (hlocals : locals.Leaves Kind.isObject) :
    Quiet poisonFailed table (.node l params (.node block locals stmts .nil .nil) .nil rest) ↔
      Quiet poisonFailed table stmts ∧ Quiet poisonFailed table rest := by
  have hnil := quiet_nil poisonFailed table
  have hqp : Quiet poisonFailed table params := quiet_of_leaves declares_isParam hparams
  have hql : Quiet poisonFailed table locals := quiet_of_leaves declares_isObject hlocals
  have hself : (verdict poisonFailed table l params
      (.node block locals stmts .nil .nil) .nil).complaint = none := by
    rw [verdict, judge, hk]
  have hbody : (verdict poisonFailed table block locals stmts .nil).complaint = none := by
    rw [verdict, judge, hblock]
  rw [quiet_node, quiet_node]
  constructor
  · rintro ⟨_, ⟨_, hstmts, _⟩, _, _, hrest⟩
    exact ⟨hstmts, hrest⟩
  · rintro ⟨hstmts, hrest⟩
    exact ⟨hqp, ⟨hql, hstmts, hnil, hbody, hnil⟩, hnil, hself, hrest⟩

/-- A function whose name is new is what the table means by that name. -/
theorem exists_owner {globals next : Env} {ds later : List Decl} (henv : Models globals ds)
    {name : String} {m : Meaning} (hdeclare : declare globals name m = some next) {d : Decl}
    (hmeaning : table.meaning? 0 name = Decl.find? (ds ++ [d] ++ later) name)
    (hname : d.name = name) :
    ∃ id, table.lookupLocal 0 name = some id ∧ table.tyOf? id = some d.ty := by
  have hnone : Decl.find? ds name = none := by
    have hlookup := (declare_eq_some_iff.mp hdeclare).1
    rwa [henv, Option.map_eq_none_iff] at hlookup
  refine Table.tyOf?_of_meaning? (hmeaning.trans ?_)
  rw [Decl.find?_append, Decl.find?_append, hnone, Decl.find?_singleton]
  simp [hname]

/-- Both sides agree about a chain of global declarations. -/
theorem clean_iff_acceptsFrom {g : Forest} (hfits : g.fits .program = true)
    (hv : table.Valid) (hheading : table.heading? 0 = some (globalName, none))
    (hlex : g.Lexical table) {globals : Env} {ds : List Decl}
    (h : ArrivesAt table globals ds g) :
    tidyFrom globals g = true ∧ Quiet poisonFailed table g ↔ acceptsFrom globals g = true := by
  induction hlex generalizing globals ds with
  | nil => simp [tidyFrom, acceptsFrom, quiet_nil]
  | @object l rest hk _ _ ih =>
      obtain ⟨o, ho⟩ := declares_isObject l.kind hk
      have hrest := (Forest.fits_node.mp hfits).2.2.2.2
      rw [tidyFrom_object hk, acceptsFrom_object hk, quiet_leaf declares_isObject hk]
      cases hdeclare : declareKind globals l.kind with
      | none => simp
      | some next =>
          exact ih hrest (h.step (Label.global?_of_object ho .nil)
            (models_of_declareKind h.models ho hdeclare l.line)
            (noPoison_of_declareKind h.noPoison hdeclare))
  | @function here l block name spec params locals stmts rest hk hblock _ _ hheading' hentry _ _
      hstmts _ ih =>
      obtain ⟨_, hp, hb, _, hrest⟩ := Forest.fits_node.mp hfits
      rw [hk] at hp hb
      obtain ⟨_, hl, hs, _, _⟩ := Forest.fits_node.mp hb
      rw [hblock] at hl hs
      have hparams := Forest.leaves_of_fits_parameters hp
      have hlocals := Forest.leaves_of_fits_locals hl
      rw [quiet_function hk hblock hparams hlocals]
      simp only [tidyFrom, acceptsFrom, hk]
      cases hdeclare : declare globals name ⟨.functionReturning spec, signature params⟩ with
      | none => simp
      | some next =>
          cases hall : declareAll [] params with
          | none => simp
          | some env =>
              have hglobal := Label.global?_of_function hk params
              have hmodels := models_of_function h.models hparams hall hdeclare l.line
              have hpoison : NoPoison [next] := by
                refine noPoison_of_declare h.noPoison ?_ (poison_notMem_signature params) hdeclare
                cases spec <;> simp [Ty.functionReturning]
              obtain ⟨id, hid, hty⟩ :=
                exists_owner h.models hdeclare (h.meaning_next hglobal name) rfl
              obtain ⟨hlines, hdecls⟩ := lines_function h.lines
              have hsees : Sees table 0 [next] stmts.uses :=
                (h.sees hglobal hheading hmodels).mono fun u hu => by simp [hu]
              have hbody : tidyBody env (.node block locals stmts .nil .nil) = true ∧
                    Quiet poisonFailed table stmts ↔
                  acceptsBody spec next env (.node block locals stmts .nil .nil) = true :=
                clean_iff_acceptsBody hty (fun _ h => h.enclosing_eq hv hheading hid) hparams
                  hlocals hs hv hheading' hentry hstmts hlines hdecls hpoison hsees hall
              have hothers := ih hrest (h.step hglobal hmodels hpoison)
              rw [Bool.and_eq_true, Bool.and_eq_true, ← hbody, ← hothers]
              constructor
              · rintro ⟨⟨htidy, htidy'⟩, hquiet, hquiet'⟩
                exact ⟨⟨htidy, hquiet⟩, htidy', hquiet'⟩
              · rintro ⟨⟨htidy, hquiet⟩, htidy', hquiet'⟩
                exact ⟨⟨htidy, htidy'⟩, hquiet, hquiet'⟩

/-- The checker starts at the whole program, in the table of that program. -/
theorem arrivesAt_program {f : Forest} (hf : f.Outer)
    (hlines : f.lines.Pairwise (· ≤ ·)) (hearly : f.NoEarlyUse) :
    ArrivesAt (Scoping.finalTable f) builtins Scoping.builtins (Scoping.start.marked f) := by
  have hbare := Scoping.bare_marked Scoping.start f
  refine ⟨models_builtins, noPoison_builtins, ?_, ?_, ?_, ?_⟩
  · rwa [← Forest.lines_bare, hbare, Forest.lines_bare]
  · rwa [← Forest.noEarlyUse_bare, hbare, Forest.noEarlyUse_bare]
  · intro d hd line _
    have hzero : d.line = 0 := by
      simp only [Scoping.builtins, List.mem_cons, List.not_mem_nil, or_false] at hd
      rcases hd with rfl | rfl <;> rfl
    rw [hzero]
    exact UInt32.zero_le
  · intro name
    rw [← Forest.globals_bare, hbare, Forest.globals_bare]
    exact Scoping.meaning?_finalTable hf name

end Reference

open Scoping Typing Reference in
/-- The two passes report nothing about a program exactly if the one-pass checker
accepts it, provided that lines do not decrease and that no name is used before,
but on the line of, a global declaration of it. -/
theorem analyze_agrees (config : Config) {f : Forest} (hshape : f.IsProgram)
    (hlines : f.lines.Pairwise (· ≤ ·)) (hearly : f.NoEarlyUse) :
    ∃ a, analyze config f = .ok a ∧ (a.log.entries = #[] ↔ accepts f = true) := by
  have houter := hshape.outer
  obtain ⟨log, hanalyze, hlog⟩ := analyze_eq config houter
  refine ⟨_, hanalyze, ?_⟩
  -- the tree with the marks of the first pass is the program as it was written
  have hbare := bare_marked start f
  have hprogram : tidyFrom Reference.builtins (start.marked f) = true ∧
        Quiet config.poisonFailed (finalTable f) (start.marked f) ↔
      acceptsFrom Reference.builtins (start.marked f) = true := by
    refine clean_iff_acceptsFrom ?_ (valid_finalTable houter)
      (adds_program houter).outside.heading (lexical_program houter)
      (arrivesAt_program houter hlines hearly)
    rwa [← Forest.fits_bare, hbare, Forest.fits_bare]
  have htidy : tidyFrom Reference.builtins (start.marked f) =
      tidyFrom Reference.builtins f := by
    rw [← tidyFrom_bare, hbare, tidyFrom_bare]
  have haccepts : acceptsFrom Reference.builtins (start.marked f) = accepts f := by
    rw [← acceptsFrom_bare, hbare, acceptsFrom_bare]
    rfl
  rw [htidy, haccepts, ← reports_eq_nil_iff houter] at hprogram
  rw [← hprogram, ← Array.toList_eq_nil_iff, hlog, List.append_eq_nil_iff]
  rfl

theorem analyze_agrees_nestedProgram :
    nestedProgram.IsProgram ∧ nestedProgram.lines.Pairwise (· ≤ ·) ∧
      nestedProgram.NoEarlyUse ∧ Reference.accepts nestedProgram = true ∧
      ∃ a, analyze {} nestedProgram = .ok a ∧
        (a.log.entries = #[] ↔ Reference.accepts nestedProgram = true) :=
  have hshape : nestedProgram.IsProgram := by decide
  have hlines : nestedProgram.lines.Pairwise (· ≤ ·) := by decide
  have hearly : nestedProgram.NoEarlyUse := by decide
  ⟨hshape, hlines, hearly, by decide, analyze_agrees {} hshape hlines hearly⟩

/-- A function that yields nothing returns no value, and a local hides a global
function of its name. -/
example :
    Reference.accepts (.ofTrees [
      .funDecl "main" .void [] (.compound [] [.returnValue (.const 1 1) 1] 1) 1]) = false ∧
    Reference.accepts (.ofTrees [
      .funDecl "main" .void [] (.compound [.varDecl "input" .int 1]
        [.call "input" [] 1] 1) 1]) = false := by
  decide

end CMinus
