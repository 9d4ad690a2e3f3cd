import CMinus.Proofs.Reference.Declarations
import CMinus.Proofs.Typing.Verdicts

/-!
# Expressions in order

The second pass types an expression with marks, a table and poison; the one-pass
checker types it with environments and stops at the first mistake.  Where an
expression is in order both give it one type, and where it is not the second
pass complains (`Reference.agrees_exprs`).

What the two sides have to share is the meaning of the names that are used.
`Reference.Sees` says that they do: for every use, what the table shows from the
scope of the use, later lines removed, is what the environments hold.  Poison
never enters the comparison, because it only arises where something has already
been reported (`Reference.NoPoison`).
-/

namespace CMinus

/-! ## What a table shows -/

namespace Table

/-- The nearest declaration of a name, from a scope outwards. -/
def visible? (t : Table) (scope : ScopeId) (name : String) : Option Decl :=
  (t.lookup scope name).bind fun id => t.symbols[id]?.map Symbol.decl

theorem visible?_of_root {t : Table} {id : ScopeId} {scopeName : String}
    (h : t.heading? id = some (scopeName, none)) (name : String) :
    t.visible? id name = t.meaning? id name := by
  rw [visible?, lookup_of_root h, meaning?]

theorem visible?_of_parent {t : Table} (hv : t.Valid) {id p : ScopeId} {scopeName : String}
    (h : t.heading? id = some (scopeName, some p)) (name : String) :
    t.visible? id name = (t.meaning? id name).or (t.visible? p name) := by
  rw [visible?, hv.lookup_of_parent h, meaning?, visible?]
  cases hid : t.lookupLocal id name with
  | none => rfl
  | some k =>
      obtain ⟨_, sym, _, _, hsym, _⟩ := exists_symbol_of_lookupLocal hid
      simp [hsym]

/-- The symbol that a use resolves to is what is visible, unless that begins on
a later line. -/
theorem map_decl_resolveSymbol (t : Table) (scope : ScopeId) (name : String)
    (line : UInt32) :
    (t.resolveSymbol (some scope) name line).map Symbol.decl =
      (t.visible? scope name).filter (·.line ≤ line) := by
  simp only [resolveSymbol, resolve, bind, Option.bind_some, visible?]
  cases t.lookup scope name with
  | none => rfl
  | some id =>
      cases hsym : t.symbols[id]? with
      | none => simp [hsym]
      | some sym =>
          by_cases hline : sym.firstLine ≤ line
          · simp [Option.filter_some, hsym, hline, Symbol.decl]
          · simp [Option.filter_some, hsym, hline, Symbol.decl]

end Table

/-! ## Names -/

namespace Reference

/-- The meanings of names that the environments hold do not involve poison. -/
def NoPoison (envs : List Env) : Prop :=
  ∀ name m, resolve envs name = some m → m.ty ≠ .poison ∧ Ty.poison ∉ m.params

/-- For each of the uses, what the table shows from the scope `here` is what the
environments hold. -/
def Sees (t : Table) (here : ScopeId) (envs : List Env) (uses : List (String × UInt32)) :
    Prop :=
  ∀ u ∈ uses,
    ((t.visible? here u.1).filter (·.line ≤ u.2)).map Decl.meaning = resolve envs u.1

theorem Sees.mono {t : Table} {here : ScopeId} {envs : List Env}
    {uses uses' : List (String × UInt32)} (h : Sees t here envs uses)
    (hsub : ∀ u ∈ uses', u ∈ uses) : Sees t here envs uses' :=
  fun u hu => h u (hsub u hu)

/-- What holds for all uses below a node holds for those in its slots and behind
it. -/
theorem Sees.parts {t : Table} {here : ScopeId} {envs : List Env} {l : Label}
    {a b c rest : Forest} (h : Sees t here envs (Forest.node l a b c rest).uses) :
    Sees t here envs a.uses ∧ Sees t here envs b.uses ∧ Sees t here envs c.uses ∧
      Sees t here envs rest.uses := by
  rw [Forest.uses_node] at h
  exact ⟨h.mono (by simp +contextual), h.mono (by simp +contextual),
    h.mono (by simp +contextual), h.mono (by simp +contextual)⟩

/-- A use resolves to what the environments hold. -/
theorem Sees.meaning_resolveSymbol {t : Table} {here : ScopeId} {envs : List Env}
    {uses : List (String × UInt32)} (h : Sees t here envs uses) {name : String}
    {line : UInt32} (hu : (name, line) ∈ uses) :
    (t.resolveSymbol (some here) name line).map (·.decl.meaning) = resolve envs name := by
  have hmap := t.map_decl_resolveSymbol here name line
  rw [← h _ hu, ← hmap, Option.map_map]
  rfl

theorem resolve_cons (env : Env) (envs : List Env) (name : String) :
    resolve (env :: envs) name = (env.lookup name).or (resolve envs name) := by
  simp only [resolve, List.findSome?_cons]
  cases env.lookup name <;> rfl

/-- Inside a block the block's own names come first. -/
theorem Sees.block {t : Table} (hv : t.Valid) {id here : ScopeId} {fn : String}
    (hheading : t.heading? id = some (fn, some here)) {ds : List Decl}
    (hmeaning : ∀ name, t.meaning? id name = Decl.find? ds name) {env : Env}
    (henv : Models env ds) {envs : List Env} {uses : List (String × UInt32)}
    (h : Sees t here envs uses) (hlines : ∀ d ∈ ds, ∀ u ∈ uses, d.line ≤ u.2) :
    Sees t id (env :: envs) uses := by
  intro u hu
  rw [Table.visible?_of_parent hv hheading, hmeaning, resolve_cons, henv]
  cases hfind : Decl.find? ds u.1 with
  | none => simpa using h u hu
  | some d =>
      have hline := hlines d (List.mem_of_find?_eq_some hfind) u hu
      simp [hline]

/-- At the outermost level only what was declared so far counts: what comes later
begins on a later line than the uses. -/
theorem sees_globals {t : Table} {scopeName : String}
    (hheading : t.heading? 0 = some (scopeName, none)) {ds later : List Decl}
    (hmeaning : ∀ name, t.meaning? 0 name = Decl.find? (ds ++ later) name) {globals : Env}
    (henv : Models globals ds) {uses : List (String × UInt32)}
    (hlines : ∀ d ∈ ds, ∀ u ∈ uses, d.line ≤ u.2)
    (hlater : ∀ d ∈ later, ∀ u ∈ uses, d.name = u.1 → ¬d.line ≤ u.2) :
    Sees t 0 [globals] uses := by
  intro u hu
  have hnone : resolve [] u.1 = none := rfl
  rw [Table.visible?_of_root hheading, hmeaning, Decl.find?_append, resolve_cons, henv, hnone]
  cases hfind : Decl.find? ds u.1 with
  | some d =>
      have hline := hlines d (List.mem_of_find?_eq_some hfind) u hu
      simp [hline]
  | none =>
      cases hfind' : Decl.find? later u.1 with
      | none => rfl
      | some d =>
          have hname : d.name = u.1 := by simpa using List.find?_some hfind'
          have hline := hlater d (List.mem_of_find?_eq_some hfind') u hu hname
          simpa using hline

end Reference

/-! ## Chains that are not complained about -/

namespace Typing

variable (poisonFailed : Bool) (table : Table)

/-- The second pass has nothing to say about the chain and what is below it. -/
def Quiet (f : Forest) : Prop :=
  complaints poisonFailed table (typed poisonFailed table f) = []

/-- What the rules say about a node whose children they have typed. -/
def verdict (l : Label) (a b c : Forest) : Verdict :=
  judge poisonFailed table
    ⟨l, typed poisonFailed table a, typed poisonFailed table b, typed poisonFailed table c⟩

theorem quiet_nil : Quiet poisonFailed table .nil := rfl

theorem quiet_node (l : Label) (a b c rest : Forest) :
    Quiet poisonFailed table (.node l a b c rest) ↔
      Quiet poisonFailed table a ∧ Quiet poisonFailed table b ∧ Quiet poisonFailed table c ∧
        (verdict poisonFailed table l a b c).complaint = none ∧
        Quiet poisonFailed table rest := by
  simp only [Quiet, typed, complaints_node, judge_withTy, List.append_eq_nil_iff,
    Option.toList_eq_nil_iff, verdict, and_assoc]

/-- The types along a typed chain. -/
def tys (f : Forest) : List (Option Ty) :=
  (typed poisonFailed table f).labels.map (·.marks.ty)

theorem tys_node (l : Label) (a b c rest : Forest) :
    tys poisonFailed table (.node l a b c rest) =
      (verdict poisonFailed table l a b c).ty :: tys poisonFailed table rest := rfl

theorem ty?_typed (f : Forest) :
    (typed poisonFailed table f).ty? = (tys poisonFailed table f).head?.join := by
  cases f <;> rfl

theorem isEmpty_typed (f : Forest) :
    (typed poisonFailed table f).isEmpty = (tys poisonFailed table f).isEmpty := by
  cases f <;> rfl

end Typing

/-! ## The rules for expressions -/

namespace Reference

open Typing

variable {poisonFailed : Bool} {table : Table}

variable (poisonFailed table) in
/-- Both sides agree about a chain of expressions: they give it the same types,
or none accepts it. -/
def Agrees (f : Forest) : Option (List Ty) → Prop
  | none => ¬Quiet poisonFailed table f
  | some ts => Quiet poisonFailed table f ∧ tys poisonFailed table f = ts.map some ∧
      Ty.poison ∉ ts

/-- Both sides agree about a single expression. -/
def AgreesAt (v : Verdict) : Option Ty → Prop
  | none => v.complaint ≠ none
  | some ty => v = .typed ty ∧ ty ≠ .poison

/-- Agreement about a node follows from that about its parts. -/
theorem agrees_node {envs : List Env} {l : Label} {a b rest : Forest}
    (ha : Agrees poisonFailed table a (typesOf envs a))
    (hb : Agrees poisonFailed table b (typesOf envs b))
    (hself : ∀ first second, tys poisonFailed table a = first.map some →
      tys poisonFailed table b = second.map some → Ty.poison ∉ first → Ty.poison ∉ second →
      AgreesAt (verdict poisonFailed table l a b .nil) (typeOf envs l.kind first second))
    (hrest : Agrees poisonFailed table rest (typesOf envs rest)) :
    Agrees poisonFailed table (.node l a b .nil rest)
      (typesOf envs (.node l a b .nil rest)) := by
  simp only [typesOf, bind, pure]
  cases hfirst : typesOf envs a with
  | none =>
      rw [hfirst] at ha
      exact fun h => ha ((quiet_node _ _ _ _ _ _ _).mp h).1
  | some first =>
      rw [hfirst] at ha
      obtain ⟨hqa, hta, hpa⟩ := ha
      cases hsecond : typesOf envs b with
      | none =>
          rw [hsecond] at hb
          exact fun h => hb ((quiet_node _ _ _ _ _ _ _).mp h).2.1
      | some second =>
          rw [hsecond] at hb
          obtain ⟨hqb, htb, hpb⟩ := hb
          have hself := hself first second hta htb hpa hpb
          simp only [Option.bind_some]
          cases hty : typeOf envs l.kind first second with
          | none =>
              rw [hty] at hself
              exact fun h => hself ((quiet_node _ _ _ _ _ _ _).mp h).2.2.2.1
          | some ty =>
              rw [hty] at hself
              obtain ⟨hverdict, hpoison⟩ := hself
              cases hmore : typesOf envs rest with
              | none =>
                  rw [hmore] at hrest
                  exact fun h => hrest ((quiet_node _ _ _ _ _ _ _).mp h).2.2.2.2
              | some more =>
                  rw [hmore] at hrest
                  obtain ⟨hqr, htr, hpr⟩ := hrest
                  refine ⟨(quiet_node _ _ _ _ _ _ _).mpr
                    ⟨hqa, hqb, quiet_nil _ _, by rw [hverdict]; rfl, hqr⟩, ?_, ?_⟩
                  · rw [tys_node, hverdict, htr]
                    rfl
                  · simp [hpr, Ne.symm hpoison]

/-- A chain of one node has one type. -/
theorem exists_tys_eq {r : Role} (hr : r.isSingle = true) {f : Forest}
    (h : f.fits r = true) {ts : List Ty} (hts : tys poisonFailed table f = ts.map some) :
    ∃ ty, ts = [ty] := by
  obtain ⟨l, a, b, c, rfl, _⟩ := Forest.exists_node_of_fits hr h
  rw [tys_node] at hts
  cases ts with
  | nil => simp at hts
  | cons ty rest =>
      cases rest with
      | nil => exact ⟨ty, rfl⟩
      | cons => simp [tys, typed, Forest.labels] at hts

/-- An index is missing or has one type. -/
theorem eq_nil_or_exists_tys_eq {f : Forest} (h : f.fits .index = true) {ts : List Ty}
    (hts : tys poisonFailed table f = ts.map some) : ts = [] ∨ ∃ ty, ts = [ty] := by
  cases f with
  | nil => exact .inl (List.map_eq_nil_iff.mp hts.symm)
  | node l a b c rest =>
      have hoperand : (Forest.node l a b c rest).fits .operand = true := h
      exact .inr (exists_tys_eq rfl hoperand hts)

theorem ty?_typed_of_tys_eq {f : Forest} {ty : Ty} (h : tys poisonFailed table f = [some ty]) :
    (typed poisonFailed table f).ty? = some ty := by
  rw [ty?_typed, h]
  rfl

/-- Without poison, only the parameters themselves fit the parameters. -/
theorem argumentsFit_eq {args params : List Ty} (hargs : Ty.poison ∉ args)
    (hparams : Ty.poison ∉ params) :
    argumentsFit (args.map some) params = decide (args = params) := by
  induction args generalizing params with
  | nil => cases params <;> simp [argumentsFit]
  | cons arg args ih =>
      cases params with
      | nil => simp [argumentsFit]
      | cons param params =>
          simp only [List.mem_cons, not_or] at hargs hparams
          have hrest := ih hargs.2 hparams.2
          have hself : argumentFits (some arg) param = decide (arg = param) := by
            simp [argumentFits, Ty.isPoison, Ne.symm hargs.1, Ne.symm hparams.1]
          have hcons : argumentsFit ((arg :: args).map some) (param :: params) =
              (argumentFits (some arg) param && argumentsFit (args.map some) params) := by
            simp [argumentsFit, Bool.and_left_comm]
          rw [hcons, hself, hrest]
          simp

/-- A target that has a type other than poison is declared. -/
theorem exists_target {a : Forest} (ha : a.fits .target = true) {ty : Ty}
    (hty : tys poisonFailed table a = [some ty]) (hpoison : ty ≠ .poison) :
    let head? := (typed poisonFailed table a).head?
    ∃ id, head?.bind (fun l =>
      table.resolve l.marks.scope ((head?.bind (·.kind.name?)).getD "") l.line) = some id := by
  obtain ⟨l, a, b, c, rfl, hk⟩ := Forest.exists_node_of_fits rfl ha
  cases hl : l.kind <;> simp only [hl, Role.admits, Kind.isVar, Bool.false_eq_true] at hk
  next name =>
    have hself : (judgeVar table ⟨l, typed poisonFailed table a, typed poisonFailed table b,
        typed poisonFailed table c⟩ name).ty = some ty := by
      rw [tys_node, verdict, judge, hl] at hty
      simpa using (List.cons.inj hty).1
    have hresolve : table.resolve l.marks.scope name l.line ≠ none := by
      intro hnone
      simp [judgeVar, Table.resolveSymbol, hnone, Verdict.poisoned, Ne.symm hpoison] at hself
    simpa [typed, Forest.head?, withTy, hl, Kind.name?] using Option.ne_none_iff_exists'.mp hresolve

section Rules

variable {envs : List Env} {l : Label} {a b : Forest} {first second : List Ty}
  (hfirst : tys poisonFailed table a = first.map some)
  (hsecond : tys poisonFailed table b = second.map some)
  (hpfirst : Ty.poison ∉ first) (hpsecond : Ty.poison ∉ second)

include hfirst hsecond in
theorem agreesAt_op {o : BinOp} (hk : l.kind = .op o) (ha : a.fits .operand = true)
    (hb : b.fits .operand = true) :
    AgreesAt (verdict poisonFailed table l a b .nil) (typeOf envs (.op o) first second) := by
  obtain ⟨ty, rfl⟩ := exists_tys_eq rfl ha hfirst
  obtain ⟨ty', rfl⟩ := exists_tys_eq rfl hb hsecond
  have hverdict : verdict poisonFailed table l a b .nil =
      judgeOp poisonFailed ⟨l, typed poisonFailed table a, typed poisonFailed table b, .nil⟩ := by
    rw [verdict, judge, hk]
    rfl
  rw [hverdict, judgeOp, ty?_typed_of_tys_eq hfirst, ty?_typed_of_tys_eq hsecond, typeOf]
  by_cases hty : ty = .int ∧ ty' = .int
  · obtain ⟨rfl, rfl⟩ := hty
    simp [AgreesAt]
  · simp [AgreesAt, hty]

include hfirst in
theorem agreesAt_var {name : String} (hk : l.kind = .var name) (ha : a.fits .index = true)
    (henvs : NoPoison envs)
    (hresolve : (table.resolveSymbol l.marks.scope name l.line).map (·.decl.meaning) =
      resolve envs name) :
    AgreesAt (verdict poisonFailed table l a b .nil) (typeOf envs (.var name) first second) := by
  have hverdict : verdict poisonFailed table l a b .nil =
      judgeVar table ⟨l, typed poisonFailed table a, typed poisonFailed table b, .nil⟩ name := by
    rw [verdict, judge, hk]
    rfl
  have hempty : (typed poisonFailed table a).isEmpty = first.isEmpty := by
    rw [isEmpty_typed, hfirst, List.isEmpty_map]
  rw [hverdict, judgeVar, typeOf, ← hresolve, hempty]
  cases hsym : table.resolveSymbol l.marks.scope name l.line with
  | none => simp [AgreesAt, Verdict.poisoned]
  | some sym =>
      rcases eq_nil_or_exists_tys_eq ha hfirst with rfl | ⟨ty, rfl⟩
      · have hmeaning : resolve envs name = some sym.decl.meaning := by simp [← hresolve, hsym]
        exact ⟨rfl, (henvs name _ hmeaning).1⟩
      · have hty := ty?_typed_of_tys_eq hfirst
        by_cases hint : ty = .int
        · simp [AgreesAt, hty, hint]
        · simp [AgreesAt, hty, hint, Verdict.poisoned]

include hfirst hsecond hpfirst hpsecond in
theorem agreesAt_assign (hk : l.kind = .assign) (ha : a.fits .target = true)
    (hb : b.fits .operand = true) :
    AgreesAt (verdict poisonFailed table l a b .nil) (typeOf envs .assign first second) := by
  obtain ⟨ty, rfl⟩ := exists_tys_eq rfl ha hfirst
  obtain ⟨ty', rfl⟩ := exists_tys_eq rfl hb hsecond
  have hpoison : ty ≠ .poison := fun h => hpfirst (by simp [h])
  have hpoison' : ty' ≠ .poison := fun h => hpsecond (by simp [h])
  have hverdict : verdict poisonFailed table l a b .nil =
      judgeAssign table ⟨l, typed poisonFailed table a, typed poisonFailed table b, .nil⟩ := by
    rw [verdict, judge, hk]
    rfl
  obtain ⟨id, hid⟩ := exists_target ha hfirst hpoison
  rw [hverdict, judgeAssign, ty?_typed_of_tys_eq hfirst, ty?_typed_of_tys_eq hsecond, typeOf]
  simp only [hid]
  by_cases hty : ty = ty'
  · simp [AgreesAt, hty, hpoison']
  · simp [AgreesAt, hty, hpoison, hpoison', Verdict.poisoned]

include hfirst hpfirst in
theorem agreesAt_call {name : String} (hk : l.kind = .call name) (henvs : NoPoison envs)
    (hresolve : (table.resolveSymbol l.marks.scope name l.line).map (·.decl.meaning) =
      resolve envs name) :
    AgreesAt (verdict poisonFailed table l a b .nil) (typeOf envs (.call name) first second) := by
  have hverdict : verdict poisonFailed table l a b .nil =
      judgeCall table ⟨l, typed poisonFailed table a, typed poisonFailed table b, .nil⟩ name := by
    rw [verdict, judge, hk]
    rfl
  have hargs : (typed poisonFailed table a).labels.map (·.marks.ty) = first.map some := hfirst
  rw [hverdict, judgeCall, typeOf, ← hresolve, hargs]
  cases hsym : table.resolveSymbol l.marks.scope name l.line with
  | none => simp [AgreesAt, Verdict.poisoned]
  | some sym =>
      have hmeaning : resolve envs name = some sym.decl.meaning := by simp [← hresolve, hsym]
      have hfit := argumentsFit_eq hpfirst (henvs name _ hmeaning).2
      simp only [Option.map_some, Option.bind_some, bind, Symbol.decl, Decl.meaning] at hfit ⊢
      rw [hfit]
      cases hresult : sym.ty.result? with
      | none => simp [AgreesAt, Verdict.poisoned]
      | some result =>
          by_cases hparams : first = sym.params
          · have hne := Ty.result?_ne_poison hresult
            simp [AgreesAt, hparams, hne, Verdict.typed]
          · simp [AgreesAt, hparams]

end Rules

/-- Where the names that are used mean the same, both sides agree about a chain
of expressions. -/
theorem agrees_exprs {envs : List Env} (henvs : NoPoison envs) {fn : String}
    {here : ScopeId} {g : Forest} {r : Role} (hr : r.isExpr = true) (hfits : g.fits r = true)
    (hlex : g.LexicalIn table fn here) (hsees : Sees table here envs g.uses) :
    Agrees poisonFailed table g (typesOf envs g) := by
  induction g generalizing r with
  | nil => exact ⟨quiet_nil _ _, rfl, by simp⟩
  | node l a b c rest iha ihb _ ihr =>
      obtain ⟨hadmits, ha, hb, hc, hrest⟩ := Forest.fits_node.mp hfits
      have hk := Forest.isExpr_of_admits hr hadmits
      rw [Forest.role_third_of_isExpr hk] at hc
      obtain rfl := Forest.eq_nil_of_fits_absent hc
      have hcompound : l.kind ≠ .compound := by
        rintro h
        simp [h, Kind.isExpr] at hk
      cases hlex with
      | block h => exact absurd h hcompound
      | plain _ hscope hla hlb _ hlrest =>
          have hslot := Forest.isExpr_role hk
          obtain ⟨hsa, hsb, _, hsrest⟩ := hsees.parts
          refine agrees_node (iha (hslot .first) ha hla hsa) (ihb (hslot .second) hb hlb hsb) ?_
            (ihr (Forest.isExpr_after hr) hrest hlrest hsrest)
          intro first second hfirst hsecond hpfirst hpsecond
          have hresolve : ∀ name, l.kind.use? = some name →
              (table.resolveSymbol l.marks.scope name l.line).map (·.decl.meaning) =
                resolve envs name := by
            intro name hname
            rw [hscope]
            exact hsees.meaning_resolveSymbol (by simp [hname])
          cases hl : l.kind with
          | const =>
              rw [verdict, judge, hl]
              exact ⟨rfl, by simp⟩
          | op =>
              rw [hl] at ha hb
              exact agreesAt_op hfirst hsecond hl ha hb
          | var name =>
              rw [hl] at ha
              exact agreesAt_var hfirst hl ha henvs (hresolve name (by rw [hl]; rfl))
          | assign =>
              rw [hl] at ha hb
              exact agreesAt_assign hfirst hsecond hpfirst hpsecond hl ha hb
          | call name =>
              exact agreesAt_call hfirst hpfirst hl henvs (hresolve name (by rw [hl]; rfl))
          | _ => simp [hl, Kind.isExpr] at hk

end Reference

end CMinus
