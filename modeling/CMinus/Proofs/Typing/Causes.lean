import CMinus.Proofs.Scoping.Flat
import CMinus.Proofs.Typing.Annotation

/-!
# Where poison comes from

Poison says that a mistake has been reported already, and silences the rules
above it.  If it could arise without a report, a mistake might pass unnoticed.

It arises in three ways.  A declaration of type `void` makes a poisoned symbol,
and is reported on the line that the symbol is dated with
(`Scoping.exists_voidDeclaration`).  A rule that complains may poison its node.
And a node may take poison over from another one: a variable from its symbol, an
assignment from its target.  The last way is the delicate one, since an
assignment also poisons itself where its target has no type at all.  A variable
always has a type, so this cannot happen as long as only variables are assigned
to (`Forest.AssignsToVars`).

`Typing.Cause` is what the three ways come down to, and a poisoned node has a
cause in its own subtree (`Typing.exists_cause`).
-/

namespace CMinus

namespace Tree

/-- A node and all that hangs from it, in preorder. -/
def subtree (t : Tree) : List Tree := t :: (t.first.nodes ++ t.second.nodes ++ t.third.nodes)

/-- The node as the parser wrote it, without marks. -/
def bare (t : Tree) : Tree := ⟨t.label.bare, t.first.bare, t.second.bare, t.third.bare⟩

end Tree

namespace Forest

/-- What is assigned to, if there is anything, is a variable. -/
def AssignsToVars (f : Forest) : Prop :=
  ∀ t ∈ f.nodes, t.label.kind = .assign → t.first.head?.all (·.kind.isVar) = true

instance (f : Forest) : Decidable f.AssignsToVars :=
  inferInstanceAs (Decidable (∀ t ∈ f.nodes, t.label.kind = .assign →
    t.first.head?.all (·.kind.isVar) = true))

theorem nodes_bare (f : Forest) : f.bare.nodes = f.nodes.map Tree.bare := by
  induction f with
  | nil => rfl
  | node l a b c rest iha ihb ihc ihr =>
      simp only [bare, nodes, List.map_cons, List.map_append, iha, ihb, ihc, ihr, Tree.bare]

theorem head?_bare (f : Forest) : f.bare.head? = f.head?.map Label.bare := by
  cases f <;> rfl

/-- What is assigned to is read off what the parser wrote. -/
theorem assignsToVars_bare (f : Forest) : f.bare.AssignsToVars ↔ f.AssignsToVars := by
  unfold AssignsToVars
  rw [nodes_bare, List.forall_mem_map]
  simp only [Tree.bare, head?_bare, Option.all_map]
  rfl

/-- With a node, all of its subtree is in the forest. -/
theorem mem_nodes_of_mem_subtree {f : Forest} {n m : Tree} (hn : n ∈ f.nodes)
    (hm : m ∈ n.subtree) : m ∈ f.nodes := by
  induction f with
  | nil => simp [nodes] at hn
  | node l a b c rest iha ihb ihc ihr =>
      simp only [nodes, List.mem_cons, List.mem_append] at hn ⊢
      rcases hn with rfl | ((hn | hn) | hn) | hn
      · simp only [Tree.subtree, List.mem_cons, List.mem_append] at hm
        rcases hm with hm | hm
        · exact .inl hm
        · exact .inr (.inl hm)
      · exact .inr (.inl (.inl (.inl (iha hn))))
      · exact .inr (.inl (.inl (.inr (ihb hn))))
      · exact .inr (.inl (.inr (ihc hn)))
      · exact .inr (.inr (ihr hn))

/-- The two orders list the same nodes. -/
theorem mem_postorder {f : Forest} {n : Tree} : n ∈ f.postorder ↔ n ∈ f.nodes := by
  induction f with
  | nil => rfl
  | node l a b c rest iha ihb ihc ihr =>
      simp only [postorder, nodes, List.mem_append, List.mem_cons, iha, ihb, ihc, ihr]
      exact or_left_comm

end Forest

namespace Scoping

/-! ## Poisoned symbols -/

/-- A declaration that makes a symbol finds its name free. -/
theorem lookupLocal_eq_none_of_declare_lt {t : Table} {scope : ScopeId} {name : String}
    {ty : Ty} {line : UInt32}
    (hlt : t.symbols.size < (t.declare scope name ty line).2.symbols.size) :
    t.lookupLocal scope name = none := by
  cases hid : t.lookupLocal scope name with
  | none => rfl
  | some id =>
      rw [Table.declare_of_lookupLocal_eq_some hid] at hlt
      exact absurd hlt (Nat.lt_irrefl _)

/-- Only what is declared `void` is stored as poison. -/
theorem spec_eq_void_of_object? {k : Kind} {o : Object} (ho : k.object? = some o)
    (hty : o.ty = .poison) : o.spec = .void := by
  have hbase : o.base ≠ .poison := by
    cases k <;> simp [Kind.object?] at ho <;> subst ho <;> simp
  by_cases hvoid : o.spec = .void
  · exact hvoid
  · rw [Object.ty, if_neg hvoid] at hty
    exact absurd hty hbase

/-- A change that makes a poisoned symbol declares an object `void`, under a name
that was free. -/
theorem Change.exists_void {here : ScopeId} {l : Label} {t t' : Table}
    (h : Change here l t t') (hlt : t.symbols.size < t'.symbols.size) {sym : Symbol}
    (hsym : t'.fixed? t.symbols.size = some sym) (hty : sym.ty = .poison) :
    ∃ o, l.kind.object? = some o ∧ o.spec = .void ∧ t.lookupLocal here o.name = none ∧
      sym.name = o.name ∧ sym.firstLine = l.line := by
  have hobject : ∀ o, l.kind.object? = some o →
      t.symbols.size < (t.declare here o.name o.ty l.line).2.symbols.size →
      (t.declare here o.name o.ty l.line).2.fixed? t.symbols.size = some sym →
      ∃ o, l.kind.object? = some o ∧ o.spec = .void ∧ t.lookupLocal here o.name = none ∧
        sym.name = o.name ∧ sym.firstLine = l.line := by
    intro o ho hlt hsym
    rw [fixed?_declare_of_lt hlt] at hsym
    obtain rfl := Option.some.inj hsym
    exact ⟨o, ho, spec_eq_void_of_object? ho hty, lookupLocal_eq_none_of_declare_lt hlt, rfl, rfl⟩
  cases h with
  | same | block => exact absurd hlt (Nat.lt_irrefl _)
  | used => simp [Table.reference] at hlt
  | object ho => exact hobject _ ho hlt hsym
  | parameter ho =>
      rw [Table.addParameter, Array.size_modify] at hlt
      rw [Table.fixed?_addParameter] at hsym
      exact hobject _ ho hlt hsym
  | @function name spec hk =>
      have hmade : (t.declare here name (.functionReturning spec) l.line).2.fixed?
          t.symbols.size = some _ := fixed?_declare_of_lt hlt
      obtain rfl := Option.some.inj (hsym.symm.trans hmade)
      cases spec <;> simp [Symbol.fixed, Table.fresh, Ty.functionReturning] at hty

/-- An object that is declared `void` under a free name is reported. -/
theorem complaint_of_void {s : Scoping} {l : Label} {here : ScopeId} {o : Object}
    (htop : s.table.top? = some here) (ho : l.kind.object? = some o) (hvoid : o.spec = .void)
    (hfree : s.table.lookupLocal here o.name = none) :
    s.complaint l = some (.voidDeclaration o.site o.name l.line) := by
  have hself : s.complaint l = o.complaint s.table here l.line := by
    unfold complaint
    rw [htop]
    cases hl : l.kind <;> simp_all [Kind.object?]
  simp [hself, Object.complaint, hfree, hvoid]

/-- Every poisoned symbol was reported when it was declared. -/
theorem exists_voidDeclaration {f : Forest} {k : SymbolId} {sym : Symbol}
    (hsym : (finalTable f).symbols[k]? = some sym) (hty : sym.ty = .poison) :
    ∃ site, .voidDeclaration site sym.name sym.firstLine ∈ start.reports f := by
  have hv := outside_start.valid
  have hfixed : (start.after f).table.fixed? k = some sym.fixed := by
    rw [Table.fixed?, show (start.after f).table.symbols[k]? = some sym from hsym,
      Option.map_some]
  by_cases hold : k < start.table.symbols.size
  · -- no symbol is poisoned from the start
    have hbuiltins : ∀ old ∈ start.table.symbols.toList, old.fixed.ty ≠ .poison := by decide
    rw [(later_after hv f).fixed_eq k hold] at hfixed
    obtain ⟨old, hget, heq⟩ := Option.map_eq_some_iff.mp hfixed
    have hne := hbuiltins old (Array.mem_toList_iff.mpr (Array.mem_of_getElem? hget))
    rw [heq] at hne
    exact absurd hty hne
  · have hlt : k < (start.after f).table.symbols.size := (Array.getElem?_eq_some_iff.mp hsym).1
    obtain ⟨m, hm, hcount, hcount'⟩ := Forest.exists_moment_of_lt enter leave
      (fun s : Scoping => s.table.symbols.size) size_symbols_enter_le size_symbols_leave
      (Nat.not_lt.mp hold) hlt
    obtain ⟨here, htop⟩ := (room_moment room_start hm).exists_top
    have hmade := (later_end hv hm).fixed_eq m.state.table.symbols.size (by omega)
    rw [hcount, hfixed, ← hcount] at hmade
    obtain ⟨o, ho, hvoid, hfree, hname, hline⟩ :=
      (change_enter m.label htop).exists_void (by omega) hmade.symm hty
    refine ⟨o.site, List.mem_filterMap.mpr ⟨m, hm, ?_⟩⟩
    rw [complaint_of_void htop ho hvoid hfree, ← hline, ← hname]
    rfl

end Scoping

namespace Verdict

/-- If there is a complaint, it is one about this line. -/
def ComplainsOn (line : UInt32) (v : Verdict) : Prop :=
  ∀ d, v.complaint = some d → d.line = line

variable {line : UInt32} {d : Diagnostic}

theorem ComplainsOn.of_complaint {v : Verdict} (hv : v.complaint = some d)
    (hline : d.line = line) : v.ComplainsOn line := by
  intro d' hd'
  obtain rfl := Option.some.inj (hv.symm.trans hd')
  exact hline

theorem ComplainsOn.of_silent {v : Verdict} (hv : v.complaint = none) : v.ComplainsOn line := by
  intro d hd
  rw [hv] at hd
  cases hd

theorem complainsOn_statement (ok : Bool) (hline : d.line = line) :
    (statement ok d).ComplainsOn line := by
  cases ok with
  | true => exact .of_silent rfl
  | false => exact .of_complaint rfl hline

end Verdict

namespace Typing

variable (poisonFailed : Bool) (table : Table)

/-! ## Poisoned nodes -/

theorem complainsOn_judgeOp (t : Tree) :
    (judgeOp poisonFailed t).ComplainsOn t.label.line := by
  unfold judgeOp
  split
  · exact .of_silent rfl
  · exact .of_complaint rfl rfl

theorem complainsOn_judgeVar (t : Tree) (name : String) :
    (judgeVar table t name).ComplainsOn t.label.line := by
  unfold judgeVar
  split
  · exact .of_complaint rfl rfl
  · split
    · exact .of_silent rfl
    · split
      · exact .of_silent rfl
      · exact .of_complaint rfl rfl

theorem complainsOn_judgeAssign (t : Tree) :
    (judgeAssign table t).ComplainsOn t.label.line := by
  unfold judgeAssign
  dsimp only
  split
  · split
    · exact .of_silent rfl
    · exact .of_complaint rfl rfl
  · split
    · exact .of_silent rfl
    · exact .of_complaint rfl rfl

theorem complainsOn_judgeCall (t : Tree) (name : String) :
    (judgeCall table t name).ComplainsOn t.label.line := by
  unfold judgeCall
  split
  · exact .of_complaint rfl rfl
  · split
    · exact .of_complaint rfl rfl
    · dsimp only
      split
      · exact .of_silent rfl
      · exact .of_complaint rfl rfl

/-- A rule complains on the line of its node. -/
theorem complainsOn_judge (t : Tree) :
    (judge poisonFailed table t).ComplainsOn t.label.line := by
  unfold judge
  cases t.label.kind with
  | op o => exact complainsOn_judgeOp poisonFailed t
  | var name => exact complainsOn_judgeVar table t name
  | assign => exact complainsOn_judgeAssign table t
  | call name => exact complainsOn_judgeCall table t name
  | ifThen | ifElse | whileDo | returnValue | returnVoid =>
      exact Verdict.complainsOn_statement _ rfl
  | _ => exact .of_silent rfl

/-- Why a node is poisoned, as far as the node itself is concerned. -/
inductive Cause (log : Log) (t : Tree) : Prop
  /-- Its rule complained of it. -/
  | complaint {d : Diagnostic} (hcomplaint : (judge poisonFailed table t).complaint = some d)
      (hline : d.line = t.label.line) : Cause log t
  /-- It is a variable without an index, and its declaration was reported. -/
  | declaration {name : String} {sym : Symbol} {site : VoidSite}
      (hk : t.label.kind = .var name) (hindex : t.first.isEmpty = true)
      (hsym : table.resolveSymbol t.label.marks.scope name t.label.line = some sym)
      (hreport : .voidDeclaration site sym.name sym.firstLine ∈ log.entries.toList) :
      Cause log t

theorem judgeOp_ne_poison (t : Tree) : judgeOp poisonFailed t ≠ .typed .poison := by
  unfold judgeOp
  split <;> simp [Verdict.typed]

/-- A call that is not complained of has a result type, and no function yields
poison. -/
theorem judgeCall_ne_poison (t : Tree) (name : String) :
    judgeCall table t name ≠ .typed .poison := by
  unfold judgeCall
  split
  · simp [Verdict.poisoned, Verdict.typed]
  · split
    · simp [Verdict.poisoned, Verdict.typed]
    · next result hresult =>
        intro h
        exact Ty.result?_ne_poison hresult (Option.some.inj (congrArg Verdict.ty h))

/-- A variable is silently poisoned for the sake of its symbol. -/
theorem judgeVar_eq_poison {t : Tree} {name : String}
    (h : judgeVar table t name = .typed .poison) :
    t.first.isEmpty = true ∧
      ∃ sym, table.resolveSymbol t.label.marks.scope name t.label.line = some sym ∧
        sym.ty = .poison := by
  unfold judgeVar at h
  split at h
  · simp [Verdict.poisoned, Verdict.typed] at h
  · next sym hsym =>
      split at h
      · next hindex => exact ⟨hindex, sym, hsym, Option.some.inj (congrArg Verdict.ty h)⟩
      · split at h <;> simp [Verdict.poisoned, Verdict.typed] at h

/-- An assignment is silently poisoned for the sake of its target. -/
theorem judgeAssign_eq_poison {t : Tree} (h : judgeAssign table t = .typed .poison) :
    ∃ l, t.first.head? = some l ∧ (l.marks.ty = none ∨ l.marks.ty = some .poison) := by
  unfold judgeAssign at h
  dsimp only at h
  cases hhead : t.first.head? with
  | none => simp [Forest.ty?, hhead, Verdict.typed] at h
  | some l =>
      have htarget : t.first.ty? = l.marks.ty := by simp [Forest.ty?, hhead]
      refine ⟨l, rfl, ?_⟩
      rw [htarget] at h
      split at h
      · -- an undeclared target that nothing is said about has been reported itself
        split at h
        · next hpoison => exact .inr hpoison
        · simp [Verdict.typed] at h
      · split at h
        · cases hty : l.marks.ty with
          | none => exact .inl rfl
          | some ty =>
              rw [hty] at h
              exact .inr (congrArg Verdict.ty h)
        · simp [Verdict.poisoned, Verdict.typed] at h

/-- A node is silently poisoned for the sake of the symbol or the target that it
takes its type from. -/
theorem judge_eq_poison {t : Tree} (h : judge poisonFailed table t = .typed .poison) :
    (∃ name sym, t.label.kind = .var name ∧ t.first.isEmpty = true ∧
        table.resolveSymbol t.label.marks.scope name t.label.line = some sym ∧
        sym.ty = .poison) ∨
      t.label.kind = .assign ∧
        ∃ l, t.first.head? = some l ∧ (l.marks.ty = none ∨ l.marks.ty = some .poison) := by
  unfold judge at h
  cases hl : t.label.kind with
  | var name =>
      rw [hl] at h
      obtain ⟨hindex, sym, hsym, hty⟩ := judgeVar_eq_poison table h
      exact .inl ⟨name, sym, rfl, hindex, hsym, hty⟩
  | assign =>
      rw [hl] at h
      exact .inr ⟨rfl, judgeAssign_eq_poison table h⟩
  | op o =>
      rw [hl] at h
      exact absurd h (judgeOp_ne_poison poisonFailed t)
  | call name =>
      rw [hl] at h
      exact absurd h (judgeCall_ne_poison table t name)
  | _ => simp [hl, judgeReturnValue, judgeReturnVoid, Verdict.statement, Verdict.typed] at h

section Finished

variable {log : Log} {f : Forest} (hvars : (typed poisonFailed table f).AssignsToVars)
  (hreported : ∀ {k : SymbolId} {sym : Symbol}, table.symbols[k]? = some sym →
    sym.ty = .poison →
    ∃ site, .voidDeclaration site sym.name sym.firstLine ∈ log.entries.toList)

include hreported

/-- A poisoned node of the finished tree has a cause of its own, or is an
assignment. -/
theorem cause_or_assign {n : Tree} (hn : n ∈ (typed poisonFailed table f).nodes)
    (hty : n.label.marks.ty = some .poison) :
    Cause poisonFailed table log n ∨
      n.label.kind = .assign ∧
        ∃ l, n.first.head? = some l ∧ (l.marks.ty = none ∨ l.marks.ty = some .poison) := by
  rw [ty_of_mem_nodes poisonFailed table hn] at hty
  cases hcomplaint : (judge poisonFailed table n).complaint with
  | some d => exact .inl (.complaint hcomplaint (complainsOn_judge _ _ n d hcomplaint))
  | none =>
      have hverdict : judge poisonFailed table n = .typed .poison := by
        cases hv : judge poisonFailed table n
        simp_all [Verdict.typed]
      rcases judge_eq_poison _ _ hverdict with
        ⟨name, sym, hk, hindex, hsym, hpoison⟩ | htarget
      · obtain ⟨id, _, hget⟩ := Option.bind_eq_some_iff.mp hsym
        obtain ⟨site, hsite⟩ := hreported hget hpoison
        exact .inl (.declaration hk hindex hsym hsite)
      · exact .inr htarget

include hvars

/-- A poisoned node of the finished tree has a cause in its subtree. -/
theorem exists_cause {n : Tree} (hn : n ∈ (typed poisonFailed table f).nodes)
    (hty : n.label.marks.ty = some .poison) :
    ∃ m ∈ n.subtree, Cause poisonFailed table log m := by
  rcases cause_or_assign poisonFailed table hreported hn hty with
    hself | ⟨hk, l, hhead, htarget⟩
  · exact ⟨n, by simp [Tree.subtree], hself⟩
  · obtain ⟨m, hm, hlabel⟩ := List.mem_map.mp (Forest.mem_preorder_of_head? hhead)
    have hsub : m ∈ n.subtree := by simp [Tree.subtree, hm]
    have hmem := Forest.mem_nodes_of_mem_subtree hn hsub
    have hvar : m.label.kind.isVar = true := by
      have hall := hvars n hn hk
      rw [hhead] at hall
      rw [hlabel]
      exact hall
    obtain ⟨name, hname⟩ : ∃ name, m.label.kind = .var name := by
      cases hkind : m.label.kind <;> simp_all [Kind.isVar]
    -- a variable has a type, so the target is poisoned itself
    have hpoison : m.label.marks.ty = some .poison := by
      rw [hlabel]
      refine htarget.resolve_left ?_
      rw [← hlabel, ty_of_mem_nodes poisonFailed table hmem]
      unfold judge
      rw [hname]
      exact ty_judgeVar_ne_none table m name
    rcases cause_or_assign poisonFailed table hreported hmem hpoison with hcause | ⟨hassign, _⟩
    · exact ⟨m, hsub, hcause⟩
    · rw [hname] at hassign
      exact absurd hassign (by simp)

end Finished

/-- An expression that has no type is complained of. -/
theorem isSome_complaint_of_untyped {t : Tree} (hk : t.label.kind.isExpr = true)
    (hty : (judge poisonFailed table t).ty = none) :
    (judge poisonFailed table t).complaint.isSome = true := by
  obtain ⟨_, ⟨o, hl⟩, hfit⟩ := (ty_judge_of_expression poisonFailed table hk).mp hty
  unfold operandsFit at hfit
  unfold judge
  simp [hl, judgeOp, hfit]

end Typing

open Scoping Typing in
/-- Poison has a reported cause, in every tree in which nothing but variables is
assigned to.  The finished tree is the one that was given, but for its marks.  The
log holds what the first pass reported and then the complaints about its nodes.  A
poisoned node has in its subtree a node that was complained of, or a variable whose
symbol was reported when it was declared.  So if nothing is reported at all, nothing
is poisoned and every expression has a type. -/
theorem analyze_poison_has_cause (config : Config) {f : Forest} (hf : f.AssignsToVars) :
    ∃ marked built a, (Session.start config).build f = .ok (marked, built) ∧
      analyze config f = .ok a ∧ a.forest.bare = f.bare ∧
      a.log.entries.toList = built.log.entries.toList ++ (a.forest.postorder.filterMap fun n =>
        (judge config.poisonFailed a.table n).complaint) ∧
      (∀ n ∈ a.forest.nodes, n.label.marks.ty = some .poison →
        ∃ m ∈ n.subtree, Cause config.poisonFailed a.table built.log m) ∧
      (a.log.entries.toList = [] →
        (∀ n ∈ a.forest.nodes, n.label.marks.ty ≠ some .poison) ∧
        (∀ sym ∈ a.table.symbols.toList, sym.ty ≠ .poison) ∧
        ∀ n ∈ a.forest.nodes, n.label.kind.isExpr = true → n.label.marks.ty ≠ none) := by
  obtain ⟨log, hanalyze, hlog⟩ := analyze_total config f
  have hbuilt : (start.after f).log.entries.toList = start.reports f := log_after start f
  have hbare := bare_typed_marked config.poisonFailed (finalTable f) f
  have hvars : (typed config.poisonFailed (finalTable f) (start.marked f)).AssignsToVars := by
    rw [← Forest.assignsToVars_bare, hbare, Forest.assignsToVars_bare]
    exact hf
  have hreported : ∀ {k : SymbolId} {sym : Symbol}, (finalTable f).symbols[k]? = some sym →
      sym.ty = .poison → ∃ site, .voidDeclaration site sym.name sym.firstLine ∈
        (start.after f).log.entries.toList := by
    intro k sym hsym hty
    rw [hbuilt]
    exact exists_voidDeclaration hsym hty
  have hcause := fun n hn hty =>
    exists_cause config.poisonFailed (finalTable f) hvars hreported (n := n) hn hty
  refine ⟨_, _, _, build_start config f, hanalyze, hbare, by rw [hbuilt]; exact hlog, hcause, ?_⟩
  intro hnone
  rw [hlog, List.append_eq_nil_iff, ← hbuilt] at hnone
  obtain ⟨hquiet, hcomplaints⟩ := hnone
  have hsilent : ∀ n ∈ (typed config.poisonFailed (finalTable f) (start.marked f)).nodes,
      (judge config.poisonFailed (finalTable f) n).complaint = none :=
    fun n hn => List.filterMap_eq_nil_iff.mp hcomplaints n (Forest.mem_postorder.mpr hn)
  refine ⟨?_, ?_, ?_⟩
  · intro n hn hty
    obtain ⟨m, hm, hcause⟩ := hcause n hn hty
    cases hcause with
    | complaint hcomplaint =>
        rw [hsilent m (Forest.mem_nodes_of_mem_subtree hn hm)] at hcomplaint
        cases hcomplaint
    | declaration _ _ _ hreport => simp [hquiet] at hreport
  · intro sym hsym hty
    obtain ⟨k, hk⟩ := Array.mem_iff_getElem?.mp (Array.mem_toList_iff.mp hsym)
    obtain ⟨site, hreport⟩ := hreported hk hty
    simp [hquiet] at hreport
  · intro n hn hexpr hty
    rw [ty_of_mem_nodes _ _ hn] at hty
    have hcomplaint := isSome_complaint_of_untyped _ _ hexpr hty
    simp [hsilent n hn] at hcomplaint

/-- Poison from two sources: a variable that is declared `void`, assigned along a
chain of assignments, and a name that nobody declares, used as an index. -/
def voidProgram : Forest := .ofTrees [
  .varDecl "ghost" .void 1,
  .funDecl "main" .void [] (.compound [.varDecl "x" .int 3, .arrayDecl "a" .int 4 3] [
    .assign (.var "ghost" 4) (.assign (.var "x" 4) (.var "ghost" 4) 4) 4,
    .assign (.index "a" (.var "nobody" 5) 5) (.const 1 5) 5] 2) 2]

open Scoping Typing in
/-- Both assignments are poisoned without a word about themselves.  The first has
its cause in the declaration of its target, the second in its target. -/
theorem analyze_poison_has_cause_voidProgram :
    voidProgram.AssignsToVars ∧
      ∃ marked built a, (Session.start {}).build voidProgram = .ok (marked, built) ∧
        analyze {} voidProgram = .ok a ∧
        (built.log.entries.toList = [.voidDeclaration .variable "ghost" 1] ∧
          a.log.entries.toList = [.voidDeclaration .variable "ghost" 1,
            .undeclaredVariable "nobody" 5, .invalidIndex "a" 5] ∧
          (∃ n ∈ a.forest.nodes, n.label.kind = .assign ∧ n.label.line = 4 ∧
            n.label.marks.ty = some .poison ∧ (judge true a.table n).complaint = none ∧
            ∃ m ∈ n.subtree, m.label.kind = .var "ghost" ∧ m.first.isEmpty = true ∧
              ((a.table.resolveSymbol m.label.marks.scope "ghost" m.label.line).map fun sym =>
                (sym.name, sym.firstLine)) = some ("ghost", 1)) ∧
          ∃ n ∈ a.forest.nodes, n.label.kind = .assign ∧ n.label.line = 5 ∧
            n.label.marks.ty = some .poison ∧ (judge true a.table n).complaint = none ∧
            ∃ m ∈ n.subtree, m.label.kind = .var "a" ∧
              (judge true a.table m).complaint = some (.invalidIndex "a" 5)) ∧
        a.forest.bare = voidProgram.bare ∧
        a.log.entries.toList = built.log.entries.toList ++
          (a.forest.postorder.filterMap fun n => (judge true a.table n).complaint) ∧
        (∀ n ∈ a.forest.nodes, n.label.marks.ty = some .poison →
          ∃ m ∈ n.subtree, Cause true a.table built.log m) ∧
        (a.log.entries.toList = [] →
          (∀ n ∈ a.forest.nodes, n.label.marks.ty ≠ some .poison) ∧
          (∀ sym ∈ a.table.symbols.toList, sym.ty ≠ .poison) ∧
          ∀ n ∈ a.forest.nodes, n.label.kind.isExpr = true → n.label.marks.ty ≠ none) := by
  have hvars : voidProgram.AssignsToVars := by decide
  obtain ⟨marked, built, a, hbuild, hanalyze, hcauses⟩ := analyze_poison_has_cause {} hvars
  obtain ⟨rfl, rfl⟩ := Prod.mk.inj (Except.ok.inj (hbuild.symm.trans (build_start {} voidProgram)))
  obtain rfl := Except.ok.inj (hanalyze.symm.trans (analyze_eq_run {} voidProgram))
  exact ⟨hvars, _, _, _, hbuild, hanalyze, by decide +kernel, hcauses⟩

end CMinus
