import CMinus.Proofs.Typing.Causes

/-!
# Storage in accepted programs

What the rules ask of a name that is indexed or assigned to, in a program about
which nothing is reported.  The rule for variables asks that the name is declared
and that an index is an integer; it does not ask what is indexed, and an indexed
name is an integer in any case.  The rule for assignments asks that both sides
have one type; it does not ask whether that is a type that can be stored.  So a
scalar or a function may be indexed, and whole arrays and functions may be
assigned to each other (`misusedStorage_accepted`).

Some order remains (`analyze_storage`).  A symbol of an accepted program is an
integer, an array or a function: `void` is no type of a symbol
(`Scoping.noVoid_finalTable`), and a poisoned one has been reported.  Operators,
literals and elements are integers, and calls are integers or nothing, so the
only values that are no integers come from names, directly or handed on by
assignments (`Typing.names_of_order`).  Every assignment of an integer therefore
goes to an integer variable or to an indexed name.
-/

namespace CMinus

/-- What a declaration in order stands for: an integer, an array or a function. -/
def Ty.Declared (ty : Ty) : Prop := ty = .int ∨ ty = .intArray ∨ ty.isFunction = true

theorem Ty.declared_iff {ty : Ty} : ty.Declared ↔ ty ≠ .void ∧ ty ≠ .poison := by
  cases ty <;> simp [Declared, isFunction, result?]

namespace Forest

/-- In a tree that fits its use, the slots of every node fit theirs. -/
theorem slots_fit {f : Forest} {r : Role} (h : f.fits r = true) {n : Tree} (hn : n ∈ f.nodes) :
    n.first.fits (n.label.kind.role .first) = true ∧
      n.second.fits (n.label.kind.role .second) = true ∧
      n.third.fits (n.label.kind.role .third) = true := by
  induction f generalizing r with
  | nil => simp [nodes] at hn
  | node l a b c rest iha ihb ihc ihr =>
      obtain ⟨_, ha, hb, hc, hrest⟩ := fits_node.mp h
      simp only [nodes, List.mem_cons, List.mem_append] at hn
      rcases hn with rfl | ((hn | hn) | hn) | hn
      · exact ⟨ha, hb, hc⟩
      · exact iha ha hn
      · exact ihb hb hn
      · exact ihc hc hn
      · exact ihr hrest hn

end Forest

/-! ## The types of symbols -/

namespace Table

/-- No symbol has the type `void`. -/
def NoVoid (t : Table) : Prop := ∀ id, t.tyOf? id ≠ some .void

/-- A change to a symbol that keeps its type. -/
theorem NoVoid.modify {t : Table} (h : t.NoVoid) (k : SymbolId) {change : Symbol → Symbol}
    (hchange : ∀ sym, (change sym).ty = sym.ty) :
    NoVoid { t with symbols := t.symbols.modify k change } := by
  intro id
  have hid := h id
  simp only [tyOf?, Array.getElem?_modify] at hid ⊢
  split
  · simpa [Function.comp_def, hchange] using hid
  · exact hid

theorem NoVoid.declare {t : Table} (h : t.NoVoid) (scope : ScopeId) (name : String) {ty : Ty}
    (hty : ty ≠ .void) (line : UInt32) : (t.declare scope name ty line).2.NoVoid := by
  cases hfree : t.lookupLocal scope name with
  | some id =>
      rw [declare_of_lookupLocal_eq_some hfree]
      exact h
  | none =>
      intro id
      have hid := h id
      simp only [declare_of_lookupLocal_eq_none hfree, tyOf?, Array.getElem?_push] at hid ⊢
      split
      · simpa [fresh] using hty
      · exact hid

end Table

namespace Scoping

/-- No node declares anything of type `void`: an object that is declared so is
poisoned, and a function is a function whatever it returns. -/
theorem Change.noVoid {here : ScopeId} {l : Label} {t t' : Table} (h : Change here l t t')
    (hvoid : t.NoVoid) : t'.NoVoid := by
  have hobject : ∀ {o : Object}, l.kind.object? = some o →
      (t.declare here o.name o.ty l.line).2.NoVoid := by
    intro o ho
    refine hvoid.declare here o.name ?_ l.line
    cases hl : l.kind <;> simp [hl, Kind.object?] at ho <;> subst ho <;>
      simp only [Object.ty] <;> split <;> simp
  cases h with
  | same => exact hvoid
  | used => exact hvoid.modify _ fun _ => rfl
  | object ho => exact hobject ho
  | parameter ho => exact (hobject ho).modify _ fun _ => rfl
  | block => exact hvoid
  | @function name spec =>
      have hty : Ty.functionReturning spec ≠ .void := by
        cases spec <;> simp [Ty.functionReturning]
      exact hvoid.declare here name hty l.line

/-- No symbol of a finished table has the type `void`. -/
theorem noVoid_finalTable (f : Forest) : (finalTable f).NoVoid := by
  have hstart : start.table.NoVoid := by
    intro id hid
    have hbuiltins : ∀ sym ∈ start.table.symbols.toList, sym.ty ≠ .void := by decide
    obtain ⟨sym, hsym, hty⟩ := Option.map_eq_some_iff.mp hid
    exact hbuiltins sym (Array.mem_toList_iff.mpr (Array.mem_of_getElem? hsym)) hty
  exact invariant_after (fun _ _ h => h.noVoid) (fun _ h => h) outside_start.valid hstart f

end Scoping

namespace Typing

variable (poisonFailed : Bool) (table : Table)

/-! ## What an assignment stores -/

/-- A variable on its own, with its symbol and its type. -/
inductive Place : Forest → Symbol → Ty → Prop
  /-- Without an index, it is all that was declared. -/
  | whole {l : Label} {name : String} {sym : Symbol} (hk : l.kind = .var name)
      (hsym : table.resolveSymbol l.marks.scope name l.line = some sym) :
      Place (.node l .nil .nil .nil .nil) sym sym.ty
  /-- With an index, it is an integer. -/
  | element {l : Label} {name : String} {index : Forest} {sym : Symbol}
      (hk : l.kind = .var name)
      (hsym : table.resolveSymbol l.marks.scope name l.line = some sym)
      (hindex : index.ty? = some .int) : Place (.node l index .nil .nil .nil) sym .int

/-- A variable of the type, or an assignment of such a value to such a variable. -/
inductive Names (ty : Ty) : Forest → Prop
  | place {f : Forest} {sym : Symbol} (h : Place table f sym ty) : Names ty f
  | assign {l : Label} {target value : Forest} {sym : Symbol} (hk : l.kind = .assign)
      (htarget : Place table target sym ty) (hvalue : Names ty value) :
      Names ty (.node l target value .nil .nil)

/-- A node of a finished tree that is in order: its slots hold what its kind has a
use for, and its rule gives it its type and has no complaint. -/
structure InOrder (n : Tree) : Prop where
  first : n.first.fits (n.label.kind.role .first) = true
  second : n.second.fits (n.label.kind.role .second) = true
  third : n.third.fits (n.label.kind.role .third) = true
  verdict : judge poisonFailed table n = { ty := n.label.marks.ty }

variable {poisonFailed table}

theorem Place.declared {f : Forest} {sym : Symbol} {ty : Ty} (h : Place table f sym ty)
    (hsym : sym.ty.Declared) : ty.Declared := by
  cases h with
  | whole => exact hsym
  | element => exact .inl rfl

/-- An operator without complaint is an integer. -/
theorem judgeOp_eq_silent {n : Tree} {ty : Option Ty} (h : judgeOp poisonFailed n = { ty }) :
    ty = some .int := by
  unfold judgeOp at h
  split at h
  · exact (congrArg Verdict.ty h).symm
  · simp at h

/-- A call without complaint is an integer or nothing. -/
theorem judgeCall_eq_silent {n : Tree} {name : String} {ty : Option Ty}
    (h : judgeCall table n name = { ty }) : ty = some .int ∨ ty = some .void := by
  unfold judgeCall at h
  split at h
  · simp [Verdict.poisoned] at h
  · next sym _ =>
      cases hsym : sym.ty with
      | intFunction =>
          simp only [hsym, Ty.result?] at h
          exact .inl (congrArg Verdict.ty h).symm
      | voidFunction =>
          simp only [hsym, Ty.result?] at h
          exact .inr (congrArg Verdict.ty h).symm
      | _ => simp [hsym, Ty.result?, Verdict.poisoned] at h

/-- A variable without complaint refers to a symbol, and an index is an integer. -/
theorem judgeVar_eq_silent {n : Tree} {name : String} {ty : Option Ty}
    (h : judgeVar table n name = { ty }) :
    ∃ sym, table.resolveSymbol n.label.marks.scope name n.label.line = some sym ∧
      (n.first.isEmpty = true ∧ ty = some sym.ty ∨
        n.first.ty? = some .int ∧ ty = some .int) := by
  unfold judgeVar at h
  split at h
  · simp [Verdict.poisoned] at h
  · next sym hsym =>
      refine ⟨sym, hsym, ?_⟩
      split at h
      · next hempty => exact .inl ⟨hempty, (congrArg Verdict.ty h).symm⟩
      · split at h
        · next hindex => exact .inr ⟨hindex, (congrArg Verdict.ty h).symm⟩
        · simp [Verdict.poisoned] at h

/-- An assignment without complaint, with neither side poisoned, has two sides of
one type. -/
theorem judgeAssign_eq_silent {n : Tree} {ty : Option Ty} {target : Ty}
    (h : judgeAssign table n = { ty }) (htarget : n.first.ty? = some target)
    (hpoison : target ≠ .poison) (hvalue : n.second.ty? ≠ some .poison) :
    n.second.ty? = some target ∧ ty = some target := by
  unfold judgeAssign at h
  simp only [htarget, Option.some.injEq, hpoison] at h
  split at h
  · simp at h
  · split at h
    · next hsame =>
        have hsame : n.second.ty? = some target := by simpa [hpoison, hvalue, eq_comm] using hsame
        exact ⟨hsame, (congrArg Verdict.ty h).symm⟩
    · simp [Verdict.poisoned] at h

section Declared

variable (hdeclared : ∀ {id : SymbolId} {sym : Symbol}, table.symbols[id]? = some sym →
  sym.ty.Declared)

include hdeclared

theorem place_of_var {n : Tree} (hn : InOrder poisonFailed table n) {name : String}
    (hk : n.label.kind = .var name) :
    ∃ sym ty, Place table (.node n.label n.first .nil .nil .nil) sym ty ∧ sym.ty.Declared ∧
      n.label.marks.ty = some ty := by
  have hverdict : judgeVar table n name = { ty := n.label.marks.ty } := by
    have h := hn.verdict
    unfold judge at h
    rwa [hk] at h
  obtain ⟨sym, hsym, hplace⟩ := judgeVar_eq_silent hverdict
  obtain ⟨id, _, hid⟩ := Option.bind_eq_some_iff.mp hsym
  rcases hplace with ⟨hempty, hty⟩ | ⟨hindex, hty⟩
  · have hnil : n.first = .nil := by
      cases hfirst : n.first with
      | nil => rfl
      | node => simp [hfirst, Forest.isEmpty] at hempty
    rw [hnil]
    exact ⟨sym, sym.ty, .whole hk hsym, hdeclared hid, hty⟩
  · exact ⟨sym, .int, .element hk hsym hindex, hdeclared hid, hty⟩

/-- What is assigned to is a variable, and it refers to something declared. -/
theorem place_of_target {f : Forest} (hfit : f.fits .target = true)
    (horder : ∀ n ∈ f.nodes, InOrder poisonFailed table n) :
    ∃ sym ty, Place table f sym ty ∧ sym.ty.Declared ∧ f.ty? = some ty := by
  obtain ⟨l, index, b, c, rfl, hvar⟩ := Forest.exists_node_of_fits (by decide) hfit
  have hn := horder ⟨l, index, b, c⟩ (by simp [Forest.nodes])
  obtain ⟨name, hk⟩ : ∃ name, l.kind = .var name := by
    cases hl : l.kind <;> simp_all [Role.admits, Kind.isVar]
  have hb := hn.second
  have hc := hn.third
  simp only [hk, Kind.role] at hb hc
  obtain rfl := Forest.eq_nil_of_fits_absent hb
  obtain rfl := Forest.eq_nil_of_fits_absent hc
  exact place_of_var hdeclared hn hk

/-- Nothing is poisoned in a tree that is in order. -/
theorem ty_ne_poison {n : Tree} (horder : ∀ m ∈ n.subtree, InOrder poisonFailed table m) :
    n.label.marks.ty ≠ some .poison := by
  intro hpoison
  have hn := horder n (by simp [Tree.subtree])
  have hverdict := hn.verdict
  rw [hpoison] at hverdict
  rcases judge_eq_poison poisonFailed table hverdict with
    ⟨name, sym, _, _, hsym, hty⟩ | ⟨hk, l, hhead, htarget⟩
  · obtain ⟨id, _, hid⟩ := Option.bind_eq_some_iff.mp hsym
    exact (Ty.declared_iff.mp (hdeclared hid)).2 hty
  · have hfit := hn.first
    rw [hk] at hfit
    obtain ⟨sym, ty, hplace, hsym, hfirst⟩ := place_of_target hdeclared hfit
      fun m hm => horder m (by simp [Tree.subtree, hm])
    have hlabel : l.marks.ty = some ty := by simpa [Forest.ty?, hhead] using hfirst
    rw [hlabel] at htarget
    simp only [reduceCtorEq, Option.some.injEq, false_or] at htarget
    exact (Ty.declared_iff.mp (hplace.declared hsym)).2 htarget

/-- An assignment in order: both sides and the assignment itself have one type. -/
theorem assigned_of_order {n : Tree} (horder : ∀ m ∈ n.subtree, InOrder poisonFailed table m)
    (hk : n.label.kind = .assign) :
    ∃ sym ty, Place table n.first sym ty ∧ sym.ty.Declared ∧ n.first.ty? = some ty ∧
      n.second.ty? = some ty ∧ n.label.marks.ty = some ty := by
  have hn := horder n (by simp [Tree.subtree])
  have hfirst := hn.first
  have hsecond := hn.second
  rw [hk] at hfirst hsecond
  obtain ⟨sym, ty, hplace, hsym, htarget⟩ := place_of_target hdeclared hfirst
    fun m hm => horder m (by simp [Tree.subtree, hm])
  have hvalue : n.second.ty? ≠ some .poison := by
    obtain ⟨l, a, b, c, heq, _⟩ := Forest.exists_node_of_fits (by decide) hsecond
    have hpoison := ty_ne_poison (n := ⟨l, a, b, c⟩) hdeclared fun m hm => by
      refine horder m ?_
      have : m ∈ n.second.nodes := by simpa [heq, Forest.nodes, Tree.subtree] using hm
      simp [Tree.subtree, this]
    simpa [heq, Forest.ty?, Forest.head?] using hpoison
  have hverdict : judgeAssign table n = { ty := n.label.marks.ty } := by
    have h := hn.verdict
    unfold judge at h
    rwa [hk] at h
  obtain ⟨hsame, hty⟩ := judgeAssign_eq_silent hverdict htarget
    (Ty.declared_iff.mp (hplace.declared hsym)).2 hvalue
  exact ⟨sym, ty, hplace, hsym, htarget, hsame, hty⟩

/-- A value that is no integer is the whole of an array or a function, by its name
or behind assignments. -/
theorem names_of_order {f : Forest} (hfit : f.fits .operand = true)
    (horder : ∀ n ∈ f.nodes, InOrder poisonFailed table n) {ty : Ty} (hty : f.ty? = some ty)
    (hvoid : ty ≠ .void) (hint : ty ≠ .int) : Names table ty f := by
  -- only a name and an assignment can have such a type, and the value of the
  -- assignment has it again
  induction f with
  | nil => simp [Forest.ty?, Forest.head?] at hty
  | node l a b c rest iha ihb ihc ihr =>
      obtain ⟨hexpr, ha, hb, hc, hrest⟩ := Forest.fits_node.mp hfit
      obtain rfl := Forest.eq_nil_of_fits_absent hrest
      have hn := horder ⟨l, a, b, c⟩ (by simp [Forest.nodes])
      have hlabel : l.marks.ty = some ty := hty
      have hverdict := hn.verdict
      unfold judge at hverdict
      simp only [hlabel] at hverdict
      cases hk : l.kind with
      | op o =>
          simp only [hk] at hverdict
          exact absurd (Option.some.inj (judgeOp_eq_silent hverdict)) hint
      | const value =>
          simp only [hk] at hverdict
          exact absurd (Option.some.inj (congrArg Verdict.ty hverdict)).symm hint
      | call name =>
          simp only [hk] at hverdict
          rcases judgeCall_eq_silent hverdict with h | h
          · exact absurd (Option.some.inj h) hint
          · exact absurd (Option.some.inj h) hvoid
      | var name =>
          rw [hk] at hb hc
          obtain rfl := Forest.eq_nil_of_fits_absent hb
          obtain rfl := Forest.eq_nil_of_fits_absent hc
          obtain ⟨sym, ty', hplace, _, hty'⟩ := place_of_var hdeclared hn hk
          obtain rfl := Option.some.inj (hlabel.symm.trans hty')
          exact .place hplace
      | assign =>
          obtain ⟨sym, ty', hplace, _, _, hvalue, hty'⟩ :=
            assigned_of_order (n := ⟨l, a, b, c⟩) hdeclared
              (fun m hm => horder m (by simpa [Forest.nodes, Tree.subtree] using hm)) hk
          obtain rfl := Option.some.inj (hlabel.symm.trans hty')
          rw [hk] at hb hc
          obtain rfl := Forest.eq_nil_of_fits_absent hc
          exact .assign hk hplace
            (ihb hb (fun m hm => horder m (by simp [Forest.nodes, hm])) hvalue)
      | _ => simp [hk, Role.admits, Kind.isExpr] at hexpr

end Declared

/-- How a node of the finished tree uses what was declared. -/
structure UsesStorage (table : Table) (n : Tree) : Prop where
  /-- An indexed name refers to something declared, of whatever type, and it is an
  integer like its index. -/
  indexed : ∀ name, n.label.kind = .var name → n.first.isEmpty = false →
    ∃ sym, table.resolveSymbol n.label.marks.scope name n.label.line = some sym ∧
      sym.ty.Declared ∧ n.first.ty? = some .int ∧ n.label.marks.ty = some .int
  /-- An assignment, its target and its value have one type.  If that is not the
  integers, whole arrays or whole functions are assigned to each other. -/
  assigned : n.label.kind = .assign →
    ∃ sym ty, Place table n.first sym ty ∧ sym.ty.Declared ∧ n.first.ty? = some ty ∧
      n.second.ty? = some ty ∧ n.label.marks.ty = some ty ∧
      (ty = .int ∨ (ty = .intArray ∨ ty.isFunction = true) ∧ Names table ty n.second)

theorem usesStorage_of_order
    (hdeclared : ∀ {id : SymbolId} {sym : Symbol}, table.symbols[id]? = some sym →
      sym.ty.Declared)
    {n : Tree} (horder : ∀ m ∈ n.subtree, InOrder poisonFailed table m) :
    UsesStorage table n where
  indexed := by
    intro name hk hindexed
    have hn := horder n (by simp [Tree.subtree])
    obtain ⟨sym, ty, hplace, hsym, hty⟩ := place_of_var hdeclared hn hk
    generalize hfirst : n.first = first at hplace hindexed ⊢
    cases hplace with
    | whole => simp [Forest.isEmpty] at hindexed
    | element hk' hresolve hindex =>
        obtain rfl := Kind.var.inj (hk.symm.trans hk')
        exact ⟨sym, hresolve, hsym, hindex, hty⟩
  assigned := by
    intro hk
    obtain ⟨sym, ty, hplace, hsym, htarget, hvalue, hty⟩ := assigned_of_order hdeclared horder hk
    refine ⟨sym, ty, hplace, hsym, htarget, hvalue, hty, ?_⟩
    have hfit := (horder n (by simp [Tree.subtree])).second
    rw [hk] at hfit
    rcases hplace.declared hsym with hint | hwhole
    · exact .inl hint
    · refine .inr ⟨hwhole, names_of_order hdeclared hfit
        (fun m hm => horder m (by simp [Tree.subtree, hm])) hvalue ?_ ?_⟩
      · exact (Ty.declared_iff.mp (.inr hwhole)).1
      · rintro rfl
        simp [Ty.isFunction, Ty.result?] at hwhole

end Typing

open Scoping Typing in
/-- If nothing is reported about a program, every indexed name of it refers to an
integer, an array or a function and has an integer for its index; and an
assignment stores a value of the type that its target has, which is an integer
unless both sides are names of whole arrays or functions.  The nodes are those of
the program, but for their marks. -/
theorem analyze_storage (config : Config) {f : Forest} (hf : f.IsProgram) :
    ∃ a, analyze config f = .ok a ∧ a.forest.bare = f.bare ∧
      (a.hadError = false → ∀ n ∈ a.forest.nodes, UsesStorage a.table n) := by
  obtain ⟨log, hanalyze, hlog⟩ := analyze_total config f
  have hbare := bare_typed_marked config.poisonFailed (finalTable f) f
  refine ⟨_, hanalyze, hbare, fun hquiet n hn => ?_⟩
  have hempty : log.entries.toList = [] := by
    by_contra hne
    exact absurd ((Log.hadError_iff log).mpr hne) (by simpa [Analysis.hadError] using hquiet)
  rw [hlog, List.append_eq_nil_iff] at hempty
  obtain ⟨hreports, hcomplaints⟩ := hempty
  have hdeclared : ∀ {id : SymbolId} {sym : Symbol}, (finalTable f).symbols[id]? = some sym →
      sym.ty.Declared := by
    intro id sym hsym
    refine Ty.declared_iff.mpr ⟨fun hvoid => ?_, fun hpoison => ?_⟩
    · exact noVoid_finalTable f id (by rw [Table.tyOf?, hsym, Option.map_some, hvoid])
    · obtain ⟨site, hsite⟩ := exists_voidDeclaration hsym hpoison
      rw [hreports] at hsite
      exact List.not_mem_nil hsite
  have hfits : (typed config.poisonFailed (finalTable f) (start.marked f)).fits .program =
      true := by
    rw [← Forest.fits_bare, hbare, Forest.fits_bare]
    exact hf
  have horder : ∀ m ∈ n.subtree, InOrder config.poisonFailed (finalTable f) m := by
    intro m hm
    have hm := Forest.mem_nodes_of_mem_subtree hn hm
    obtain ⟨hfirst, hsecond, hthird⟩ := Forest.slots_fit hfits hm
    have hty := ty_of_mem_nodes config.poisonFailed (finalTable f) hm
    have hcomplaint := List.filterMap_eq_nil_iff.mp hcomplaints m (Forest.mem_postorder.mpr hm)
    refine ⟨hfirst, hsecond, hthird, ?_⟩
    rw [hty, ← hcomplaint]
  exact usesStorage_of_order hdeclared horder

/-- A scalar and a function are indexed, and an array and a function are assigned
to as a whole. -/
def misusedStorage : Forest := .ofTrees [
  .varDecl "x" .int 1,
  .arrayDecl "a" .int 3 1,
  .arrayDecl "b" .int 3 1,
  .funDecl "f" .int [] (.compound [] [.returnValue (.const 1 2) 2] 2) 2,
  .funDecl "main" .void [] (.compound []
    [.assign (.index "x" (.const 0 4) 4) (.const 1 4) 4,
     .assign (.index "f" (.var "x" 5) 5) (.const 1 5) 5,
     .assign (.var "a" 6) (.var "b" 6) 6,
     .assign (.var "f" 7) (.var "input" 7) 7] 3) 3]

open Typing in
theorem analyze_storage_misusedStorage :
    misusedStorage.IsProgram ∧ ∃ a, analyze {} misusedStorage = .ok a ∧
      a.forest.bare = misusedStorage.bare ∧ a.hadError = false ∧
      ∀ n ∈ a.forest.nodes, UsesStorage a.table n := by
  have hf : misusedStorage.IsProgram := by decide
  obtain ⟨a, hanalyze, hbare, huses⟩ := analyze_storage {} hf
  have hquiet : (analyze {} misusedStorage).toOption.map (·.hadError) = some false := by
    decide +kernel
  rw [hanalyze] at hquiet
  have hquiet : a.hadError = false := Option.some.inj hquiet
  exact ⟨hf, a, hanalyze, hbare, hquiet, huses hquiet⟩

/-- The type of what a name in a finished tree refers to. -/
def Tree.symbolTy? (table : Table) (n : Tree) : Option Ty :=
  n.label.kind.use?.bind fun name =>
    (table.resolveSymbol n.label.marks.scope name n.label.line).map (·.ty)

/-- Nothing is reported about an integer and a function that are indexed, or about
an array and a function that are assigned to. -/
theorem misusedStorage_accepted :
    misusedStorage.IsProgram ∧ ∃ a, analyze {} misusedStorage = .ok a ∧ a.hadError = false ∧
      (∃ n ∈ a.forest.nodes, n.label.kind = .var "x" ∧ n.first.isEmpty = false ∧
        n.symbolTy? a.table = some .int) ∧
      (∃ n ∈ a.forest.nodes, n.label.kind = .var "f" ∧ n.first.isEmpty = false ∧
        n.symbolTy? a.table = some .intFunction) ∧
      (∃ n ∈ a.forest.nodes, n.label.kind = .assign ∧
        ∃ target ∈ n.first.trees, target.first.isEmpty = true ∧
          target.symbolTy? a.table = some .intArray) ∧
      ∃ n ∈ a.forest.nodes, n.label.kind = .assign ∧
        ∃ target ∈ n.first.trees, target.first.isEmpty = true ∧
          target.symbolTy? a.table = some .intFunction :=
  ⟨by decide, _, analyze_eq_run {} misusedStorage, by decide +kernel⟩

end CMinus
