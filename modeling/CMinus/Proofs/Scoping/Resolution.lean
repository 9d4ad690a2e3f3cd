import CMinus.Proofs.Scoping.Moments
import CMinus.Proofs.Typing.Verdicts

/-!
# Two resolutions of one name

The first pass looks a name up where it meets it, in the table as it is then,
and records the use on the symbol it finds.  The second pass looks the name up
again, in the finished table, and discards a symbol that was declared on a later
line.  This file compares the two, use by use.

A use stands below the declarations of its block, so between the moment it is
entered and the end of the program only the outermost scope learns names.  Where
the first pass found a symbol, the second therefore finds the same one.  Where
it found none, the second can only find a global that was declared later in the
program; the line filter removes it unless it is declared on the line of the use
itself, since lines do not decrease along a program.

## Main results

* `Scoping.settled_program`: what holds when a use is entered;
* `Scoping.exists_makes`: every symbol was made at a moment of the walk;
* `analyze_resolves`: the two resolutions agree, with the one exception.
-/

namespace CMinus

namespace Scoping

/-! ## The moments at which names are used -/

/-- A scope is open, and of what was declared before only the outermost scope is
different in the table `t`. -/
structure Settled (t : Table) (s : Scoping) : Prop where
  valid : s.table.Valid
  isOpen : ∃ here, s.table.top? = some here
  grows : s.table.Extends t

/-- Declarations use no names. -/
theorem not_isPlain_of_leaves {admitted : Kind → Bool}
    (hadmitted : ∀ k, admitted k = true → k.isPlain = false) {a : Forest}
    (ha : a.Leaves admitted) {s : Scoping} {m : Moment Scoping} (hm : m ∈ s.moments a) :
    m.label.kind.isPlain = false := by
  have hl := label_mem_of_mem_moments hm
  clear hm
  induction ha with
  | nil => simp at hl
  | @cons l rest hk _ ih =>
      simp only [Forest.preorder_node, Forest.preorder_nil, List.nil_append,
        List.mem_cons] at hl
      rcases hl with hl | hl
      · rw [hl]
        exact hadmitted l.kind hk
      · exact ih hl

theorem isPlain_of_isObject {k : Kind} (hk : k.isObject = true) : k.isPlain = false := by
  cases k <;> simp_all [Kind.isObject, Kind.isPlain]

theorem isPlain_of_isParam {k : Kind} (hk : k.isParam = true) : k.isPlain = false := by
  cases k <;> simp_all [Kind.isParam, Kind.isPlain]

theorem settled_inner {f : Forest} (hf : f.Inner) {fn : String} {here : ScopeId}
    {s : Scoping} {t : Table} (hs : Inside fn here s) (ht : (s.after f).table.Extends t)
    {m : Moment Scoping} (hm : m ∈ s.moments f) (hplain : m.label.kind.isPlain = true) :
    Settled t m.state := by
  induction hf generalizing here s with
  | nil => simp [moments] at hm
  | @block l locals stmts rest hk hlocals hstmts hrest ihstmts ihrest =>
      have hinside := inside_furnished hs hlocals
      have hblock := passes_block (fills_furnished hs hlocals) (passes_of_inner hstmts hinside)
      have hout := hblock.inside hs
      rw [after_block hk hs] at ht
      have hend : ((s.furnished locals).after stmts).table.Extends t :=
        (Table.grows_pop _).append ((passes_of_inner hrest hout).extends_table ht)
      rw [moments_block hk hs] at hm
      simp only [List.mem_cons, List.mem_append] at hm
      rcases hm with rfl | (hm | hm) | hm
      · simp [hk, Kind.isPlain] at hplain
      · rw [not_isPlain_of_leaves (fun _ => isPlain_of_isObject) hlocals hm] at hplain
        exact absurd hplain (by simp)
      · exact ihstmts hinside hend hm
      · exact ihrest hout ht hm
  | @plain l a b c rest hk ha hb hc hrest iha ihb ihc ihr =>
      have henter := passes_enter_of_plain hk hs
      have h₁ := henter.inside hs
      have h₂ := (passes_of_inner ha h₁).inside h₁
      have h₃ := (passes_of_inner hb h₂).inside h₂
      have h₄ := (passes_of_inner hc h₃).inside h₃
      rw [after_plain hk] at ht
      have ht₄ := (passes_of_inner hrest h₄).extends_table ht
      have ht₃ := (passes_of_inner hc h₃).extends_table ht₄
      have ht₂ := (passes_of_inner hb h₂).extends_table ht₃
      have ht₁ := (passes_of_inner ha h₁).extends_table ht₂
      obtain ⟨hkc, hkf⟩ := not_block_of_isPlain hk
      rw [moments_plain hkc hkf] at hm
      simp only [List.mem_cons, List.mem_append] at hm
      rcases hm with rfl | ((hm | hm) | hm) | hm
      · exact ⟨hs.valid, ⟨here, hs.top⟩, henter.extends_table ht₁⟩
      · exact iha h₁ ht₂ hm
      · exact ihb h₂ ht₃ hm
      · exact ihc h₃ ht₄ hm
      · exact ihr h₄ ht hm

theorem settled_outer {f : Forest} (hf : f.Outer) {s : Scoping} {t : Table}
    (hs : Outside s) (ht : (s.after f).table.Extends t) {m : Moment Scoping}
    (hm : m ∈ s.moments f) (hplain : m.label.kind.isPlain = true) : Settled t m.state := by
  induction hf generalizing s with
  | nil => simp [moments] at hm
  | @object l rest hk _ ih =>
      obtain ⟨hc, hf⟩ := not_block_of_isObject hk
      rw [after_object hk] at ht
      rw [moments_plain hc hf] at hm
      simp only [List.mem_cons, List.mem_append] at hm
      rcases hm with rfl | ((hm | hm) | hm) | hm
      · rw [isPlain_of_isObject hk] at hplain
        exact absurd hplain (by simp)
      · simp [moments] at hm
      · simp [moments] at hm
      · simp [moments] at hm
      · exact ih (adds_enter_of_object hs hk .nil).outside ht hm
  | @function l block name spec params locals stmts rest hk hp hblock hl hstmts hrest ih =>
      have hadds := adds_finished hk hs hp hl hstmts
      have hinside := inside_equipped hk hs hp hl
      rw [after_function hk hs hp hblock hl hstmts] at ht
      have hend : ((s.equipped l params locals).after stmts).table.Extends t :=
        (Table.grows_pop _).append ((adds_of_outer hrest hadds.outside).grows.append ht)
      rw [moments_function hk hs hp hblock hl hstmts] at hm
      simp only [List.mem_cons, List.mem_append] at hm
      rcases hm with rfl | (hm | rfl | hm | hm) | hm
      · simp [hk, Kind.isPlain] at hplain
      · rw [not_isPlain_of_leaves (fun _ => isPlain_of_isParam) hp hm] at hplain
        exact absurd hplain (by simp)
      · simp [hblock, Kind.isPlain] at hplain
      · rw [not_isPlain_of_leaves (fun _ => isPlain_of_isObject) hl hm] at hplain
        exact absurd hplain (by simp)
      · exact settled_inner hstmts hinside hend hm hplain
      · exact ih hadds.outside ht hm

/-- In a program, whatever is declared between a use and the end is global. -/
theorem settled_program {f : Forest} (hf : f.Outer) {m : Moment Scoping}
    (hm : m ∈ start.moments f) (hplain : m.label.kind.isPlain = true) :
    Settled (finalTable f) m.state :=
  settled_outer hf outside_start (Table.grows_discard _) hm hplain

/-! ## The moments at which symbols are made -/

theorem size_symbols_declare_le (t : Table) (scope : ScopeId) (name : String) (ty : Ty)
    (line : UInt32) :
    (t.declare scope name ty line).2.symbols.size ≤ t.symbols.size + 1 := by
  cases hfree : t.lookupLocal scope name with
  | some k =>
      rw [Table.declare_of_lookupLocal_eq_some hfree]
      exact Nat.le_succ _
  | none => simp [Table.declare_of_lookupLocal_eq_none hfree]

/-- A step makes at most one symbol, whatever the state. -/
theorem size_symbols_enter_le (l : Label) (s : Scoping) :
    (enter l s).2.table.symbols.size ≤ s.table.symbols.size + 1 := by
  cases htop : s.table.top? with
  | none =>
      simp only [enter, htop]
      exact Nat.le_succ _
  | some here =>
      have hchange := change_enter l htop
      generalize (enter l s).2.table = t' at hchange
      cases hchange with
      | same => exact Nat.le_succ _
      | used => simp [Table.reference]
      | object => exact size_symbols_declare_le _ _ _ _ _
      | parameter => simpa [Table.addParameter] using size_symbols_declare_le _ _ _ _ _
      | block => exact Nat.le_succ _
      | function => exact size_symbols_declare_le _ _ _ _ _

theorem size_symbols_leave (t : Tree) (s : Scoping) :
    (leave t s).2.table.symbols.size = s.table.symbols.size := by
  rw [leave_eq]
  rcases table_exit t.label s with h | h
  · rw [h]
  · rw [h]
    rfl

section Walk

variable {s : Scoping} {f : Forest}

/-- What the first pass keeps holds at each of its moments. -/
theorem evolves_moment {m : Moment Scoping} (hm : m ∈ s.moments f) :
    Evolves s m.state ∧ Evolves (enter m.label m.state).2 (s.after f) :=
  (Forest.walk_related enter leave Evolves.refl Evolves.trans evolves_enter evolves_leave
    f s).2 m hm

variable (hv : s.table.Valid)

include hv

theorem valid_moment {m : Moment Scoping} (hm : m ∈ s.moments f) : m.state.table.Valid :=
  ((evolves_moment hm).1 hv).1

/-- What is declared when a node is entered stays declared. -/
theorem later_end {m : Moment Scoping} (hm : m ∈ s.moments f) :
    Later (enter m.label m.state).2.table (s.after f).table :=
  ((evolves_moment hm).2 (entered_enter m.label m.state (valid_moment hv hm)).valid).2.1

/-- Between two moments, too, the table only grows. -/
theorem later_of_lt {i j : Nat} {m m' : Moment Scoping} (hij : i < j)
    (hm : (s.moments f)[i]? = some m) (hm' : (s.moments f)[j]? = some m') :
    Later (enter m.label m.state).2.table m'.state.table := by
  have hpair := Forest.pairwise_moments enter leave Evolves.refl Evolves.trans evolves_enter
    evolves_leave f s
  have hvalid := valid_moment hv (List.mem_of_getElem? hm)
  exact (Forest.rel_of_pairwise hpair hij hm hm'
    (entered_enter m.label m.state hvalid).valid).2.1

/-- Every symbol that is new at the end was made at a moment of its own. -/
theorem exists_makes {k : SymbolId} (hk : s.table.symbols.size ≤ k)
    (hlt : k < (s.after f).table.symbols.size) :
    ∃ (j : Nat) (m : Moment Scoping), (s.moments f)[j]? = some m ∧
      m.state.table.symbols.size = k ∧
      Makes m.label m.state.table (enter m.label m.state).2.table := by
  obtain ⟨m, hm, hcount, hcount'⟩ := Forest.exists_moment_of_lt enter leave
    (fun s : Scoping => s.table.symbols.size) size_symbols_enter_le size_symbols_leave hk hlt
  obtain ⟨j, hj⟩ := List.mem_iff_getElem?.mp hm
  refine ⟨j, m, hj, hcount, ?_⟩
  rcases (entered_enter m.label m.state (valid_moment hv hm)).symbols with hsame | hmakes
  · omega
  · exact hmakes

end Walk

theorem rooted_start : start.table.Rooted := by
  intro id hid hne
  have hsize : start.table.scopes.size = 2 := rfl
  have hone : id = 1 := by
    rw [hsize] at hid
    omega
  exact ⟨"output", 0, by rw [hone]; rfl⟩

theorem rooted_moment {f : Forest} {m : Moment Scoping} (hm : m ∈ start.moments f) :
    m.state.table.Rooted :=
  ((evolves_moment hm).1 outside_start.valid).2.2 rooted_start

theorem rooted_finalTable (f : Forest) : (finalTable f).Rooted := by
  have h := (Forest.walk_related enter leave Evolves.refl Evolves.trans evolves_enter
    evolves_leave f start).1
  exact (h outside_start.valid).2.2 rooted_start

section Lines

variable {f : Forest} (hlines : f.lines.Pairwise (· ≤ ·))

include hlines

theorem line_le_of_lt {i j : Nat} {m m' : Moment Scoping} (hij : i < j)
    (hm : (start.moments f)[i]? = some m) (hm' : (start.moments f)[j]? = some m') :
    m.label.line ≤ m'.label.line := by
  have hmap : f.lines = (start.moments f).map (·.label.line) := by
    rw [Forest.lines, ← Forest.labels_moments enter leave f start, List.map_map]
    rfl
  rw [hmap, List.pairwise_map] at hlines
  exact Forest.rel_of_pairwise hlines hij hm hm'

/-- A symbol that is known when a node is entered was declared on no later
line. -/
theorem exists_fixed?_of_lt {i : Nat} {m : Moment Scoping}
    (hm : (start.moments f)[i]? = some m) {id : SymbolId}
    (hid : id < m.state.table.symbols.size) :
    ∃ sym, m.state.table.fixed? id = some sym ∧ sym.firstLine ≤ m.label.line := by
  have hv := outside_start.valid
  have hmem := List.mem_of_getElem? hm
  by_cases hbuiltin : id < start.table.symbols.size
  · have hzero : ∀ k < start.table.symbols.size,
        ∃ sym, start.table.fixed? k = some sym ∧ sym.firstLine = 0 := by
      intro k hk
      match k, hk with
      | 0, _ => exact ⟨_, rfl, rfl⟩
      | 1, _ => exact ⟨_, rfl, rfl⟩
      | 2, _ => exact ⟨_, rfl, rfl⟩
      | k + 3, hk => exact absurd hk (Nat.not_lt.mpr (Nat.le_add_left 3 k))
    obtain ⟨sym, hsym, hline⟩ := hzero id hbuiltin
    have hfixed := ((evolves_moment hmem).1 hv).2.1.fixed_eq id hbuiltin
    exact ⟨sym, hfixed.trans hsym, by rw [hline]; exact UInt32.zero_le⟩
  · have hend : m.state.table.symbols.size ≤ (start.after f).table.symbols.size :=
      Nat.le_trans (entered_enter m.label m.state (valid_moment hv hmem)).later.symbols_le
        (later_end hv hmem).symbols_le
    obtain ⟨j, d, hd, hcount, hone, _, sym, _, hfixed, _, _, hline⟩ :=
      exists_makes hv (Nat.not_lt.mp hbuiltin) (Nat.lt_of_lt_of_le hid hend)
    -- the symbol is already there, so it was made at an earlier moment
    have hji : j < i := by
      apply Classical.byContradiction
      intro hnot
      have hle : m.state.table.symbols.size ≤ d.state.table.symbols.size := by
        rcases Nat.lt_or_eq_of_le (Nat.not_lt.mp hnot) with hij | hij
        · exact Nat.le_trans
            (entered_enter m.label m.state (valid_moment hv hmem)).later.symbols_le
            (later_of_lt hv hij hm hd).symbols_le
        · rw [hij, hd] at hm
          rw [Option.some.inj hm]
      rw [hcount] at hle
      exact Nat.lt_irrefl _ (Nat.lt_of_lt_of_le hid hle)
    rw [hcount] at hfixed
    refine ⟨sym, ?_, ?_⟩
    · have hlt : id < (enter d.label d.state).2.table.symbols.size := by
        rw [hone, hcount]
        exact Nat.lt_succ_self id
      rw [(later_of_lt hv hji hd hm).fixed_eq id hlt, hfixed]
    · have hle := line_le_of_lt hlines hji hd hm
      simpa [Symbol.firstLine, hline] using hle

end Lines

/-! ## The two resolutions -/

end Scoping

/-- A use resolves to what its name means, if that begins early enough. -/
theorem Table.resolve_eq_some_iff {t : Table} {here : ScopeId} {name : String}
    {line : UInt32} {id : SymbolId} :
    t.resolve (some here) name line = some id ↔
      t.lookup here name = some id ∧
        ∃ sym, t.fixed? id = some sym ∧ sym.firstLine ≤ line := by
  have hfirst : (t.symbols[id]?).any (·.firstLine ≤ line) = true ↔
      ∃ sym, t.fixed? id = some sym ∧ sym.firstLine ≤ line := by
    rw [fixed?]
    cases t.symbols[id]? with
    | none => simp
    | some sym => simp [Symbol.fixed, Symbol.firstLine]
  simp only [resolve, bind, Option.bind_some, Option.filter_eq_some_iff, hfirst]

namespace Moment

/-- Entering the node records a use on the symbol `id`. -/
def Records (m : Moment Scoping) (id : SymbolId) : Prop :=
  id < m.state.table.symbols.size ∧
    (Scoping.enter m.label m.state).2.table = m.state.table.reference id m.label.line

/-- Entering the node changes nothing in the table. -/
def RecordsNothing (m : Moment Scoping) : Prop :=
  (Scoping.enter m.label m.state).2.table = m.state.table

/-- Entering the node declares `name` at the outermost level, as the symbol
`id`. -/
def DeclaresGlobally (m : Moment Scoping) (name : String) (id : SymbolId) : Prop :=
  m.label.kind.name? = some name ∧ m.state.table.top? = some 0 ∧
    m.state.table.symbols.size = id ∧
    (Scoping.enter m.label m.state).2.table.symbols.size = id + 1

end Moment

namespace Scoping

theorem isPlain_of_use? {k : Kind} {name : String} (h : k.use? = some name) :
    k.isPlain = true := by
  cases k <;> simp_all [Kind.use?, Kind.isPlain]

/-- Entering a use records it on the symbol that the name means now. -/
theorem table_enter_of_use {l : Label} {name : String} (huse : l.kind.use? = some name)
    {s : Scoping} {here : ScopeId} (htop : s.table.top? = some here) :
    (enter l s).2.table =
      (s.table.lookup here name).elim s.table (s.table.reference · l.line) := by
  rw [enter_eq l htop]
  show (s.step here l.kind l.line).table = _
  rw [step_of_plain (isPlain_of_use? huse), huse]
  show (s.use here name l.line).table = _
  rw [use_eq]

/-- A global declaration is one that the finished table knows by its name. -/
theorem lookupLocal_of_declaresGlobally {f : Forest} (hf : f.Outer) {d : Moment Scoping}
    (hd : d ∈ start.moments f) {name : String} {id : SymbolId}
    (hdecl : d.DeclaresGlobally name id) :
    (finalTable f).lookupLocal 0 name = some id ∧
      ∃ sym, (finalTable f).fixed? id = some sym ∧ sym.firstLine = d.label.line := by
  have hv := outside_start.valid
  obtain ⟨hname, htop, hcount, hone⟩ := hdecl
  have hmakes : Makes d.label d.state.table (enter d.label d.state).2.table := by
    rcases (entered_enter d.label d.state (valid_moment hv hd)).symbols with hsame | hmakes
    · rw [hone, hcount] at hsame
      exact absurd hsame (Nat.succ_ne_self id)
    · exact hmakes
  obtain ⟨_, here, sym, htop', hfixed, hname', hscope, hline⟩ := hmakes
  have hlt : id < (enter d.label d.state).2.table.symbols.size := by
    rw [hone]
    exact Nat.lt_succ_self id
  have hfinal : (finalTable f).fixed? id = some sym := by
    rw [← hfixed, hcount]
    exact (later_end hv hd).fixed_eq id hlt
  refine ⟨?_, sym, hfinal, by simp [Symbol.firstLine, hline]⟩
  obtain ⟨sym', hsym', rfl⟩ := Option.map_eq_some_iff.mp hfinal
  refine (valid_finalTable hf).lookupLocal_eq_some_iff.mpr ⟨sym', hsym', ?_, ?_⟩
  · exact Option.some.inj (hname'.symm.trans hname)
  · rw [htop] at htop'
    exact hscope.trans (Option.some.inj htop').symm

/-- Every global of the finished table that is not built in was declared at a
moment of the walk. -/
theorem exists_declaresGlobally {f : Forest} (hf : f.Outer) {name : String} {id : SymbolId}
    (hid : (finalTable f).lookupLocal 0 name = some id)
    (hstart : start.table.symbols.size ≤ id) :
    ∃ (j : Nat) (d : Moment Scoping), (start.moments f)[j]? = some d ∧
      d.DeclaresGlobally name id := by
  have hv := outside_start.valid
  obtain ⟨sym, hsym, hname, hscope⟩ := (valid_finalTable hf).lookupLocal_eq_some_iff.mp hid
  obtain ⟨j, d, hd, hcount, hone, here, made, htop, hmade, hname', hscope', _⟩ :=
    exists_makes hv hstart (Table.symbol_lt_of_lookupLocal hid)
  rw [hcount] at hmade hone
  have hlt : id < (enter d.label d.state).2.table.symbols.size := by
    rw [hone]
    exact Nat.lt_succ_self id
  have hsame : made = sym.fixed := by
    have hfinal := (later_end hv (List.mem_of_getElem? hd)).fixed_eq id hlt
    have hsym' : (start.after f).table.fixed? id = some sym.fixed :=
      congrArg (Option.map Symbol.fixed) hsym
    rw [hmade, hsym'] at hfinal
    exact (Option.some.inj hfinal).symm
  refine ⟨j, d, hd, ?_, ?_, hcount, hone⟩
  · rw [hname', hsame]
    exact congrArg some hname
  · rw [htop, ← hscope', hsame]
    exact congrArg some hscope

/-- A symbol of the outermost scope that a later table has and an earlier one
does not look up is new. -/
theorem size_le_of_lookupLocal {t t' : Table} (hv : t.Valid) (hv' : t'.Valid)
    (hgrows : t.Extends t') {name : String} (hnone : t.lookupLocal 0 name = none)
    {id : SymbolId} (hid : t'.lookupLocal 0 name = some id) : t.symbols.size ≤ id := by
  apply Nat.not_lt.mp
  intro hlt
  obtain ⟨sym', hsym', hname', hscope'⟩ := hv'.lookupLocal_eq_some_iff.mp hid
  have hfixed := hgrows.fixed_eq id hlt
  rw [Table.fixed?, hsym', Option.map_some] at hfixed
  obtain ⟨sym, hsym, hfix⟩ := Option.map_eq_some_iff.mp hfixed.symm
  have hname : sym.fixed.name = sym'.fixed.name := congrArg Symbol.name hfix
  have hscope : sym.fixed.scope = sym'.fixed.scope := congrArg Symbol.scope hfix
  have hfound := hv.lookupLocal_eq_some_iff.mpr
    ⟨sym, hsym, hname.trans hname', hscope.trans hscope'⟩
  rw [hnone] at hfound
  exact absurd hfound (by simp)

section Use

variable {f : Forest} (hf : f.Outer) (hlines : f.lines.Pairwise (· ≤ ·)) {i : Nat}
  {m : Moment Scoping} (hm : (start.moments f)[i]? = some m) {name : String}
  (huse : m.label.kind.use? = some name) {here : ScopeId}
  (htop : m.state.table.top? = some here)

include hf hlines hm huse htop

/-- What was visible when the use was entered is what it resolves to. -/
theorem resolve_of_lookup {id : SymbolId} (hid : m.state.table.lookup here name = some id) :
    m.Records id ∧ (finalTable f).resolve (some here) name m.label.line = some id := by
  have hset := settled_program hf (List.mem_of_getElem? hm) (isPlain_of_use? huse)
  have hlt := symbol_lt_of_lookup hid
  refine ⟨⟨hlt, by rw [table_enter_of_use huse htop, hid]; rfl⟩, ?_⟩
  obtain ⟨sym, hsym, hline⟩ := exists_fixed?_of_lt hlines hm hlt
  refine Table.resolve_eq_some_iff.mpr ⟨?_, sym, ?_, hline⟩
  · rcases hset.grows.lookup_eq_or hset.valid (valid_finalTable hf)
      (lt_of_top? hset.valid htop) name with heq | ⟨hnone, _⟩
    · rw [heq, hid]
    · rw [hid] at hnone
      exact absurd hnone (by simp)
  · rw [hset.grows.fixed_eq id hlt, hsym]

omit hlines in
/-- A use that nothing was visible for can only mean a global in the end. -/
theorem lookup_final_of_lookup_eq_none (hnone : m.state.table.lookup here name = none) :
    (finalTable f).lookup here name = (finalTable f).lookupLocal 0 name := by
  have hset := settled_program hf (List.mem_of_getElem? hm) (isPlain_of_use? huse)
  have hhere := lt_of_top? hset.valid htop
  rcases hset.grows.lookup_eq_or hset.valid (valid_finalTable hf) hhere name with
    heq | ⟨_, heq⟩
  · have hlocal := (valid_finalTable hf).lookupLocal_zero_eq_none (rooted_finalTable f)
      (Nat.lt_of_lt_of_le hhere hset.grows.scopes_le) (heq.trans hnone)
    rw [heq, hnone, hlocal]
  · exact heq

omit hf hlines in
/-- A use that records nothing makes no symbol; so what is new there is made
later. -/
theorem lt_of_declaresGlobally (hnone : m.state.table.lookup here name = none) {j : Nat}
    {d : Moment Scoping} (hd : (start.moments f)[j]? = some d) {id : SymbolId}
    (hdecl : d.DeclaresGlobally name id) (hnew : m.state.table.symbols.size ≤ id) :
    i < j := by
  obtain ⟨_, _, _, hone⟩ := hdecl
  have hlt : id < (enter d.label d.state).2.table.symbols.size := by
    rw [hone]
    exact Nat.lt_succ_self id
  apply Classical.byContradiction
  intro hnot
  have hle : (enter d.label d.state).2.table.symbols.size ≤ m.state.table.symbols.size := by
    rcases Nat.lt_or_eq_of_le (Nat.not_lt.mp hnot) with hji | hji
    · exact (later_of_lt outside_start.valid hji hd hm).symbols_le
    · rw [← hji, hd] at hm
      obtain rfl := Option.some.inj hm
      rw [table_enter_of_use huse htop, hnone]
      exact Nat.le_refl _
  exact Nat.lt_irrefl _ (Nat.lt_of_lt_of_le hlt (Nat.le_trans hle hnew))

/-- A use that nothing was visible for resolves to a global declared later on
the same line, and to nothing else. -/
theorem resolve_of_lookup_eq_none (hnone : m.state.table.lookup here name = none)
    (id : SymbolId) :
    (finalTable f).resolve (some here) name m.label.line = some id ↔
      ∃ j d, i < j ∧ (start.moments f)[j]? = some d ∧ d.DeclaresGlobally name id ∧
        d.label.line = m.label.line := by
  have hmem := List.mem_of_getElem? hm
  rw [Table.resolve_eq_some_iff, lookup_final_of_lookup_eq_none hf hm huse htop hnone]
  constructor
  · rintro ⟨hid, sym, hsym, hline⟩
    have hset := settled_program hf hmem (isPlain_of_use? huse)
    have hlocal := hset.valid.lookupLocal_zero_eq_none (rooted_moment hmem)
      (lt_of_top? hset.valid htop) hnone
    have hnew := size_le_of_lookupLocal hset.valid (valid_finalTable hf) hset.grows hlocal hid
    have hstart := ((evolves_moment hmem).1 outside_start.valid).2.1.symbols_le
    obtain ⟨j, d, hd, hdecl⟩ := exists_declaresGlobally hf hid (Nat.le_trans hstart hnew)
    have hij := lt_of_declaresGlobally hm huse htop hnone hd hdecl hnew
    refine ⟨j, d, hij, hd, hdecl, ?_⟩
    obtain ⟨_, sym', hsym', hfirst⟩ :=
      lookupLocal_of_declaresGlobally hf (List.mem_of_getElem? hd) hdecl
    obtain rfl := Option.some.inj (hsym.symm.trans hsym')
    rw [hfirst] at hline
    exact UInt32.le_antisymm hline (line_le_of_lt hlines hij hm hd)
  · rintro ⟨j, d, _, hd, hdecl, hline⟩
    obtain ⟨hid, sym, hsym, hfirst⟩ :=
      lookupLocal_of_declaresGlobally hf (List.mem_of_getElem? hd) hdecl
    exact ⟨hid, sym, hsym, by rw [hfirst, hline]; exact UInt32.le_refl _⟩

end Use

/-- The label of a node in the finished tree, apart from its type, is that of the
moment at which it was entered. -/
theorem site_typed_marked {f : Forest} {poisonFailed : Bool} {table : Table} {i : Nat}
    {m : Moment Scoping} {l : Label} (hm : (start.moments f)[i]? = some m)
    (hl : (Typing.typed poisonFailed table (start.marked f)).preorder[i]? = some l) :
    l.kind = m.label.kind ∧ l.line = m.label.line ∧
      l.marks.scope = (enter m.label m.state).1.scope := by
  have hleave : ∀ t s, (leave t s).1 = t.label.marks := by
    intro t s
    rw [leave_eq]
  have hsite := congrArg (·[i]?) (Typing.sites_typed poisonFailed table (start.marked f))
  have hwalk := congrArg (·[i]?) (Forest.preorder_walk enter leave hleave f start)
  change (start.marked f).preorder[i]? = ((start.moments f).map _)[i]? at hwalk
  simp only [List.getElem?_map, hl, hm, Option.map_some] at hsite hwalk
  rw [hwalk] at hsite
  simpa [Label.site] using hsite

end Scoping

open Scoping in
/-- Both passes resolve a use to one declaration, and leave the tree as it was given
but for its marks.  Where the first pass recorded the use on a symbol, the second
resolves it to that symbol.  Where the first recorded nothing, the second resolves
it to a symbol exactly if that is declared globally by a later node on the line of
the use. -/
theorem analyze_resolves (config : Config) {f : Forest} (hf : f.Outer)
    (hlines : f.lines.Pairwise (· ≤ ·)) :
    ∃ a, analyze config f = .ok a ∧ a.forest.bare = f.bare ∧
      ∀ (i : Nat) (u : Moment Scoping) (l : Label) (name : String),
        (start.moments f)[i]? = some u → a.forest.preorder[i]? = some l →
        l.kind.use? = some name →
        (∃ id, u.Records id ∧ a.table.resolve l.marks.scope name l.line = some id) ∨
          u.RecordsNothing ∧ ∀ id, a.table.resolve l.marks.scope name l.line = some id ↔
            ∃ (j : Nat) (d : Moment Scoping), i < j ∧ (start.moments f)[j]? = some d ∧
              d.DeclaresGlobally name id ∧ d.label.line = u.label.line := by
  obtain ⟨log, hanalyze, _⟩ := analyze_eq config hf
  refine ⟨_, hanalyze, Typing.bare_typed_marked _ _ f, ?_⟩
  intro i u l name hu hl huse
  obtain ⟨hkind, hline, hscope⟩ := site_typed_marked hu hl
  rw [hkind] at huse
  have hplain := isPlain_of_use? huse
  obtain ⟨hc, hfun⟩ := not_block_of_isPlain hplain
  obtain ⟨here, htop⟩ := (settled_program hf (List.mem_of_getElem? hu) hplain).isOpen
  have hmark : l.marks.scope = some here := by
    rw [hscope, marks_enter hc hfun htop]
    rfl
  rw [hmark, hline]
  cases hvisible : u.state.table.lookup here name with
  | some id => exact .inl ⟨id, resolve_of_lookup hf hlines hu huse htop hvisible⟩
  | none =>
      refine .inr ⟨?_, resolve_of_lookup_eq_none hf hlines hu huse htop hvisible⟩
      rw [Moment.RecordsNothing, table_enter_of_use huse htop, hvisible]
      rfl

open Scoping in
theorem analyze_resolves_nestedProgram :
    nestedProgram.Outer ∧ nestedProgram.lines.Pairwise (· ≤ ·) ∧
      ∃ a, analyze {} nestedProgram = .ok a ∧ a.forest.bare = nestedProgram.bare ∧
        ∀ (i : Nat) (u : Moment Scoping) (l : Label) (name : String),
          (start.moments nestedProgram)[i]? = some u → a.forest.preorder[i]? = some l →
          l.kind.use? = some name →
          (∃ id, u.Records id ∧ a.table.resolve l.marks.scope name l.line = some id) ∨
            u.RecordsNothing ∧ ∀ id, a.table.resolve l.marks.scope name l.line = some id ↔
              ∃ (j : Nat) (d : Moment Scoping),
                i < j ∧ (start.moments nestedProgram)[j]? = some d ∧
                d.DeclaresGlobally name id ∧ d.label.line = u.label.line :=
  have hshape : nestedProgram.IsProgram := by decide
  have hlines : nestedProgram.lines.Pairwise (· ≤ ·) := by decide
  ⟨hshape.outer, hlines, analyze_resolves {} hshape.outer hlines⟩

end CMinus
