import CMinus.Proofs.Typing.Renaming
import CMinus.Proofs.Typing.Returns

/-!
# Programs that grow at the end

A program may be continued by further declarations.  The first pass has finished
with the old part by the time it reaches the new one, but the second pass begins
when the table already holds both, and all of them share the outermost scope.

What keeps the new part from reaching back is this.  Of the scopes from before
only the outermost learns new names, and old symbols gain nothing but lines of
use (`Table.Extends`, `Table.KeepsLines`).  A name that the old part could look
up therefore means what it meant; one that it could not look up may now mean a
new global, but that begins on a later line than the use and is filtered out
(`Table.resolve_eq_of_extends`).  A return finds its function by name, and the
function's own declaration has taken the name before anything new can
(`Table.Within.enclosingTy_eq`).  So the two tables answer alike on the old part.
-/

namespace CMinus

/-! ## One chain behind another -/

namespace Forest

/-- One chain behind another. -/
def append : Forest → Forest → Forest
  | nil, g => g
  | node l a b c rest, g => node l a b c (rest.append g)

theorem postorder_append (f g : Forest) :
    (f.append g).postorder = f.postorder ++ g.postorder := by
  induction f with
  | nil => rfl
  | node l a b c rest _ _ _ ih => simp [append, postorder, ih]

end Forest

namespace Scoping

/-- A walk goes through one chain and then the other. -/
theorem after_append (s : Scoping) (f g : Forest) :
    s.after (f.append g) = (s.after f).after g := by
  induction f generalizing s with
  | nil => rfl
  | node l a b c rest _ _ _ ih => rw [Forest.append, after_node, after_node, ih]

theorem marked_append (s : Scoping) (f g : Forest) :
    s.marked (f.append g) = (s.marked f).append ((s.after f).marked g) := by
  induction f generalizing s with
  | nil => rfl
  | node l a b c rest _ _ _ ih =>
      simp only [Forest.append, marked_node, after_node, ih]

end Scoping

namespace Typing

variable (poisonFailed : Bool) (table : Table)

theorem typed_append (f g : Forest) :
    typed poisonFailed table (f.append g) =
      (typed poisonFailed table f).append (typed poisonFailed table g) := by
  induction f with
  | nil => rfl
  | node l a b c rest _ _ _ ih => simp only [Forest.append, typed, ih]

theorem complaints_append (f g : Forest) :
    complaints poisonFailed table (f.append g) =
      complaints poisonFailed table f ++ complaints poisonFailed table g := by
  simp only [complaints, Forest.postorder_append, List.filterMap_append]

end Typing

/-! ## Lines of use -/

namespace Table

/-- Every symbol is still there, with the lines that it had before all others. -/
def KeepsLines (t t' : Table) : Prop :=
  ∀ (id : SymbolId) (sym : Symbol), t.symbols[id]? = some sym →
    ∃ sym', t'.symbols[id]? = some sym' ∧ sym.lines <+: sym'.lines

namespace KeepsLines

variable {t t' t'' : Table}

theorem of_symbols_eq (h : t'.symbols = t.symbols) : KeepsLines t t' :=
  fun _ sym hsym => ⟨sym, by rw [h, hsym], List.prefix_refl _⟩

theorem trans (h : KeepsLines t t') (h' : KeepsLines t' t'') : KeepsLines t t'' := by
  intro id sym hsym
  obtain ⟨sym', hsym', hlines⟩ := h id sym hsym
  obtain ⟨sym'', hsym'', hlines'⟩ := h' id sym' hsym'
  exact ⟨sym'', hsym'', hlines.trans hlines'⟩

theorem modify (t : Table) (k : SymbolId) {f : Symbol → Symbol}
    (hf : ∀ s, s.lines <+: (f s).lines) :
    KeepsLines t { t with symbols := t.symbols.modify k f } := by
  intro id sym hsym
  by_cases hk : k = id
  · exact ⟨f sym, by simp [Array.getElem?_modify, hk, hsym], hf sym⟩
  · exact ⟨sym, by simp [Array.getElem?_modify, hk, hsym], List.prefix_refl _⟩

theorem declare (t : Table) (scope : ScopeId) (name : String) (ty : Ty) (line : UInt32) :
    KeepsLines t (t.declare scope name ty line).2 := by
  cases hfree : t.lookupLocal scope name with
  | some k =>
      rw [declare_of_lookupLocal_eq_some hfree]
      exact of_symbols_eq rfl
  | none =>
      intro id sym hsym
      have hlt := (Array.getElem?_eq_some_iff.mp hsym).1
      refine ⟨sym, ?_, List.prefix_refl _⟩
      rw [declare_of_lookupLocal_eq_none hfree, Array.getElem?_push,
        if_neg (Nat.ne_of_lt hlt), hsym]

end KeepsLines

/-- A symbol of a table that is extended gains lines and nothing else. -/
theorem exists_lines_of_extends {t t' : Table} (h : t.Extends t') (hlines : t.KeepsLines t')
    {id : SymbolId} {sym : Symbol} (hsym : t.symbols[id]? = some sym) :
    ∃ more, t'.symbols[id]? = some { sym with lines := sym.lines ++ more } := by
  have hlt := (Array.getElem?_eq_some_iff.mp hsym).1
  obtain ⟨sym', hsym', more, hmore⟩ := hlines id sym hsym
  have hfixed := h.fixed_eq id hlt
  have hparams := h.params_eq id hlt (fun h => h)
  simp only [fixed?, params?, hsym, hsym', Option.map_some, Option.some.injEq] at hfixed hparams
  refine ⟨more, hsym'.trans (congrArg some ?_)⟩
  cases sym
  cases sym'
  simp_all [Symbol.fixed]

end Table

namespace Scoping

theorem keepsLines_enter (l : Label) (s : Scoping) :
    s.table.KeepsLines (enter l s).2.table := by
  cases htop : s.table.top? with
  | none =>
      simp only [enter, htop]
      exact .of_symbols_eq rfl
  | some here =>
      have hchange := change_enter l htop
      generalize (enter l s).2.table = t' at hchange
      cases hchange with
      | same | block => exact .of_symbols_eq rfl
      | used => exact .modify _ _ fun _ => List.prefix_append _ _
      | object => exact .declare _ _ _ _ _
      | parameter =>
          exact (Table.KeepsLines.declare _ _ _ _ _).trans
            (.modify _ _ fun _ => List.prefix_refl _)
      | function => exact (Table.KeepsLines.declare _ _ _ _ _).trans (.of_symbols_eq rfl)

theorem keepsLines_leave (t : Tree) (s : Scoping) :
    s.table.KeepsLines (leave t s).2.table := by
  rw [leave_eq]
  rcases table_exit t.label s with h | h
  · exact .of_symbols_eq (by rw [h])
  · exact .of_symbols_eq (by rw [h]; rfl)

/-- A walk only adds lines of use. -/
theorem keepsLines_after (s : Scoping) (f : Forest) :
    s.table.KeepsLines (s.after f).table :=
  (Forest.walk_related enter leave (R := fun s s' => s.table.KeepsLines s'.table)
    (fun _ => .of_symbols_eq rfl) (fun h h' => h.trans h') keepsLines_enter keepsLines_leave
    f s).1

/-- What a walk declares it dates with a line of its own. -/
theorem firstLine_mem_lines {s : Scoping} (hv : s.table.Valid) {f : Forest} {id : SymbolId}
    (hid : s.table.symbols.size ≤ id) {sym : Symbol}
    (hsym : (s.after f).table.fixed? id = some sym) : sym.firstLine ∈ f.lines := by
  have hlt : id < (s.after f).table.symbols.size := by
    obtain ⟨sym', hsym', _⟩ := Option.map_eq_some_iff.mp hsym
    exact (Array.getElem?_eq_some_iff.mp hsym').1
  obtain ⟨j, m, hm, hcount, hone, _, made, _, hmade, _, _, hline⟩ := exists_makes hv hid hlt
  have hmem := List.mem_of_getElem? hm
  have hkept := (later_end hv hmem).fixed_eq id (by omega)
  rw [hcount] at hmade
  obtain rfl := Option.some.inj (hsym.symm.trans (hkept.trans hmade))
  rw [Symbol.firstLine, hline]
  exact List.mem_map_of_mem (label_mem_of_mem_moments hmem)

end Scoping

/-! ## What an extended table still answers -/

namespace Table

section Extends

variable {t t' : Table} (h : t.Extends t') (hv : t.Valid) (hv' : t'.Valid)

include h hv hv'

/-- A use resolves to what it resolved to, if whatever is new begins behind it. -/
theorem resolve_eq_of_extends (hr : t.Rooted) {scope : ScopeId}
    (hscope : scope < t.scopes.size) {line : UInt32}
    (hnew : ∀ id sym, t.symbols.size ≤ id → t'.fixed? id = some sym → line < sym.firstLine)
    (name : String) :
    t'.resolve (some scope) name line = t.resolve (some scope) name line := by
  apply Option.ext
  intro id
  rw [resolve_eq_some_iff, resolve_eq_some_iff]
  rcases h.lookup_eq_or hv hv' hscope name with heq | ⟨hnone, heq⟩
  · rw [heq]
    refine and_congr_right fun hid => ?_
    rw [h.fixed_eq id (Scoping.symbol_lt_of_lookup hid)]
  · -- the name is new, and so is its symbol
    have hfree := hv.lookupLocal_zero_eq_none hr hscope hnone
    constructor
    · rintro ⟨hid, sym, hsym, hline⟩
      have hsize := Scoping.size_le_of_lookupLocal hv hv' h hfree (heq.symm.trans hid)
      exact absurd hline (UInt32.not_le.mpr (hnew id sym hsize hsym))
    · rintro ⟨hid, _⟩
      rw [hnone] at hid
      exact absurd hid (by simp)

omit hv hv' in
/-- What it resolves to says what it said. -/
theorem profile_resolveSymbol_of_extends {scope : ScopeId} {name : String} {line : UInt32}
    (hresolve : t'.resolve (some scope) name line = t.resolve (some scope) name line) :
    (t'.resolveSymbol (some scope) name line).map Typing.profile =
      (t.resolveSymbol (some scope) name line).map Typing.profile := by
  rw [resolveSymbol, resolveSymbol, hresolve]
  cases hid : t.resolve (some scope) name line with
  | none => rfl
  | some id =>
      have hlt := Scoping.symbol_lt_of_lookup (resolve_eq_some_iff.mp hid).1
      have hdecl := congrArg (Option.map fun d : Decl => (d.ty, d.params))
        (h.decl_eq hlt fun h => h)
      simp only [Option.map_map] at hdecl
      exact hdecl

omit hv' in
/-- The scopes of a function stay its scopes. -/
theorem Within.extends {fn : String} {scope : ScopeId} (hwithin : t.Within fn scope) :
    t'.Within fn scope := by
  have hplain : ∀ {id : ScopeId} {name : String} {p : ScopeId},
      t.heading? id = some (name, some p) → t.NoFunctionIn id → t'.NoFunctionIn id := by
    intro id name p hheading hnone name' k hk
    have hp := hv.parent_lt_of_heading? hheading
    rw [h.closed id (lt_of_heading? hheading) (Nat.ne_of_gt (Nat.zero_lt_of_lt hp))] at hk
    rw [isFunction, h.tyOf?_eq (symbol_lt_of_lookupLocal hk)]
    exact hnone name' k hk
  induction hwithin with
  | body hheading hnone =>
      exact .body ((h.heading_eq _ (lt_of_heading? hheading)).trans hheading)
        (hplain hheading hnone)
  | block hheading hnone _ ih =>
      exact .block ((h.heading_eq _ (lt_of_heading? hheading)).trans hheading)
        (hplain hheading hnone) ih

/-- A return finds the function that it found, whose name was taken. -/
theorem Within.enclosingTy_eq {fn : String} {scope : ScopeId} (hwithin : t.Within fn scope)
    (hglobal : t.heading? 0 = some (globalName, none)) {id : SymbolId}
    (hid : t.lookupLocal 0 fn = some id) :
    t'.enclosingTy (some scope) = t.enclosingTy (some scope) := by
  have hglobal' : t'.heading? 0 = some (globalName, none) :=
    (h.heading_eq 0 (lt_of_heading? hglobal)).trans hglobal
  have hty := h.tyOf?_eq (symbol_lt_of_lookupLocal hid)
  have hfun : t'.isFunction id = t.isFunction id := by
    rw [isFunction, hty, isFunction]
  simp only [enclosingTy, hwithin.enclosing_eq hv hglobal hid,
    (hwithin.extends h hv).enclosing_eq hv' hglobal' (h.kept 0 fn id hid), hfun]
  cases t.isFunction id with
  | true => simp [Enclosing.map, hty]
  | false => rfl

end Extends

end Table

/-- A mark of a program is the outermost scope or a scope of one of its
functions. -/
theorem Forest.Lexical.owned {t : Table} {f : Forest} (h : f.Lexical t) {l : Label}
    (hl : l ∈ f.preorder) :
    l.marks.scope = some 0 ∨
      ∃ fn scope, l.marks.scope = some scope ∧ t.Within fn scope ∧
        ∃ d ∈ f.globals, d.name = fn := by
  induction h with
  | nil => simp at hl
  | @object l' rest _ hscope _ ih =>
      simp only [preorder_node, preorder_nil, List.nil_append, List.mem_cons] at hl
      rcases hl with rfl | hl
      · exact .inl hscope
      · rcases ih hl with hzero | ⟨fn, scope, hself, hwithin, d, hd, hname⟩
        · exact .inl hzero
        · exact .inr ⟨fn, scope, hself, hwithin, d, List.mem_append_right _ hd, hname⟩
  | @function id l' block name spec params locals stmts rest hk hblock hscope hsame hheading
      hentry hparams hlocals hstmts hrest ih =>
      let tree : Tree := ⟨l', params, node block locals stmts .nil .nil, .nil⟩
      have hfunction : (node l' params (node block locals stmts .nil .nil) .nil rest).Lexical t :=
        .function hk hblock hscope hsame hheading hentry hparams hlocals hstmts hrest
      have htree : tree ∈ (node l' params (node block locals stmts .nil .nil) .nil rest).trees :=
        List.mem_cons_self
      have hsplit : l ∈ (single tree).preorder ∨ l ∈ rest.preorder := by
        simpa [tree, single, ofTrees, or_assoc] using hl
      rcases hsplit with hl | hl
      · obtain ⟨n, hn, rfl⟩ := List.mem_map.mp hl
        obtain ⟨scope, hself, hwithin⟩ := hfunction.within htree hk n hn
        exact .inr ⟨name, scope, hself, hwithin, exists_global_of_mem_trees htree hk⟩
      · rcases ih hl with hzero | ⟨fn, scope, hself, hwithin, d, hd, hname⟩
        · exact .inl hzero
        · exact .inr ⟨fn, scope, hself, hwithin, d, List.mem_append_right _ hd, hname⟩

namespace Scoping

variable {p q : Forest}

/-- The table of a continued program extends that of the program. -/
theorem extends_append (hp : p.Outer) (hq : q.Outer) :
    (finalTable p).Extends (finalTable (p.append q)) := by
  have hadds := adds_of_outer hq (adds_program hp).outside
  rw [finalTable, finalTable, after_append]
  exact { hadds.grows with }

/-- The names that a program declares at the outermost level are taken there. -/
theorem exists_lookupLocal_of_mem_globals (hp : p.Outer) {name : String}
    (hname : ∃ d ∈ (start.marked p).globals, d.name = name) :
    ∃ id, (finalTable p).lookupLocal 0 name = some id := by
  obtain ⟨d, hd, rfl⟩ := hname
  rw [← Forest.globals_bare, bare_marked, Forest.globals_bare] at hd
  rw [← Option.isSome_iff_exists, ← Table.isSome_meaning?, meaning?_finalTable hp]
  exact List.find?_isSome.mpr ⟨d, List.mem_append_right _ hd, by simp⟩

/-- On the old part both tables answer alike. -/
theorem answersAll_append (hp : p.Outer) (hq : q.Outer)
    (hlines : ∀ m ∈ p.lines, ∀ n ∈ q.lines, m < n) :
    Typing.AnswersAll id (finalTable p) (finalTable (p.append q)) (start.marked p) := by
  have hgrows := extends_append hp hq
  have hv := valid_end p
  have hv' := valid_end (p.append q)
  intro l hl
  have hline : l.line ∈ p.lines := by
    rw [← Forest.lines_bare, ← bare_marked start p, Forest.lines_bare]
    exact List.mem_map_of_mem hl
  obtain ⟨scope, hscope, hlt⟩ := exists_scope_lt outside_start.valid room_start hl
  have hnew : ∀ id sym, (finalTable p).symbols.size ≤ id →
      (finalTable (p.append q)).fixed? id = some sym → l.line < sym.firstLine := by
    intro id sym hid hsym
    rw [finalTable, after_append] at hsym
    exact hlines _ hline _ (firstLine_mem_lines (valid_after outside_start.valid p) hid hsym)
  have hresolve := Table.resolve_eq_of_extends hgrows hv hv' (rooted_finalTable p) hlt hnew
  rw [hscope]
  refine ⟨hresolve, fun name => Table.profile_resolveSymbol_of_extends hgrows (hresolve name), ?_⟩
  have hglobal := (adds_program hp).outside.heading
  rcases (lexical_program hp).owned hl with hzero | ⟨fn, scope', hself, hwithin, hfn⟩
  · obtain rfl := Option.some.inj (hscope.symm.trans hzero)
    have hglobal' := (hgrows.heading_eq 0 hlt).trans hglobal
    simp only [Table.enclosingTy, Table.enclosing, Table.owners_of_root hglobal',
      Table.owners_of_root (t := finalTable p) hglobal]
    rfl
  · obtain rfl := Option.some.inj (hscope.symm.trans hself)
    obtain ⟨id, hid⟩ := exists_lookupLocal_of_mem_globals hp hfn
    exact hwithin.enclosingTy_eq hgrows hv hv' hglobal hid

end Scoping

open Scoping Typing in
/-- Declarations that are appended to a program, all of them on later lines, change
nothing in the analysis of what was there.  The finished tree begins with the one
from before, scopes and types included; the reports of the first pass begin with
those from before, and so do the complaints of the second; every scope has the
name and the parent that it had, and every symbol is what it was but for lines of
further uses. -/
theorem analyze_append (config : Config) {p q : Forest} (hp : p.IsProgram) (hq : q.IsProgram)
    (hlines : ∀ m ∈ p.lines, ∀ n ∈ q.lines, m < n) :
    ∃ marked built a marked' built' b rest complaints complaints',
      (Session.start config).build p = .ok (marked, built) ∧ analyze config p = .ok a ∧
      (Session.start config).build (p.append q) = .ok (marked', built') ∧
      analyze config (p.append q) = .ok b ∧
      b.forest = a.forest.append rest ∧ rest.bare = q.bare ∧
      built.log.entries.toList <+: built'.log.entries.toList ∧
      a.log.entries.toList = built.log.entries.toList ++ complaints ∧
      b.log.entries.toList = built'.log.entries.toList ++ complaints' ∧
      complaints <+: complaints' ∧
      (∀ id < a.table.scopes.size, b.table.heading? id = a.table.heading? id) ∧
      ∀ (id : SymbolId) (sym : Symbol), a.table.symbols[id]? = some sym →
        ∃ more, b.table.symbols[id]? = some { sym with lines := sym.lines ++ more } := by
  obtain ⟨log, hanalyze, hlog⟩ := analyze_total config p
  obtain ⟨log', hanalyze', hlog'⟩ := analyze_total config (p.append q)
  have hgrows := extends_append hp.outer hq.outer
  obtain ⟨htyped, hcomplaints⟩ := typed_rename config.poisonFailed
    (answersAll_append hp.outer hq.outer hlines) (targetsNamed_marked hp)
  simp only [Forest.rename_id, Diagnostic.rename_id, List.map_id] at htyped hcomplaints
  have hreports : ∀ f, (start.after f).log.entries.toList = start.reports f := log_after start
  rw [← hreports] at hlog hlog'
  rw [marked_append, typed_append, htyped] at hanalyze' hlog'
  rw [complaints_append, hcomplaints] at hlog'
  refine ⟨_, _, _, _, _, _, _, _, _, build_start config p, hanalyze,
    build_start config (p.append q), hanalyze', rfl, ?_, ?_, hlog, hlog', ?_, hgrows.heading_eq,
    ?_⟩
  · rw [bare_typed, bare_marked]
  · show (start.after p).log.entries.toList <+: (start.after (p.append q)).log.entries.toList
    rw [after_append, log_after (start.after p) q]
    exact List.prefix_append _ _
  · exact List.prefix_append _ _
  · intro id sym hsym
    refine Table.exists_lines_of_extends hgrows ?_ hsym
    rw [finalTable, finalTable, after_append]
    exact keepsLines_after _ q

/-- A function that calls one which is not declared. -/
def oldPart : Forest := .ofTrees [
  .varDecl "x" .int 1,
  .funDecl "f" .int [.param "a" .int 2]
    (.compound [] [.returnValue (.call "later" [.var "x" 3] 3) 3] 2) 2]

/-- The same function again with another signature, and the missing one. -/
def newPart : Forest := .ofTrees [
  .funDecl "f" .void [] (.compound [] [.returnVoid 4] 4) 4,
  .funDecl "later" .int [.arrayParam "f" .int 5]
    (.compound [] [.returnValue (.op .add (.var "x" 6) (.index "f" (.const 0 6) 6) 6) 6] 5) 5]

theorem analyze_append_newPart :
    oldPart.IsProgram ∧ newPart.IsProgram ∧
      (∀ m ∈ oldPart.lines, ∀ n ∈ newPart.lines, m < n) ∧
      ∃ marked built a marked' built' b rest complaints complaints',
        (Session.start {}).build oldPart = .ok (marked, built) ∧
        analyze {} oldPart = .ok a ∧
        (Session.start {}).build (oldPart.append newPart) = .ok (marked', built') ∧
        analyze {} (oldPart.append newPart) = .ok b ∧
        b.forest = a.forest.append rest ∧ rest.bare = newPart.bare ∧
        built.log.entries.toList <+: built'.log.entries.toList ∧
        a.log.entries.toList = built.log.entries.toList ++ complaints ∧
        b.log.entries.toList = built'.log.entries.toList ++ complaints' ∧
        complaints <+: complaints' ∧
        (∀ id < a.table.scopes.size, b.table.heading? id = a.table.heading? id) ∧
        ∀ (id : SymbolId) (sym : Symbol), a.table.symbols[id]? = some sym →
          ∃ more, b.table.symbols[id]? = some { sym with lines := sym.lines ++ more } :=
  have hold : oldPart.IsProgram := by decide
  have hnew : newPart.IsProgram := by decide
  have hall : (oldPart.lines.all fun m => newPart.lines.all (m < ·)) = true := by decide
  have hlines : ∀ m ∈ oldPart.lines, ∀ n ∈ newPart.lines, m < n := by
    simpa only [List.all_eq_true, decide_eq_true_eq] using hall
  ⟨hold, hnew, hlines, analyze_append {} hold hnew hlines⟩

end CMinus
