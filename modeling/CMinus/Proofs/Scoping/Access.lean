import CMinus.Proofs.Table.Access
import CMinus.Proofs.Typing.Total

/-!
# Scoping with every read checked

The first pass once more, with the guarded reads of the table in place of the
total ones.  It has no result as soon as one read is outside a registry.

`walk_eq` reduces a whole guarded walk to its single steps, in the states in
which the total walk makes them.  Entering a node reads the innermost open scope
and what it finds from there; leaving a function reads the scope that it was
marked with.  Both exist in the states of a walk that starts with room, so the
guarded pass always has a result, and it is that of the total one
(`walk_scoping_eq`).
-/

namespace CMinus

namespace Guarded

/-! ## Walking -/

/-- A marking walk whose steps need not have a result. -/
def walk {σ : Type} (enter : Label → σ → Option (Marks × σ))
    (leave : Tree → σ → Option (Marks × σ)) : Forest → σ → Option (Forest × σ)
  | .nil, s => some (.nil, s)
  | .node l a b c rest, s => do
    let (marks, s) ← enter l s
    let (a', s) ← walk enter leave a s
    let (b', s) ← walk enter leave b s
    let (c', s) ← walk enter leave c s
    let (marks', s) ← leave ⟨{ l with marks }, a', b', c'⟩ s
    let (rest', s) ← walk enter leave rest s
    some (.node { l with marks := marks' } a' b' c' rest', s)

/-- A walk has a result if each of its steps has one where it is made. -/
theorem walk_eq {σ : Type} {enter : Label → σ → Marks × σ} {leave : Tree → σ → Marks × σ}
    {enter' : Label → σ → Option (Marks × σ)} {leave' : Tree → σ → Option (Marks × σ)}
    {f : Forest} {s : σ}
    (henter : ∀ m ∈ f.moments enter leave s,
      enter' m.label m.state = some (enter m.label m.state))
    (hleave : ∀ d ∈ f.departures enter leave s,
      leave' d.tree d.state = some (leave d.tree d.state)) :
    walk enter' leave' f s = some (f.walk (.marking enter leave) s) := by
  induction f generalizing s with
  | nil => rfl
  | node l a b c rest iha ihb ihc ihr =>
      simp only [Forest.moments, List.mem_cons, List.mem_append] at henter
      simp only [Forest.departures, List.mem_cons, List.mem_append] at hleave
      have h₁ := henter ⟨l, s⟩ (.inl rfl)
      have ha := iha (fun m hm => henter m (.inr (.inl (.inl (.inl hm)))))
        (fun d hd => hleave d (.inl (.inl (.inl hd))))
      have hb := ihb (fun m hm => henter m (.inr (.inl (.inl (.inr hm)))))
        (fun d hd => hleave d (.inl (.inl (.inr hd))))
      have hc := ihc (fun m hm => henter m (.inr (.inl (.inr hm))))
        (fun d hd => hleave d (.inl (.inr hd)))
      have h₅ := hleave _ (.inr (.inl rfl))
      have hr := ihr (fun m hm => henter m (.inr (.inr hm)))
        (fun d hd => hleave d (.inr (.inr hd)))
      simp only [walk, h₁, ha, hb, hc, h₅, hr, bind, Option.bind_some, Forest.walk_marking_node]

/-! ## The steps of scoping -/

/-- Open the outermost scope and declare the built-in functions. -/
def withBuiltins (t : Table) : Option Table := do
  let global := t.nextScope
  let t := t.push globalName
  let (_, t) ← declare t global "input" .intFunction 0
  match ← declare t global "output" .voidFunction 0 with
  | (.taken _, t) => some t
  | (.added output, t) =>
    let scope := t.nextScope
    let t := t.push "output"
    let (_, t) ← declare t scope "value" .int 0
    let t ← addParameter t output .int
    some t.pop

/-- Declare a variable or a parameter. -/
def declareObject (s : Scoping) (scope : ScopeId) (name : String) (spec : Spec) (ty : Ty)
    (site : VoidSite) (line : UInt32) : Option (Option SymbolId × Scoping) := do
  match ← declare s.table scope name (if spec = .void then .poison else ty) line with
  | (.taken _, table) =>
    some (none, { s with table, log := s.log.report (.redefinition name line) })
  | (.added id, table) =>
    let complaint := if spec = .void then some (.voidDeclaration site name line) else none
    some (some id, { s with table, log := s.log.report? complaint })

/-- Declare a parameter, and read its type back for the signature of its
function. -/
def declareParameter (s : Scoping) (scope : ScopeId) (name : String) (spec : Spec) (ty : Ty)
    (site : VoidSite) (line : UInt32) : Option Scoping := do
  let function? ← signature s.table scope
  match ← declareObject s scope name spec ty site line with
  | (none, s) => some s
  | (some param, s) =>
    let sym ← s.table.symbols[param]?
    match function?, s.redefined with
    | some function, false =>
      let table ← addParameter s.table function sym.ty
      some { s with table }
    | _, _ => some s

/-- Declare a function and open its scope. -/
def declareFunction (s : Scoping) (scope : ScopeId) (name : String) (spec : Spec)
    (line : UInt32) : Option Scoping := do
  match ← declare s.table scope name (.functionReturning spec) line with
  | (.taken _, table) =>
    some { table := table.push name, log := s.log.report (.redefinition name line)
           blockName := name, entering := true, redefined := true }
  | (.added _, table) =>
    some { table := table.push name, log := s.log
           blockName := name, entering := true, redefined := false }

/-- Record a use of a name that is declared at this point. -/
def use (s : Scoping) (scope : ScopeId) (name : String) (line : UInt32) : Option Scoping := do
  match ← lookup s.table name (scope + 1) scope with
  | none => some s
  | some id =>
    let table ← reference s.table id line
    some { s with table }

/-- What entering a node does, given the innermost open scope. -/
def step (s : Scoping) (scope : ScopeId) (kind : Kind) (line : UInt32) : Option Scoping :=
  match kind with
  | .compound => some s.openBlock
  | .varDecl name spec =>
    (declareObject s scope name spec .int .variable line).map (·.2)
  | .arrayDecl name spec _ =>
    (declareObject s scope name spec .intArray .variable line).map (·.2)
  | .funDecl name spec => declareFunction s scope name spec line
  | .param name spec => declareParameter s scope name spec .int .parameter line
  | .arrayParam name spec => declareParameter s scope name spec .intArray .arrayParameter line
  | .var name | .call name => use s scope name line
  | _ => some s

/-- Enter a node and mark it. -/
def enter (l : Label) (s : Scoping) : Option (Marks × Scoping) :=
  match s.table.top? with
  | none => some (l.marks, s)
  | some scope => do
    let s ← step s scope l.kind l.line
    some ({ l.marks with scope := s.table.top? }, s)

/-- The name of the scope around the given one. -/
def nameAround (t : Table) (scope? : Option ScopeId) : Option String :=
  match scope? with
  | none => some globalName
  | some scope => do
    let s ← t.scopes[scope]?
    match s.parent with
    | none => some globalName
    | some p =>
      let around ← t.scopes[p]?
      some around.name

/-- Leave a node. -/
def leave (t : Tree) (s : Scoping) : Option (Marks × Scoping) :=
  match t.label.kind with
  | .compound => some (t.label.marks, { s with table := s.table.pop })
  | .funDecl .. => do
    let table := if s.entering then s.table.pop else s.table
    let blockName ← nameAround table t.label.marks.scope
    some (t.label.marks, { s with table, blockName, entering := false, redefined := false })
  | _ => some (t.label.marks, s)

/-! ## Agreement with the total steps -/

theorem withBuiltins_empty : withBuiltins .empty = some Table.empty.withBuiltins := rfl

/-- A function whose parameters are collected exists. -/
theorem lt_of_signature? {t : Table} {scope : ScopeId} {id : SymbolId}
    (h : t.signature? scope = some id) : id < t.symbols.size := by
  obtain ⟨s, _, h⟩ := Option.bind_eq_some_iff.mp h
  obtain ⟨p, _, h⟩ := Option.bind_eq_some_iff.mp h
  exact Table.symbol_lt_of_lookupLocal (Option.filter_eq_some_iff.mp h).1

section Agreement

variable {s : Scoping} (hv : s.table.Valid) {scope : ScopeId}
  (h : scope < s.table.scopes.size)

include hv h

theorem declareObject_eq (name : String) (spec : Spec) (ty : Ty) (site : VoidSite)
    (line : UInt32) :
    declareObject s scope name spec ty site line =
      some (s.declareObject scope name spec ty site line) := by
  unfold declareObject Scoping.declareObject
  simp only [declare_eq hv h, bind, Option.bind_some]
  generalize s.table.declare scope name _ line = result
  obtain ⟨_ | _, table⟩ := result <;> rfl

theorem declareFunction_eq (name : String) (spec : Spec) (line : UInt32) :
    declareFunction s scope name spec line = some (s.declareFunction scope name spec line) := by
  unfold declareFunction Scoping.declareFunction
  simp only [declare_eq hv h, bind, Option.bind_some]
  generalize s.table.declare scope name _ line = result
  obtain ⟨_ | _, table⟩ := result <;> rfl

/-- The parameter that was just declared is read back, and the function is older
than it. -/
theorem declareParameter_eq (o : Object) (line : UInt32) :
    declareParameter s scope o.name o.spec o.base o.site line =
      some (s.declareParameter scope o.name o.spec o.base o.site line) := by
  rw [Scoping.declareParameter_eq]
  unfold declareParameter
  rw [signature_eq hv h, declareObject_eq hv h, Scoping.declareObject_eq]
  simp only [bind, Option.bind_some]
  cases hfree : s.table.lookupLocal scope o.name with
  | some id => simp [Table.declare_of_lookupLocal_eq_some hfree]
  | none =>
      have hnew : (s.table.declare scope o.name o.ty line).2.symbols[s.table.nextSymbol]? =
          some (s.table.fresh scope o.name o.ty line) := by
        simp [Table.declare_of_lookupLocal_eq_none hfree, Table.nextSymbol]
      have hadded : (s.table.declare scope o.name o.ty line).1 = .added s.table.nextSymbol := by
        simp [Table.declare_of_lookupLocal_eq_none hfree]
      have hgrown := (Table.grows_declare (O := fun _ => True) (P := fun _ => True) hv h
        trivial o.name o.ty line).symbols_le
      simp only [hadded, hnew, Option.bind_some]
      cases hfunction : s.table.signature? scope with
      | none => rfl
      | some function =>
          have hlt := Nat.lt_of_lt_of_le (lt_of_signature? hfunction) hgrown
          cases s.redefined with
          | true => rfl
          | false => simp only [addParameter_eq hlt, Option.bind_some, Table.fresh]

theorem use_eq (name : String) (line : UInt32) :
    use s scope name line = some (s.use scope name line) := by
  unfold use Scoping.use
  simp only [lookup_eq hv h name (Nat.lt_succ_self scope), bind, Option.bind_some]
  cases hfound : s.table.lookup scope name with
  | none => rfl
  | some id => simp [reference_eq (Scoping.symbol_lt_of_lookup hfound)]

theorem step_eq (kind : Kind) (line : UInt32) :
    step s scope kind line = some (s.step scope kind line) := by
  cases kind with
  | varDecl | arrayDecl =>
      simp only [step, Scoping.step, declareObject_eq hv h, Option.map_some]
  | param name spec => exact declareParameter_eq hv h ⟨name, spec, .int, .parameter⟩ line
  | arrayParam name spec =>
      exact declareParameter_eq hv h ⟨name, spec, .intArray, .arrayParameter⟩ line
  | funDecl => exact declareFunction_eq hv h _ _ _
  | var | call => exact use_eq hv h _ _
  | _ => rfl

end Agreement

theorem enter_eq {s : Scoping} (hv : s.table.Valid) (l : Label) :
    enter l s = some (Scoping.enter l s) := by
  unfold enter Scoping.enter
  cases htop : s.table.top? with
  | none => rfl
  | some scope => simp only [step_eq hv (Scoping.lt_of_top? hv htop), bind, Option.bind_some]

theorem nameAround_eq {t : Table} (hv : t.Valid) {scope? : Option ScopeId}
    (hscope : ∀ id, scope? = some id → id < t.scopes.size) :
    nameAround t scope? = some (Scoping.nameAround t scope?) := by
  cases scope? with
  | none => rfl
  | some scope =>
      have hlt : scope < t.scopes.size := hscope scope rfl
      have hs : t.scopes[scope]? = some t.scopes[scope] := Array.getElem?_eq_getElem hlt
      cases hp : t.scopes[scope].parent with
      | none => simp [nameAround, Scoping.nameAround, hs, hp]
      | some p =>
          have hparent : p < t.scopes.size := Nat.lt_trans (hv.parent_lt hs hp) hlt
          simp [nameAround, Scoping.nameAround, hs, hp, hparent]

/-- Leaving a node whose mark, if it has one, is a scope of the table. -/
theorem leave_eq {s : Scoping} (hv : s.table.Valid) {t : Tree}
    (hscope : ∀ id, t.label.marks.scope = some id → id < s.table.scopes.size) :
    leave t s = some (Scoping.leave t s) := by
  unfold leave Scoping.leave
  cases t.label.kind with
  | funDecl =>
      cases s.entering with
      | false => simp [nameAround_eq hv hscope]
      | true => simp [nameAround_eq hv.pop hscope]
  | _ => rfl

end Guarded

namespace Scoping

/-- When a node is left, the table is valid and has the scope that the node was
marked with on entering. -/
theorem known_departure {f : Forest} {s : Scoping} (hv : s.table.Valid) (hroom : Room s)
    {d : Departure Scoping} (hd : d ∈ s.departures f) :
    d.state.table.Valid ∧
      ∀ id, d.tree.label.marks.scope = some id → id < d.state.table.scopes.size := by
  induction f generalizing s with
  | nil => simp [departures] at hd
  | node l a b c rest iha ihb ihc ihr =>
      have hv₁ := (entered_enter l s hv).valid
      have hv₂ := valid_after hv₁ a
      have hv₃ := valid_after hv₂ b
      have hv₅ := valid_after hv (.node l a b c .nil)
      have h₁ := hroom.enter l
      have h₂ := h₁.after a
      have h₃ := h₂.after b
      rw [after_node] at hv₅
      rw [departures_node] at hd
      simp only [List.mem_cons, List.mem_append] at hd
      rcases hd with ((hd | hd) | hd) | rfl | hd
      · exact iha hv₁ h₁ hd
      · exact ihb hv₂ h₂ hd
      · exact ihc hv₃ h₃ hd
      · refine ⟨valid_after hv₃ c, fun id hid => ?_⟩
        obtain ⟨here, hscope, htop⟩ := exists_scope_enter hroom l
        obtain rfl : here = id := Option.some.inj (hscope.symm.trans hid)
        have hlater := ((later_after hv₁ a).append (later_after hv₂ b)).append (later_after hv₃ c)
        exact Nat.lt_of_lt_of_le (lt_of_top? hv₁ htop) hlater.scopes_le
      · exact ihr hv₅ (hroom.sibling l a b c) hd

end Scoping

/-- The guarded first pass has a result, from any state with room. -/
theorem Guarded.walk_scoping_eq {s : Scoping} (hv : s.table.Valid) (hroom : Scoping.Room s)
    (f : Forest) : walk enter leave f s = some (s.marked f, s.after f) := by
  refine walk_eq (fun m hm => enter_eq (Scoping.valid_moment hv hm) m.label) ?_
  intro d hd
  obtain ⟨hvalid, hscope⟩ := Scoping.known_departure hv hroom hd
  exact leave_eq hvalid hscope

end CMinus
