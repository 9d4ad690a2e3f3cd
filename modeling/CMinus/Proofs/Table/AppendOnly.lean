import CMinus.Proofs.Table.Growth
import CMinus.Proofs.Table.Nearest

/-!
# Ids keep their meaning

An id that a table has given out is written down elsewhere, on a tree, and read
back when the table has long gone on.  This file compares a table with what it has
become after any further requests.

Of a symbol only two lists ever change, and they change at their end: a run of
requests adds to them what those requests say that name the symbol, and leaves all
else as the declaration made it (`symbols_of_serve`).  Its first line therefore
stays the line of the request that made it (`exists_introduces`).

What a scope means by a name is less permanent, since a scope may learn a name when
it is already closed and something inside it has used the name.  But only in one
way.  The scopes around a scope stay, and each of them keeps the names it has, so
that look-up either answers as before or has been overtaken: it answers with a
symbol that is new, in a scope nearer than all those that knew the name
(`lookup_of_serve`).
-/

namespace CMinus

/-- The lines that a request adds to a symbol: its own, if it is a use of it. -/
def Request.linesTo (id : SymbolId) : Request → List UInt32
  | .reference target line => if target = id then [line] else []
  | _ => []

/-- The parameters that a request adds to a symbol. -/
def Request.paramsTo (id : SymbolId) : Request → List Ty
  | .addParameter target ty => if target = id then [ty] else []
  | _ => []

/-- A question adds nothing. -/
theorem Request.adds_nothing {request : Request} (h : request.isQuery = true)
    (id : SymbolId) : request.linesTo id = [] ∧ request.paramsTo id = [] := by
  cases request with
  | push | pop | discard | declare | reference | addParameter => cases h
  | _ => exact ⟨rfl, rfl⟩

namespace Symbol

/-- A symbol with what requests add behind its lines and its parameters. -/
def extended (s : Symbol) (id : SymbolId) (requests : List Request) : Symbol :=
  { s with
    lines := s.lines ++ requests.flatMap (·.linesTo id)
    params := s.params ++ requests.flatMap (·.paramsTo id) }

@[simp] theorem extended_nil (s : Symbol) (id : SymbolId) : s.extended id [] = s := by
  simp [extended]

theorem extended_singleton (s : Symbol) {id : SymbolId} {request : Request}
    (hlines : request.linesTo id = []) (hparams : request.paramsTo id = []) :
    s.extended id [request] = s := by
  simp [extended, hlines, hparams]

theorem extended_cons (s : Symbol) (id : SymbolId) (request : Request)
    (requests : List Request) :
    (s.extended id [request]).extended id requests = s.extended id (request :: requests) := by
  simp [extended]

/-- What is added comes behind the first line. -/
theorem firstLine_extended {s : Symbol} (h : s.lines ≠ []) (id : SymbolId)
    (requests : List Request) : (s.extended id requests).firstLine = s.firstLine := by
  cases hlines : s.lines with
  | nil => exact absurd hlines h
  | cons first more => simp [extended, firstLine, hlines]

end Symbol

namespace Served

/-- The request declares the symbol as it is: with its scope, its name, its type and
its first line. -/
def Introduces (e : Served) (id : SymbolId) (sym : Symbol) : Prop :=
  e.request = .declare sym.scope sym.name sym.ty sym.firstLine ∧ e.reply = .declared (.added id)

theorem Introduces.extended {e : Served} {id : SymbolId} {sym : Symbol}
    (h : e.Introduces id sym) (hlines : sym.lines ≠ []) (requests : List Request) :
    e.Introduces id (sym.extended id requests) := by
  refine ⟨?_, h.2⟩
  rw [Symbol.firstLine_extended hlines]
  exact h.1

end Served

namespace Table

/-! ## One request -/

namespace Step

variable {t next : Table} {request : Request} {reply : Reply}

/-- A request leaves a table that may know more, and nothing else. -/
theorem grows (h : Step t request reply next) (hv : t.Valid) :
    Grows (fun _ => True) (fun _ => True) t next := by
  cases h with
  | push name => exact grows_push t name
  | pop => exact grows_pop t
  | discard => exact grows_discard t
  | added hscope _ ty line => exact grows_declare hv hscope trivial _ ty line
  | taken => exact Grows.refl t
  | reference _ line => exact grows_reference hv _ line
  | addParameter _ ty => exact grows_addParameter trivial t ty
  | query => exact Grows.refl t

/-- A request adds to a symbol what it has for it. -/
theorem symbol_eq (h : Step t request reply next) {id : SymbolId} {sym : Symbol}
    (hsym : t.symbols[id]? = some sym) :
    next.symbols[id]? = some (sym.extended id [request]) := by
  cases h with
  | push | pop | discard | taken =>
      rw [sym.extended_singleton rfl rfl]
      exact hsym
  | added _ hfree ty line =>
      have hne : id ≠ t.symbols.size :=
        Nat.ne_of_lt (Array.getElem?_eq_some_iff.mp hsym).1
      rw [sym.extended_singleton rfl rfl, declare_of_lookupLocal_eq_none hfree,
        Array.getElem?_push, if_neg hne, hsym]
  | @reference k _ line =>
      simp only [Table.reference, Array.getElem?_modify, hsym]
      by_cases hk : k = id <;>
        simp [hk, Symbol.extended, Request.linesTo, Request.paramsTo]
  | @addParameter k _ ty =>
      simp only [Table.addParameter, Array.getElem?_modify, hsym]
      by_cases hk : k = id <;>
        simp [hk, Symbol.extended, Request.linesTo, Request.paramsTo]
  | query hquery =>
      obtain ⟨hlines, hparams⟩ := Request.adds_nothing hquery id
      rw [sym.extended_singleton hlines hparams, hsym]

/-- A symbol that was not there before is the one that the request declares. -/
theorem introduces (h : Step t request reply next) {id : SymbolId}
    (hnew : t.symbols.size ≤ id) {sym : Symbol} (hsym : next.symbols[id]? = some sym) :
    (Served.mk request reply t next).Introduces id sym := by
  have hlt : id < next.symbols.size := (Array.getElem?_eq_some_iff.mp hsym).1
  cases h with
  | added _ hfree ty line =>
      rw [declare_of_lookupLocal_eq_none hfree] at hsym hlt
      rw [Array.size_push] at hlt
      have hid : id = t.symbols.size := Nat.le_antisymm (Nat.le_of_lt_succ hlt) hnew
      simp only [hid, Array.getElem?_push_size, Option.some.injEq] at hsym
      rw [← hsym, hid]
      exact ⟨rfl, rfl⟩
  | push | pop | discard | taken | query => exact absurd hlt (Nat.not_lt.mpr hnew)
  | reference | addParameter =>
      simp only [Table.reference, Table.addParameter, Array.size_modify] at hlt
      exact absurd hlt (Nat.not_lt.mpr hnew)

end Step

/-! ## Any number of requests -/

section Run

variable {t last : Table} {requests : List Request} {served : List Served}
  (h : t.serve requests = some (served, last))

include h

/-- A symbol of a table is found again after any requests, with what they added. -/
theorem symbols_of_serve {id : SymbolId} {sym : Symbol} (hsym : t.symbols[id]? = some sym) :
    last.symbols[id]? = some (sym.extended id requests) := by
  induction requests generalizing t served sym with
  | nil =>
      cases h
      rw [hsym, Symbol.extended_nil]
  | cons request requests ih =>
      obtain ⟨_, _, _, hanswer, hserve, _⟩ := serve_cons.mp h
      rw [ih hserve ((step_answer hanswer).symbol_eq hsym), Symbol.extended_cons]

variable (hv : t.Valid)

include hv

theorem grows_of_serve : Grows (fun _ => True) (fun _ => True) t last :=
  (invariant_of_serve (P := fun t' => t'.Valid ∧ Grows (fun _ => True) (fun _ => True) t t')
    (fun hstep hinv => ⟨hstep.valid hinv.1, hinv.2.append (hstep.grows hinv.1)⟩) h
    ⟨hv, Grows.refl t⟩).2

/-- A symbol that is new after requests was declared by one of them. -/
theorem exists_introduces {id : SymbolId} (hnew : t.symbols.size ≤ id) {sym : Symbol}
    (hsym : last.symbols[id]? = some sym) : ∃ e ∈ served, e.Introduces id sym := by
  induction requests generalizing t served with
  | nil =>
      cases h
      exact absurd (Array.getElem?_eq_some_iff.mp hsym).1 (Nat.not_lt.mpr hnew)
  | cons request requests ih =>
      obtain ⟨reply, next, rest, hanswer, hserve, rfl⟩ := serve_cons.mp h
      have hstep := step_answer hanswer
      have hvnext := hstep.valid hv
      -- either the first request made it, or it is still new to the others
      by_cases hlt : id < next.symbols.size
      · have hmade : next.symbols[id]? = some next.symbols[id] := Array.getElem?_eq_getElem hlt
        have hextended := symbols_of_serve hserve hmade
        obtain rfl := Option.some.inj (hsym.symm.trans hextended)
        have hintroduces := (hstep.introduces hnew hmade).extended (hvnext.dated hmade) requests
        exact ⟨_, List.mem_cons_self, hintroduces⟩
      · obtain ⟨e, he, hintroduces⟩ := ih hserve hvnext (Nat.le_of_not_lt hlt)
        exact ⟨e, List.mem_cons_of_mem _ he, hintroduces⟩

/-- The way outwards from a scope stays. -/
theorem outward_of_serve {scope : ScopeId} (hscope : scope < t.scopes.size) {steps : Nat}
    {outer : ScopeId} : last.Outward scope steps outer ↔ t.Outward scope steps outer := by
  have hv' : last.Valid := valid_of_serve hv h
  rw [hv'.outward_iff, hv.outward_iff, (grows_of_serve h hv).chain_eq hv hv' hscope]

/-- A name that a scope did not know has there, if anything, a symbol that a request
has added. -/
theorem added_of_serve {scope : ScopeId} {name : String} {id : SymbolId}
    (hbefore : t.lookupLocal scope name = none)
    (hafter : last.lookupLocal scope name = some id) :
    t.symbols.size ≤ id ∧ ∃ e ∈ served, e.Adds scope name id := by
  have hadded : ∃ e ∈ served, e.Adds scope name id := by
    rcases (lookupLocal_serve hv h scope name id).mp hafter with hid | hadded
    · rw [hbefore] at hid
      cases hid
    · exact hadded
  refine ⟨Nat.le_of_not_lt fun hlt => ?_, hadded⟩
  -- an old symbol has kept its name and scope, so the scope would have known it
  have hold : t.symbols[id]? = some t.symbols[id] := Array.getElem?_eq_getElem hlt
  obtain ⟨sym, hsym, hname, hsc⟩ := (valid_of_serve hv h).lookupLocal_eq_some_iff.mp hafter
  obtain rfl := Option.some.inj (hsym.symm.trans (symbols_of_serve h hold))
  have hknown := hv.lookupLocal_eq_some_iff.mpr ⟨_, hold, hname, hsc⟩
  rw [hbefore] at hknown
  cases hknown

end Run

/-- The symbol is new to the table: requests have added it under the name to a scope on
the way outwards, nearer than every scope that knew the name. -/
def Overtakes (t : Table) (served : List Served) (scope : ScopeId) (name : String)
    (id : SymbolId) : Prop :=
  t.symbols.size ≤ id ∧
    ∃ steps outer, t.Outward scope steps outer ∧ (∃ e ∈ served, e.Adds outer name id) ∧
      ∀ further beyond old, t.Outward scope further beyond →
        t.lookupLocal beyond name = some old → steps < further

/-- If the name is not known up to some scope on the way outwards, that scope included,
then whoever knows it is further out. -/
theorem Valid.lt_of_lookupLocal_outward {t : Table} (hv : t.Valid) {scope outer beyond : ScopeId}
    {steps further : Nat} {name : String} {id : SymbolId} (hout : t.Outward scope steps outer)
    (hhere : t.lookupLocal outer name = none)
    (hnearer : ∀ nearer < steps, ∀ inner, t.Outward scope nearer inner →
      t.lookupLocal inner name = none)
    (hbeyond : t.Outward scope further beyond) (hid : t.lookupLocal beyond name = some id) :
    steps < further := by
  rcases Nat.lt_trichotomy steps further with hlt | rfl | hlt
  · exact hlt
  · rw [hv.outward_iff] at hout hbeyond
    obtain rfl := Option.some.inj (hout.symm.trans hbeyond)
    rw [hhere] at hid
    cases hid
  · rw [hnearer further hlt beyond hbeyond] at hid
    cases hid

/-- Look-up answers as before, or has been overtaken. -/
theorem lookup_of_serve {t last : Table} {requests : List Request} {served : List Served}
    (h : t.serve requests = some (served, last)) (hv : t.Valid) {scope : ScopeId}
    (hscope : scope < t.scopes.size) (name : String) :
    last.lookup scope name = t.lookup scope name ∨
      ∃ id, last.lookup scope name = some id ∧ t.Overtakes served scope name id := by
  have hgrows := grows_of_serve h hv
  have hv' : last.Valid := valid_of_serve hv h
  cases hafter : last.lookup scope name with
  | none =>
      refine .inl (Eq.symm (hv.lookup_eq_none_iff_outward.mpr fun steps outer hout => ?_))
      have hunknown := hv'.lookup_eq_none_iff_outward.mp hafter
      exact hgrows.lookupLocal_eq_none
        (hunknown steps outer ((outward_of_serve h hv hscope).mpr hout))
  | some id =>
      rw [hv'.lookup_eq_some_iff_outward] at hafter
      simp only [outward_of_serve h hv hscope] at hafter
      obtain ⟨steps, outer, hout, hid, hnearer⟩ := hafter
      have hnearer' : ∀ nearer < steps, ∀ inner, t.Outward scope nearer inner →
          t.lookupLocal inner name = none := fun nearer hlt inner hin =>
        hgrows.lookupLocal_eq_none (hnearer nearer hlt inner hin)
      -- the scope that answers now either knew the name already or has learned it
      cases hbefore : t.lookupLocal outer name with
      | some old =>
          have hkept := hgrows.kept outer name old hbefore
          obtain rfl : old = id := Option.some.inj (hkept.symm.trans hid)
          have hsame := hv.lookup_eq_some_iff_outward.mpr ⟨steps, outer, hout, hbefore, hnearer'⟩
          exact .inl hsame.symm
      | none =>
          obtain ⟨hnew, hadded⟩ := added_of_serve h hv hbefore hid
          refine .inr ⟨id, rfl, hnew, steps, outer, hout, hadded, ?_⟩
          intro further beyond old hbeyond hold
          exact hv.lt_of_lookupLocal_outward hout hbefore hnearer' hbeyond hold

/-! ## What a client can rely on -/

/-- All that a table has told, and what has become of it after further requests.  The
requests that led to the table come first. -/
structure AppendOnly (earlier : List Served) (t : Table) (requests : List Request)
    (later : List Served) (last : Table) : Prop where
  /-- A scope keeps its name and the scope around it. -/
  scope_kept : ∀ (id : ScopeId) (s : Scope), t.scopes[id]? = some s →
    ∃ s' : Scope, last.scopes[id]? = some s' ∧ s'.name = s.name ∧ s'.parent = s.parent
  /-- A symbol keeps all but its lines and its parameters, and these grow at the end by
  what the requests that name it add. -/
  symbol_kept : ∀ (id : SymbolId) (sym : Symbol), t.symbols[id]? = some sym →
    last.symbols[id]? = some (sym.extended id requests)
  /-- So it keeps its first line. -/
  firstLine_kept : ∀ (id : SymbolId) (sym sym' : Symbol), t.symbols[id]? = some sym →
    last.symbols[id]? = some sym' → sym'.firstLine = sym.firstLine
  /-- There always is one, and it is the line of the declaration. -/
  introduced : ∀ (id : SymbolId) (sym : Symbol), last.symbols[id]? = some sym →
    sym.lines ≠ [] ∧ ∃ e ∈ earlier ++ later, e.Introduces id sym
  /-- A scope finds under a name what it found before, or what has been added since in a
  nearer scope. -/
  lookup_kept : ∀ scope < t.scopes.size, ∀ name,
    last.lookup scope name = t.lookup scope name ∨
      ∃ id, last.lookup scope name = some id ∧ t.Overtakes later scope name id

theorem appendOnly_of_serve {requests more : List Request} {earlier later : List Served}
    {t last : Table} (h : empty.serve requests = some (earlier, t))
    (hmore : t.serve more = some (later, last)) : AppendOnly earlier t more later last := by
  have hv : t.Valid := valid_of_serve valid_empty h
  have hv' : last.Valid := valid_of_serve hv hmore
  refine
    { scope_kept := ?_
      symbol_kept := fun id sym hsym => symbols_of_serve hmore hsym
      firstLine_kept := ?_
      introduced := ?_
      lookup_kept := fun scope hscope name => lookup_of_serve hmore hv hscope name }
  · intro id s hs
    have hlt : id < t.scopes.size := (Array.getElem?_eq_some_iff.mp hs).1
    have hheading : last.heading? id = some (s.name, s.parent) := by
      rw [(grows_of_serve hmore hv).heading_eq id hlt, heading?, hs, Option.map_some]
    exact heading?_eq_some_iff.mp hheading
  · intro id sym sym' hsym hsym'
    obtain rfl := Option.some.inj (hsym'.symm.trans (symbols_of_serve hmore hsym))
    exact Symbol.firstLine_extended (hv.dated hsym) id more
  · intro id sym hsym
    refine ⟨hv'.dated hsym, ?_⟩
    by_cases hlt : id < t.symbols.size
    · have hold : t.symbols[id]? = some t.symbols[id] := Array.getElem?_eq_getElem hlt
      obtain rfl := Option.some.inj (hsym.symm.trans (symbols_of_serve hmore hold))
      obtain ⟨e, he, hintroduces⟩ := exists_introduces h valid_empty (Nat.zero_le id) hold
      exact ⟨e, List.mem_append_left _ he, hintroduces.extended (hv.dated hold) more⟩
    · obtain ⟨e, he, hintroduces⟩ := exists_introduces hmore hv (Nat.le_of_not_lt hlt) hsym
      exact ⟨e, List.mem_append_right _ he, hintroduces⟩

/-- Whatever a table is asked to do later, it only ever adds to what it has. -/
theorem serve_appendOnly {requests : List Request} (h : empty.Knows requests) :
    ∃ earlier t, empty.serve requests = some (earlier, t) ∧
      ∀ more, t.Knows more →
        ∃ later last, t.serve more = some (later, last) ∧
          AppendOnly earlier t more later last := by
  obtain ⟨earlier, t, hserve⟩ := knows_iff.mp h
  refine ⟨earlier, t, hserve, fun more hmore => ?_⟩
  obtain ⟨later, last, hlater⟩ := knows_iff.mp hmore
  exact ⟨later, last, hlater, appendOnly_of_serve hserve hlater⟩

/-- Three scopes inside each other, with a name that only the outermost declares. -/
def settledRequests : List Request :=
  [.push "global", .push "f", .push "f", .declare 0 "x" .int 1, .declare 0 "f" .intFunction 2,
    .reference 0 3, .pop]

/-- The scope in the middle learns the name after the innermost was closed; the old symbol
is still used, and a scope that did not exist yet has the name too. -/
def overtakingRequests : List Request :=
  [.reference 0 4, .declare 1 "x" .intArray 5, .addParameter 1 .intArray, .discard,
    .reference 2 6, .push "x", .declare 3 "x" .void 7, .declare 0 "x" .void 8, .reference 0 9]

theorem serve_appendOnly_overtaking :
    empty.Knows settledRequests ∧
      ∃ earlier t, empty.serve settledRequests = some (earlier, t) ∧
        t.lookup 2 "x" = some 0 ∧ t.Knows overtakingRequests ∧
        ∃ later last, t.serve overtakingRequests = some (later, last) ∧
          last.lookup 2 "x" = some 2 ∧
          last.symbols.toList.map (fun sym => (sym.lines, sym.params)) =
            [([1, 3, 4, 9], []), ([2], [.intArray]), ([5, 6], []), ([7], [])] ∧
          AppendOnly earlier t overtakingRequests later last := by
  have hruns : ((empty.serve settledRequests).bind fun run =>
      (run.2.serve overtakingRequests).map fun run' =>
        (run.2.lookup 2 "x", run'.2.lookup 2 "x",
          run'.2.symbols.toList.map fun sym => (sym.lines, sym.params))) =
        some (some 0, some 2,
          [([1, 3, 4, 9], []), ([2], [.intArray]), ([5, 6], []), ([7], [])]) := by decide +kernel
  obtain ⟨run, hrun, hruns⟩ := Option.bind_eq_some_iff.mp hruns
  obtain ⟨run', hrun', hseen⟩ := Option.map_eq_some_iff.mp hruns
  have hknows : empty.Knows settledRequests := knows_iff.mpr ⟨run.1, run.2, hrun⟩
  obtain ⟨earlier, t, hserve, hlater⟩ := serve_appendOnly hknows
  obtain rfl : run = (earlier, t) := Option.some.inj (hrun.symm.trans hserve)
  have hmore : t.Knows overtakingRequests := knows_iff.mpr ⟨run'.1, run'.2, hrun'⟩
  obtain ⟨later, last, hserve', happend⟩ := hlater overtakingRequests hmore
  obtain rfl : run' = (later, last) := Option.some.inj (hrun'.symm.trans hserve')
  simp only [Prod.mk.injEq] at hseen
  obtain ⟨hbefore, hafter, hlists⟩ := hseen
  exact ⟨hknows, earlier, t, hserve, hbefore, hmore, later, last, hserve', hafter, hlists, happend⟩

end Table

end CMinus
