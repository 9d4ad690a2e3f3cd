import CMinus.Table.Request
import CMinus.Proofs.Table.Lookup

/-!
# A table under a run of requests

A table is only ever used through requests, in any number and any order, and
scopes that are long closed may still be declared into.  This file follows such
a run from the empty table.

`Table.serve` carries out a list of requests and keeps a record of each: the
reply, and the table before and after it.  `Table.Step` lists all that a request
can do, and what a run keeps is read off that list.  Of a valid table the names
are all that a client can tell apart, and they change in one way only: a
declaration that succeeds adds a name to a scope (`Step.lookupLocal_iff`).  A run
therefore knows exactly the names that it added (`lookupLocal_serve`).

A run is carried out exactly if its requests name what the table has by then
(`knows_iff`).  The buckets, their order and their collisions cannot be seen in
it: for every scope and every name the table is a map with one entry, made by the
first declaration and never changed (`serve_namedOnce`).
-/

namespace CMinus

/-- A request that only asks. -/
def Request.isQuery : Request → Bool
  | push _ | pop | discard | declare .. | reference .. | addParameter .. => false
  | _ => true

/-- The table has all that the request names. -/
def Request.Known (t : Table) : Request → Prop
  | .declare id .. | .lookup id _ | .lookupLocal id _ | .scope id | .symbolsIn id
  | .enclosing id => id < t.scopes.size
  | .bucket id b => id < t.scopes.size ∧ b < bucketCount
  | .reference id _ | .addParameter id _ | .symbol id | .firstLine id _ => id < t.symbols.size
  | .push _ | .pop | .discard | .top | .depth | .findScope _ | .listing | .dump => True

/-- A request that was carried out: the reply, and the table before and after. -/
structure Served where
  request : Request
  reply : Reply
  before : Table
  after : Table

namespace Served

/-- The request declares the name in the scope. -/
def Declares (e : Served) (scope : ScopeId) (name : String) : Prop :=
  ∃ ty line, e.request = .declare scope name ty line

/-- The request declares the name in the scope, and the reply is a new symbol. -/
def Adds (e : Served) (scope : ScopeId) (name : String) (id : SymbolId) : Prop :=
  e.Declares scope name ∧ e.reply = .declared (.added id)

end Served

namespace Table

/-- Each of the requests names what the table has by the time of the request. -/
def Knows (t : Table) : List Request → Prop
  | [] => True
  | request :: requests =>
    request.Known t ∧
      ∀ reply next, t.answer request = some (reply, next) → next.Knows requests

/-- Carry out requests one after another.  A run is refused as a whole if one of
its requests names something that the table does not have at that point. -/
def serve (t : Table) : List Request → Option (List Served × Table)
  | [] => some ([], t)
  | request :: requests => do
    let (reply, next) ← t.answer request
    let (served, last) ← next.serve requests
    some (⟨request, reply, t, next⟩ :: served, last)

/-! ## One request -/

/-- Only a scope of the table passes.  It is used from the outside in, so that
nothing rewrites the condition first. -/
theorem guard_hasScope (t : Table) (id : ScopeId) :
    (guard (t.hasScope id = true) : Option Unit) =
      if id < t.scopes.size then some () else none := by
  by_cases hid : id < t.scopes.size
  · rw [if_pos hid]
    exact if_pos (decide_eq_true hid)
  · rw [if_neg hid]
    exact if_neg fun h => hid (of_decide_eq_true h)

/-- A request is refused exactly if it names something that the table lacks. -/
theorem isSome_answer (t : Table) (request : Request) :
    (t.answer request).isSome = true ↔ request.Known t := by
  cases request with
  | declare id | lookup id | lookupLocal id | symbolsIn id | enclosing id | scope id =>
      by_cases hid : id < t.scopes.size <;>
        simp [answer, ↓guard_hasScope, Request.Known, bind, hid]
  | bucket id b =>
      by_cases hid : id < t.scopes.size <;> by_cases hb : b < bucketCount <;>
        simp [answer, Request.Known, bind, hid, hb]
  | reference id | addParameter id | symbol id | firstLine id =>
      by_cases hid : id < t.symbols.size <;>
        simp [answer, Request.Known, bind, Table.reference, Table.addParameter, hid]
  | _ => simp [answer, Request.Known]

/-- What carrying out a request can do: its reply and the table afterwards. -/
inductive Step (t : Table) : Request → Reply → Table → Prop
  | push (name : String) : Step t (.push name) (.number t.nextScope) (t.push name)
  | pop : Step t .pop .done t.pop
  | discard : Step t .discard .done t.discard
  /-- A name that is free in the scope gets the next symbol. -/
  | added {scope : ScopeId} {name : String} (hscope : scope < t.scopes.size)
      (hfree : t.lookupLocal scope name = none) (ty : Ty) (line : UInt32) :
      Step t (.declare scope name ty line) (.declared (.added t.nextSymbol))
        (t.declare scope name ty line).2
  /-- A name that the scope has already changes nothing. -/
  | taken {scope : ScopeId} {name : String} {id : SymbolId}
      (hid : t.lookupLocal scope name = some id) (ty : Ty) (line : UInt32) :
      Step t (.declare scope name ty line) (.declared (.taken id)) t
  | reference {id : SymbolId} (hid : id < t.symbols.size) (line : UInt32) (sym : Symbol) :
      Step t (.reference id line) (.symbol sym) (t.reference id line)
  | addParameter {id : SymbolId} (hid : id < t.symbols.size) (ty : Ty) (sym : Symbol) :
      Step t (.addParameter id ty) (.symbol sym) (t.addParameter id ty)
  | query {request : Request} (hquery : request.isQuery = true) (reply : Reply) :
      Step t request reply t

theorem step_declare {t : Table} {scope : ScopeId} (hscope : scope < t.scopes.size)
    (name : String) (ty : Ty) (line : UInt32) :
    Step t (.declare scope name ty line) (.declared (t.declare scope name ty line).1)
      (t.declare scope name ty line).2 := by
  cases hid : t.lookupLocal scope name with
  | some id =>
      rw [declare_of_lookupLocal_eq_some hid]
      exact .taken hid ty line
  | none =>
      have hstep := Step.added hscope hid ty line
      rw [declare_of_lookupLocal_eq_none hid] at hstep ⊢
      exact hstep

/-- Every request that is carried out is one of these steps. -/
theorem step_answer {t next : Table} {request : Request} {reply : Reply}
    (h : t.answer request = some (reply, next)) : Step t request reply next := by
  cases request with
  | push name => cases h; exact .push name
  | pop => cases h; exact .pop
  | discard => cases h; exact .discard
  | declare scope name ty line =>
      by_cases hscope : scope < t.scopes.size
      · simp only [answer, ↓guard_hasScope, if_pos hscope] at h
        cases h
        exact step_declare hscope name ty line
      · simp [answer, ↓guard_hasScope, bind, hscope] at h
  | reference id line =>
      obtain ⟨sym, hsym, h⟩ := Option.bind_eq_some_iff.mp h
      cases h
      have hid : id < t.symbols.size := by
        simpa [Table.reference] using (Array.getElem?_eq_some_iff.mp hsym).1
      exact .reference hid line sym
  | addParameter id ty =>
      obtain ⟨sym, hsym, h⟩ := Option.bind_eq_some_iff.mp h
      cases h
      have hid : id < t.symbols.size := by
        simpa [Table.addParameter] using (Array.getElem?_eq_some_iff.mp hsym).1
      exact .addParameter hid ty sym
  | top | depth | findScope | listing | dump => cases h; exact .query rfl _
  | lookup | lookupLocal | symbolsIn | enclosing | symbol | firstLine | scope =>
      obtain ⟨_, _, h⟩ := Option.bind_eq_some_iff.mp h
      cases h
      exact .query rfl _
  | bucket scope b =>
      obtain ⟨s, _, h⟩ := Option.bind_eq_some_iff.mp h
      split at h
      · cases h
        exact .query rfl _
      · cases h

namespace Step

variable {t next : Table} {request : Request} {reply : Reply}

/-- A request keeps a table valid. -/
theorem valid (h : Step t request reply next) (hv : t.Valid) : next.Valid := by
  cases h with
  | push name => exact hv.push name
  | pop => exact hv.pop
  | discard => exact hv.discard
  | added hscope _ ty line => exact hv.declare hscope _ ty line
  | taken => exact hv
  | reference _ line => exact hv.reference _ line
  | addParameter _ ty => exact hv.addParameter _ ty
  | query => exact hv

/-- After a request, a name means what it meant before or what the request has
added. -/
theorem lookupLocal_iff (h : Step t request reply next) (hv : t.Valid) (scope : ScopeId)
    (name : String) (id : SymbolId) :
    next.lookupLocal scope name = some id ↔
      t.lookupLocal scope name = some id ∨
        (Served.mk request reply t next).Adds scope name id := by
  have hsame : ¬(∃ ty line, request = .declare scope name ty line) →
      ¬(Served.mk request reply t next).Adds scope name id := fun hne hadds => hne hadds.1
  cases h with
  | @added scope' name' hscope hfree ty line =>
      rw [hv.lookupLocal_declare hscope hfree]
      by_cases hhere : scope = scope' ∧ name = name'
      · obtain ⟨rfl, rfl⟩ := hhere
        simp [Served.Adds, Served.Declares, hfree, eq_comm]
      · have hother : ¬∃ ty' line', Request.declare scope' name' ty line =
            .declare scope name ty' line' := by
          rintro ⟨_, _, heq⟩
          injection heq with hs hn
          exact hhere ⟨hs.symm, hn.symm⟩
        rw [if_neg hhere, or_iff_left (hsame hother)]
  | taken => simp [Served.Adds]
  | push | pop | discard | reference | addParameter =>
      rw [or_iff_left (hsame (by rintro ⟨_, _, heq⟩; cases heq))]
      simp
  | query hquery =>
      refine (or_iff_left (hsame ?_)).symm
      rintro ⟨_, _, rfl⟩
      cases hquery

/-- A declaration adds a name that is free, and answers one that is not. -/
theorem declare_cases (h : Step t request reply next) {scope : ScopeId} {name : String}
    (hd : (Served.mk request reply t next).Declares scope name) :
    (t.lookupLocal scope name = none ∧ reply = .declared (.added t.nextSymbol)) ∨
      ∃ id, t.lookupLocal scope name = some id ∧ reply = .declared (.taken id) ∧ next = t := by
  obtain ⟨ty, line, hrequest⟩ := hd
  cases h with
  | added _ hfree =>
      cases hrequest
      exact .inl ⟨hfree, rfl⟩
  | taken hid =>
      cases hrequest
      exact .inr ⟨_, hid, rfl, rfl⟩
  | query hquery =>
      rw [show request = .declare scope name ty line from hrequest] at hquery
      cases hquery
  | push | pop | discard | reference | addParameter => cases hrequest

end Step

/-! ## A run of requests -/

theorem serve_cons {t last : Table} {request : Request} {requests : List Request}
    {served : List Served} :
    t.serve (request :: requests) = some (served, last) ↔
      ∃ reply next rest, t.answer request = some (reply, next) ∧
        next.serve requests = some (rest, last) ∧ served = ⟨request, reply, t, next⟩ :: rest := by
  constructor
  · intro h
    obtain ⟨⟨reply, next⟩, hanswer, h⟩ := Option.bind_eq_some_iff.mp h
    obtain ⟨⟨rest, _⟩, hserve, h⟩ := Option.bind_eq_some_iff.mp h
    cases h
    exact ⟨reply, next, rest, hanswer, hserve, rfl⟩
  · rintro ⟨reply, next, rest, hanswer, hserve, rfl⟩
    simp only [serve, hanswer, hserve, bind, Option.bind_some]

/-- What every request keeps, a run keeps. -/
theorem invariant_of_serve {P : Table → Prop}
    (hstep : ∀ {t next : Table} {request : Request} {reply : Reply},
      Step t request reply next → P t → P next)
    {t last : Table} {requests : List Request} {served : List Served}
    (h : t.serve requests = some (served, last)) (ht : P t) : P last := by
  induction requests generalizing t served with
  | nil =>
      cases h
      exact ht
  | cons request requests ih =>
      obtain ⟨_, _, _, hanswer, hserve, _⟩ := serve_cons.mp h
      exact ih hserve (hstep (step_answer hanswer) ht)

theorem valid_of_serve {t last : Table} {requests : List Request} {served : List Served}
    (hv : t.Valid) (h : t.serve requests = some (served, last)) : last.Valid :=
  invariant_of_serve (fun hstep hv => hstep.valid hv) h hv

/-- A run is carried out exactly if its requests name what the table has. -/
theorem knows_iff {t : Table} {requests : List Request} :
    t.Knows requests ↔ ∃ served last, t.serve requests = some (served, last) := by
  induction requests generalizing t with
  | nil => simp [Knows, serve]
  | cons request requests ih =>
      rw [Knows, ← isSome_answer]
      constructor
      · rintro ⟨hsome, hrest⟩
        obtain ⟨⟨reply, next⟩, hanswer⟩ := Option.isSome_iff_exists.mp hsome
        obtain ⟨served, last, hserve⟩ := ih.mp (hrest reply next hanswer)
        exact ⟨_, last, serve_cons.mpr ⟨reply, next, served, hanswer, hserve, rfl⟩⟩
      · rintro ⟨served, last, h⟩
        obtain ⟨reply, next, rest, hanswer, hserve, _⟩ := serve_cons.mp h
        refine ⟨by rw [hanswer]; rfl, fun reply' next' hanswer' => ?_⟩
        cases hanswer.symm.trans hanswer'
        exact ih.mpr ⟨rest, last, hserve⟩

/-- A valid table knows after a run the names from before it and those that the
run has added. -/
theorem lookupLocal_serve {t last : Table} {requests : List Request} {served : List Served}
    (hv : t.Valid) (h : t.serve requests = some (served, last)) (scope : ScopeId)
    (name : String) (id : SymbolId) :
    last.lookupLocal scope name = some id ↔
      t.lookupLocal scope name = some id ∨ ∃ e ∈ served, e.Adds scope name id := by
  induction requests generalizing t served with
  | nil =>
      cases h
      simp
  | cons request requests ih =>
      obtain ⟨reply, next, rest, hanswer, hserve, rfl⟩ := serve_cons.mp h
      have hstep := step_answer hanswer
      rw [ih (hstep.valid hv) hserve, hstep.lookupLocal_iff hv]
      simp only [List.mem_cons, exists_eq_or_imp, or_assoc]

/-- What was served up to some point is itself a run, and the next request was
carried out on its last table. -/
theorem serve_take {t last : Table} {requests : List Request} {served : List Served}
    (h : t.serve requests = some (served, last)) {i : Nat} {e : Served}
    (he : served[i]? = some e) :
    t.serve (requests.take i) = some (served.take i, e.before) ∧
      Step e.before e.request e.reply e.after := by
  induction requests generalizing t served i with
  | nil =>
      cases h
      simp at he
  | cons request requests ih =>
      obtain ⟨reply, next, rest, hanswer, hserve, rfl⟩ := serve_cons.mp h
      cases i with
      | zero =>
          obtain rfl := Option.some.inj he
          exact ⟨rfl, step_answer hanswer⟩
      | succ i =>
          obtain ⟨hrun, hstep⟩ := ih hserve he
          exact ⟨serve_cons.mpr ⟨reply, next, rest.take i, hanswer, hrun, rfl⟩, hstep⟩

/-- In a run from the empty table, a request finds a name exactly if an earlier
one has added it. -/
theorem lookupLocal_before {last : Table} {requests : List Request} {served : List Served}
    (h : empty.serve requests = some (served, last)) {i : Nat} {e : Served}
    (he : served[i]? = some e) (scope : ScopeId) (name : String) (id : SymbolId) :
    e.before.lookupLocal scope name = some id ↔
      ∃ j < i, ∃ e', served[j]? = some e' ∧ e'.Adds scope name id := by
  have hempty : empty.lookupLocal scope name ≠ some id :=
    fun hid => Nat.not_lt_zero _ (lt_of_lookupLocal hid)
  rw [lookupLocal_serve valid_empty (serve_take h he).1, or_iff_right hempty]
  constructor
  · rintro ⟨e', he', hadds⟩
    obtain ⟨j, hj⟩ := List.mem_iff_getElem?.mp he'
    rw [List.getElem?_take] at hj
    split at hj
    · next hlt => exact ⟨j, hlt, e', hj, hadds⟩
    · cases hj
  · rintro ⟨j, hj, e', he', hadds⟩
    refine ⟨e', List.mem_iff_getElem?.mpr ⟨j, ?_⟩, hadds⟩
    rw [List.getElem?_take_of_lt hj, he']

/-- What a run has made of one name in one scope. -/
structure NamedOnce (served : List Served) (last : Table) (scope : ScopeId)
    (name : String) : Prop where
  /-- The first declaration succeeds, and gets the next id. -/
  first : ∀ {i : Nat} {e : Served}, served[i]? = some e → e.Declares scope name →
    (∀ j < i, ∀ e', served[j]? = some e' → ¬e'.Declares scope name) →
    e.Adds scope name e.before.nextSymbol
  /-- No other one does. -/
  once : ∀ {i j : Nat} {e e' : Served} {id id' : SymbolId}, served[i]? = some e →
    served[j]? = some e' → e.Adds scope name id → e'.Adds scope name id' → i = j
  /-- It is found if and only if that has happened, under the id that was given. -/
  found : ∀ id, last.lookupLocal scope name = some id ↔ ∃ e ∈ served, e.Adds scope name id
  /-- Every later one is told that id, and leaves the whole table as it was. -/
  later : ∀ {i j : Nat} {e e' : Served} {id : SymbolId}, i < j → served[i]? = some e →
    served[j]? = some e' → e.Adds scope name id → e'.Declares scope name →
    e'.reply = .declared (.taken id) ∧ e'.after = e'.before

theorem namedOnce_of_serve {requests : List Request} {served : List Served} {last : Table}
    (h : empty.serve requests = some (served, last)) (scope : ScopeId) (name : String) :
    NamedOnce served last scope name := by
  have hlater : ∀ {i j : Nat} {e e' : Served} {id : SymbolId}, i < j → served[i]? = some e →
      served[j]? = some e' → e.Adds scope name id → e'.Declares scope name →
      e'.reply = .declared (.taken id) ∧ e'.after = e'.before := by
    intro i j e e' id hij he he' hadds hdeclares
    have hid := (lookupLocal_before h he' scope name id).mpr ⟨i, hij, e, he, hadds⟩
    rcases (serve_take h he').2.declare_cases hdeclares with ⟨hfree, _⟩ | ⟨_, htaken, hreply, hsame⟩
    · rw [hfree] at hid
      cases hid
    · obtain rfl := Option.some.inj (hid.symm.trans htaken)
      exact ⟨hreply, hsame⟩
  refine { first := ?_, once := ?_, found := ?_, later := hlater }
  · intro i e he hdeclares hfirst
    rcases (serve_take h he).2.declare_cases hdeclares with ⟨_, hreply⟩ | ⟨id, hid, _⟩
    · exact ⟨hdeclares, hreply⟩
    · obtain ⟨j, hj, e', he', hadds⟩ := (lookupLocal_before h he scope name id).mp hid
      exact absurd hadds.1 (hfirst j hj e' he')
  · intro i j e e' id id' he he' hadds hadds'
    rcases Nat.lt_trichotomy i j with hij | rfl | hij
    · have hreply := (hlater hij he he' hadds hadds'.1).1
      rw [hadds'.2] at hreply
      cases hreply
    · rfl
    · have hreply := (hlater hij he' he hadds' hadds.1).1
      rw [hadds.2] at hreply
      cases hreply
  · intro id
    rw [lookupLocal_serve valid_empty h]
    refine or_iff_right fun hempty => ?_
    exact Nat.not_lt_zero _ (lt_of_lookupLocal hempty)

/-- From the empty table, every run of requests that name what the table has is
carried out, and makes a map of scopes and names: a name gets a symbol once, is
found from then on, and cannot be declared again. -/
theorem serve_namedOnce {requests : List Request} (h : empty.Knows requests) :
    ∃ served last, empty.serve requests = some (served, last) ∧
      ∀ (scope : ScopeId) (name : String), NamedOnce served last scope name := by
  obtain ⟨served, last, hserve⟩ := knows_iff.mp h
  exact ⟨served, last, hserve, namedOnce_of_serve hserve⟩

/-- Two names of one bucket, declared in two scopes in turn, one of them again
after its scope has been closed. -/
def collidingRequests : List Request :=
  [.push "global", .declare 0 "a" .int 1, .push "f", .declare 1 "ii" .int 2,
    .declare 0 "ii" .intArray 3, .declare 1 "a" .int 4, .declare 0 "a" .intArray 5, .pop,
    .reference 2 6, .addParameter 0 .int, .discard, .declare 0 "ii" .int 7,
    .lookupLocal 1 "a"]

theorem serve_namedOnce_colliding :
    Bucket.ofName "a" = Bucket.ofName "ii" ∧ empty.Knows collidingRequests ∧
      ∃ served last, empty.serve collidingRequests = some (served, last) ∧
        last.lookupLocal 0 "ii" = some 2 ∧ NamedOnce served last 0 "ii" := by
  have hfound : ((empty.serve collidingRequests).map fun run =>
      run.2.lookupLocal 0 "ii") = some (some 2) := by decide
  have hknows : empty.Knows collidingRequests := by
    obtain ⟨⟨served, last⟩, hserve, _⟩ := Option.map_eq_some_iff.mp hfound
    exact knows_iff.mpr ⟨served, last, hserve⟩
  obtain ⟨served, last, hserve, hnamed⟩ := serve_namedOnce hknows
  rw [hserve, Option.map_some] at hfound
  exact ⟨by decide, hknows, served, last, hserve, Option.some.inj hfound, hnamed 0 "ii"⟩

end Table

end CMinus
