import Mathlib.Data.List.FinRange
import Mathlib.Data.List.Forall2
import CMinus.Table.Listing
import CMinus.Proofs.Table.Requests

/-!
# Every symbol once

A table keeps its symbols twice: in one registry, by the order of declaration, and
in the buckets of their scopes.  Whoever lists a table goes through the buckets.

`Table.Shelved` is what the buckets have to keep for that, besides being valid: a
bucket holds only names that belong in it, and the newest comes first.  Every
request keeps it (`Step.shelved`).  The buckets of all scopes together then hold
each id of the registry once (`perm_filed`), and the ids of one scope are sorted
by bucket and by age (`Shelved.pairwise_filed`).

What "older" means is not left to the ids: in a run from the empty table an id is
smaller exactly if it was given by an earlier request (`lt_of_adds`,
`after_of_lt`).  So the order of a listing, and the lines in each row of it, can be
told from the requests alone (`Enumerated`).  What a row says of its symbol is
written out column by column (`Shows`).
-/

namespace CMinus

namespace Scope

/-- The buckets of a scope in ascending order. -/
theorem members_eq (s : Scope) : s.members = (List.finRange bucketCount).flatMap s.bucket := by
  have hbuckets : s.buckets.toList = (List.finRange bucketCount).map s.bucket := by
    refine List.ext_getElem (by simp) fun i _ _ => ?_
    simp [bucket]
  rw [members, hbuckets, List.flatMap_def]

theorem mem_members {s : Scope} {id : SymbolId} : id ∈ s.members ↔ ∃ b, id ∈ s.bucket b := by
  simp [members_eq]

end Scope

namespace Served

/-- The line that a request gives to a symbol, if it gives one. -/
def linesFor (e : Served) (id : SymbolId) : List UInt32 :=
  match e.request, e.reply with
  | .declare _ _ _ line, .declared (.added new) => if new = id then [line] else []
  | .reference symbol line, _ => if symbol = id then [line] else []
  | _, _ => []

end Served

namespace Table

/-- The ids that are filed in a scope, as they are listed. -/
def filed (t : Table) (scope : ScopeId) : List SymbolId :=
  (t.scopes[scope]?.map Scope.members).getD []

theorem mem_filed {t : Table} {scope : ScopeId} {id : SymbolId} :
    id ∈ t.filed scope ↔ ∃ s b, t.scopes[scope]? = some s ∧ id ∈ s.bucket b := by
  cases hs : t.scopes[scope]? <;> simp [filed, hs, Scope.mem_members]

theorem symbolsIn_eq (t : Table) (scope : ScopeId) :
    t.symbolsIn scope = (t.filed scope).filterMap (t.symbols[·]?) := by
  cases hs : t.scopes[scope]? <;> simp [symbolsIn, filed, hs]

theorem mem_symbolsIn {t : Table} {scope : ScopeId} {sym : Symbol} :
    sym ∈ t.symbolsIn scope ↔ ∃ id ∈ t.filed scope, t.symbols[id]? = some sym := by
  rw [symbolsIn_eq, List.mem_filterMap]

/-! ## The shelves -/

/-- Each bucket holds the names that belong in it, the newest first. -/
structure Shelved (t : Table) : Prop where
  newest_first : ∀ {scope : ScopeId} {s : Scope} (b : Bucket), t.scopes[scope]? = some s →
    (s.bucket b).Pairwise (· > ·)
  bucket_eq : ∀ {scope : ScopeId} {s : Scope} {b : Bucket} {id : SymbolId} {sym : Symbol},
    t.scopes[scope]? = some s → id ∈ s.bucket b → t.symbols[id]? = some sym →
    Bucket.ofName sym.name = b

theorem shelved_empty : empty.Shelved where
  newest_first := by simp [empty]
  bucket_eq := by simp [empty]

namespace Shelved

variable {t : Table}

theorem push (h : t.Shelved) (scopeName : String) : (t.push scopeName).Shelved where
  newest_first := by
    intro scope s b hs
    simp only [Table.push, Array.getElem?_push] at hs
    split at hs
    · obtain rfl := Option.some.inj hs
      simp
    · exact h.newest_first b hs
  bucket_eq := by
    intro scope s b id sym hs hid hsym
    simp only [Table.push, Array.getElem?_push] at hs
    split at hs
    · obtain rfl := Option.some.inj hs
      simp at hid
    · exact h.bucket_eq hs hid hsym

/-- Changing a symbol leaves it where it is, as long as it keeps its name. -/
theorem modify (h : t.Shelved) (k : SymbolId) {f : Symbol → Symbol}
    (hname : ∀ s, (f s).name = s.name) :
    ({ t with symbols := t.symbols.modify k f } : Table).Shelved where
  newest_first := h.newest_first
  bucket_eq := by
    intro scope s b id sym hs hid hsym
    simp only [Array.getElem?_modify] at hsym
    split at hsym
    · obtain ⟨old, hold, rfl⟩ := Option.map_eq_some_iff.mp hsym
      rw [hname]
      exact h.bucket_eq hs hid hold
    · exact h.bucket_eq hs hid hsym

/-- A new symbol has the largest id, and goes to the front of its bucket. -/
theorem declare (h : t.Shelved) (hv : t.Valid) {scope : ScopeId} {name : String}
    (hfree : t.lookupLocal scope name = none) (ty : Ty) (line : UInt32) :
    (t.declare scope name ty line).2.Shelved := by
  -- an old entry is smaller than the new id, and its symbol is still the same
  have hold : ∀ {scope : ScopeId} {s : Scope} {b : Bucket} {id : SymbolId},
      t.scopes[scope]? = some s → id ∈ s.bucket b → id < t.symbols.size := by
    intro scope s b id hs hid
    obtain ⟨_, hsym, _⟩ := hv.filed hs hid
    exact (Array.getElem?_eq_some_iff.mp hsym).1
  have hkept : ∀ {scope' : ScopeId} {s : Scope} {b : Bucket} {id : SymbolId} {sym : Symbol},
      t.scopes[scope']? = some s → id ∈ s.bucket b →
      (t.symbols.push (t.fresh scope name ty line))[id]? = some sym →
      Bucket.ofName sym.name = b := by
    intro scope' s b id sym hs hid hsym
    rw [Array.getElem?_push, if_neg (Nat.ne_of_lt (hold hs hid))] at hsym
    exact h.bucket_eq hs hid hsym
  rw [declare_of_lookupLocal_eq_none hfree]
  constructor
  · intro scope' s b hs
    simp only [Array.getElem?_modify] at hs
    split at hs
    · obtain ⟨s', hs', rfl⟩ := Option.map_eq_some_iff.mp hs
      rw [Scope.bucket_file]
      split
      · exact List.pairwise_cons.mpr ⟨fun id hid => hold hs' hid, h.newest_first b hs'⟩
      · exact h.newest_first b hs'
    · exact h.newest_first b hs
  · intro scope' s b id sym hs hid hsym
    simp only [Array.getElem?_modify] at hs
    split at hs
    · obtain ⟨s', hs', rfl⟩ := Option.map_eq_some_iff.mp hs
      rw [Scope.bucket_file] at hid
      split at hid
      · next hb =>
          rcases List.mem_cons.mp hid with rfl | hid
          · simp only [nextSymbol, Array.getElem?_push_size, Option.some.injEq] at hsym
            rw [← hsym]
            exact hb
          · exact hkept hs' hid hsym
      · exact hkept hs' hid hsym
    · exact hkept hs hid hsym

end Shelved

/-- A request keeps the shelves of a valid table. -/
theorem Step.shelved {t next : Table} {request : Request} {reply : Reply}
    (h : Step t request reply next) (hv : t.Valid) (hs : t.Shelved) : next.Shelved := by
  cases h with
  | push name => exact hs.push name
  | pop => exact ⟨hs.newest_first, hs.bucket_eq⟩
  | discard => exact ⟨hs.newest_first, hs.bucket_eq⟩
  | added _ hfree ty line => exact hs.declare hv hfree ty line
  | taken => exact hs
  | reference => exact hs.modify _ fun _ => rfl
  | addParameter => exact hs.modify _ fun _ => rfl
  | query => exact hs

/-! ## The buckets and the registry -/

/-- What is filed in a scope is a symbol of that scope, and the other way round. -/
theorem Valid.mem_filed_iff {t : Table} (hv : t.Valid) {scope : ScopeId} {id : SymbolId} :
    id ∈ t.filed scope ↔ ∃ sym, t.symbols[id]? = some sym ∧ sym.scope = scope := by
  rw [mem_filed]
  constructor
  · rintro ⟨s, b, hs, hid⟩
    exact hv.filed hs hid
  · rintro ⟨sym, hsym, rfl⟩
    obtain ⟨s, _, hs, hid, _⟩ := exists_symbol_of_lookupLocal (hv.found hsym)
    exact ⟨s, _, hs, hid⟩

/-- The ids of one scope are sorted by bucket, and from new to old in a bucket. -/
theorem Shelved.pairwise_filed {t : Table} (h : t.Shelved) (scope : ScopeId) :
    (t.filed scope).Pairwise fun id id' =>
      ∀ sym, t.symbols[id]? = some sym → ∀ sym', t.symbols[id']? = some sym' →
        Bucket.ofName sym.name < Bucket.ofName sym'.name ∨
          Bucket.ofName sym.name = Bucket.ofName sym'.name ∧ id' < id := by
  cases hs : t.scopes[scope]? with
  | none => simp [filed, hs]
  | some s =>
      simp only [filed, hs, Option.map_some, Option.getD_some, Scope.members_eq]
      rw [List.pairwise_flatMap]
      constructor
      · intro b _
        refine (h.newest_first b hs).imp_of_mem ?_
        intro id id' hid hid' hlt sym hsym sym' hsym'
        exact .inr ⟨by rw [h.bucket_eq hs hid hsym, h.bucket_eq hs hid' hsym'], hlt⟩
      · refine (List.pairwise_lt_finRange bucketCount).imp ?_
        intro b b' hlt id hid id' hid' sym hsym sym' hsym'
        rw [h.bucket_eq hs hid hsym, h.bucket_eq hs hid' hsym']
        exact .inl hlt

/-- No id is filed twice in a scope. -/
theorem Shelved.nodup_filed {t : Table} (h : t.Shelved) (hv : t.Valid) (scope : ScopeId) :
    (t.filed scope).Nodup := by
  refine (h.pairwise_filed scope).imp_of_mem ?_
  rintro id _ hid _ hbefore rfl
  obtain ⟨sym, hsym, _⟩ := hv.mem_filed_iff.mp hid
  rcases hbefore sym hsym sym hsym with hlt | ⟨_, hlt⟩
  · exact absurd hlt (lt_irrefl _)
  · exact absurd hlt (Nat.lt_irrefl _)

/-- All buckets together hold each id of the registry once. -/
theorem perm_filed {t : Table} (hv : t.Valid) (h : t.Shelved) :
    ((List.range t.scopes.size).flatMap t.filed).Perm (List.range t.symbols.size) := by
  have hnodup : ((List.range t.scopes.size).flatMap t.filed).Nodup := by
    refine List.pairwise_flatMap.mpr ⟨fun scope _ => h.nodup_filed hv scope, ?_⟩
    refine List.nodup_range.imp ?_
    -- filed in two scopes, it would be a symbol of both
    rintro scope scope' hne id hid _ hid' rfl
    obtain ⟨sym, hsym, hscope⟩ := hv.mem_filed_iff.mp hid
    obtain ⟨sym', hsym', hscope'⟩ := hv.mem_filed_iff.mp hid'
    obtain rfl := Option.some.inj (hsym.symm.trans hsym')
    exact hne (hscope.symm.trans hscope')
  refine (List.perm_ext_iff_of_nodup hnodup List.nodup_range).mpr fun id => ?_
  simp only [List.mem_flatMap, List.mem_range]
  constructor
  · rintro ⟨scope, _, hid⟩
    obtain ⟨sym, hsym, _⟩ := hv.mem_filed_iff.mp hid
    exact (Array.getElem?_eq_some_iff.mp hsym).1
  · intro hlt
    have hsym : t.symbols[id]? = some t.symbols[id] := Array.getElem?_eq_getElem hlt
    exact ⟨_, lt_of_lookupLocal (hv.found hsym), hv.mem_filed_iff.mpr ⟨_, hsym, rfl⟩⟩

/-- All symbols, scope by scope in the order the scopes were made. -/
def enumerated (t : Table) : List Symbol := (List.range t.scopes.size).flatMap t.symbolsIn

theorem filterMap_getElem?_range {α : Type} (xs : List α) :
    (List.range xs.length).filterMap (xs[·]?) = xs := by
  induction xs with
  | nil => rfl
  | cons x xs ih =>
      rw [List.length_cons, List.range_succ_eq_map, List.filterMap_cons, List.filterMap_map]
      simpa [Function.comp_def] using ih

/-- The scopes together list the registry. -/
theorem perm_enumerated {t : Table} (hv : t.Valid) (h : t.Shelved) :
    t.enumerated.Perm t.symbols.toList := by
  have hread : (List.range t.symbols.size).filterMap (t.symbols[·]?) = t.symbols.toList := by
    simpa using filterMap_getElem?_range t.symbols.toList
  have hperm := (perm_filed hv h).filterMap (t.symbols[·]?)
  rw [hread, List.filterMap_flatMap] at hperm
  simpa only [enumerated, funext t.symbolsIn_eq] using hperm

/-! ## The rows of a listing -/

/-- A text at the left of a column. -/
def flushLeft (width : Nat) (text : String) : String :=
  text ++ String.ofList (List.replicate (width - text.length) ' ')

/-- A text at the right of a column. -/
def flushRight (width : Nat) (text : String) : String :=
  String.ofList (List.replicate (width - text.length) ' ') ++ text

/-- How the types are written in a listing. -/
def typeWords : List (Ty × String) :=
  [(.void, "Void"), (.int, "Integer"), (.intArray, "Integer Array"),
    (.voidFunction, "Function"), (.intFunction, "Function"), (.poison, "Error")]

/-- The row of a symbol: its name, its type, the name of its own scope, its slot, and
all its lines in order. -/
def Shows (t : Table) (sym : Symbol) (row : String) : Prop :=
  ∃ scope word, t.scopes[sym.scope]? = some scope ∧ (sym.ty, word) ∈ typeWords ∧
    row = flushLeft 13 sym.name ++ "  " ++ flushLeft 13 word ++ "  " ++
      flushLeft 10 scope.name ++ "  " ++ flushLeft 8 (toString sym.slot) ++ "  " ++
      String.join (sym.lines.map fun line => flushRight 4 (toString line) ++ " ") ++ "\n"

theorem mem_typeWords (ty : Ty) : (ty, ty.word) ∈ typeWords := by
  cases ty <;> decide

theorem spaces_eq (n : Nat) : Text.spaces n = String.ofList (List.replicate n ' ') := by
  rw [← String.toList_inj, String.toList_ofList, Text.spaces, String.pushn_eq_repeat_push]
  induction n with
  | zero => rfl
  | succ n ih => rw [Nat.repeat, String.toList_push, ih, List.replicate_succ']

theorem padRight_eq (width : Nat) (text : String) :
    Text.padRight width text = flushLeft width text := by
  rw [Text.padRight, spaces_eq, flushLeft]

theorem padLeft_eq (width : Nat) (text : String) :
    Text.padLeft width text = flushRight width text := by
  rw [Text.padLeft, spaces_eq, flushRight]

/-- A row is written with the name of the scope that is gone through, which is the
symbol's own. -/
theorem Valid.shows_listingRow {t : Table} (hv : t.Valid) {scope : ScopeId} {s : Scope}
    (hs : t.scopes[scope]? = some s) {sym : Symbol} (hsym : sym ∈ t.symbolsIn scope) :
    t.Shows sym (listingRow s.name sym) := by
  obtain ⟨id, hid, hget⟩ := mem_symbolsIn.mp hsym
  obtain ⟨_, hget', rfl⟩ := hv.mem_filed_iff.mp hid
  obtain rfl := Option.some.inj (hget.symm.trans hget')
  refine ⟨s, sym.ty.word, hs, mem_typeWords sym.ty, ?_⟩
  simp only [listingRow, padRight_eq, padLeft_eq]

theorem Valid.forall₂_listingRows {t : Table} (hv : t.Valid) (scope : ScopeId) :
    List.Forall₂ t.Shows (t.symbolsIn scope) (t.listingRows scope) := by
  cases hs : t.scopes[scope]? with
  | none => simp [listingRows, symbolsIn, hs]
  | some s =>
      simp only [listingRows, hs]
      rw [List.forall₂_map_right_iff, List.forall₂_same]
      exact fun sym hsym => hv.shows_listingRow hs hsym

/-- Scope by scope, the rows are those of the symbols. -/
theorem Valid.forall₂_rows {t : Table} (hv : t.Valid) :
    List.Forall₂ t.Shows t.enumerated ((List.range t.scopes.size).flatMap t.listingRows) := by
  refine List.rel_flatMap (R := Eq) (List.forall₂_refl _) ?_
  rintro scope _ rfl
  exact hv.forall₂_listingRows scope

/-! ## What a run tells about its symbols -/

/-- The lines of a symbol; none for one that does not exist. -/
def linesOf (t : Table) (id : SymbolId) : List UInt32 := (t.symbols[id]?.map (·.lines)).getD []

/-- A request adds its line behind the others. -/
theorem Step.linesOf_eq {t next : Table} {request : Request} {reply : Reply}
    (h : Step t request reply next) (id : SymbolId) :
    next.linesOf id = t.linesOf id ++ (Served.mk request reply t next).linesFor id := by
  cases h with
  | push | pop | discard | taken =>
      simp [linesOf, Served.linesFor, Table.push, Table.pop, Table.discard]
  | added _ hfree ty line =>
      rw [declare_of_lookupLocal_eq_none hfree]
      simp only [linesOf, Served.linesFor, nextSymbol, Array.getElem?_push, eq_comm]
      split
      · next hid => simp [hid, fresh]
      · simp
  | reference hid line =>
      simp only [linesOf, Served.linesFor, Table.reference, Array.getElem?_modify]
      split
      · next heq =>
          subst heq
          simp [hid]
      · simp
  | addParameter hid ty =>
      simp only [linesOf, Served.linesFor, Table.addParameter, Array.getElem?_modify]
      split
      · cases t.symbols[id]? <;> simp
      · simp
  | query hquery =>
      cases request <;> simp [Request.isQuery, Served.linesFor] at hquery ⊢

/-- After a run a symbol has its lines from before it, and those that the run gave
it in this order. -/
theorem linesOf_serve {t last : Table} {requests : List Request} {served : List Served}
    (h : t.serve requests = some (served, last)) (id : SymbolId) :
    last.linesOf id = t.linesOf id ++ served.flatMap (·.linesFor id) := by
  induction requests generalizing t served with
  | nil =>
      cases h
      simp
  | cons request requests ih =>
      obtain ⟨reply, next, rest, hanswer, hserve, rfl⟩ := serve_cons.mp h
      rw [ih hserve, (step_answer hanswer).linesOf_eq, List.flatMap_cons, List.append_assoc]

section Run

variable {requests : List Request} {served : List Served} {last : Table}
  (h : empty.serve requests = some (served, last))

include h

/-- Ids are given in ascending order. -/
theorem lt_of_adds {i j : Nat} {e e' : Served} {scope scope' : ScopeId} {name name' : String}
    {id id' : SymbolId} (hij : i < j) (he : served[i]? = some e) (he' : served[j]? = some e')
    (hadds : e.Adds scope name id) (hadds' : e'.Adds scope' name' id') : id < id' := by
  have hid := (lookupLocal_before h he' scope name id).mpr ⟨i, hij, e, he, hadds⟩
  have hnew : id' = e'.before.nextSymbol := by
    rcases (serve_take h he').2.declare_cases hadds'.1 with ⟨_, hreply⟩ | ⟨_, _, hreply, _⟩ <;>
      rw [hadds'.2] at hreply <;> cases hreply
    rfl
  rw [hnew]
  exact symbol_lt_of_lookupLocal hid

/-- The larger of two ids was given later. -/
theorem after_of_lt {i j : Nat} {e e' : Served} {scope scope' : ScopeId} {name name' : String}
    {id id' : SymbolId} (he : served[i]? = some e) (he' : served[j]? = some e')
    (hadds : e.Adds scope name id) (hadds' : e'.Adds scope' name' id') (hlt : id < id') :
    i < j := by
  rcases Nat.lt_trichotomy i j with hij | rfl | hij
  · exact hij
  · obtain rfl := Option.some.inj (he.symm.trans he')
    have hsame := hadds.2.symm.trans hadds'.2
    simp only [Reply.declared.injEq, Declared.added.injEq] at hsame
    exact absurd hlt (by rw [hsame]; exact Nat.lt_irrefl _)
  · exact absurd (lt_of_adds h hij he' he hadds' hadds) (Nat.lt_asymm hlt)

/-- A name of a scope in the last table was added by a request. -/
theorem exists_adds_of_mem {scope : ScopeId} {id : SymbolId} (hid : id ∈ last.filed scope)
    {sym : Symbol} (hsym : last.symbols[id]? = some sym) :
    ∃ (i : Nat) (e : Served), served[i]? = some e ∧ e.Adds scope sym.name id := by
  have hv : last.Valid := valid_of_serve valid_empty h
  obtain ⟨_, hsym', hscope⟩ := hv.mem_filed_iff.mp hid
  obtain rfl := Option.some.inj (hsym.symm.trans hsym')
  have hfound := (namedOnce_of_serve h scope sym.name).found id
  obtain ⟨e, he, hadds⟩ := hfound.mp (hv.lookupLocal_eq_some_iff.mpr ⟨sym, hsym, rfl, hscope⟩)
  obtain ⟨i, hi⟩ := List.mem_iff_getElem?.mp he
  exact ⟨i, e, hi, hadds⟩

end Run

/-- Of two names that a run has added to a scope, this one is listed first: its
bucket comes first, or they share one and this is the later addition. -/
def Precedes (served : List Served) (scope : ScopeId) (a b : Symbol) : Prop :=
  Bucket.ofName a.name < Bucket.ofName b.name ∨
    Bucket.ofName a.name = Bucket.ofName b.name ∧
      ∃ (i j : Nat) (e e' : Served) (id id' : SymbolId), i < j ∧
        served[i]? = some e ∧ e.Adds scope b.name id ∧
        served[j]? = some e' ∧ e'.Adds scope a.name id'

/-- What a run has made of the symbols of a table, seen by who lists them. -/
structure Enumerated (served : List Served) (t : Table) : Prop where
  /-- Scope by scope, every symbol of the registry comes once. -/
  once : t.enumerated.Perm t.symbols.toList
  /-- A scope lists exactly what was added to it. -/
  added : ∀ scope sym, sym ∈ t.symbolsIn scope ↔
    ∃ e ∈ served, ∃ id, e.Adds scope sym.name id ∧ t.symbols[id]? = some sym
  /-- By bucket, and the latest addition first. -/
  ordered : ∀ scope, (t.symbolsIn scope).Pairwise (Precedes served scope)
  /-- A symbol has all lines that it was given, in the order of the requests. -/
  lines : ∀ id sym, t.symbols[id]? = some sym → sym.lines = served.flatMap (·.linesFor id)
  /-- The listing has two header lines, and then a row for each of them in this
  order. -/
  listing : ∃ rows, List.Forall₂ t.Shows t.enumerated rows ∧
    t.listing =
      "Variable Name  Variable Type  Scope Name  Location   Line Numbers\n" ++
      "-------------  -------------  ----------  --------   ------------\n" ++
      String.join rows

theorem enumerated_of_serve {requests : List Request} {served : List Served} {last : Table}
    (h : empty.serve requests = some (served, last)) : Enumerated served last := by
  obtain ⟨hv, hshelved⟩ : last.Valid ∧ last.Shelved :=
    invariant_of_serve (P := fun t => t.Valid ∧ t.Shelved)
      (fun hstep hinv => ⟨hstep.valid hinv.1, hstep.shelved hinv.1 hinv.2⟩) h
      ⟨valid_empty, shelved_empty⟩
  refine ⟨perm_enumerated hv hshelved, ?_, ?_, ?_, _, hv.forall₂_rows, rfl⟩
  · intro scope sym
    rw [mem_symbolsIn]
    constructor
    · rintro ⟨id, hid, hsym⟩
      obtain ⟨i, e, he, hadds⟩ := exists_adds_of_mem h hid hsym
      exact ⟨e, List.mem_of_getElem? he, id, hadds, hsym⟩
    · rintro ⟨e, he, id, hadds, hsym⟩
      have hid := ((namedOnce_of_serve h scope sym.name).found id).mpr ⟨e, he, hadds⟩
      obtain ⟨sym', hsym', _, hscope⟩ := hv.lookupLocal_eq_some_iff.mp hid
      exact ⟨id, hv.mem_filed_iff.mpr ⟨sym', hsym', hscope⟩, hsym⟩
  · intro scope
    rw [symbolsIn_eq, List.pairwise_filterMap]
    refine (hshelved.pairwise_filed scope).imp_of_mem ?_
    intro id id' hid hid' hbefore sym hsym sym' hsym'
    -- within a bucket the larger id comes first, and it was given later
    refine (hbefore sym hsym sym' hsym').imp_right fun ⟨hbucket, hlt⟩ => ⟨hbucket, ?_⟩
    obtain ⟨j, e, he, hadds⟩ := exists_adds_of_mem h hid hsym
    obtain ⟨i, e', he', hadds'⟩ := exists_adds_of_mem h hid' hsym'
    exact ⟨i, j, e', e, id', id, after_of_lt h he' he hadds' hadds hlt, he', hadds', he, hadds⟩
  · intro id sym hsym
    simpa [linesOf, hsym, empty] using linesOf_serve h id

/-- Going through the scopes loses no symbol and repeats none, whatever was asked
of the table before. -/
theorem serve_enumerated {requests : List Request} (h : empty.Knows requests) :
    ∃ served last, empty.serve requests = some (served, last) ∧ Enumerated served last := by
  obtain ⟨served, last, hserve⟩ := knows_iff.mp h
  exact ⟨served, last, hserve, enumerated_of_serve hserve⟩

/-- Names of one bucket in two scopes, in turn and out of the order of their scopes,
with uses in between and one name declared again. -/
def interleavedRequests : List Request :=
  [.push "global", .push "f", .declare 1 "a" .int 1, .declare 0 "ii" .int 2, .reference 0 3,
    .declare 0 "b" .intArray 4, .pop, .declare 1 "ii" .int 5, .declare 0 "a" .int 6,
    .declare 1 "a" .intArray 7, .reference 0 8, .discard, .declare 1 "A" .int 9]

/-- The table after these requests. -/
def interleavedListing : String :=
  "Variable Name  Variable Type  Scope Name  Location   Line Numbers\n" ++
  "-------------  -------------  ----------  --------   ------------\n" ++
  "a              Integer        global      1            6 \n" ++
  "ii             Integer        global      1            2 \n" ++
  "b              Integer Array  global      2            4 \n" ++
  "A              Integer        f           0            9 \n" ++
  "ii             Integer        f           0            5 \n" ++
  "a              Integer        f           0            1    3    8 \n"

theorem serve_enumerated_interleaved :
    Bucket.ofName "a" = Bucket.ofName "ii" ∧ empty.Knows interleavedRequests ∧
      ∃ served last, empty.serve interleavedRequests = some (served, last) ∧
        (last.enumerated.map fun sym => (sym.scope, sym.name, sym.lines)) =
          [(0, "a", [6]), (0, "ii", [2]), (0, "b", [4]),
            (1, "A", [9]), (1, "ii", [5]), (1, "a", [1, 3, 8])] ∧
        last.listing = interleavedListing ∧
        Enumerated served last := by
  have hlisted : ((empty.serve interleavedRequests).map fun run =>
      (run.2.enumerated.map fun sym => (sym.scope, sym.name, sym.lines), run.2.listing)) =
      some ([(0, "a", [6]), (0, "ii", [2]), (0, "b", [4]),
          (1, "A", [9]), (1, "ii", [5]), (1, "a", [1, 3, 8])], interleavedListing) := by
    decide +kernel
  have hknows : empty.Knows interleavedRequests := by
    obtain ⟨⟨served, last⟩, hserve, _⟩ := Option.map_eq_some_iff.mp hlisted
    exact knows_iff.mpr ⟨served, last, hserve⟩
  obtain ⟨served, last, hserve, henumerated⟩ := serve_enumerated hknows
  rw [hserve, Option.map_some] at hlisted
  obtain ⟨hsymbols, htext⟩ := Prod.mk.inj (Option.some.inj hlisted)
  exact ⟨by decide, hknows, served, last, hserve, hsymbols, htext, henumerated⟩

end Table

end CMinus
