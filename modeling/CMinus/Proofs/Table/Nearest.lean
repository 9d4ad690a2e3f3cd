import CMinus.Proofs.Table.Access
import CMinus.Proofs.Table.Requests

/-!
# The nearest declaration

A scope knows the scope around it by id, and both look-up and the search for the
enclosing function follow these ids outwards.  Nothing in the shape of a table
makes that end.  It ends because a scope is made inside one that is open, an open
scope exists, and an id is never given twice: a parent is older than its child, in
whatever order scopes were opened, closed and discarded.

`Table.Outward` is the way outwards as a relation that counts its steps.  Along
it, look-up gives the first meaning that a name has: the one of a scope that knows
the name, and no scope nearer than that one knows it
(`Valid.lookup_eq_some_iff_outward`).
-/

namespace CMinus

namespace Table

/-- So many steps outwards lead from one scope to another. -/
inductive Outward (t : Table) : ScopeId → Nat → ScopeId → Prop
  | here {id : ScopeId} (hid : id < t.scopes.size) : Outward t id 0 id
  | out {id p outer : ScopeId} {s : Scope} {steps : Nat} (hs : t.scopes[id]? = some s)
      (hp : s.parent = some p) (hrest : Outward t p steps outer) :
      Outward t id (steps + 1) outer

/-- The first entry of a list with a value, by its place. -/
theorem findSome?_eq_some_iff_getElem? {α β : Type} {f : α → Option β} {xs : List α} {y : β} :
    xs.findSome? f = some y ↔
      ∃ (i : Nat) (x : α), xs[i]? = some x ∧ f x = some y ∧
        ∀ j < i, ∀ x', xs[j]? = some x' → f x' = none := by
  rw [List.findSome?_eq_some_iff]
  constructor
  · rintro ⟨before, x, after, rfl, hx, hnone⟩
    refine ⟨before.length, x, by simp, hx, fun j hj x' hx' => hnone x' ?_⟩
    rw [List.getElem?_append_left hj] at hx'
    exact List.mem_of_getElem? hx'
  · rintro ⟨i, x, hi, hx, hnone⟩
    obtain ⟨hlt, rfl⟩ := List.getElem?_eq_some_iff.mp hi
    refine ⟨xs.take i, xs[i], xs.drop (i + 1), by simp, hx, fun x' hx' => ?_⟩
    obtain ⟨j, hj, rfl⟩ := List.mem_take_iff_getElem.mp hx'
    have hji : j < i := Nat.lt_of_lt_of_le hj (Nat.min_le_left _ _)
    exact hnone j hji _ (List.getElem?_eq_getElem _)

namespace Valid

variable {t : Table}

/-- The way outwards is the chain of a scope. -/
theorem outward_iff (hv : t.Valid) {scope outer : ScopeId} {steps : Nat} :
    t.Outward scope steps outer ↔ (t.chain scope)[steps]? = some outer := by
  constructor
  · intro h
    induction h with
    | @here id hid =>
        simp only [chain, chainWithin, Array.getElem?_eq_getElem hid, List.getElem?_cons_zero]
    | @out id p _ s _ hs hp _ ih =>
        have hh : t.heading? id = some (s.name, some p) :=
          heading?_eq_some_iff.mpr ⟨s, hs, rfl, hp⟩
        rw [hv.chain_of_parent hh, List.getElem?_cons_succ, ih]
  · intro h
    induction steps generalizing scope with
    | zero =>
        cases hs : t.scopes[scope]? with
        | none => simp [chain, chainWithin, hs] at h
        | some s =>
            simp only [chain, chainWithin, hs, List.getElem?_cons_zero, Option.some.injEq] at h
            rw [← h]
            exact .here (Array.getElem?_eq_some_iff.mp hs).1
    | succ steps ih =>
        cases hs : t.scopes[scope]? with
        | none => simp [chain, chainWithin, hs] at h
        | some s =>
            cases hp : s.parent with
            | none => simp [chain, chainWithin, hs, hp] at h
            | some p =>
                have hh : t.heading? scope = some (s.name, some p) :=
                  heading?_eq_some_iff.mpr ⟨s, hs, rfl, hp⟩
                rw [hv.chain_of_parent hh, List.getElem?_cons_succ] at h
                exact .out hs hp (ih h)

/-- Look-up gives the meaning in the nearest scope that has one. -/
theorem lookup_eq_some_iff_outward (hv : t.Valid) {scope : ScopeId} {name : String}
    {id : SymbolId} :
    t.lookup scope name = some id ↔
      ∃ steps outer, t.Outward scope steps outer ∧ t.lookupLocal outer name = some id ∧
        ∀ nearer < steps, ∀ inner, t.Outward scope nearer inner →
          t.lookupLocal inner name = none := by
  simp only [lookup, findSome?_eq_some_iff_getElem?, hv.outward_iff]

/-- Look-up gives nothing exactly if no scope on the way outwards knows the name. -/
theorem lookup_eq_none_iff_outward (hv : t.Valid) {scope : ScopeId} {name : String} :
    t.lookup scope name = none ↔
      ∀ steps outer, t.Outward scope steps outer → t.lookupLocal outer name = none := by
  simp only [lookup, List.findSome?_eq_none_iff, hv.outward_iff, List.mem_iff_getElem?]
  constructor
  · intro h steps outer hi
    exact h outer ⟨steps, hi⟩
  · rintro h outer ⟨steps, hi⟩
    exact h steps outer hi

end Valid

/-- A table whose scopes can be followed outwards to an end, and in which look-up
finds what a name means on that way. -/
structure Chained (t : Table) : Prop where
  /-- The scope around a scope is older. -/
  parent_lt : ∀ {id p : ScopeId} {s : Scope}, t.scopes[id]? = some s → s.parent = some p → p < id
  /-- Looking a name up step by step takes no more scopes than were made up to this
  one, and gives what look-up gives. -/
  lookup_ends : ∀ scope < t.scopes.size, ∀ name, ∀ bound > scope,
    Guarded.lookup t name bound scope = some (t.lookup scope name)
  /-- So is the search for the enclosing function. -/
  enclosing_ends : ∀ scope < t.scopes.size, ∀ bound > scope,
    Guarded.enclosing t bound scope false = some (t.enclosing scope)
  /-- A name has the meaning that it has in some scope on the way outwards and in no
  scope before that. -/
  found : ∀ scope name id, t.lookup scope name = some id ↔
    ∃ steps outer, t.Outward scope steps outer ∧ t.lookupLocal outer name = some id ∧
      ∀ nearer < steps, ∀ inner, t.Outward scope nearer inner → t.lookupLocal inner name = none
  /-- It has none if it has none on the whole way. -/
  missing : ∀ scope name, t.lookup scope name = none ↔
    ∀ steps outer, t.Outward scope steps outer → t.lookupLocal outer name = none

theorem Valid.chained {t : Table} (hv : t.Valid) : t.Chained where
  parent_lt := hv.parent_lt
  lookup_ends := fun _ hscope name _ hbound => Guarded.lookup_eq hv hscope name hbound
  enclosing_ends := fun _ hscope _ hbound => Guarded.enclosing_eq hv hscope hbound
  found := fun _ _ _ => hv.lookup_eq_some_iff_outward
  missing := fun _ _ => hv.lookup_eq_none_iff_outward

/-- In whatever order scopes are opened, closed and discarded and names declared,
the search outwards ends, and it ends at the nearest declaration. -/
theorem serve_chained {requests : List Request} (h : empty.Knows requests) :
    ∃ served last, empty.serve requests = some (served, last) ∧ last.Chained := by
  obtain ⟨served, last, hserve⟩ := knows_iff.mp h
  exact ⟨served, last, hserve, (valid_of_serve valid_empty hserve).chained⟩

/-- Three scopes inside each other, and a name that the two outer ones declare
when the innermost is closed already.  After everything was discarded there is a
second root. -/
def shadowingRequests : List Request :=
  [.push "global", .push "f", .push "f", .pop, .declare 0 "f" .intFunction 1,
    .declare 1 "x" .int 2, .declare 0 "x" .intArray 3, .reference 1 4, .addParameter 0 .int,
    .discard, .push "main", .declare 3 "x" .void 5]

theorem serve_chained_shadowing :
    empty.Knows shadowingRequests ∧
      ∃ served last, empty.serve shadowingRequests = some (served, last) ∧
        last.lookup 2 "x" = some 1 ∧ last.lookupLocal 0 "x" = some 2 ∧
        last.lookup 3 "f" = none ∧ last.enclosing 2 = .function 0 ∧ last.Chained := by
  have hfound : ((empty.serve shadowingRequests).map fun run =>
      (run.2.lookup 2 "x", run.2.lookupLocal 0 "x", run.2.lookup 3 "f", run.2.enclosing 2)) =
        some (some 1, some 2, none, .function 0) := by decide
  have hknows : empty.Knows shadowingRequests := by
    obtain ⟨⟨served, last⟩, hserve, _⟩ := Option.map_eq_some_iff.mp hfound
    exact knows_iff.mpr ⟨served, last, hserve⟩
  obtain ⟨served, last, hserve, hchained⟩ := serve_chained hknows
  rw [hserve, Option.map_some] at hfound
  simp only [Option.some.injEq, Prod.mk.injEq] at hfound
  obtain ⟨hinner, houter, hroot, howner⟩ := hfound
  exact ⟨hknows, served, last, hserve, hinner, houter, hroot, howner, hchained⟩

end Table

end CMinus
