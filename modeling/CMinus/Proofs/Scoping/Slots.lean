import CMinus.Proofs.Typing.Total

/-!
# Storage slots

A declaration names a scope but takes its slot from the innermost open scope, and
the counter lives in the frame of that scope and not in the scope itself.  Two
variables of one scope would share a slot if a scope were ever open in two frames,
or if a frame came back with an old counter.

`Table.Dense` is what excludes this: the open scopes are distinct, the counter of
a frame is the number of symbols of its scope, and the slots of a scope count up
from zero.  A scope is opened when it is made and never again, so all operations
keep it, whatever the order in which they come; in particular it does not matter
whether the frames that a tree opens are closed again.

## Main results

* `Table.Dense.push`, `Table.Dense.pop`, `Table.Dense.declare`: the operations;
* `Scoping.dense_after`: a walk keeps slots dense;
* `build_slots`: the slots of every scope, for a tree that is built in a fresh
  session.
-/

namespace CMinus

namespace Table

/-- The scope and the slot of every symbol, in the order in which these were made. -/
def places (t : Table) : List (ScopeId × Nat) :=
  t.symbols.toList.map fun s => (s.scope, s.slot)

/-- The slots of the symbols of a scope, in the order in which these were made. -/
def slotsIn (t : Table) (scope : ScopeId) : List Nat :=
  (t.places.filter fun p => p.1 = scope).map (·.2)

/-- The slots of every scope count up from zero, and the frame of an open scope goes
on counting. -/
structure Dense (t : Table) : Prop where
  distinct : t.openScopes.Nodup
  slots : ∀ scope, t.slotsIn scope = List.range (t.slotsIn scope).length
  next : ∀ frame ∈ t.stack, frame.nextSlot = (t.slotsIn frame.scope).length

theorem slotsIn_eq_of_places {t t' : Table} (h : t'.places = t.places) (scope : ScopeId) :
    t'.slotsIn scope = t.slotsIn scope := by
  rw [slotsIn, h, slotsIn]

/-- A scope that does not exist has no symbols. -/
theorem Valid.slotsIn_eq_nil {t : Table} (hv : t.Valid) {scope : ScopeId}
    (hscope : t.scopes.size ≤ scope) : t.slotsIn scope = [] := by
  rw [slotsIn, List.map_eq_nil_iff, List.filter_eq_nil_iff]
  intro p hp
  obtain ⟨sym, hsym, rfl⟩ := List.mem_map.mp hp
  obtain ⟨id, hid⟩ := List.mem_iff_getElem?.mp hsym
  rw [Array.getElem?_toList] at hid
  have hlt := lt_of_lookupLocal (hv.found hid)
  simpa using Nat.ne_of_lt (Nat.lt_of_lt_of_le hlt hscope)

/-- Declaring a free name gives one more slot to its scope. -/
theorem slotsIn_declare {t : Table} {scope : ScopeId} {name : String}
    (hfree : t.lookupLocal scope name = none) (ty : Ty) (line : UInt32) (scope' : ScopeId) :
    (t.declare scope name ty line).2.slotsIn scope' =
      t.slotsIn scope' ++
        if scope = scope' then [(t.stack.head?.map (·.nextSlot)).getD 0] else [] := by
  rw [declare_of_lookupLocal_eq_none hfree]
  simp only [slotsIn, places, Array.toList_push, List.map_append, List.map_cons, List.map_nil,
    List.filter_append, fresh]
  by_cases hscope : scope = scope'
  · simp [hscope]
  · simp [hscope]

namespace Dense

variable {t t' : Table}

/-- Only the stack and the places of symbols count. -/
theorem of_places (h : t.Dense) (hplaces : t'.places = t.places) (hstack : t'.stack = t.stack) :
    t'.Dense := by
  have hslots := slotsIn_eq_of_places hplaces
  exact
    { distinct := by
        unfold openScopes
        rw [hstack]
        exact h.distinct
      slots := by
        intro scope
        rw [hslots]
        exact h.slots scope
      next := by
        intro frame hframe
        rw [hslots]
        rw [hstack] at hframe
        exact h.next frame hframe }

theorem reference (h : t.Dense) (k : SymbolId) (line : UInt32) : (t.reference k line).Dense :=
  h.of_places (map_modify _ t k fun _ _ => rfl) rfl

theorem addParameter (h : t.Dense) (k : SymbolId) (ty : Ty) : (t.addParameter k ty).Dense :=
  h.of_places (map_modify _ t k fun _ _ => rfl) rfl

/-- A new scope has no symbols, and its frame begins at zero. -/
theorem push (h : t.Dense) (hv : t.Valid) (name : String) : (t.push name).Dense := by
  have hslots : ∀ scope, (t.push name).slotsIn scope = t.slotsIn scope := fun _ => rfl
  refine ⟨?_, ?_, ?_⟩
  · rw [openScopes_push, List.nodup_cons]
    refine ⟨?_, h.distinct⟩
    intro hmem
    obtain ⟨frame, hframe, hscope⟩ := List.mem_map.mp hmem
    have hlt := hv.open_lt frame hframe
    rw [hscope] at hlt
    exact Nat.lt_irrefl _ hlt
  · intro scope
    rw [hslots]
    exact h.slots scope
  · intro frame hframe
    rw [hslots]
    rcases List.mem_cons.mp hframe with rfl | hold
    · show 0 = (t.slotsIn t.scopes.size).length
      rw [hv.slotsIn_eq_nil (Nat.le_refl t.scopes.size), List.length_nil]
    · exact h.next frame hold

theorem pop (h : t.Dense) : t.pop.Dense where
  distinct := by
    rw [openScopes_pop]
    exact h.distinct.tail
  slots := h.slots
  next := fun frame hframe => h.next frame (List.mem_of_mem_tail hframe)

/-- A declaration in the innermost open scope takes the next slot of that scope, or
none if its name is taken. -/
theorem declare (h : t.Dense) {here : ScopeId} (htop : t.top? = some here) (name : String)
    (ty : Ty) (line : UInt32) : (t.declare here name ty line).2.Dense := by
  cases hfree : t.lookupLocal here name with
  | some k =>
      rw [declare_of_lookupLocal_eq_some hfree]
      exact h
  | none =>
      obtain ⟨top, htop', rfl⟩ := Option.map_eq_some_iff.mp htop
      obtain ⟨below, hstack⟩ := List.head?_eq_some_iff.mp htop'
      have hnext : top.nextSlot = (t.slotsIn top.scope).length :=
        h.next top (by rw [hstack]; exact List.mem_cons_self)
      have hslots : ∀ scope, (t.declare top.scope name ty line).2.slotsIn scope =
          t.slotsIn scope ++
            if top.scope = scope then [(t.slotsIn top.scope).length] else [] := by
        intro scope
        rw [slotsIn_declare hfree, hstack, ← hnext]
        rfl
      refine ⟨?_, ?_, ?_⟩
      · rw [openScopes_declare]
        exact h.distinct
      · intro scope
        rw [hslots]
        by_cases hscope : top.scope = scope
        · rw [if_pos hscope, hscope, List.length_append, List.length_singleton,
            List.range_succ, ← h.slots]
        · rw [if_neg hscope, List.append_nil]
          exact h.slots scope
      · intro frame hframe
        rw [hslots, List.length_append]
        rw [declare_of_lookupLocal_eq_none hfree, hstack] at hframe
        rcases List.mem_cons.mp hframe with rfl | hbelow
        · show top.nextSlot + 1 = _
          rw [if_pos rfl, hnext, List.length_singleton]
        · -- the scope is open in its top frame only
          have hdistinct := h.distinct
          rw [openScopes, hstack, List.map_cons, List.nodup_cons] at hdistinct
          have hne : top.scope ≠ frame.scope := by
            intro heq
            exact hdistinct.1 (heq ▸ List.mem_map_of_mem hbelow)
          rw [if_neg hne, List.length_nil, Nat.add_zero]
          exact h.next frame (by rw [hstack]; exact List.mem_cons_of_mem _ hbelow)

end Dense

end Table

namespace Scoping

theorem Change.dense {here : ScopeId} {l : Label} {t t' : Table} (hv : t.Valid)
    (htop : t.top? = some here) (hchange : Change here l t t') (h : t.Dense) : t'.Dense := by
  cases hchange with
  | same => exact h
  | used => exact h.reference _ _
  | object => exact h.declare htop _ _ _
  | parameter => exact (h.declare htop _ _ _).addParameter _ _
  | block => exact h.push hv _
  | function => exact (h.declare htop _ _ _).push (hv.declare (lt_of_top? hv htop) _ _ _) _

theorem dense_start : start.table.Dense where
  distinct := by decide
  slots := by
    intro scope
    match scope with
    | 0 => rfl
    | 1 => rfl
    | n + 2 =>
        have hsize : start.table.scopes.size ≤ n + 2 := Nat.le_add_left 2 n
        rw [outside_start.valid.slotsIn_eq_nil hsize]
        rfl
  next := by decide

/-- A walk keeps slots dense. -/
theorem dense_after {s : Scoping} (hv : s.table.Valid) (h : s.table.Dense) (f : Forest) :
    (s.after f).table.Dense :=
  invariant_after Change.dense (fun _ h => h.pop) hv h f

end Scoping

open Scoping in
/-- The slots of every scope of a tree of any shape that is built in a fresh session:
in the order in which its symbols were made they are `0`, `1`, `2` and so on. -/
theorem build_slots (config : Config) (f : Forest) :
    ∃ finished session, (Session.start config).build f = .ok (finished, session) ∧
      ∀ scope < session.table.scopes.size,
        session.table.slotsIn scope = List.range (session.table.slotsIn scope).length := by
  refine ⟨_, _, build_start config f, ?_⟩
  intro scope _
  exact (dense_after outside_start.valid dense_start f).slots scope

end CMinus
