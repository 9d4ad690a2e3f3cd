import Mathlib.Data.List.Find
import CMinus.Table.Basic

/-!
# Look-up in a valid table

A name is found by searching a bucket, and a scope's surroundings by following
parent ids.  `Table.Valid` is what keeps both honest: every filed id is a
symbol of that very scope, every symbol is found under its own name, and a
parent is older than its child.  All operations keep it.

In a valid table the buckets and the bound of `Table.chain` disappear from
view.  A name means the one symbol of that name and scope
(`Valid.lookupLocal_eq_some_iff`), a declaration changes the answer for one
name in one scope (`Valid.lookupLocal_declare`), and look-up and the search for
the enclosing function go to the scope and then to its parent
(`Valid.lookup_of_parent`, `Valid.owners_of_parent`).
-/

namespace CMinus

namespace Scope

@[simp] theorem name_file (s : Scope) (name : String) (id : SymbolId) :
    (s.file name id).name = s.name := rfl

@[simp] theorem parent_file (s : Scope) (name : String) (id : SymbolId) :
    (s.file name id).parent = s.parent := rfl

/-- Filing a symbol puts it in front of one bucket. -/
theorem bucket_file (s : Scope) (name : String) (id : SymbolId) (b : Bucket) :
    (s.file name id).bucket b =
      if Bucket.ofName name = b then id :: s.bucket b else s.bucket b := by
  by_cases h : Bucket.ofName name = b
  · subst h
    simp [bucket, file]
  · have hval : (Bucket.ofName name).val ≠ b.val := fun hv => h (Fin.ext hv)
    simp [bucket, file, h, hval]

@[simp] theorem bucket_new (name : String) (parent : Option ScopeId) (b : Bucket) :
    ({ name, parent } : Scope).bucket b = [] := by
  simp [bucket]

end Scope

namespace Table

/-- The name of a scope and the scope around it. -/
def heading? (t : Table) (id : ScopeId) : Option (String × Option ScopeId) :=
  t.scopes[id]?.map fun s => (s.name, s.parent)

/-- A table whose ids mean what they should. -/
structure Valid (t : Table) : Prop where
  /-- Open scopes exist. -/
  open_lt : ∀ frame ∈ t.stack, frame.scope < t.scopes.size
  /-- A parent is older than its child. -/
  parent_lt : ∀ {id : ScopeId} {s : Scope} {p : ScopeId},
    t.scopes[id]? = some s → s.parent = some p → p < id
  /-- Whatever is filed in a scope is a symbol of that scope. -/
  filed : ∀ {scope : ScopeId} {s : Scope} {b : Bucket} {id : SymbolId},
    t.scopes[scope]? = some s → id ∈ s.bucket b →
    ∃ sym : Symbol, t.symbols[id]? = some sym ∧ sym.scope = scope
  /-- Every symbol is found under its name in its scope. -/
  found : ∀ {id : SymbolId} {sym : Symbol}, t.symbols[id]? = some sym →
    t.lookupLocal sym.scope sym.name = some id
  /-- Every symbol has the line of its declaration. -/
  dated : ∀ {id : SymbolId} {sym : Symbol}, t.symbols[id]? = some sym → sym.lines ≠ []

theorem valid_empty : empty.Valid where
  open_lt := by simp [empty]
  parent_lt := by simp [empty]
  filed := by simp [empty]
  found := by simp [empty]
  dated := by simp [empty]

/-! ## Local look-up under the operations -/

/-- A found symbol bears the name that was looked up. -/
theorem exists_symbol_of_lookupLocal {t : Table} {scope : ScopeId} {name : String}
    {id : SymbolId} (h : t.lookupLocal scope name = some id) :
    ∃ s sym, t.scopes[scope]? = some s ∧ id ∈ s.bucket (.ofName name) ∧
      t.symbols[id]? = some sym ∧ sym.name = name := by
  simp only [lookupLocal, bind, Option.bind_eq_some_iff] at h
  obtain ⟨s, hs, hfind⟩ := h
  have hname := List.find?_some hfind
  simp only [Option.any_eq_true, decide_eq_true_eq] at hname
  obtain ⟨sym, hsym, hname⟩ := hname
  exact ⟨s, sym, hs, List.mem_of_find?_eq_some hfind, hsym, hname⟩

/-- Nothing is found in a scope that does not exist. -/
theorem lt_of_lookupLocal {t : Table} {scope : ScopeId} {name : String} {id : SymbolId}
    (h : t.lookupLocal scope name = some id) : scope < t.scopes.size := by
  obtain ⟨s, _, hs, _⟩ := exists_symbol_of_lookupLocal h
  exact (Array.getElem?_eq_some_iff.mp hs).1

/-- A found symbol exists. -/
theorem symbol_lt_of_lookupLocal {t : Table} {scope : ScopeId} {name : String}
    {id : SymbolId} (h : t.lookupLocal scope name = some id) : id < t.symbols.size := by
  obtain ⟨_, sym, _, _, hsym, _⟩ := exists_symbol_of_lookupLocal h
  exact (Array.getElem?_eq_some_iff.mp hsym).1

/-- A new scope is empty, and the others are as they were. -/
@[simp] theorem lookupLocal_push (t : Table) (scopeName : String) (scope : ScopeId)
    (name : String) :
    (t.push scopeName).lookupLocal scope name = t.lookupLocal scope name := by
  simp only [lookupLocal, push, Array.getElem?_push]
  by_cases h : scope = t.scopes.size
  · subst h
    simp
  · simp [h]

@[simp] theorem lookupLocal_pop (t : Table) (scope : ScopeId) (name : String) :
    t.pop.lookupLocal scope name = t.lookupLocal scope name := rfl

@[simp] theorem lookupLocal_discard (t : Table) (scope : ScopeId) (name : String) :
    t.discard.lookupLocal scope name = t.lookupLocal scope name := rfl

/-- Look-up reads nothing of a symbol but its name. -/
theorem lookupLocal_modify (t : Table) (k : SymbolId) (f : Symbol → Symbol)
    (hf : ∀ s, (f s).name = s.name) (scope : ScopeId) (name : String) :
    { t with symbols := t.symbols.modify k f }.lookupLocal scope name =
      t.lookupLocal scope name := by
  have hany : ∀ id : SymbolId, ((t.symbols.modify k f)[id]?).any (·.name = name) =
      (t.symbols[id]?).any (·.name = name) := by
    intro id
    by_cases h : k = id
    · subst h
      cases hsym : t.symbols[k]? <;> simp [Array.getElem?_modify, hsym, hf]
    · simp [Array.getElem?_modify, h]
  simp only [lookupLocal, hany]

@[simp] theorem lookupLocal_reference (t : Table) (k : SymbolId) (line : UInt32)
    (scope : ScopeId) (name : String) :
    (t.reference k line).lookupLocal scope name = t.lookupLocal scope name :=
  lookupLocal_modify t k (fun s => { s with lines := s.lines ++ [line] })
    (fun _ => rfl) scope name

@[simp] theorem lookupLocal_addParameter (t : Table) (k : SymbolId) (ty : Ty)
    (scope : ScopeId) (name : String) :
    (t.addParameter k ty).lookupLocal scope name = t.lookupLocal scope name :=
  lookupLocal_modify t k (fun s => { s with params := s.params ++ [ty] })
    (fun _ => rfl) scope name

/-- The symbol that declaring a free name makes. -/
def fresh (t : Table) (scope : ScopeId) (name : String) (ty : Ty) (line : UInt32) : Symbol :=
  { name, ty, lines := [line], slot := (t.stack.head?.map (·.nextSlot)).getD 0, scope }

/-- Declaring a free name files one new symbol and takes a slot. -/
theorem declare_of_lookupLocal_eq_none {t : Table} {scope : ScopeId} {name : String}
    (h : t.lookupLocal scope name = none) (ty : Ty) (line : UInt32) :
    t.declare scope name ty line =
      (.added t.nextSymbol,
        { scopes := t.scopes.modify scope (·.file name t.nextSymbol)
          symbols := t.symbols.push (t.fresh scope name ty line)
          stack := t.stack.modifyHead fun f => { f with nextSlot := f.nextSlot + 1 } }) := by
  simp [declare, h, fresh]

namespace Valid

variable {t : Table}

/-- A symbol appended to the registry is not confused with a filed one. -/
private theorem find?_push (hv : t.Valid) {scope : ScopeId} {s : Scope}
    (hs : t.scopes[scope]? = some s) (b : Bucket) (new : Symbol) (p : Symbol → Bool) :
    (s.bucket b).find? (fun id => ((t.symbols.push new)[id]?).any p) =
      (s.bucket b).find? fun id => (t.symbols[id]?).any p := by
  apply List.find?_congr
  intro id hid
  obtain ⟨sym, hsym, _⟩ := hv.filed hs hid
  have hlt := (Array.getElem?_eq_some_iff.mp hsym).1
  rw [Array.getElem?_push, if_neg (Nat.ne_of_lt hlt)]

/-- Declaring a free name changes the meaning of that name in that scope and
nothing else. -/
theorem lookupLocal_declare (hv : t.Valid) {scope : ScopeId} {name : String}
    (hscope : scope < t.scopes.size) (hfree : t.lookupLocal scope name = none)
    (ty : Ty) (line : UInt32) (scope' : ScopeId) (name' : String) :
    (t.declare scope name ty line).2.lookupLocal scope' name' =
      if scope' = scope ∧ name' = name then some t.nextSymbol
      else t.lookupLocal scope' name' := by
  rw [declare_of_lookupLocal_eq_none hfree]
  by_cases hsc : scope' = scope
  · subst hsc
    have hs : t.scopes[scope']? = some t.scopes[scope'] := Array.getElem?_eq_getElem hscope
    simp only [lookupLocal, Array.getElem?_modify, if_true, hs, Option.map_some, bind,
      Option.bind_some, Scope.bucket_file, true_and]
    by_cases hname : name' = name
    · subst hname
      simp [nextSymbol, fresh]
    · have hnew : ((t.symbols.push (t.fresh scope' name ty line))[t.nextSymbol]?).any
          (·.name = name') = false := by
        simp [nextSymbol, fresh, Ne.symm hname]
      rw [if_neg hname]
      split
      · rw [List.find?_cons_of_neg (by simp [hnew])]
        exact find?_push hv hs _ _ _
      · exact find?_push hv hs _ _ _
  · rw [if_neg (fun h => hsc h.1)]
    simp only [lookupLocal, Array.getElem?_modify, if_neg (Ne.symm hsc)]
    cases hs : t.scopes[scope']? with
    | none => rfl
    | some s => exact find?_push hv hs _ _ _

/-- A name means the symbol of that name and scope. -/
theorem lookupLocal_eq_some_iff (hv : t.Valid) {scope : ScopeId} {name : String}
    {id : SymbolId} :
    t.lookupLocal scope name = some id ↔
      ∃ sym, t.symbols[id]? = some sym ∧ sym.name = name ∧ sym.scope = scope := by
  constructor
  · intro h
    obtain ⟨s, sym, hs, hid, hsym, hname⟩ := exists_symbol_of_lookupLocal h
    obtain ⟨sym', hsym', hscope⟩ := hv.filed hs hid
    obtain rfl : sym = sym' := Option.some.inj (hsym.symm.trans hsym')
    exact ⟨sym, hsym, hname, hscope⟩
  · rintro ⟨sym, hsym, rfl, rfl⟩
    exact hv.found hsym

/-- A symbol is found in its own scope only. -/
theorem scope_eq_of_lookupLocal (hv : t.Valid) {scope scope' : ScopeId}
    {name name' : String} {id : SymbolId} (h : t.lookupLocal scope name = some id)
    (h' : t.lookupLocal scope' name' = some id) : scope = scope' := by
  obtain ⟨sym, hsym, _, hscope⟩ := hv.lookupLocal_eq_some_iff.mp h
  obtain ⟨sym', hsym', _, hscope'⟩ := hv.lookupLocal_eq_some_iff.mp h'
  obtain rfl : sym = sym' := Option.some.inj (hsym.symm.trans hsym')
  rw [← hscope, hscope']

/-! ## The operations keep a table valid -/

theorem push (hv : t.Valid) (scopeName : String) : (t.push scopeName).Valid where
  open_lt := by
    intro frame hframe
    simp only [Table.push, List.mem_cons, Array.size_push, nextScope] at hframe ⊢
    rcases hframe with rfl | hframe
    · exact Nat.lt_succ_self _
    · exact Nat.lt_succ_of_lt (hv.open_lt frame hframe)
  parent_lt := by
    intro id s p hs hp
    simp only [Table.push, Array.getElem?_push] at hs
    split at hs
    · next hid =>
        obtain rfl : _ = s := Option.some.inj hs
        simp only [top?, Option.map_eq_some_iff] at hp
        obtain ⟨frame, hframe, rfl⟩ := hp
        rw [hid]
        exact hv.open_lt frame (List.mem_of_mem_head? hframe)
    · exact hv.parent_lt hs hp
  filed := by
    intro scope s b id hs hid
    simp only [Table.push, Array.getElem?_push] at hs
    split at hs
    · obtain rfl : _ = s := Option.some.inj hs
      simp at hid
    · exact hv.filed hs hid
  found := by
    intro id sym hsym
    rw [lookupLocal_push]
    exact hv.found hsym
  dated := hv.dated

theorem pop (hv : t.Valid) : t.pop.Valid where
  open_lt := fun frame hframe => hv.open_lt frame (List.mem_of_mem_tail hframe)
  parent_lt := hv.parent_lt
  filed := hv.filed
  found := hv.found
  dated := hv.dated

theorem discard (hv : t.Valid) : t.discard.Valid where
  open_lt := by simp [Table.discard]
  parent_lt := hv.parent_lt
  filed := hv.filed
  found := hv.found
  dated := hv.dated

/-- Extending a symbol without touching its name or scope. -/
private theorem modify (hv : t.Valid) (k : SymbolId) (f : Symbol → Symbol)
    (hname : ∀ s, (f s).name = s.name) (hscope : ∀ s, (f s).scope = s.scope)
    (hlines : ∀ s, s.lines ≠ [] → (f s).lines ≠ []) :
    ({ t with symbols := t.symbols.modify k f } : Table).Valid := by
  have hget : ∀ {id : SymbolId} {sym' : Symbol}, (t.symbols.modify k f)[id]? = some sym' →
      ∃ sym, t.symbols[id]? = some sym ∧ (sym' = sym ∨ sym' = f sym) := by
    intro id sym' h
    rw [Array.getElem?_modify] at h
    split at h
    · obtain ⟨sym, hsym, rfl⟩ := Option.map_eq_some_iff.mp h
      exact ⟨sym, hsym, .inr rfl⟩
    · exact ⟨sym', h, .inl rfl⟩
  exact
    { open_lt := hv.open_lt
      parent_lt := hv.parent_lt
      filed := by
        intro scope s b id hs hid
        obtain ⟨sym, hsym, hsc⟩ := hv.filed hs hid
        by_cases hk : k = id
        · exact ⟨f sym, by simp [Array.getElem?_modify, hk, hsym], by rw [hscope, hsc]⟩
        · exact ⟨sym, by simp [Array.getElem?_modify, hk, hsym], hsc⟩
      found := by
        intro id sym' h
        rw [lookupLocal_modify t k f hname]
        obtain ⟨sym, hsym, rfl | rfl⟩ := hget h
        · exact hv.found hsym
        · rw [hname, hscope]
          exact hv.found hsym
      dated := by
        intro id sym' h
        obtain ⟨sym, hsym, rfl | rfl⟩ := hget h
        · exact hv.dated hsym
        · exact hlines sym (hv.dated hsym) }

theorem reference (hv : t.Valid) (k : SymbolId) (line : UInt32) :
    (t.reference k line).Valid :=
  hv.modify k (fun s => { s with lines := s.lines ++ [line] })
    (fun _ => rfl) (fun _ => rfl) (fun _ _ => by simp)

theorem addParameter (hv : t.Valid) (k : SymbolId) (ty : Ty) :
    (t.addParameter k ty).Valid :=
  hv.modify k (fun s => { s with params := s.params ++ [ty] })
    (fun _ => rfl) (fun _ => rfl) (fun _ h => h)

theorem declare (hv : t.Valid) {scope : ScopeId} (hscope : scope < t.scopes.size)
    (name : String) (ty : Ty) (line : UInt32) :
    (t.declare scope name ty line).2.Valid := by
  cases hfree : t.lookupLocal scope name with
  | some id =>
      rw [declare_of_lookupLocal_eq_some hfree]
      exact hv
  | none =>
      have hlookup := lookupLocal_declare hv hscope hfree ty line
      rw [declare_of_lookupLocal_eq_none hfree] at hlookup ⊢
      refine ⟨?_, ?_, ?_, ?_, ?_⟩
      · intro frame hframe
        simp only [Array.size_modify] at hframe ⊢
        cases hstack : t.stack with
        | nil => simp [hstack] at hframe
        | cons top below =>
            simp only [hstack, List.modifyHead_cons, List.mem_cons] at hframe
            rcases hframe with rfl | hframe
            · exact hv.open_lt top (by simp [hstack])
            · exact hv.open_lt frame (by simp [hstack, hframe])
      · intro id s p hs hp
        rw [Array.getElem?_modify] at hs
        split at hs
        · obtain ⟨s', hs', rfl⟩ := Option.map_eq_some_iff.mp hs
          exact hv.parent_lt hs' hp
        · exact hv.parent_lt hs hp
      · intro scope' s b id hs hid
        -- an old entry keeps its symbol; the one new entry is the new symbol
        have hold : ∀ {s' : Scope}, t.scopes[scope']? = some s' → id ∈ s'.bucket b →
            ∃ sym, (t.symbols.push (t.fresh scope name ty line))[id]? = some sym ∧
              sym.scope = scope' := by
          intro s' hs' hid'
          obtain ⟨sym, hsym, hsc⟩ := hv.filed hs' hid'
          have hlt := (Array.getElem?_eq_some_iff.mp hsym).1
          exact ⟨sym, by rw [Array.getElem?_push, if_neg (Nat.ne_of_lt hlt), hsym], hsc⟩
        rw [Array.getElem?_modify] at hs
        split at hs
        · next hsc =>
            obtain ⟨s', hs', rfl⟩ := Option.map_eq_some_iff.mp hs
            rw [Scope.bucket_file] at hid
            split at hid
            · rcases List.mem_cons.mp hid with rfl | hid
              · exact ⟨t.fresh scope name ty line, by simp [nextSymbol], hsc⟩
              · exact hold hs' hid
            · exact hold hs' hid
        · exact hold hs hid
      · intro id sym hsym
        rw [hlookup]
        rw [Array.getElem?_push] at hsym
        split at hsym
        · next hid =>
            obtain rfl : _ = sym := Option.some.inj hsym
            rw [if_pos ⟨rfl, rfl⟩, hid]
            rfl
        · have hfound := hv.found hsym
          rw [if_neg]
          · exact hfound
          · rintro ⟨hsc, hname⟩
            rw [hsc, hname, hfree] at hfound
            exact absurd hfound (by simp)
      · intro id sym hsym
        rw [Array.getElem?_push] at hsym
        split at hsym
        · obtain rfl : _ = sym := Option.some.inj hsym
          simp [fresh]
        · exact hv.dated hsym

end Valid

/-! ## The scopes around a scope -/

/-- A scope that exists has a heading. -/
theorem heading?_eq_some_iff {t : Table} {id : ScopeId} {name : String}
    {parent : Option ScopeId} :
    t.heading? id = some (name, parent) ↔
      ∃ s, t.scopes[id]? = some s ∧ s.name = name ∧ s.parent = parent := by
  simp [heading?]

theorem lt_of_heading? {t : Table} {id : ScopeId} {h : String × Option ScopeId}
    (hh : t.heading? id = some h) : id < t.scopes.size := by
  obtain ⟨s, hs, _⟩ := heading?_eq_some_iff.mp hh
  exact (Array.getElem?_eq_some_iff.mp hs).1

@[simp] theorem chainWithin_none (t : Table) (bound : Nat) :
    t.chainWithin bound none = [] := by
  cases bound <;> rfl

theorem chain_of_root {t : Table} {id : ScopeId} {name : String}
    (h : t.heading? id = some (name, none)) : t.chain id = [id] := by
  obtain ⟨s, hs, _, hp⟩ := heading?_eq_some_iff.mp h
  simp only [chain, chainWithin, hs, hp, chainWithin_none]

theorem lookup_of_root {t : Table} {id : ScopeId} {scopeName : String}
    (h : t.heading? id = some (scopeName, none)) (name : String) :
    t.lookup id name = t.lookupLocal id name := by
  simp only [lookup, chain_of_root h, List.findSome?_cons, List.findSome?_nil]
  cases t.lookupLocal id name <;> rfl

theorem owners_of_root {t : Table} {id : ScopeId} {scopeName : String}
    (h : t.heading? id = some (scopeName, none)) : t.owners id = [] := by
  simp [owners, chain_of_root h]

theorem exists_heading? {t : Table} {id : ScopeId} (h : id < t.scopes.size) :
    ∃ name parent, t.heading? id = some (name, parent) :=
  ⟨t.scopes[id].name, t.scopes[id].parent, by simp [heading?, h]⟩

namespace Valid

variable {t : Table}

theorem parent_lt_of_heading? (hv : t.Valid) {id p : ScopeId} {name : String}
    (h : t.heading? id = some (name, some p)) : p < id := by
  obtain ⟨s, hs, _, hp⟩ := heading?_eq_some_iff.mp h
  exact hv.parent_lt hs hp

/-- Any bound above the id of a scope is large enough for its chain. -/
theorem chainWithin_eq (hv : t.Valid) {id bound : Nat} (h : id < bound) :
    t.chainWithin bound (some id) = t.chain id := by
  induction id using Nat.strongRecOn generalizing bound with
  | _ id ih =>
      obtain ⟨b, rfl⟩ : ∃ b, bound = b + 1 := ⟨bound - 1, by omega⟩
      simp only [chain, chainWithin]
      cases hs : t.scopes[id]? with
      | none => rfl
      | some s =>
          simp only
          cases hp : s.parent with
          | none => simp only [chainWithin_none]
          | some p =>
              have hlt := hv.parent_lt hs hp
              have hb : p < b := Nat.lt_of_lt_of_le hlt (Nat.le_of_lt_succ h)
              simp only [ih p hlt hb, ih p hlt hlt]

theorem chain_of_parent (hv : t.Valid) {id p : ScopeId} {name : String}
    (h : t.heading? id = some (name, some p)) : t.chain id = id :: t.chain p := by
  obtain ⟨s, hs, _, hp⟩ := heading?_eq_some_iff.mp h
  rw [← hv.chainWithin_eq (hv.parent_lt hs hp)]
  simp only [chain, chainWithin, hs, hp]

/-- Look-up tries the scope itself and then goes to the scope around it. -/
theorem lookup_of_parent (hv : t.Valid) {id p : ScopeId} {scopeName : String}
    (h : t.heading? id = some (scopeName, some p)) (name : String) :
    t.lookup id name = (t.lookupLocal id name).or (t.lookup p name) := by
  simp only [lookup, hv.chain_of_parent h, List.findSome?_cons]
  cases t.lookupLocal id name <;> rfl

/-- The owners of a scope are what its name means around it, and then the
owners of the scope around it. -/
theorem owners_of_parent (hv : t.Valid) {id p : ScopeId} {scopeName : String}
    (h : t.heading? id = some (scopeName, some p)) :
    t.owners id = (t.lookupLocal p scopeName).toList ++ t.owners p := by
  obtain ⟨s, hs, hname, _⟩ := heading?_eq_some_iff.mp h
  have hp : p < t.scopes.size :=
    Nat.lt_trans (hv.parent_lt_of_heading? h) (lt_of_heading? h)
  have hchain : ∃ below, t.chain p = p :: below := by
    simp only [chain, chainWithin, Array.getElem?_eq_getElem hp]
    exact ⟨_, rfl⟩
  obtain ⟨below, hbelow⟩ := hchain
  simp only [owners, hv.chain_of_parent h, hbelow, List.tail_cons, List.zip_cons_cons,
    List.filterMap_cons, hs, hname, bind, Option.bind_some]
  cases t.lookupLocal p scopeName <;> rfl

end Valid

/-! ## One root -/

/-- Every scope but the first is inside another one. -/
def Rooted (t : Table) : Prop :=
  ∀ id < t.scopes.size, id ≠ 0 → ∃ name p, t.heading? id = some (name, some p)

/-- What the outermost scope knows is found from everywhere. -/
theorem Valid.lookupLocal_zero_eq_none {t : Table} (hv : t.Valid) (hr : t.Rooted)
    {scope : ScopeId} (hscope : scope < t.scopes.size) {name : String}
    (h : t.lookup scope name = none) : t.lookupLocal 0 name = none := by
  induction scope using Nat.strongRecOn with
  | _ scope ih =>
      obtain ⟨scopeName, parent, hh⟩ := exists_heading? hscope
      cases parent with
      | none =>
          have hzero : scope = 0 := by
            apply Classical.byContradiction
            intro hne
            obtain ⟨_, p, hp⟩ := hr scope hscope hne
            rw [hh] at hp
            simp at hp
          rwa [lookup_of_root hh, hzero] at h
      | some p =>
          have hp := hv.parent_lt_of_heading? hh
          rw [hv.lookup_of_parent hh, Option.or_eq_none_iff] at h
          exact ih p hp (Nat.lt_trans hp hscope) h.2

end Table

end CMinus
