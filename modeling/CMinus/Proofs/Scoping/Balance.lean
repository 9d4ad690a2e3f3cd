import CMinus.Proofs.Scoping.Lexical
import CMinus.Proofs.Scoping.Moments

/-!
# The balance of the scope stack

Scoping opens and closes scopes at nodes that are far apart, and the only link
between an opening and its closing is one flag: a function sets it, the next
block clears it and takes the function's scope over, and a function that is
left with the flag still set closes its scope itself.  Nothing in that says
that the flag a block finds was set by its own function.

This file does the accounts for trees of every shape.  What a walk does to the
flag and to the depth of the stack depends on the first block or function it
meets, and on how many functions on the way meet another function before a
block.  Such a function is *stranded*: the inner function resets the flag, so
nobody closes the scope of the outer one.  `Scoping.Balance` is that statement,
written additively, and `balance_after` proves it of every walk.

The account also shows that a scope is always there to be closed.  `Room` says
how deep the stack has to be for that, and a walk that starts with room has room
at each of its moments and departures, so the outermost scope is never closed
and every node is marked.

## Main results

* `balance_after`: the flag and the depth after a walk, from any state with room;
* `room_moment`, `room_departure`: a scope is open whenever a node is entered or
  left;
* `build_balance`: all of it for a tree that is built in a fresh session.
-/

namespace CMinus

/-- Blocks and functions, the kinds that open or close scopes. -/
def Kind.opens (k : Kind) : Bool := k = .compound || k.isFunction

/-- A node is a block, a function, or neither. -/
theorem Kind.opens_cases (k : Kind) :
    k = .compound ∨ (∃ name spec, k = .funDecl name spec) ∨ k.opens = false := by
  cases k with
  | compound => exact .inl rfl
  | funDecl name spec => exact .inr (.inl ⟨name, spec, rfl⟩)
  | _ => exact .inr (.inr rfl)

theorem Kind.isFunction_of_not_opens {k : Kind} (hk : k.opens = false) :
    k.isFunction = false := by
  cases k <;> simp_all [opens, isFunction]

theorem Kind.ne_compound_of_not_opens {k : Kind} (hk : k.opens = false) : k ≠ .compound := by
  rintro rfl
  simp [opens] at hk

/-- The first block or function among the labels. -/
def firstOpener? (ls : List Label) : Option Label := ls.find? (·.kind.opens)

/-- A block comes before every function. -/
def blockFirst (ls : List Label) : Bool := (firstOpener? ls).any (·.kind = .compound)

/-- A function comes before every block. -/
def functionFirst (ls : List Label) : Bool := (firstOpener? ls).any (·.kind.isFunction)

namespace Tree

/-- The labels of all that hangs from a node, in preorder. -/
def below (t : Tree) : List Label := t.first.preorder ++ t.second.preorder ++ t.third.preorder

/-- The node is a function below which another function comes before every
block. -/
def stranded (t : Tree) : Bool := t.label.kind.isFunction && functionFirst t.below

end Tree

/-- The number of stranded functions. -/
def Forest.strandedCount (f : Forest) : Nat := f.nodes.countP Tree.stranded

@[simp] theorem Forest.strandedCount_nil : Forest.nil.strandedCount = 0 := rfl

theorem Forest.strandedCount_node (l : Label) (a b c rest : Forest) :
    (Forest.node l a b c rest).strandedCount =
      (Tree.stranded ⟨l, a, b, c⟩).toNat +
        (a.strandedCount + b.strandedCount + c.strandedCount + rest.strandedCount) := by
  simp only [strandedCount, nodes, List.countP_cons, List.countP_append]
  cases Tree.stranded ⟨l, a, b, c⟩ with
  | false => simp
  | true =>
      simp
      omega

/-! ## The first opener -/

theorem firstOpener?_cons {l : Label} (hl : l.kind.opens = false) (ls : List Label) :
    firstOpener? (l :: ls) = firstOpener? ls :=
  List.find?_cons_of_neg (by simp [hl])

theorem firstOpener?_cons_self {l : Label} (hl : l.kind.opens = true) (ls : List Label) :
    firstOpener? (l :: ls) = some l :=
  List.find?_cons_of_pos hl

theorem firstOpener?_append (ls ls' : List Label) :
    firstOpener? (ls ++ ls') = (firstOpener? ls).or (firstOpener? ls') :=
  List.find?_append

/-- The first opener is a block or a function, if there is one. -/
theorem firstOpener?_cases (ls : List Label) :
    (firstOpener? ls = none ∧ blockFirst ls = false ∧ functionFirst ls = false) ∨
      ((firstOpener? ls).isNone = false ∧ blockFirst ls = true ∧ functionFirst ls = false) ∨
        ((firstOpener? ls).isNone = false ∧ blockFirst ls = false ∧
          functionFirst ls = true) := by
  unfold blockFirst functionFirst
  cases hfirst : firstOpener? ls with
  | none => exact .inl ⟨rfl, rfl, rfl⟩
  | some l =>
      have hopens := List.find?_some hfirst
      cases hk : l.kind <;> simp_all [Kind.opens, Kind.isFunction]

/-! ## The open scopes -/

namespace Table

/-- The open scopes, innermost first. -/
def openScopes (t : Table) : List ScopeId := t.stack.map (·.scope)

theorem length_openScopes (t : Table) : t.openScopes.length = t.depth := by
  simp [openScopes, depth]

theorem head?_openScopes (t : Table) : t.openScopes.head? = t.top? := by
  simp [openScopes, top?]

theorem top?_eq_of_openScopes {t t' : Table} (h : t'.openScopes = t.openScopes) :
    t'.top? = t.top? := by
  rw [← head?_openScopes, h, head?_openScopes]

@[simp] theorem openScopes_push (t : Table) (name : String) :
    (t.push name).openScopes = t.nextScope :: t.openScopes := rfl

@[simp] theorem openScopes_pop (t : Table) : t.pop.openScopes = t.openScopes.tail := by
  simp [openScopes, pop]

/-- A declaration takes a slot and leaves the open scopes alone. -/
@[simp] theorem openScopes_declare (t : Table) (scope : ScopeId) (name : String) (ty : Ty)
    (line : UInt32) : (t.declare scope name ty line).2.openScopes = t.openScopes := by
  cases hfree : t.lookupLocal scope name with
  | some k => rw [declare_of_lookupLocal_eq_some hfree]
  | none =>
      rw [declare_of_lookupLocal_eq_none hfree]
      cases hstack : t.stack <;> simp [openScopes, hstack]

/-- Some scope is open as soon as the stack has a depth. -/
theorem exists_top?_of_depth {t : Table} (h : 0 < t.depth) : ∃ here, t.top? = some here := by
  unfold depth at h
  unfold top?
  cases hstack : t.stack with
  | nil => simp [hstack] at h
  | cons frame below => exact ⟨frame.scope, rfl⟩

end Table

namespace Scoping

/-! ## One step -/

/-- The two states differ in what the table knows, but not in the open scopes
nor in the registers. -/
structure SameLevel (s s' : Scoping) : Prop where
  scopes : s'.table.openScopes = s.table.openScopes
  blockName : s'.blockName = s.blockName
  entering : s'.entering = s.entering
  redefined : s'.redefined = s.redefined

theorem SameLevel.refl (s : Scoping) : SameLevel s s := ⟨rfl, rfl, rfl, rfl⟩

theorem SameLevel.trans {s s' s'' : Scoping} (h : SameLevel s s') (h' : SameLevel s' s'') :
    SameLevel s s'' where
  scopes := h'.scopes.trans h.scopes
  blockName := h'.blockName.trans h.blockName
  entering := h'.entering.trans h.entering
  redefined := h'.redefined.trans h.redefined

theorem SameLevel.depth {s s' : Scoping} (h : SameLevel s s') :
    s'.table.depth = s.table.depth := by
  rw [← Table.length_openScopes, h.scopes, Table.length_openScopes]

theorem SameLevel.top {s s' : Scoping} (h : SameLevel s s') :
    s'.table.top? = s.table.top? :=
  Table.top?_eq_of_openScopes h.scopes

/-- What is neither a block nor a function stays on its level. -/
theorem sameLevel_step {k : Kind} (hk : k.opens = false) (s : Scoping) (here : ScopeId)
    (line : UInt32) : SameLevel s (s.step here k line) := by
  have hobject : ∀ name spec ty site,
      SameLevel s (s.declareObject here name spec ty site line).2 := by
    intro name spec ty site
    have heq := declareObject_eq s here ⟨name, spec, ty, site⟩ line
    simp only at heq
    rw [heq]
    exact ⟨Table.openScopes_declare _ _ _ _ _, rfl, rfl, rfl⟩
  have hparam : ∀ name spec ty site,
      SameLevel s (s.declareParameter here name spec ty site line) := by
    intro name spec ty site
    have heq := declareParameter_eq s here ⟨name, spec, ty, site⟩ line
    have hdeclared := hobject name spec ty site
    simp only at heq
    rw [heq]
    split
    · exact ⟨hdeclared.scopes, hdeclared.blockName, hdeclared.entering, hdeclared.redefined⟩
    · exact hdeclared
  have huse : ∀ name, SameLevel s (s.use here name line) := by
    intro name
    rw [use_eq]
    cases s.table.lookup here name <;> exact ⟨rfl, rfl, rfl, rfl⟩
  cases k with
  | compound => simp [Kind.opens] at hk
  | funDecl name spec => simp [Kind.opens, Kind.isFunction] at hk
  | varDecl | arrayDecl => exact hobject _ _ _ _
  | param | arrayParam => exact hparam _ _ _ _
  | var | call => exact huse _
  | _ => exact SameLevel.refl s

theorem sameLevel_enter {l : Label} (hk : l.kind.opens = false) (s : Scoping) :
    SameLevel s (enter l s).2 := by
  cases htop : s.table.top? with
  | none => simpa only [enter, htop] using SameLevel.refl s
  | some here =>
      rw [enter_eq l htop]
      exact sameLevel_step hk s here l.line

theorem exit_of_not_opens {l : Label} (hk : l.kind.opens = false) (s : Scoping) :
    exit l s = s :=
  exit_of_plain (Kind.ne_compound_of_not_opens hk) (Kind.isFunction_of_not_opens hk) s

/-! ## The account of a walk -/

/-- The stack holds the outermost scope and, if the flag is set, a scope above it
that is still to be closed. -/
def Room (s : Scoping) : Prop := s.entering.toNat < s.table.depth

theorem Room.exists_top {s : Scoping} (h : Room s) : ∃ here, s.table.top? = some here :=
  Table.exists_top?_of_depth (Nat.lt_of_le_of_lt (Nat.zero_le _) h)

/-- What a walk over nodes with these labels, `n` of them stranded functions,
does to the flag and to the stack.  If the flag is set, the first block closes
the scope that was left to it. -/
structure Balance (ls : List Label) (n : Nat) (s s' : Scoping) : Prop where
  entering : s'.entering = (s.entering && (firstOpener? ls).isNone)
  depth : s'.table.depth + (s.entering && blockFirst ls).toNat = s.table.depth + n
  bottom : s'.table.openScopes.getLast? = s.table.openScopes.getLast?

namespace Balance

variable {ls ls' : List Label} {n n' : Nat} {s s' s'' : Scoping}

theorem nil (s : Scoping) : Balance [] 0 s s where
  entering := by simp [firstOpener?]
  depth := by simp [blockFirst, firstOpener?]
  bottom := rfl

theorem append (h : Balance ls n s s') (h' : Balance ls' n' s' s'') :
    Balance (ls ++ ls') (n + n') s s'' where
  entering := by
    rw [h'.entering, h.entering, firstOpener?_append, Option.isNone_or, Bool.and_assoc]
  depth := by
    have hfirst : blockFirst (ls ++ ls') =
        (blockFirst ls || ((firstOpener? ls).isNone && blockFirst ls')) := by
      unfold blockFirst
      rw [firstOpener?_append]
      cases firstOpener? ls <;> simp
    have hd := h.depth
    have hd' := h'.depth
    rw [h.entering] at hd'
    rw [hfirst]
    cases hs : s.entering with
    | false =>
        simp only [hs, Bool.false_and, Bool.toNat_false] at hd hd' ⊢
        omega
    | true =>
        -- the block that counts is in the first part, or behind it
        obtain ⟨hf, hb, _⟩ | ⟨hf, hb, _⟩ | ⟨hf, hb, _⟩ := firstOpener?_cases ls
        all_goals
          simp only [hs, hf, hb, Option.isNone_none, Bool.true_and, Bool.false_and,
            Bool.true_or, Bool.false_or, Bool.toNat_false, Bool.toNat_true] at hd hd' ⊢
          omega
  bottom := h'.bottom.trans h.bottom

/-- A walk that has room comes out with room. -/
theorem room (h : Balance ls n s s') (hroom : Room s) : Room s' := by
  have hdepth := h.depth
  unfold Room at hroom ⊢
  rw [h.entering]
  cases hs : s.entering with
  | false =>
      simp only [hs, Bool.false_and, Bool.toNat_false] at hroom hdepth ⊢
      omega
  | true =>
      obtain ⟨hf, hb, _⟩ | ⟨hf, hb, _⟩ | ⟨hf, hb, _⟩ := firstOpener?_cases ls
      all_goals
        simp only [hs, hf, hb, Option.isNone_none, Bool.true_and, Bool.and_false,
          Bool.toNat_false, Bool.toNat_true] at hroom hdepth ⊢
        omega

end Balance

/-! ## The account of one node -/

/-- Closing a scope above the outermost one leaves the outermost one open. -/
theorem getLast?_tail_openScopes {t : Table} (h : 1 < t.depth) :
    t.openScopes.tail.getLast? = t.openScopes.getLast? := by
  rw [← Table.length_openScopes] at h
  match t.openScopes, h with
  | _ :: id :: ids, _ => simp

theorem getLast?_cons_openScopes {t : Table} (h : 0 < t.depth) (id : ScopeId) :
    (id :: t.openScopes).getLast? = t.openScopes.getLast? := by
  rw [← Table.length_openScopes] at h
  match t.openScopes, h with
  | id :: ids, _ => simp

/-- A block takes over the scope that the flag was left for, or opens one. -/
theorem enter_block {l : Label} (hk : l.kind = .compound) {s : Scoping} {here : ScopeId}
    (htop : s.table.top? = some here) :
    (enter l s).2 = if s.entering then { s with entering := false } else s.opened := by
  rw [enter_eq l htop, hk]
  rfl

/-- A function opens a scope and sets the flag. -/
theorem enter_function_level {l : Label} {name : String} {spec : Spec}
    (hk : l.kind = .funDecl name spec) {s : Scoping} {here : ScopeId}
    (htop : s.table.top? = some here) :
    (enter l s).2.table.openScopes = s.table.nextScope :: s.table.openScopes ∧
      (enter l s).2.entering = true := by
  have hscopes := Table.openScopes_declare s.table here name (.functionReturning spec) l.line
  have hsize := Table.size_scopes_declare s.table here name (.functionReturning spec) l.line
  rw [enter_eq l htop, hk]
  show (s.declareFunction here name spec l.line).table.openScopes = _ ∧
    (s.declareFunction here name spec l.line).entering = true
  unfold declareFunction
  split
  all_goals
    next hresult =>
      rw [hresult] at hscopes hsize
      refine ⟨?_, rfl⟩
      rw [Table.openScopes_push, hscopes, Table.nextScope, hsize, Table.nextScope]

/-- Leaving a function clears the flag, and closes a scope if it was set. -/
theorem exit_function_level {l : Label} {name : String} {spec : Spec}
    (hk : l.kind = .funDecl name spec) (s : Scoping) :
    (exit l s).table = (if s.entering then s.table.pop else s.table) ∧
      (exit l s).entering = false := by
  simp [exit, leave, hk]

/-- Entering a node of any kind leaves room. -/
theorem Room.enter {s : Scoping} (hroom : Room s) (l : Label) :
    Room (Scoping.enter l s).2 := by
  obtain ⟨here, htop⟩ := hroom.exists_top
  unfold Room at hroom ⊢
  rcases l.kind.opens_cases with hk | ⟨name, spec, hk⟩ | hk
  · rw [enter_block hk htop]
    split
    · exact Nat.lt_of_le_of_lt (Nat.zero_le _) hroom
    · exact Nat.lt_succ_of_lt hroom
  · obtain ⟨hscopes, hset⟩ := enter_function_level hk htop
    rw [hset, ← Table.length_openScopes, hscopes, List.length_cons, Table.length_openScopes]
    exact Nat.succ_lt_succ (Nat.lt_of_le_of_lt (Nat.zero_le _) hroom)
  · have hlevel := sameLevel_enter hk s
    rw [hlevel.entering, hlevel.depth]
    exact hroom

section Node

variable {l : Label} {ls : List Label} {n : Nat} {s s₄ : Scoping} (hroom : Room s)
  (h : Balance ls n (enter l s).2 s₄) (m : Marks)

/-- A node that is neither a block nor a function adds nothing to the account of
what is below it. -/
theorem balance_plain (hk : l.kind.opens = false) (h : Balance ls n (enter l s).2 s₄) :
    Balance (l :: ls) n s (exit { l with marks := m } s₄) := by
  have hlevel := sameLevel_enter hk s
  have hcons := firstOpener?_cons hk ls
  have hblock : blockFirst (l :: ls) = blockFirst ls := by rw [blockFirst, hcons, blockFirst]
  rw [exit_of_not_opens (l := { l with marks := m }) hk]
  exact
    { entering := by rw [hcons, h.entering, hlevel.entering]
      depth := by rw [hblock, ← hlevel.entering, h.depth, hlevel.depth]
      bottom := by rw [h.bottom, hlevel.scopes] }

include hroom h

/-- A block closes the scope that it opened or took over. -/
theorem balance_block (hk : l.kind = .compound) :
    Balance (l :: ls) n s (exit { l with marks := m } s₄) := by
  obtain ⟨here, htop⟩ := hroom.exists_top
  have hfirst := firstOpener?_cons_self (l := l) (by simp [Kind.opens, hk]) ls
  have hblock : blockFirst (l :: ls) = true := by simp [blockFirst, hfirst, hk]
  have henter := enter_block hk htop
  rw [exit_of_compound (l := { l with marks := m }) hk]
  have hentering := h.entering
  have hdepth := h.depth
  have hbottom := h.bottom
  unfold Room at hroom
  cases hs : s.entering with
  | true =>
      simp only [hs, if_true] at henter
      simp only [henter, Bool.false_and, Bool.toNat_false] at hentering hdepth hbottom
      simp only [hs, Bool.toNat_true] at hroom
      have hdeep : 1 < s₄.table.depth := by omega
      refine ⟨by simp [hfirst, hentering], ?_, ?_⟩
      · simp only [hs, hblock, Table.depth_pop, Bool.and_self, Bool.toNat_true]
        omega
      · rw [Table.openScopes_pop, getLast?_tail_openScopes hdeep, hbottom]
  | false =>
      simp only [hs, Bool.false_eq_true, if_false] at henter
      have hopened : s.opened.entering = false := hs
      have hpushed : s.opened.table.depth = s.table.depth + 1 := rfl
      simp only [henter, hopened, Bool.false_and, Bool.toNat_false] at hentering hdepth hbottom
      simp only [hs, Bool.toNat_false] at hroom
      have hdeep : 1 < s₄.table.depth := by omega
      refine ⟨by simp [hfirst, hentering], ?_, ?_⟩
      · simp only [hs, Table.depth_pop, Bool.false_and, Bool.toNat_false]
        omega
      · rw [Table.openScopes_pop, getLast?_tail_openScopes hdeep, hbottom]
        exact getLast?_cons_openScopes hroom _

/-- A function closes its scope unless a block has done so.  It is stranded if
another function has cleared the flag. -/
theorem balance_function {name : String} {spec : Spec} (hk : l.kind = .funDecl name spec) :
    Balance (l :: ls) (n + (functionFirst ls).toNat) s (exit { l with marks := m } s₄) := by
  obtain ⟨here, htop⟩ := hroom.exists_top
  have hfirst := firstOpener?_cons_self (l := l) (by simp [Kind.opens, Kind.isFunction, hk]) ls
  have hblock : blockFirst (l :: ls) = false := by simp [blockFirst, hfirst, hk]
  obtain ⟨hscopes, hset⟩ := enter_function_level hk htop
  obtain ⟨htable, hclear⟩ := exit_function_level (l := { l with marks := m }) hk s₄
  have hpushed : (enter l s).2.table.depth = s.table.depth + 1 := by
    rw [← Table.length_openScopes, hscopes, List.length_cons, Table.length_openScopes]
  have hpos : 0 < s.table.depth := Nat.lt_of_le_of_lt (Nat.zero_le _) hroom
  have hentering := h.entering
  have hdepth := h.depth
  have hbottom := h.bottom
  rw [hscopes, getLast?_cons_openScopes hpos] at hbottom
  refine ⟨by rw [hclear, hfirst, Option.isNone_some, Bool.and_false], ?_, ?_⟩
  · rw [htable, hblock]
    obtain ⟨hf, hb, hfun⟩ | ⟨hf, hb, hfun⟩ | ⟨hf, hb, hfun⟩ := firstOpener?_cases ls
    all_goals
      simp only [hset, hf, hb, hfun, Option.isNone_none, Bool.and_false, Bool.true_and,
        Bool.toNat_false, Bool.toNat_true] at hentering hdepth ⊢
      simp only [hentering, if_true, Bool.false_eq_true, if_false, Table.depth_pop]
      omega
  · rw [htable]
    cases hs₄ : s₄.entering with
    | false => exact hbottom
    | true =>
        -- the flag is still set, so the scope to be closed is the function's own
        have hnone : (firstOpener? ls).isNone = true := by
          simpa [hset, hs₄] using hentering.symm
        have hb : blockFirst ls = false := by
          rw [blockFirst, Option.isNone_iff_eq_none.mp hnone]
          rfl
        simp only [hset, hb, Bool.and_false, Bool.toNat_false] at hdepth
        have hdeep : 1 < s₄.table.depth := by omega
        rw [if_pos rfl, Table.openScopes_pop, getLast?_tail_openScopes hdeep, hbottom]

end Node

/-! ## The account of a tree -/

/-- The account of a walk, from any state with room. -/
theorem balance_after (f : Forest) {s : Scoping} (hroom : Room s) :
    Balance f.preorder f.strandedCount s (s.after f) := by
  induction f generalizing s with
  | nil => exact Balance.nil s
  | node l a b c rest iha ihb ihc ihr =>
      have h₁ := hroom.enter l
      have ha := iha h₁
      have hb := ihb (ha.room h₁)
      have hbelow := (ha.append hb).append (ihc ((ha.append hb).room h₁))
      have hself : Balance (l :: (a.preorder ++ b.preorder ++ c.preorder))
          ((Tree.stranded ⟨l, a, b, c⟩).toNat +
            (a.strandedCount + b.strandedCount + c.strandedCount)) s
          (exit { l with marks := (enter l s).1 }
            ((((enter l s).2.after a).after b).after c)) := by
        rcases l.kind.opens_cases with hk | ⟨name, spec, hk⟩ | hk
        · have hnot : Tree.stranded ⟨l, a, b, c⟩ = false := by
            simp [Tree.stranded, hk, Kind.isFunction]
          rw [hnot, Bool.toNat_false, Nat.zero_add]
          exact balance_block hroom hbelow _ hk
        · have hthis : Tree.stranded ⟨l, a, b, c⟩ =
              functionFirst (a.preorder ++ b.preorder ++ c.preorder) := by
            simp [Tree.stranded, Tree.below, hk, Kind.isFunction]
          rw [hthis, Nat.add_comm]
          exact balance_function hroom hbelow _ hk
        · have hnot : Tree.stranded ⟨l, a, b, c⟩ = false := by
            simp [Tree.stranded, Kind.isFunction_of_not_opens hk]
          rw [hnot, Bool.toNat_false, Nat.zero_add]
          exact balance_plain _ hk hbelow
      have hall := hself.append (ihr (hself.room hroom))
      rw [after_node, Forest.preorder_node, Forest.strandedCount_node, ← Nat.add_assoc]
      exact hall

/-! ## The moments and departures of a walk -/

/-- The departures of the first pass. -/
def departures (s : Scoping) (f : Forest) : List (Departure Scoping) :=
  f.departures enter leave s

theorem departures_node (s : Scoping) (l : Label) (a b c rest : Forest) :
    s.departures (.node l a b c rest) =
      let s₁ := (enter l s).2
      let s₄ := ((s₁.after a).after b).after c
      s₁.departures a ++ (s₁.after a).departures b ++ ((s₁.after a).after b).departures c ++
        ⟨⟨{ l with marks := (enter l s).1 }, s₁.marked a, (s₁.after a).marked b,
            ((s₁.after a).after b).marked c⟩, s₄⟩ ::
          (exit { l with marks := (enter l s).1 } s₄).departures rest := by
  simp only [departures, Forest.departures, after, marked, visitor, leave_eq]

/-- The nodes that a walk leaves behind are those of its moments, marked on entering. -/
theorem preorder_marked (s : Scoping) (f : Forest) :
    (s.marked f).preorder =
      (s.moments f).map fun m => { m.label with marks := (enter m.label m.state).1 } :=
  Forest.preorder_walk enter leave (fun t s => by rw [leave_eq]) f s

/-- A label that a walk leaves behind got its marks when it was entered. -/
theorem exists_moment_of_mem_marked {s : Scoping} {f : Forest} {l : Label}
    (hl : l ∈ (s.marked f).preorder) :
    ∃ m ∈ s.moments f, { m.label with marks := (enter m.label m.state).1 } = l := by
  rw [preorder_marked] at hl
  exact List.mem_map.mp hl

section Walk

variable {s : Scoping} (hroom : Room s)

include hroom

theorem Room.after (f : Forest) : Room (s.after f) := (balance_after f hroom).room hroom

/-- After a node and all that hangs from it there is room for its siblings. -/
theorem Room.sibling (l : Label) (a b c : Forest) :
    Room (exit { l with marks := (Scoping.enter l s).1 }
      ((((Scoping.enter l s).2.after a).after b).after c)) := by
  have h := hroom.after (.node l a b c .nil)
  rwa [after_node] at h

/-- There is room whenever a node is entered. -/
theorem room_moment {f : Forest} {m : Moment Scoping} (hm : m ∈ s.moments f) :
    Room m.state := by
  induction f generalizing s with
  | nil => simp [moments] at hm
  | node l a b c rest iha ihb ihc ihr =>
      have h₁ := hroom.enter l
      have h₂ := h₁.after a
      have h₃ := h₂.after b
      rw [moments_node] at hm
      simp only [List.mem_cons, List.mem_append] at hm
      rcases hm with rfl | ((hm | hm) | hm) | hm
      · exact hroom
      · exact iha h₁ hm
      · exact ihb h₂ hm
      · exact ihc h₃ hm
      · exact ihr (hroom.sibling l a b c) hm

/-- There is room whenever a node is left. -/
theorem room_departure {f : Forest} {d : Departure Scoping} (hd : d ∈ s.departures f) :
    Room d.state := by
  induction f generalizing s with
  | nil => simp [departures] at hd
  | node l a b c rest iha ihb ihc ihr =>
      have h₁ := hroom.enter l
      have h₂ := h₁.after a
      have h₃ := h₂.after b
      rw [departures_node] at hd
      simp only [List.mem_cons, List.mem_append] at hd
      rcases hd with ((hd | hd) | hd) | rfl | hd
      · exact iha h₁ hd
      · exact ihb h₂ hd
      · exact ihc h₃ hd
      · exact h₃.after c
      · exact ihr (hroom.sibling l a b c) hd

/-- A node is marked with the scope that is innermost once it is entered. -/
theorem exists_scope_enter (l : Label) :
    ∃ id, (enter l s).1.scope = some id ∧ (enter l s).2.table.top? = some id := by
  obtain ⟨here, htop⟩ := hroom.exists_top
  obtain ⟨id, hid⟩ := (hroom.enter l).exists_top
  rw [enter_eq l htop] at hid ⊢
  exact ⟨id, hid, hid⟩

theorem exists_scope_marked {f : Forest} {l : Label} (hl : l ∈ (s.marked f).preorder) :
    ∃ id, l.marks.scope = some id := by
  obtain ⟨m, hm, rfl⟩ := exists_moment_of_mem_marked hl
  obtain ⟨id, hid, _⟩ := exists_scope_enter (room_moment hroom hm) m.label
  exact ⟨id, hid⟩

end Walk

/-! ## A function without a block -/

/-- Where there is no block and no function, a walk stays on its level. -/
theorem sameLevel_after {f : Forest} (hf : ∀ l ∈ f.preorder, l.kind.opens = false)
    (s : Scoping) : SameLevel s (s.after f) := by
  induction f generalizing s with
  | nil => exact SameLevel.refl s
  | node l a b c rest iha ihb ihc ihr =>
      simp only [Forest.preorder_node, List.mem_cons, List.mem_append] at hf
      have hl := hf l (.inl rfl)
      have h₁ := sameLevel_enter hl s
      have h₂ := h₁.trans (iha (fun l' h => hf l' (.inr (.inl (.inl (.inl h))))) _)
      have h₃ := h₂.trans (ihb (fun l' h => hf l' (.inr (.inl (.inl (.inr h))))) _)
      have h₄ := h₃.trans (ihc (fun l' h => hf l' (.inr (.inl (.inr h)))) _)
      rw [after_node, exit_of_not_opens (l := { l with marks := (enter l s).1 }) hl]
      exact h₄.trans (ihr (fun l' h => hf l' (.inr (.inr h))) _)

/-- The kinds of a walked tree are those of the tree. -/
theorem kinds_marked (s : Scoping) (f : Forest) :
    (s.marked f).preorder.map (·.kind) = f.preorder.map (·.kind) := by
  rw [← Forest.kinds_bare, bare_marked, Forest.kinds_bare]

theorem opens_of_marked {s : Scoping} {f : Forest}
    (h : ∀ l ∈ (s.marked f).preorder, l.kind.opens = false) :
    ∀ l ∈ f.preorder, l.kind.opens = false := by
  have hkinds : ∀ k ∈ f.preorder.map (·.kind), k.opens = false := by
    rw [← kinds_marked s f]
    exact List.forall_mem_map.mpr h
  exact List.forall_mem_map.mp hkinds

/-- A function below which there is neither a block nor a function finds its own
scope innermost when it is left, and closes it. -/
theorem closes_own_scope {f : Forest} {s : Scoping} (hroom : Room s)
    {d : Departure Scoping} (hd : d ∈ s.departures f)
    (hk : d.tree.label.kind.isFunction = true)
    (hbelow : ∀ l ∈ d.tree.below, l.kind.opens = false) :
    ∃ id, d.tree.label.marks.scope = some id ∧
      d.state.table.openScopes = id :: (leave d.tree d.state).2.table.openScopes := by
  induction f generalizing s with
  | nil => simp [departures] at hd
  | node l a b c rest iha ihb ihc ihr =>
      have h₁ := hroom.enter l
      have h₂ := h₁.after a
      have h₃ := h₂.after b
      rw [departures_node] at hd
      simp only [List.mem_cons, List.mem_append] at hd
      rcases hd with ((hd | hd) | hd) | rfl | hd
      · exact iha h₁ hd
      · exact ihb h₂ hd
      · exact ihc h₃ hd
      · obtain ⟨here, htop⟩ := hroom.exists_top
        obtain ⟨name, spec, hl⟩ : ∃ name spec, l.kind = .funDecl name spec := by
          cases hl : l.kind <;> simp_all [Kind.isFunction]
        obtain ⟨id, hid, htop₁⟩ := exists_scope_enter hroom l
        obtain ⟨_, hset⟩ := enter_function_level hl htop
        simp only [Tree.below, List.mem_append] at hbelow
        have ha := sameLevel_after (opens_of_marked fun l' h => hbelow l' (.inl (.inl h)))
          (enter l s).2
        have hb := ha.trans (sameLevel_after
          (opens_of_marked fun l' h => hbelow l' (.inl (.inr h))) _)
        have hc := hb.trans (sameLevel_after (opens_of_marked fun l' h => hbelow l' (.inr h)) _)
        have hflag := hc.entering.trans hset
        have hhead : (((((enter l s).2.after a).after b).after c).table.openScopes).head? =
            some id := by rw [hc.scopes, Table.head?_openScopes, htop₁]
        refine ⟨id, hid, ?_⟩
        rw [leave_eq]
        show _ = id :: (exit { l with marks := (enter l s).1 } _).table.openScopes
        rw [(exit_function_level (l := { l with marks := (enter l s).1 }) hl _).1, hflag,
          if_pos rfl, Table.openScopes_pop]
        obtain ⟨ids, hids⟩ := List.head?_eq_some_iff.mp hhead
        rw [hids, List.tail_cons]
      · exact ihr (hroom.sibling l a b c) hd

/-! ## Building a tree -/

theorem room_start : Room start := by
  unfold Room
  decide

/-- Only the outermost scope is open exactly if the depth is one. -/
theorem openScopes_eq_iff {t : Table} {id : ScopeId} (h : t.openScopes.getLast? = some id) :
    t.openScopes = [id] ↔ t.depth = 1 := by
  rw [← Table.length_openScopes]
  constructor
  · intro heq
    rw [heq]
    rfl
  · intro hlength
    obtain ⟨only, honly⟩ := List.length_eq_one_iff.mp hlength
    rw [honly] at h ⊢
    have hid : only = id := Option.some.inj h
    rw [hid]

/-- The account of the scope stack while a tree is built in a fresh session. -/
structure StackAccount (f : Forest) : Prop where
  /-- The walk enters every node, in preorder. -/
  entered : (start.moments f).map (·.label) = f.preorder
  /-- The walk leaves every node, in postorder. -/
  left : (start.departures f).map (·.tree.label.bare) = f.postorder.map (·.label.bare)
  /-- Some scope is open whenever a node is entered. -/
  open_on_enter : ∀ m ∈ start.moments f, ∃ here, m.state.table.top? = some here
  /-- Some scope is open whenever a node is left. -/
  open_on_leave : ∀ d ∈ start.departures f, ∃ here, d.state.table.top? = some here
  /-- Every node is marked with a scope. -/
  marked : ∀ l ∈ (start.marked f).preorder, ∃ id, l.marks.scope = some id
  /-- What is left open at the end: the outermost scope, and one scope for every
  function below which another function comes before every block. -/
  depth : (start.after f).table.depth = 1 + f.nodes.countP Tree.stranded
  /-- Every scope but the outermost is closed again exactly if there is no such
  function. -/
  balanced : (start.after f).table.openScopes = [0] ↔ ∀ t ∈ f.nodes, t.stranded = false
  /-- A function below which there is neither a block nor a function leaves with
  its own scope innermost, and closes it. -/
  bodiless : ∀ d ∈ start.departures f, d.tree.label.kind.isFunction = true →
    (∀ l ∈ d.tree.below, l.kind.opens = false) →
    ∃ id, d.tree.label.marks.scope = some id ∧
      d.state.table.openScopes = id :: (leave d.tree d.state).2.table.openScopes

end Scoping

open Scoping in
/-- Building a tree of any shape in a fresh session: the walk starts with the
built-in functions in place, its stack is accounted for, and what is still open
at the end is discarded. -/
theorem build_balance (config : Config) (f : Forest) :
    (Session.start config).build f =
        .ok (start.marked f,
          { config, table := (start.after f).table.discard, log := (start.after f).log
            phase := .symbolsBuilt }) ∧
      StackAccount f := by
  have haccount := balance_after f room_start
  have hdepth : (start.after f).table.depth = 1 + f.nodes.countP Tree.stranded := by
    have hstart : start.table.depth = 1 := by decide
    have h := haccount.depth
    rw [hstart] at h
    exact h
  have hbottom : (start.after f).table.openScopes.getLast? = some 0 :=
    haccount.bottom.trans (by decide)
  refine ⟨build_start config f, Forest.labels_moments enter leave f start,
    Forest.labels_departures enter leave f start, ?_, ?_, ?_, hdepth, ?_, ?_⟩
  · exact fun m hm => (room_moment room_start hm).exists_top
  · exact fun d hd => (room_departure room_start hd).exists_top
  · exact fun l hl => exists_scope_marked room_start hl
  · rw [openScopes_eq_iff hbottom, hdepth]
    have hnone : f.nodes.countP Tree.stranded = 0 ↔ ∀ t ∈ f.nodes, t.stranded = false := by
      simp [List.countP_eq_zero]
    rw [← hnone]
    omega
  · exact fun d hd => closes_own_scope room_start hd

/-- A function inside another one, before its block: the outer scope stays open. -/
example :
    (Scoping.start.after (.ofTrees [
      { label := { kind := .funDecl "outer" .void, line := 1 }
        first := .ofTrees [.funDecl "inner" .void [] (.compound [] [] 2) 2]
        second := .ofTrees [.compound [] [] 3] }])).table.openScopes = [2, 0] := by
  decide +kernel

end CMinus
