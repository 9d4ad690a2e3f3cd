import CMinus.Proofs.Typing.Total

/-!
# Functions at the outermost level only

In a *flat* program every function stands in the outermost chain.  Anything may
stand beside the functions and inside them, blocks and statements at the
outermost level included, so the shape says less than that of a program proper.
It is enough for the walk to be outside again after every node of the chain
(`outside_after`).

What is inside no function is walked in states that `Loose` describes.  Blocks
are given the name of the outermost scope there, and so the scopes that such
nodes are marked with lead, by headings of that one name, to the outermost scope
(`Table.Unowned`, `unowned_of_mem_outsiders`).

Every symbol of the finished table was made by a node that declares its name, in
the scope that was innermost then (`exists_maker`).  In a flat program that is
the outermost scope if the symbol is a function.
-/

namespace CMinus

namespace Forest

/-- There is no function in the forest. -/
def FunctionFree (f : Forest) : Prop := ∀ l ∈ f.preorder, l.kind.isFunction = false

/-- Functions stand in the outermost chain only. -/
def Flat (f : Forest) : Prop := ∀ t ∈ f.trees, ∀ l ∈ t.below, l.kind.isFunction = false

instance (f : Forest) : Decidable f.Flat :=
  inferInstanceAs (Decidable (∀ t ∈ f.trees, ∀ l ∈ t.below, l.kind.isFunction = false))

/-- The nodes that are inside no function. -/
def outsiders : Forest → List Tree
  | nil => []
  | node l a b c rest =>
    ⟨l, a, b, c⟩ ::
      ((if l.kind.isFunction then [] else a.outsiders ++ b.outsiders ++ c.outsiders) ++
        rest.outsiders)

section Parts

variable {l : Label} {a b c rest : Forest}

theorem FunctionFree.parts (h : (node l a b c rest).FunctionFree) :
    l.kind.isFunction = false ∧ a.FunctionFree ∧ b.FunctionFree ∧ c.FunctionFree ∧
      rest.FunctionFree := by
  unfold FunctionFree at h
  simp only [preorder_node, List.mem_cons, List.mem_append] at h
  refine ⟨h l (.inl rfl), ?_, ?_, ?_, ?_⟩
  · exact fun l' hl' => h l' (.inr (.inl (.inl (.inl hl'))))
  · exact fun l' hl' => h l' (.inr (.inl (.inl (.inr hl'))))
  · exact fun l' hl' => h l' (.inr (.inl (.inr hl')))
  · exact fun l' hl' => h l' (.inr (.inr hl'))

theorem Flat.parts (h : (node l a b c rest).Flat) :
    a.FunctionFree ∧ b.FunctionFree ∧ c.FunctionFree ∧ rest.Flat := by
  have hself := h ⟨l, a, b, c⟩ (by simp [trees])
  simp only [Tree.below, List.mem_append] at hself
  refine ⟨?_, ?_, ?_, ?_⟩
  · exact fun l' hl' => hself l' (.inl (.inl hl'))
  · exact fun l' hl' => hself l' (.inl (.inr hl'))
  · exact fun l' hl' => hself l' (.inr hl')
  · exact fun t ht => h t (by simp [trees, ht])

theorem functionFree_single (hl : l.kind.isFunction = false) (ha : a.FunctionFree)
    (hb : b.FunctionFree) (hc : c.FunctionFree) : (node l a b c nil).FunctionFree := by
  intro l' hl'
  simp only [preorder_node, preorder_nil, List.append_nil, List.mem_cons, List.mem_append] at hl'
  rcases hl' with rfl | (hl' | hl') | hl'
  · exact hl
  · exact ha l' hl'
  · exact hb l' hl'
  · exact hc l' hl'

end Parts

theorem mem_nodes_of_mem_outsiders {f : Forest} {n : Tree} (hn : n ∈ f.outsiders) :
    n ∈ f.nodes := by
  induction f with
  | nil => simp [outsiders] at hn
  | node l a b c rest iha ihb ihc ihr =>
      simp only [outsiders, List.mem_cons, List.mem_append] at hn
      simp only [nodes, List.mem_cons, List.mem_append]
      rcases hn with hn | hn | hn
      · exact .inl hn
      · split at hn
        · simp at hn
        · simp only [List.mem_append] at hn
          rcases hn with (hn | hn) | hn
          · exact .inr (.inl (.inl (.inl (iha hn))))
          · exact .inr (.inl (.inl (.inr (ihb hn))))
          · exact .inr (.inl (.inr (ihc hn)))
      · exact .inr (.inr (ihr hn))

end Forest

/-- The scope belongs to no function: it is the outermost one, or a block of that
name inside another such scope. -/
inductive Table.Unowned (t : Table) : ScopeId → Prop
  | root (hheading : t.heading? 0 = some (globalName, none)) : Unowned t 0
  | block {id p : ScopeId} (hheading : t.heading? id = some (globalName, some p))
      (hparent : Unowned t p) : Unowned t id

/-- Headings are kept, so a scope that belongs to no function never does. -/
theorem Table.Unowned.later {t t' : Table} (h : Scoping.Later t t') {id : ScopeId}
    (hid : t.Unowned id) : t'.Unowned id := by
  induction hid with
  | root hheading =>
      exact .root (by rw [h.heading_eq 0 (lt_of_heading? hheading), hheading])
  | block hheading _ ih =>
      exact .block (by rw [h.heading_eq _ (lt_of_heading? hheading), hheading]) ih

namespace Scoping

/-! ## Walking without functions -/

/-- What a walk without functions does to the open scopes.  They are as before,
unless the flag was set: then the first block has closed the scope left to it. -/
structure Spent (s s' : Scoping) : Prop where
  blockName : s'.blockName = s.blockName
  level : (s'.entering = s.entering ∧ s'.table.openScopes = s.table.openScopes) ∨
    (s.entering = true ∧ s'.entering = false ∧
      s'.table.openScopes = s.table.openScopes.tail)

theorem SameLevel.spent {s s' : Scoping} (h : SameLevel s s') : Spent s s' :=
  ⟨h.blockName, .inl ⟨h.entering, h.scopes⟩⟩

theorem Spent.trans {s s' s'' : Scoping} (h : Spent s s') (h' : Spent s' s'') :
    Spent s s'' := by
  refine ⟨h'.blockName.trans h.blockName, ?_⟩
  rcases h.level with ⟨hflag, hscopes⟩ | ⟨hset, hclear, hscopes⟩
  · rcases h'.level with ⟨hflag', hscopes'⟩ | ⟨hset', hclear', hscopes'⟩
    · exact .inl ⟨hflag'.trans hflag, hscopes'.trans hscopes⟩
    · exact .inr ⟨hflag.symm.trans hset', hclear', by rw [hscopes', hscopes]⟩
  · rcases h'.level with ⟨hflag', hscopes'⟩ | ⟨hset', _, _⟩
    · exact .inr ⟨hset, hflag'.trans hclear, hscopes'.trans hscopes⟩
    · -- the flag is only set by functions
      rw [hclear] at hset'
      exact absurd hset' (by simp)

/-- With the flag clear, the walk comes back to its level. -/
theorem Spent.level_of_clear {s s' : Scoping} (h : Spent s s') (hclear : s.entering = false) :
    s'.entering = false ∧ s'.table.openScopes = s.table.openScopes := by
  rcases h.level with ⟨hflag, hscopes⟩ | ⟨hset, _, _⟩
  · exact ⟨hflag.trans hclear, hscopes⟩
  · rw [hclear] at hset
    exact absurd hset (by simp)

theorem spent_node {l : Label} (hl : l.kind.isFunction = false) {s s₄ : Scoping}
    (hroom : Room s) (hbelow : Spent (enter l s).2 s₄) (m : Marks) :
    Spent s (exit { l with marks := m } s₄) := by
  obtain ⟨here, htop⟩ := hroom.exists_top
  rcases l.kind.opens_cases with hk | ⟨name, spec, hk⟩ | hk
  · have henter := enter_block hk htop
    rw [exit_of_compound (l := { l with marks := m }) hk]
    cases hs : s.entering with
    | true =>
        rw [hs, if_pos rfl] at henter
        obtain ⟨hclear, hscopes⟩ := hbelow.level_of_clear (by rw [henter])
        rw [henter] at hscopes
        refine ⟨by rw [hbelow.blockName, henter], .inr ⟨hs, hclear, ?_⟩⟩
        rw [Table.openScopes_pop, hscopes]
    | false =>
        rw [hs, if_neg (by simp)] at henter
        obtain ⟨hclear, hscopes⟩ := hbelow.level_of_clear (by rw [henter]; exact hs)
        rw [henter] at hscopes
        refine ⟨by rw [hbelow.blockName, henter]; rfl, .inl ⟨hclear.trans hs.symm, ?_⟩⟩
        rw [Table.openScopes_pop, hscopes]
        rfl
  · simp [hk, Kind.isFunction] at hl
  · rw [exit_of_not_opens (l := { l with marks := m }) hk]
    exact (sameLevel_enter hk s).spent.trans hbelow

theorem spent_after {f : Forest} (hf : f.FunctionFree) {s : Scoping} (hroom : Room s) :
    Spent s (s.after f) := by
  induction f generalizing s with
  | nil => exact (SameLevel.refl s).spent
  | node l a b c rest iha ihb ihc ihr =>
      obtain ⟨hl, ha, hb, hc, hrest⟩ := hf.parts
      have h₁ := hroom.enter l
      have h₂ := h₁.after a
      have h₃ := h₂.after b
      have hbelow := ((iha ha h₁).trans (ihb hb h₂)).trans (ihc hc h₃)
      rw [after_node]
      exact (spent_node hl hroom hbelow _).trans (ihr hrest (hroom.sibling l a b c))

/-! ## Outside all functions -/

/-- The walk is inside no function. -/
structure Loose (s : Scoping) : Prop where
  valid : s.table.Valid
  blockName : s.blockName = globalName
  entering : s.entering = false
  home : ∃ here, s.table.top? = some here ∧ s.table.Unowned here

theorem Outside.loose {s : Scoping} (hs : Outside s) : Loose s :=
  ⟨hs.valid, hs.blockName, hs.entering, 0, hs.top, .root hs.heading⟩

namespace Loose

variable {s : Scoping} (hs : Loose s)

include hs

theorem room : Room s := by
  obtain ⟨here, htop, _⟩ := hs.home
  have hdepth : 0 < s.table.depth := by
    rw [← Table.head?_openScopes] at htop
    rw [← Table.length_openScopes]
    exact List.length_pos_of_mem (List.mem_of_mem_head? htop)
  unfold Room
  rwa [hs.entering]

/-- A block gets the name of the outermost scope. -/
theorem enter {l : Label} (hl : l.kind.isFunction = false) : Loose (Scoping.enter l s).2 := by
  obtain ⟨here, htop, hhere⟩ := hs.home
  have hentered := entered_enter l s hs.valid
  have hhere' := hhere.later hentered.later
  rcases l.kind.opens_cases with hk | ⟨name, spec, hk⟩ | hk
  · have henter := enter_block hk htop
    rw [hs.entering, if_neg (by simp)] at henter
    rw [henter] at hhere' ⊢
    refine ⟨henter ▸ hentered.valid, hs.blockName, hs.entering, s.table.nextScope, rfl, ?_⟩
    refine .block ?_ hhere'
    rw [← hs.blockName, ← htop]
    exact Table.heading?_push_self s.table s.blockName
  · simp [hk, Kind.isFunction] at hl
  · have hlevel := sameLevel_enter hk s
    exact ⟨hentered.valid, hlevel.blockName.trans hs.blockName,
      hlevel.entering.trans hs.entering, here, hlevel.top.trans htop, hhere'⟩

/-- A walk without functions comes back to its level. -/
theorem after {f : Forest} (hf : f.FunctionFree) : Loose (s.after f) := by
  obtain ⟨here, htop, hhere⟩ := hs.home
  have hspent := spent_after hf hs.room
  obtain ⟨hclear, hscopes⟩ := hspent.level_of_clear hs.entering
  exact ⟨valid_after hs.valid f, hspent.blockName.trans hs.blockName, hclear, here,
    (Table.top?_eq_of_openScopes hscopes).trans htop, hhere.later (later_after hs.valid f)⟩

theorem moment {f : Forest} (hf : f.FunctionFree) {m : Moment Scoping}
    (hm : m ∈ s.moments f) : Loose m.state := by
  induction f generalizing s with
  | nil => simp [moments] at hm
  | node l a b c rest iha ihb ihc ihr =>
      obtain ⟨hl, ha, hb, hc, hrest⟩ := hf.parts
      have h₁ := hs.enter hl
      have h₂ := h₁.after ha
      have h₃ := h₂.after hb
      have h₅ := hs.after (Forest.functionFree_single hl ha hb hc)
      rw [after_node] at h₅
      rw [moments_node] at hm
      simp only [List.mem_cons, List.mem_append] at hm
      rcases hm with rfl | ((hm | hm) | hm) | hm
      · exact hs
      · exact iha h₁ ha hm
      · exact ihb h₂ hb hm
      · exact ihc h₃ hc hm
      · exact ihr h₅ hrest hm

/-- Every node that is walked is marked with a scope that belongs to no
function. -/
theorem unowned_marked {f : Forest} (hf : f.FunctionFree) {l : Label}
    (hl : l ∈ (s.marked f).preorder) :
    ∃ id, l.marks.scope = some id ∧ (s.after f).table.Unowned id := by
  obtain ⟨m, hm, rfl⟩ := exists_moment_of_mem_marked hl
  have hmoment := hs.moment hf hm
  have hkind := hf m.label (label_mem_of_mem_moments hm)
  obtain ⟨id, hid, htop⟩ := exists_scope_enter hmoment.room m.label
  obtain ⟨here, htop', hhere⟩ := (hmoment.enter hkind).home
  obtain rfl : here = id := Option.some.inj (htop'.symm.trans htop)
  exact ⟨here, hid, hhere.later (later_end hs.valid hm)⟩

end Loose

/-! ## A flat chain -/

section Chain

variable {s : Scoping} {l : Label} {a b c : Forest}

/-- Without a function, a walk that begins outside ends outside. -/
theorem outside_of_functionFree (hs : Outside s) {f : Forest} (hf : f.FunctionFree) :
    Outside (s.after f) := by
  have hspent := spent_after hf hs.loose.room
  obtain ⟨hclear, hscopes⟩ := hspent.level_of_clear hs.entering
  exact
    { valid := valid_after hs.valid f
      top := (Table.top?_eq_of_openScopes hscopes).trans hs.top
      heading := ((later_after hs.valid f).heading_eq 0 hs.pos).trans hs.heading
      blockName := hspent.blockName.trans hs.blockName
      entering := hclear }

section Function

variable {name : String} {spec : Spec} (hk : l.kind = .funDecl name spec)

include hk

/-- The scope of a function is closed by the first block in it, or else by the
function. -/
theorem openScopes_after_function (hroom : Room s) (ha : a.FunctionFree)
    (hb : b.FunctionFree) (hc : c.FunctionFree) :
    (s.after (.node l a b c .nil)).table.openScopes = s.table.openScopes := by
  obtain ⟨here, htop⟩ := hroom.exists_top
  obtain ⟨hopen, hset⟩ := enter_function_level hk htop
  have h₁ := hroom.enter l
  have h₂ := h₁.after a
  have h₃ := h₂.after b
  have hbelow := ((spent_after ha h₁).trans (spent_after hb h₂)).trans (spent_after hc h₃)
  rw [after_node, after_nil,
    (exit_function_level (l := { l with marks := (enter l s).1 }) hk _).1]
  rcases hbelow.level with ⟨hflag, hscopes⟩ | ⟨_, hflag, hscopes⟩
  · rw [hflag, hset, if_pos rfl, Table.openScopes_pop, hscopes, hopen, List.tail_cons]
  · rw [hflag, if_neg (by simp), hscopes, hopen, List.tail_cons]

/-- After a function, blocks are named like the scope around it again. -/
theorem blockName_after_function (hs : Outside s) :
    (s.after (.node l a b c .nil)).blockName = globalName := by
  have hm : (⟨l, s⟩ : Moment Scoping) ∈ s.moments (.node l a b c .nil) := by
    rw [moments_node]
    exact List.mem_cons_self
  have hown : (enter l s).2.table.heading? s.table.scopes.size = some (name, some 0) := by
    rw [enter_of_function hk hs]
    exact heading?_declared name spec l.line hs
  have hmark : (enter l s).1.scope = some s.table.scopes.size := by
    rw [enter_of_function hk hs]
    rfl
  have hkept := (later_end hs.valid hm).heading_eq _ (Table.lt_of_heading? hown)
  have hglobal := (later_after hs.valid (.node l a b c .nil)).heading_eq 0 hs.pos
  rw [hown, after_node, after_nil] at hkept
  rw [hs.heading, after_node, after_nil] at hglobal
  rw [after_node, after_nil]
  generalize (((enter l s).2.after a).after b).after c = s₄ at hkept hglobal ⊢
  have hname : (exit { l with marks := (enter l s).1 } s₄).blockName =
      nameAround (exit { l with marks := (enter l s).1 } s₄).table (enter l s).1.scope := by
    simp [exit, leave, hk]
  rw [hname, hmark]
  exact nameAround_eq hkept hglobal

/-- After a function at the outermost level, whatever is inside it, the walk is
outside again. -/
theorem outside_of_function (hs : Outside s) (ha : a.FunctionFree) (hb : b.FunctionFree)
    (hc : c.FunctionFree) : Outside (s.after (.node l a b c .nil)) where
  valid := valid_after hs.valid _
  top := (Table.top?_eq_of_openScopes
    (openScopes_after_function hk hs.loose.room ha hb hc)).trans hs.top
  heading := ((later_after hs.valid _).heading_eq 0 hs.pos).trans hs.heading
  blockName := blockName_after_function hk hs
  entering := by
    rw [after_node, after_nil]
    exact (exit_function_level (l := { l with marks := (enter l s).1 }) hk _).2

end Function

/-- The walk is outside again after every node of a flat chain. -/
theorem outside_head {rest : Forest} (hf : (Forest.node l a b c rest).Flat) (hs : Outside s) :
    Outside (s.after (.node l a b c .nil)) := by
  obtain ⟨ha, hb, hc, _⟩ := hf.parts
  by_cases hl : l.kind.isFunction = true
  · obtain ⟨name, spec, hk⟩ : ∃ name spec, l.kind = .funDecl name spec := by
      cases hl' : l.kind <;> simp_all [Kind.isFunction]
    exact outside_of_function hk hs ha hb hc
  · have hl' : l.kind.isFunction = false := by simpa using hl
    exact outside_of_functionFree hs (Forest.functionFree_single hl' ha hb hc)

end Chain

/-- A chain is walked node by node. -/
theorem after_cons (s : Scoping) (l : Label) (a b c rest : Forest) :
    s.after (.node l a b c rest) = (s.after (.node l a b c .nil)).after rest := by
  rw [after_node, after_node, after_nil]

/-- In a flat program, a function is entered from outside. -/
theorem outside_moment {f : Forest} (hf : f.Flat) {s : Scoping} (hs : Outside s)
    {m : Moment Scoping} (hm : m ∈ s.moments f) (hk : m.label.kind.isFunction = true) :
    Outside m.state := by
  induction f generalizing s with
  | nil => simp [moments] at hm
  | node l a b c rest _ _ _ ih =>
      have houtside := outside_head hf hs
      obtain ⟨ha, hb, hc, hrest⟩ := hf.parts
      have hnot : ∀ {g : Forest} {s' : Scoping}, g.FunctionFree → m ∉ s'.moments g := by
        intro g s' hg hm'
        rw [hg m.label (label_mem_of_mem_moments hm')] at hk
        exact absurd hk (by simp)
      rw [after_node, after_nil] at houtside
      rw [moments_node] at hm
      simp only [List.mem_cons, List.mem_append] at hm
      rcases hm with rfl | ((hm | hm) | hm) | hm
      · exact hs
      · exact absurd hm (hnot ha)
      · exact absurd hm (hnot hb)
      · exact absurd hm (hnot hc)
      · exact ih hrest houtside hm

/-- In a flat program, what is inside no function is marked with a scope that
belongs to none. -/
theorem unowned_of_mem_outsiders {f : Forest} (hf : f.Flat) {s : Scoping} (hs : Outside s)
    {n : Tree} (hn : n ∈ (s.marked f).outsiders) (hk : n.label.kind.isFunction = false) :
    ∃ id, n.label.marks.scope = some id ∧ (s.after f).table.Unowned id := by
  induction f generalizing s with
  | nil => simp [Forest.outsiders] at hn
  | node l a b c rest _ _ _ ih =>
      have houtside := outside_head hf hs
      obtain ⟨ha, hb, hc, hrest⟩ := hf.parts
      have hlater := later_after houtside.valid rest
      rw [after_cons]
      -- a node of the first tree, if that is no function
      have hfirst : l.kind.isFunction = false →
          n.label ∈ (s.marked (.node l a b c .nil)).preorder →
          ∃ id, n.label.marks.scope = some id ∧
            ((s.after (.node l a b c .nil)).after rest).table.Unowned id := by
        intro hl hmem
        obtain ⟨id, hid, hunowned⟩ :=
          hs.loose.unowned_marked (Forest.functionFree_single hl ha hb hc) hmem
        exact ⟨id, hid, hunowned.later hlater⟩
      rw [marked_node] at hn hfirst
      simp only [Forest.outsiders, List.mem_cons, List.mem_append] at hn
      rcases hn with hn | hn | hn
      · have hl : l.kind.isFunction = false := by
          rw [hn] at hk
          exact hk
        exact hfirst hl (by rw [hn]; simp)
      · split at hn
        · simp at hn
        · next hl =>
            refine hfirst (by simpa using hl) ?_
            simp only [List.mem_append] at hn
            simp only [Forest.preorder_node, List.mem_cons, List.mem_append]
            rcases hn with (hn | hn) | hn
            all_goals
              have hmem := List.mem_map_of_mem (f := (·.label))
                (Forest.mem_nodes_of_mem_outsiders hn)
            · exact .inr (.inl (.inl (.inl hmem)))
            · exact .inr (.inl (.inl (.inr hmem)))
            · exact .inr (.inl (.inr hmem))
      · rw [after_node, after_nil] at houtside
        have hend := ih hrest houtside hn
        rwa [after_node, after_nil]

/-! ## The makers of symbols -/

/-- The node declares the name of the symbol, and as a function if the symbol is
one. -/
structure Declares (l : Label) (sym : Symbol) : Prop where
  statement : l.kind.isExpr = false
  name : l.kind.name? = some sym.name
  isFunction : l.kind.isFunction = sym.ty.isFunction

theorem declares_object {l : Label} {o : Object} (ho : l.kind.object? = some o)
    {sym : Symbol} (hname : sym.name = o.name) (hty : sym.ty = o.ty) : Declares l sym := by
  have hkind : l.kind.isExpr = false ∧ l.kind.isFunction = false := by
    cases hk : l.kind <;> simp_all [Kind.object?, Kind.isExpr, Kind.isFunction]
  exact
    { statement := hkind.1
      name := by rw [Kind.name?_of_object? ho, hname]
      isFunction := by rw [hkind.2, hty, Kind.isFunction_ty_of_object? ho] }

/-- The symbol that a declaration makes, if it makes one. -/
theorem fixed?_declare_of_lt {t : Table} {scope : ScopeId} {name : String} {ty : Ty}
    {line : UInt32}
    (hlt : t.symbols.size < (t.declare scope name ty line).2.symbols.size) :
    (t.declare scope name ty line).2.fixed? t.symbols.size =
      some (t.fresh scope name ty line).fixed := by
  cases hfree : t.lookupLocal scope name with
  | some k =>
      rw [Table.declare_of_lookupLocal_eq_some hfree] at hlt
      exact absurd hlt (Nat.lt_irrefl _)
  | none => simp [Table.declare_of_lookupLocal_eq_none hfree, Table.fixed?]

/-- A symbol that a change makes is declared by the node, in the innermost
scope. -/
theorem Change.exists_maker {here : ScopeId} {l : Label} {t t' : Table}
    (h : Change here l t t') (hlt : t.symbols.size < t'.symbols.size) :
    ∃ sym, t'.fixed? t.symbols.size = some sym ∧ sym.scope = here ∧ Declares l sym := by
  cases h with
  | same | block => exact absurd hlt (Nat.lt_irrefl _)
  | used => simp [Table.reference] at hlt
  | object ho => exact ⟨_, fixed?_declare_of_lt hlt, rfl, declares_object ho rfl rfl⟩
  | parameter ho =>
      rw [Table.addParameter, Array.size_modify] at hlt
      have hmade := fixed?_declare_of_lt hlt
      rw [← Table.fixed?_addParameter] at hmade
      exact ⟨_, hmade, rfl, declares_object ho rfl rfl⟩
  | @function name spec hk =>
      refine ⟨_, fixed?_declare_of_lt hlt, rfl, by rw [hk]; rfl, by rw [hk]; rfl, ?_⟩
      rw [hk]
      exact (Ty.isFunction_functionReturning spec).symm

/-- A symbol of the finished table was there from the start, or a node that
declares it was entered in its scope. -/
theorem exists_maker {f : Forest} {k : SymbolId} {sym : Symbol}
    (hsym : (finalTable f).symbols[k]? = some sym) :
    (∃ old ∈ start.table.symbols.toList, old.fixed = sym.fixed) ∨
      ∃ m ∈ start.moments f, m.state.table.top? = some sym.scope ∧ Declares m.label sym := by
  have hv := outside_start.valid
  have hfixed : (start.after f).table.fixed? k = some sym.fixed := by
    rw [Table.fixed?, show (start.after f).table.symbols[k]? = some sym from hsym,
      Option.map_some]
  by_cases hold : k < start.table.symbols.size
  · rw [(later_after hv f).fixed_eq k hold] at hfixed
    obtain ⟨old, hget, heq⟩ := Option.map_eq_some_iff.mp hfixed
    exact .inl ⟨old, Array.mem_toList_iff.mpr (Array.mem_of_getElem? hget), heq⟩
  · have hlt : k < (start.after f).table.symbols.size := (Array.getElem?_eq_some_iff.mp hsym).1
    obtain ⟨m, hm, hcount, hcount'⟩ := Forest.exists_moment_of_lt enter leave
      (fun s : Scoping => s.table.symbols.size) size_symbols_enter_le size_symbols_leave
      (Nat.not_lt.mp hold) hlt
    obtain ⟨here, htop⟩ := (room_moment room_start hm).exists_top
    obtain ⟨made, hmade, hscope, hdeclares⟩ :=
      (change_enter m.label htop).exists_maker (by omega)
    have hkept := (later_end hv hm).fixed_eq m.state.table.symbols.size (by omega)
    rw [hcount] at hmade hkept
    obtain rfl : made = sym.fixed :=
      Option.some.inj (hmade.symm.trans (hkept.symm.trans hfixed))
    exact .inr ⟨m, hm, by rw [htop, ← hscope]; rfl,
      ⟨hdeclares.statement, hdeclares.name, hdeclares.isFunction⟩⟩

/-- In a flat program, functions are declared in the outermost scope. -/
theorem scope_eq_zero_of_function {f : Forest} (hf : f.Flat) {k : SymbolId} {sym : Symbol}
    (hsym : (finalTable f).symbols[k]? = some sym) (hfun : sym.ty.isFunction = true) :
    sym.scope = 0 := by
  rcases exists_maker hsym with ⟨old, hold, heq⟩ | ⟨m, hm, htop, hdeclares⟩
  · have hbuiltins : ∀ old ∈ start.table.symbols.toList,
        old.fixed.ty.isFunction = true → old.fixed.scope = 0 := by decide
    have hzero := hbuiltins old hold
    rw [heq] at hzero
    exact hzero hfun
  · have houtside := outside_moment hf outside_start hm (hdeclares.isFunction.trans hfun)
    rw [houtside.top] at htop
    exact (Option.some.inj htop).symm

/-- A name that no node declares and no built-in function has is nowhere in the
finished table. -/
theorem lookupLocal_eq_none {f : Forest} {name : String}
    (hstart : ∀ old ∈ start.table.symbols.toList, old.fixed.name ≠ name)
    (hf : ∀ l ∈ f.preorder, l.kind.isExpr = false → l.kind.name? ≠ some name)
    (scope : ScopeId) : (finalTable f).lookupLocal scope name = none := by
  cases hid : (finalTable f).lookupLocal scope name with
  | none => rfl
  | some id =>
      obtain ⟨_, sym, _, _, hsym, hname⟩ := Table.exists_symbol_of_lookupLocal hid
      exfalso
      rcases exists_maker hsym with ⟨old, hold, heq⟩ | ⟨m, hm, _, hdeclares⟩
      · refine hstart old hold ?_
        rw [heq]
        exact hname
      · have hdeclared := hdeclares.name
        rw [hname] at hdeclared
        exact hf m.label (label_mem_of_mem_moments hm) hdeclares.statement hdeclared

end Scoping

end CMinus
