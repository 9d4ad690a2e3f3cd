import CMinus.Exchange.Outline
import CMinus.Proofs.Tree.Order

/-!
# Outlines and their trees

An outline may give a node any number of slots, and a tree has room for three.
This file says which tree an outline has and which outlines have none.

`Outline.Depicts` is the relation between an outline and its tree, slot by slot:
a slot that the outline does not mention is an empty one.  `Outline.slotCounts`
lists the nodes with the numbers of their slots in the order of a walk.  Making the
tree goes through the nodes in that order and gives up at the first one with too
many slots, so its outcome is decided by the first such entry of the list
(`Outline.decided_toForest`).

Nothing is lost on the way but empty slots behind the last one that is filled.
`Outline.trimmed` is the outline without these, and outlines with one tree are those
that agree in it (`Outline.Depicts.eq_iff_trimmed_eq`).
-/

namespace CMinus

/-! ## What an outline says -/

/-- The chain in a numbered slot.  Behind the last slot there are empty ones. -/
def OutlineSlots.get : OutlineSlots → Nat → Outline
  | .nil, _ => .nil
  | .cons chain _, 0 => chain
  | .cons _ more, i + 1 => more.get i

mutual

/-- The line and the number of slots of every node: a node before its children, the
children from the first slot on, and then the rest of the chain. -/
def Outline.slotCounts : Outline → List (UInt32 × Nat)
  | .nil => []
  | .node line _ slots rest => (line, slots.length) :: (slots.slotCounts ++ rest.slotCounts)

/-- The same for all nodes in a list of slots. -/
def OutlineSlots.slotCounts : OutlineSlots → List (UInt32 × Nat)
  | .nil => []
  | .cons chain more => chain.slotCounts ++ more.slotCounts

end

/-- The forest is the outline as a tree: kinds and lines, the order of every chain and
the place of every slot are those of the outline, and there are no marks. -/
inductive Outline.Depicts : Outline → Forest → Prop
  | nil : Depicts .nil .nil
  | node {line : UInt32} {kind : Kind} {slots : OutlineSlots} {rest : Outline}
      {a b c f : Forest} (hslots : slots.length ≤ 3) (hfirst : Depicts (slots.get 0) a)
      (hsecond : Depicts (slots.get 1) b) (hthird : Depicts (slots.get 2) c)
      (hrest : Depicts rest f) :
      Depicts (.node line kind slots rest) (.node { kind, line } a b c f)

/-- One more slot in front, unless this slot and all others are empty. -/
def OutlineSlots.prepend : Outline → OutlineSlots → OutlineSlots
  | .nil, .nil => .nil
  | chain, more => .cons chain more

mutual

/-- The outline without the empty slots at the end of any list of slots. -/
def Outline.trimmed : Outline → Outline
  | .nil => .nil
  | .node line kind slots rest => .node line kind slots.trimmed rest.trimmed

/-- The slots without the empty ones at the end, and all chains without those, too. -/
def OutlineSlots.trimmed : OutlineSlots → OutlineSlots
  | .nil => .nil
  | .cons chain more => .prepend chain.trimmed more.trimmed

end

namespace OutlineSlots

@[simp] theorem get_prepend_zero (chain : Outline) (more : OutlineSlots) :
    (prepend chain more).get 0 = chain := by
  cases chain <;> cases more <;> rfl

@[simp] theorem get_prepend_succ (chain : Outline) (more : OutlineSlots) (i : Nat) :
    (prepend chain more).get (i + 1) = more.get i := by
  cases chain <;> cases more <;> rfl

theorem length_prepend_le (chain : Outline) (more : OutlineSlots) :
    (prepend chain more).length ≤ more.length + 1 := by
  cases chain <;> cases more <;> simp [prepend, length]

/-- Trimming takes no slot from its place. -/
theorem get_trimmed : ∀ (s : OutlineSlots) (i : Nat), s.trimmed.get i = (s.get i).trimmed
  | .nil, _ => rfl
  | .cons chain more, 0 => by rw [trimmed, get_prepend_zero, get]
  | .cons chain more, i + 1 => by rw [trimmed, get_prepend_succ, get, get_trimmed more i]

theorem length_trimmed_le : ∀ s : OutlineSlots, s.trimmed.length ≤ s.length
  | .nil => Nat.le_refl _
  | .cons _ more =>
      Nat.le_trans (length_prepend_le _ _) (Nat.succ_le_succ (length_trimmed_le more))

theorem get_eq_nil : ∀ {s : OutlineSlots} {i : Nat}, s.length ≤ i → s.get i = .nil
  | .nil, _, _ => rfl
  | .cons _ more, _ + 1, h => get_eq_nil (s := more) (Nat.le_of_succ_le_succ h)

/-- Slots that are all empty are trimmed away. -/
theorem trimmed_eq_nil : ∀ {s : OutlineSlots}, (∀ i, (s.get i).trimmed = .nil) →
    s.trimmed = .nil
  | .nil, _ => rfl
  | .cons chain more, h => by
      have hchain : chain.trimmed = .nil := h 0
      have hmore : more.trimmed = .nil := trimmed_eq_nil fun i => h (i + 1)
      rw [trimmed, hchain, hmore]
      rfl

/-- Trimmed slots are told apart by what is in them. -/
theorem trimmed_ext : ∀ {s s' : OutlineSlots},
    (∀ i, (s.get i).trimmed = (s'.get i).trimmed) → s.trimmed = s'.trimmed
  | .nil, s', h => (trimmed_eq_nil fun i => (h i).symm).symm
  | s, .nil, h => trimmed_eq_nil h
  | .cons chain more, .cons chain' more', h => by
      have hchain : chain.trimmed = chain'.trimmed := h 0
      have hmore : more.trimmed = more'.trimmed := trimmed_ext fun i => h (i + 1)
      rw [trimmed, trimmed, hchain, hmore]

end OutlineSlots

/-! ## One tree, several outlines -/

namespace Outline.Depicts

variable {o o' : Outline} {f f' : Forest}

/-- An outline has one tree. -/
theorem unique (h : o.Depicts f) (h' : o.Depicts f') : f = f' := by
  induction h generalizing f' with
  | nil =>
      cases h'
      rfl
  | node _ _ _ _ _ iha ihb ihc ihr =>
      cases h' with
      | node _ ha hb hc hr => rw [iha ha, ihb hb, ihc hc, ihr hr]

theorem bare_eq (h : o.Depicts f) : f.bare = f := by
  induction h with
  | nil => rfl
  | node _ _ _ _ _ iha ihb ihc ihr => rw [Forest.bare, iha, ihb, ihc, ihr]; rfl

/-- Trimming an outline does not change its tree. -/
theorem trimmed (h : o.Depicts f) : o.trimmed.Depicts f := by
  induction h with
  | nil => exact .nil
  | node hslots _ _ _ _ iha ihb ihc ihr =>
      refine .node (Nat.le_trans (OutlineSlots.length_trimmed_le _) hslots) ?_ ?_ ?_ ihr
      · rw [OutlineSlots.get_trimmed]
        exact iha
      · rw [OutlineSlots.get_trimmed]
        exact ihb
      · rw [OutlineSlots.get_trimmed]
        exact ihc

/-- Trimmed outlines with one tree are equal. -/
theorem trimmed_eq (h : o.Depicts f) (h' : o'.Depicts f) : o.trimmed = o'.trimmed := by
  induction h generalizing o' with
  | nil =>
      cases h'
      rfl
  | @node line kind slots rest a b c f hslots _ _ _ _ iha ihb ihc ihr =>
      cases h' with
      | @node _ _ slots' rest' _ _ _ _ hslots' ha hb hc hr =>
          have hget : ∀ i, (slots.get i).trimmed = (slots'.get i).trimmed
            | 0 => iha ha
            | 1 => ihb hb
            | 2 => ihc hc
            | i + 3 => by
                rw [OutlineSlots.get_eq_nil (Nat.le_trans hslots (Nat.le_add_left 3 i)),
                  OutlineSlots.get_eq_nil (Nat.le_trans hslots' (Nat.le_add_left 3 i))]
          rw [Outline.trimmed, Outline.trimmed, OutlineSlots.trimmed_ext hget, ihr hr]

/-- Outlines have one tree if they differ in empty slots at the end only. -/
theorem eq_iff_trimmed_eq (h : o.Depicts f) (h' : o'.Depicts f') :
    f = f' ↔ o.trimmed = o'.trimmed := by
  constructor
  · rintro rfl
    exact h.trimmed_eq h'
  · intro heq
    have htrimmed := h.trimmed
    rw [heq] at htrimmed
    exact htrimmed.unique h'.trimmed

end Outline.Depicts

/-! ## Making the tree -/

/-- The node has more slots than a tree has room for. -/
def crowded (node : UInt32 × Nat) : Bool := 3 < node.2

/-- The line and the number of slots can be read off the failure. -/
theorem Failure.tooManySlots_inj {count count' : Nat} {line line' : UInt32} :
    tooManySlots count line = tooManySlots count' line' ↔ count = count' ∧ line = line' := by
  constructor
  · intro h
    obtain ⟨htext, hline⟩ := Failure.malformed.inj h
    have hdigits : count.repr = count'.repr := by simpa [toString] using htext
    rw [Nat.repr_eq_ofList_toDigits, Nat.repr_eq_ofList_toDigits, String.ofList_inj] at hdigits
    have hcount := congrArg (Nat.ofDigitChars 10 · 0) hdigits
    simp only [Nat.ofDigitChars_ten_toDigits] at hcount
    exact ⟨hcount, hline⟩
  · rintro ⟨rfl, rfl⟩
    rfl

/-- A result that is decided by the first crowded node, if there is one: it is the
failure that names this node, and otherwise it is good. -/
def Decided {α : Type} (good : α → Prop) (result : Except Failure α) :
    Option (UInt32 × Nat) → Prop
  | none => ∃ x, result = .ok x ∧ good x
  | some (line, count) => result = .error (.tooManySlots count line)

/-- What is decided by one list of nodes and then by another is decided by both in
turn. -/
theorem Decided.bind {α β : Type} {good : α → Prop} {good' : β → Prop}
    {result : Except Failure α} {next : α → Except Failure β}
    {first second : Option (UInt32 × Nat)} (h : Decided good result first)
    (hnext : ∀ x, good x → Decided good' (next x) second) :
    Decided good' (result >>= next) (first.or second) := by
  cases first with
  | some node =>
      have herror : result = .error (.tooManySlots node.2 node.1) := h
      rw [herror]
      rfl
  | none =>
      obtain ⟨x, rfl, hx⟩ := h
      exact hnext x hx

/-- What is made of a good result is as good, and a failure stays what it is. -/
theorem Decided.map {α β : Type} {good : α → Prop} {good' : β → Prop}
    {result : Except Failure α} {make : α → β} {first : Option (UInt32 × Nat)}
    (h : Decided good result first) (hmake : ∀ x, good x → good' (make x)) :
    Decided good' (result >>= fun x => pure (make x)) first := by
  rw [← Option.or_none (o := first)]
  exact h.bind fun x hx => ⟨make x, rfl, hmake x hx⟩

mutual

/-- The tree of an outline, or the failure for its first crowded node. -/
theorem Outline.decided_toForest : ∀ o : Outline,
    Decided o.Depicts o.toForest (o.slotCounts.find? crowded)
  | .nil => ⟨.nil, rfl, .nil⟩
  | .node line kind slots rest => by
      rw [Outline.toForest, Outline.slotCounts, List.find?_cons]
      by_cases hslots : 3 < slots.length
      · rw [if_pos hslots]
        simp only [crowded, hslots, decide_true]
        rfl
      · rw [if_neg hslots]
        simp only [crowded, hslots, decide_false, List.find?_append]
        refine (OutlineSlots.decided_toForests slots).bind fun fs hfs => ?_
        refine (Outline.decided_toForest rest).map fun f hf => ?_
        exact .node (Nat.not_lt.mp hslots) (hfs 0) (hfs 1) (hfs 2) hf

/-- The trees in a list of slots, or the failure for the first crowded node below. -/
theorem OutlineSlots.decided_toForests : ∀ s : OutlineSlots,
    Decided (fun fs => ∀ i, (s.get i).Depicts (fs.getD i .nil)) s.toForests
      (s.slotCounts.find? crowded)
  | .nil => ⟨[], rfl, fun _ => .nil⟩
  | .cons chain more => by
      rw [OutlineSlots.toForests, OutlineSlots.slotCounts, List.find?_append]
      refine (Outline.decided_toForest chain).bind fun f hf => ?_
      refine (OutlineSlots.decided_toForests more).map fun fs hfs => ?_
      intro i
      cases i with
      | zero => exact hf
      | succ i => exact hfs i

end

namespace Outline

/-- Either no node is crowded and the tree is made, or the first crowded node is
reported. -/
theorem toForest_cases (o : Outline) :
    (o.slotCounts.find? crowded = none ∧ ∃ f, o.toForest = .ok f ∧ o.Depicts f) ∨
      ∃ line count, o.slotCounts.find? crowded = some (line, count) ∧
        o.toForest = .error (.tooManySlots count line) := by
  have hdecided := o.decided_toForest
  cases hfind : o.slotCounts.find? crowded with
  | none =>
      rw [hfind] at hdecided
      exact .inl ⟨rfl, hdecided⟩
  | some node =>
      rw [hfind] at hdecided
      exact .inr ⟨node.1, node.2, rfl, hdecided⟩

theorem depicts_of_toForest {o : Outline} {f : Forest} (h : o.toForest = .ok f) :
    o.Depicts f := by
  rcases o.toForest_cases with ⟨_, f', hf', hdepicts⟩ | ⟨line, count, _, herror⟩
  · rw [hf'] at h
    exact Except.ok.inj h ▸ hdepicts
  · rw [herror] at h
    cases h

/-- What becomes of an outline. -/
structure Lowers (o : Outline) : Prop where
  /-- There is a tree if and only if no node has more than three slots. -/
  succeeds : (∃ f, o.toForest = .ok f) ↔ ∀ node ∈ o.slotCounts, node.2 ≤ 3
  /-- The tree is what the outline says, without marks. -/
  tree : ∀ f : Forest, o.toForest = .ok f → o.Depicts f ∧ f.bare = f
  /-- Another outline has the same tree if and only if the two differ in empty slots at
  the end only. -/
  shared : ∀ (o' : Outline) (f f' : Forest), o.toForest = .ok f → o'.toForest = .ok f' →
    (f = f' ↔ o.trimmed = o'.trimmed)
  /-- The first node with more than three slots is reported, by its line and the number
  of its slots. -/
  refused : ∀ (line : UInt32) (count : Nat),
    o.toForest = .error (.tooManySlots count line) ↔
      o.slotCounts.find? (3 < ·.2) = some (line, count)
  /-- There is no other failure. -/
  failure : ∀ e, o.toForest = .error e → ∃ line count, e = .tooManySlots count line

/-- An outline of any shape has its tree, or is refused for its first crowded node. -/
theorem lowers (o : Outline) : o.Lowers where
  succeeds := by
    have hlimit : (∀ node ∈ o.slotCounts, node.2 ≤ 3) ↔
        o.slotCounts.find? crowded = none := by
      simp [List.find?_eq_none, crowded]
    rw [hlimit]
    rcases o.toForest_cases with ⟨hfind, f, hf, _⟩ | ⟨line, count, hfind, herror⟩
    · exact ⟨fun _ => hfind, fun _ => ⟨f, hf⟩⟩
    · rw [hfind, herror]
      simp
  tree := fun f hf => ⟨depicts_of_toForest hf, (depicts_of_toForest hf).bare_eq⟩
  shared := fun o' f f' hf hf' =>
    (depicts_of_toForest hf).eq_iff_trimmed_eq (depicts_of_toForest hf')
  refused := by
    intro line count
    show _ ↔ o.slotCounts.find? crowded = some (line, count)
    rcases o.toForest_cases with ⟨hfind, f, hf, _⟩ | ⟨line', count', hfind, herror⟩
    · rw [hfind, hf]
      simp
    · rw [hfind, herror, Except.error.injEq, Failure.tooManySlots_inj, Option.some.injEq,
        Prod.mk.injEq, and_comm]
  failure := by
    intro e he
    rcases o.toForest_cases with ⟨_, f, hf, _⟩ | ⟨line, count, _, herror⟩
    · rw [hf] at he
      cases he
    · rw [herror] at he
      exact ⟨line, count, (Except.error.inj he).symm⟩

end Outline

end CMinus
