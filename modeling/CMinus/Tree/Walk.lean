import CMinus.Tree.Basic

/-!
# Walking a tree

Both passes of the analysis visit a tree in one order: a node is entered, its
slots are walked from the first to the third, the node is left, and only then
is its next sibling entered.  `Forest.walk` is that order once and for all; a
`Visitor` says what happens at the two moments a node is visited.

A visitor sees the node with everything that hangs from it and may write its
marks.  It may also cut links: on entering, it says which former slot each
slot holds from now on (so it can empty or permute them), and at either moment
it can drop the rest of the chain.  It can never add a node, so the walk is
structurally recursive and ends for every visitor.  The slots are read after
the node is entered and the chain after it is left; hence what a visitor cuts
off is never visited.

## Main definitions

* `Visitor`, with `Entry` and `Exit` for its two decisions;
* `Forest.walk`, which threads a state and rebuilds the forest;
* `Visitor.marking`, a visitor that leaves every link alone.
-/

namespace CMinus

/-- The three child slots. -/
inductive Slot where
  | first | second | third
  deriving DecidableEq

/-- What a visitor decides when it enters a node. -/
structure Entry where
  marks : Marks
  /-- The former slot whose chain each slot holds from now on; `none` empties it. -/
  slots : Slot → Option Slot := some
  /-- Whether the node keeps the rest of its chain. -/
  keepRest : Bool := true

/-- What a visitor decides when it leaves a node. -/
structure Exit where
  marks : Marks
  /-- Whether the node keeps the rest of its chain. -/
  keepRest : Bool := true

/-- The two callbacks of a walk.  Each gets the node, the rest of its chain and
the state so far. -/
structure Visitor (σ : Type) where
  enter : Tree → Forest → σ → Entry × σ := fun t _ s => ({ marks := t.label.marks }, s)
  leave : Tree → Forest → σ → Exit × σ := fun t _ s => ({ marks := t.label.marks }, s)

namespace Forest

variable {σ : Type}

/-- Visit every node of the forest in order: enter, slots, leave, rest. -/
def walk (v : Visitor σ) : Forest → σ → Forest × σ
  | nil, s => (nil, s)
  | node l a b c rest, s =>
    let (entry, s) := v.enter ⟨l, a, b, c⟩ rest s
    let slot (i : Slot) (s : σ) : Forest × σ :=
      match entry.slots i with
      | none => (nil, s)
      | some .first => a.walk v s
      | some .second => b.walk v s
      | some .third => c.walk v s
    let (a', s) := slot .first s
    let (b', s) := slot .second s
    let (c', s) := slot .third s
    let kept := if entry.keepRest then rest else nil
    let (exit, s) := v.leave ⟨{ l with marks := entry.marks }, a', b', c'⟩ kept s
    let l' := { l with marks := exit.marks }
    if entry.keepRest && exit.keepRest then
      let (rest', s) := rest.walk v s
      (node l' a' b' c' rest', s)
    else
      (node l' a' b' c' nil, s)

end Forest

/-- The visitor that only writes marks: `enter` sees the label on the way down,
`leave` sees the node with its finished children on the way up. -/
def Visitor.marking {σ : Type} (enter : Label → σ → Marks × σ)
    (leave : Tree → σ → Marks × σ) : Visitor σ where
  enter t _ s :=
    let (marks, s) := enter t.label s
    ({ marks }, s)
  leave t _ s :=
    let (marks, s) := leave t s
    ({ marks }, s)

/-- The chain in a slot of the node; no slot holds an empty one. -/
def Tree.held (t : Tree) : Option Slot → Forest
  | none => .nil
  | some .first => t.first
  | some .second => t.second
  | some .third => t.third

namespace Forest

variable {σ : Type}

@[simp] theorem walk_nil (v : Visitor σ) (s : σ) : walk v nil s = (nil, s) := rfl

/-- A walk, one node at a time: the slots are read after entering and the rest of
the chain after leaving, and what was cut off is an empty chain by then. -/
theorem walk_node (v : Visitor σ) (l : Label) (a b c rest : Forest) (s : σ) :
    walk v (node l a b c rest) s =
      let (entry, s) := v.enter ⟨l, a, b, c⟩ rest s
      let (a', s) := (Tree.held ⟨l, a, b, c⟩ (entry.slots .first)).walk v s
      let (b', s) := (Tree.held ⟨l, a, b, c⟩ (entry.slots .second)).walk v s
      let (c', s) := (Tree.held ⟨l, a, b, c⟩ (entry.slots .third)).walk v s
      let kept := if entry.keepRest then rest else nil
      let (exit, s) := v.leave ⟨{ l with marks := entry.marks }, a', b', c'⟩ kept s
      let (rest', s) := (if exit.keepRest then kept else nil).walk v s
      (node { l with marks := exit.marks } a' b' c' rest', s) := by
  have hslot : ∀ (slot? : Option Slot) (s : σ), (match slot? with
      | none => (nil, s)
      | some .first => a.walk v s
      | some .second => b.walk v s
      | some .third => c.walk v s) = (Tree.held ⟨l, a, b, c⟩ slot?).walk v s
    | none, _ | some .first, _ | some .second, _ | some .third, _ => rfl
  rw [walk]
  generalize v.enter ⟨l, a, b, c⟩ rest s = entered
  obtain ⟨entry, s⟩ := entered
  simp only [hslot]
  cases entry.keepRest with
  | false => simp only [Bool.false_and, Bool.false_eq_true, if_false, ite_self, walk_nil]
  | true =>
      simp only [Bool.true_and, if_true]
      split
      · rfl
      · rfl

/-- A marking walk, one node at a time: no link is cut, so the four parts are
walked in order with only the state passed between them. -/
theorem walk_marking_node (enter : Label → σ → Marks × σ) (leave : Tree → σ → Marks × σ)
    (l : Label) (a b c rest : Forest) (s : σ) :
    walk (.marking enter leave) (node l a b c rest) s =
      let v := Visitor.marking enter leave
      let (marks, s) := enter l s
      let (a', s) := a.walk v s
      let (b', s) := b.walk v s
      let (c', s) := c.walk v s
      let (marks', s) := leave ⟨{ l with marks }, a', b', c'⟩ s
      let (rest', s) := rest.walk v s
      (node { l with marks := marks' } a' b' c' rest', s) := rfl

end Forest

end CMinus
