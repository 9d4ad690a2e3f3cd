import Mathlib.Data.List.Nodup
import Mathlib.Data.List.Perm.Subperm
import CMinus.Tree.Build
import CMinus.Tree.Record
import CMinus.Proofs.Tree.Order

/-!
# The tour of a walk

A visitor may empty, exchange and cut links while it is walking, so the order of
its calls cannot be read off the tree that the walk starts from.  It can be read
off the tree that is left at the end: `Forest.euler` lists the calls that a tree
ought to get, and a walk makes the calls of the tree it leaves behind, whatever the
visitor decides on the way.

The calls are seen from outside the visitor.  `Visitor.recorded` decides what the
visitor decides and also writes down each call with the node it is made for.  A
node is known by what a walk cannot change: by what the parser wrote on it and, at
the end of its visit, by all that then hangs from it.

What a visitor may do is bounded by its type except for one thing, that it could
put one chain into two slots.  A visitor that never does so (`Visitor.Permutes`)
leaves no more nodes than there were.

`Walks` is the walk as a relation, one constructor for the end of a chain and one
for a node, and every fact about a walk is an induction over it.

## Main results

* `Walks.recorded`: the calls are the tour of the tree that is left;
* `Forest.nested_euler`, `Forest.entered_euler`, `Forest.left_euler`: in a tour the
  calls are nested, and every node is entered once and left once;
* `Forest.subperm_walk`: the nodes that are left are nodes that were there;
* `Forest.bare_eq_of_walks`: without a change of links, all of them are;
* `Recorder.run_tour`: a recorder that misses no call writes down the tour by lines.
-/

namespace CMinus

/-! ## Calls and tours -/

/-- The node without its own marks.  What hangs from it stays as it is. -/
def Tree.unmarked (t : Tree) : Tree := { t with label := t.label.bare }

/-- A call of a visitor, with the node it is made for.  What hangs from a node is
settled when it is left, and not before. -/
inductive Callback where
  | enter (node : Label)
  | leave (node : Tree)
  deriving DecidableEq

namespace Callback

/-- What the parser wrote on the node. -/
def label : Callback → Label
  | enter l => l
  | leave t => t.label

/-- The node, if the call enters it. -/
def entered? : Callback → Option Label
  | enter l => some l
  | leave _ => none

/-- The node, if the call leaves it. -/
def left? : Callback → Option Tree
  | enter _ => none
  | leave t => some t

/-- The call by the line of its node. -/
def visit : Callback → Visit
  | enter l => .enter l.line
  | leave t => .leave t.label.line

/-- The call without any marks. -/
def bare : Callback → Callback
  | enter l => enter l.bare
  | leave t => leave ⟨t.label.bare, t.first.bare, t.second.bare, t.third.bare⟩

/-- Every call that enters a node has the one that leaves it behind it, and what
is entered in between is left in between. -/
inductive Nested : List Callback → Prop
  | nil : Nested []
  | node {t : Tree} {inside behind : List Callback} (hinside : Nested inside)
      (hbehind : Nested behind) : Nested (enter t.label :: (inside ++ leave t :: behind))

theorem Nested.append {calls calls' : List Callback} (h : Nested calls)
    (h' : Nested calls') : Nested (calls ++ calls') := by
  induction h with
  | nil => exact h'
  | node hinside _ _ ih =>
      rw [List.cons_append, List.append_assoc, List.cons_append]
      exact .node hinside ih

end Callback

namespace Forest

open Callback

/-- The Euler tour: for each node in turn, the call that enters it, the tours of
its slots, the call that leaves it, and the tour of the rest of its chain. -/
def euler : Forest → List Callback
  | nil => []
  | node l a b c rest =>
    .enter l.bare ::
      (a.euler ++ b.euler ++ c.euler ++ .leave (Tree.unmarked ⟨l, a, b, c⟩) :: rest.euler)

theorem nested_euler (f : Forest) : Nested f.euler := by
  induction f with
  | nil => exact .nil
  | node l a b c rest iha ihb ihc ihr =>
      have hinside := (iha.append ihb).append ihc
      exact .node (t := Tree.unmarked ⟨l, a, b, c⟩) hinside ihr

/-- The nodes are entered in preorder, each of them once. -/
theorem entered_euler (f : Forest) :
    f.euler.filterMap entered? = f.preorder.map Label.bare := by
  induction f with
  | nil => rfl
  | node l a b c rest iha ihb ihc ihr =>
      simp only [euler, List.filterMap_cons, List.filterMap_append, entered?, iha, ihb, ihc,
        ihr, preorder_node, List.map_cons, List.map_append]

/-- The nodes are left in postorder, each of them once. -/
theorem left_euler (f : Forest) :
    f.euler.filterMap left? = f.postorder.map Tree.unmarked := by
  induction f with
  | nil => rfl
  | node l a b c rest iha ihb ihc ihr =>
      simp only [euler, List.filterMap_cons, List.filterMap_append, left?, iha, ihb, ihc, ihr,
        postorder, List.map_cons, List.map_append]

theorem length_euler (f : Forest) : f.euler.length = 2 * f.nodes.length := by
  induction f with
  | nil => rfl
  | node l a b c rest iha ihb ihc ihr =>
      simp only [euler, nodes, List.length_cons, List.length_append, iha, ihb, ihc, ihr]
      omega

/-- Every call is made for a node of the tree. -/
theorem label_mem_of_mem_euler {f : Forest} {call : Callback} (h : call ∈ f.euler) :
    call.label ∈ f.preorder.map Label.bare := by
  induction f with
  | nil => cases h
  | node l a b c rest iha ihb ihc ihr =>
      simp only [euler, List.mem_cons, List.mem_append] at h
      simp only [preorder_node, List.map_cons, List.map_append, List.mem_cons, List.mem_append]
      rcases h with rfl | ((h | h) | h) | rfl | h
      · exact .inl rfl
      · exact .inr (.inl (.inl (.inl (iha h))))
      · exact .inr (.inl (.inl (.inr (ihb h))))
      · exact .inr (.inl (.inr (ihc h)))
      · exact .inl rfl
      · exact .inr (.inr (ihr h))

theorem euler_bare (f : Forest) : f.bare.euler = f.euler.map Callback.bare := by
  induction f with
  | nil => rfl
  | node l a b c rest iha ihb ihc ihr =>
      simp only [Forest.bare, euler, List.map_cons, List.map_append, iha, ihb, ihc, ihr]
      rfl

theorem tour_eq_map_euler (f : Forest) : f.tour = f.euler.map Callback.visit := by
  induction f with
  | nil => rfl
  | node l a b c rest iha ihb ihc ihr =>
      simp only [tour, euler, List.map_cons, List.map_append, iha, ihb, ihc, ihr]
      rfl

end Forest

/-! ## One node of a walk -/

namespace Visitor

variable {σ : Type}

/-- The visitor never puts one chain into two slots. -/
def Permutes (v : Visitor σ) : Prop :=
  ∀ {t : Tree} {rest : Forest} {s : σ} {i j k : Slot},
    (v.enter t rest s).1.slots i = some k → (v.enter t rest s).1.slots j = some k → i = j

/-- The visitor leaves every link as it is. -/
def KeepsLinks (v : Visitor σ) : Prop :=
  ∀ (t : Tree) (rest : Forest) (s : σ), (v.enter t rest s).1.slots = some ∧
    (v.enter t rest s).1.keepRest = true ∧ (v.leave t rest s).1.keepRest = true

/-- The visitor with a record of its calls, the latest one last. -/
def recorded (v : Visitor σ) : Visitor (σ × List Callback) where
  enter t rest s :=
    let (entry, s') := v.enter t rest s.1
    (entry, s', s.2 ++ [.enter t.label.bare])
  leave t rest s :=
    let (exit, s') := v.leave t rest s.1
    (exit, s', s.2 ++ [.leave t.unmarked])

theorem enter_recorded {v : Visitor σ} {t : Tree} {rest : Forest} {s s' : σ} {entry : Entry}
    (h : v.enter t rest s = (entry, s')) (before : List Callback) :
    v.recorded.enter t rest (s, before) = (entry, s', before ++ [.enter t.label.bare]) := by
  simp only [recorded, h]

theorem leave_recorded {v : Visitor σ} {t : Tree} {rest : Forest} {s s' : σ} {exit : Exit}
    (h : v.leave t rest s = (exit, s')) (before : List Callback) :
    v.recorded.leave t rest (s, before) = (exit, s', before ++ [.leave t.unmarked]) := by
  simp only [recorded, h]

end Visitor

/-- If no chain is put into two slots, the slots hold no more than they did. -/
theorem sum_slots_le (slots : Slot → Option Slot)
    (hslots : ∀ {i j k : Slot}, slots i = some k → slots j = some k → i = j)
    (size : Option Slot → Nat) (hnone : size none = 0) :
    size (slots .first) + size (slots .second) + size (slots .third) ≤
      size (some .first) + size (some .second) + size (some .third) := by
  have h₁₂ := @hslots .first .second
  have h₁₃ := @hslots .first .third
  have h₂₃ := @hslots .second .third
  generalize slots .first = x at *
  generalize slots .second = y at *
  generalize slots .third = z at *
  rcases x with _ | _ | _ | _ <;> rcases y with _ | _ | _ | _ <;>
    rcases z with _ | _ | _ | _ <;> grind

/-- The walk of a forest from one state leads to another forest and another state.
The slots are read after the node is entered and the rest of its chain after it is
left, when what was cut off is an empty chain already. -/
inductive Walks {σ : Type} (v : Visitor σ) : Forest → σ → Forest → σ → Prop
  | nil (s : σ) : Walks v .nil s .nil s
  | node {l : Label} {a b c rest a' b' c' rest' : Forest} {entry : Entry} {exit : Exit}
      {s s₀ s₁ s₂ s₃ s₄ s₅ : σ}
      (henter : v.enter ⟨l, a, b, c⟩ rest s = (entry, s₀))
      (hfirst : Walks v (Tree.held ⟨l, a, b, c⟩ (entry.slots .first)) s₀ a' s₁)
      (hsecond : Walks v (Tree.held ⟨l, a, b, c⟩ (entry.slots .second)) s₁ b' s₂)
      (hthird : Walks v (Tree.held ⟨l, a, b, c⟩ (entry.slots .third)) s₂ c' s₃)
      (hleave : v.leave ⟨{ l with marks := entry.marks }, a', b', c'⟩
        (if entry.keepRest then rest else .nil) s₃ = (exit, s₄))
      (hrest : Walks v (if exit.keepRest then if entry.keepRest then rest else .nil else .nil)
        s₄ rest' s₅) :
      Walks v (.node l a b c rest) s (.node { l with marks := exit.marks } a' b' c' rest') s₅

namespace Walks

variable {σ : Type} {v : Visitor σ} {f f' : Forest} {s s' : σ}

theorem walk_eq (h : Walks v f s f' s') : f.walk v s = (f', s') := by
  induction h with
  | nil => rfl
  | node henter _ _ _ hleave _ ihfirst ihsecond ihthird ihrest =>
      simp only [Forest.walk_node, henter, ihfirst, ihsecond, ihthird, hleave, ihrest]

/-- Every walk comes to an end. -/
theorem total (v : Visitor σ) (f : Forest) (s : σ) : ∃ f' s', Walks v f s f' s' := by
  induction f generalizing s with
  | nil => exact ⟨.nil, s, .nil s⟩
  | node l a b c rest iha ihb ihc ihr =>
      have hheld : ∀ (slot? : Option Slot) (s : σ),
          ∃ f' s', Walks v (Tree.held ⟨l, a, b, c⟩ slot?) s f' s'
        | none, s => ⟨.nil, s, .nil s⟩
        | some .first, s => iha s
        | some .second, s => ihb s
        | some .third, s => ihc s
      have hkept : ∀ (keep keep' : Bool) (s : σ),
          ∃ f' s', Walks v (if keep then if keep' then rest else .nil else .nil) s f' s'
        | true, true, s => ihr s
        | true, false, s | false, _, s => ⟨.nil, s, .nil s⟩
      obtain ⟨a', s₁, hfirst⟩ := hheld _ _
      obtain ⟨b', s₂, hsecond⟩ := hheld _ s₁
      obtain ⟨c', s₃, hthird⟩ := hheld _ s₂
      obtain ⟨rest', s₅, hrest⟩ := hkept _ _ _
      exact ⟨_, _, .node rfl hfirst hsecond hthird rfl hrest⟩

theorem walk (v : Visitor σ) (f : Forest) (s : σ) :
    Walks v f s (f.walk v s).1 (f.walk v s).2 := by
  obtain ⟨f', s', h⟩ := total v f s
  rw [h.walk_eq]
  exact h

/-- Recording changes nothing, and what is recorded is the tour of the forest that
is left. -/
theorem recorded (h : Walks v f s f' s') (before : List Callback) :
    Walks v.recorded f (s, before) f' (s', before ++ f'.euler) := by
  induction h generalizing before with
  | nil s =>
      rw [Forest.euler, List.append_nil]
      exact .nil _
  | node henter _ _ _ hleave _ ihfirst ihsecond ihthird ihrest =>
      have hstep := Walks.node (Visitor.enter_recorded henter before) (ihfirst _) (ihsecond _)
        (ihthird _) (Visitor.leave_recorded hleave _) (ihrest _)
      simpa [Forest.euler, Tree.unmarked, Label.bare] using hstep

/-- A part of the state to which every call adds its name. -/
theorem view_eq {β : Type} (view : σ → List β) (name : Callback → β)
    (henter : ∀ t rest s, view (v.enter t rest s).2 = view s ++ [name (.enter t.label.bare)])
    (hleave : ∀ t rest s, view (v.leave t rest s).2 = view s ++ [name (.leave t.unmarked)])
    (h : Walks v f s f' s') : view s' = view s ++ f'.euler.map name := by
  induction h with
  | nil => simp [Forest.euler]
  | @node l a b c rest a' b' c' _ entry exit s _ _ _ s₃ _ _ hentry _ _ _ hexit _
        ihfirst ihsecond ihthird ihrest =>
      have hs₀ := henter ⟨l, a, b, c⟩ rest s
      have hs₄ := hleave ⟨{ l with marks := entry.marks }, a', b', c'⟩
        (if entry.keepRest then rest else .nil) s₃
      rw [hentry] at hs₀
      rw [hexit] at hs₄
      rw [ihrest, hs₄, ihthird, ihsecond, ihfirst, hs₀]
      simp [Forest.euler, Tree.unmarked, Label.bare]

end Walks

/-- A recorder that misses no call writes down the tour of the forest it leaves. -/
theorem Recorder.run_tour {r : Recorder} (henter : r.onEnter = true) (hleave : r.onLeave = true)
    (f : Forest) : (r.run f).2.toList = (r.run f).1.tour := by
  have hview := (Walks.walk r.visitor f #[]).view_eq Array.toList Callback.visit
    (fun t _ s => by simp [visitor, henter, Callback.visit, Label.bare])
    (fun t _ s => by simp [visitor, hleave, Callback.visit, Tree.unmarked, Label.bare])
  rw [Forest.tour_eq_map_euler]
  exact hview

namespace Forest

open Callback

variable {σ : Type} {v : Visitor σ} {f f' : Forest} {s s' : σ}

/-- The number of nodes that the parser wrote the label on. -/
def occurrences (x : Label) (f : Forest) : Nat := f.bare.preorder.count x

theorem occurrences_node (x l : Label) (a b c rest : Forest) :
    (node l a b c rest).occurrences x =
      a.occurrences x + b.occurrences x + c.occurrences x + rest.occurrences x +
        if l.bare == x then 1 else 0 := by
  simp only [occurrences, Forest.bare, preorder_node, List.count_cons, List.count_append]

theorem occurrences_kept_le (x : Label) (f : Forest) (keep : Bool) :
    (if keep then f else nil).occurrences x ≤ f.occurrences x := by
  cases keep with
  | true => exact Nat.le_refl _
  | false => exact Nat.zero_le _

/-- A visitor that never copies a chain leaves no label on more nodes than had it. -/
theorem occurrences_le_of_walks (hv : v.Permutes) (h : Walks v f s f' s') (x : Label) :
    f'.occurrences x ≤ f.occurrences x := by
  induction h with
  | nil => exact Nat.le_refl _
  | @node l a b c rest a' b' c' rest' entry exit s _ _ _ _ _ _ henter _ _ _ _ _ ih₁ ih₂ ih₃ ih₄ =>
      have hslots := @hv ⟨l, a, b, c⟩ rest s
      rw [henter] at hslots
      have hsum : _ ≤ a.occurrences x + b.occurrences x + c.occurrences x :=
        sum_slots_le entry.slots hslots
          (fun slot? => (Tree.held ⟨l, a, b, c⟩ slot?).occurrences x) rfl
      have hkept := Nat.le_trans (occurrences_kept_le x _ exit.keepRest)
        (occurrences_kept_le x rest entry.keepRest)
      have hmarks : ({ l with marks := exit.marks } : Label).bare = l.bare := rfl
      rw [occurrences_node, occurrences_node, hmarks]
      omega

/-- The nodes that a walk leaves are nodes that were there. -/
theorem subperm_walk (hv : v.Permutes) (f : Forest) (s : σ) :
    (f.walk v s).1.bare.preorder.Subperm f.bare.preorder :=
  List.subperm_ext_iff.mpr fun x _ => occurrences_le_of_walks hv (.walk v f s) x

/-- A walk that changes no link leaves the tree it was given, but for marks. -/
theorem bare_eq_of_walks (hv : v.KeepsLinks) (h : Walks v f s f' s') : f'.bare = f.bare := by
  induction h with
  | nil => rfl
  | @node l a b c rest a' b' c' rest' entry exit s _ _ _ s₃ _ _ henter _ _ _ hleave _
        ih₁ ih₂ ih₃ ih₄ =>
      obtain ⟨hslots, hkeep, _⟩ := hv ⟨l, a, b, c⟩ rest s
      obtain ⟨_, _, hkeep'⟩ := hv ⟨{ l with marks := entry.marks }, a', b', c'⟩
        (if entry.keepRest then rest else nil) s₃
      rw [henter] at hslots hkeep
      rw [hleave] at hkeep'
      simp only at hslots hkeep hkeep'
      simp only [hslots, Tree.held] at ih₁ ih₂ ih₃
      simp only [hkeep, hkeep', if_true] at ih₄
      rw [Forest.bare, Forest.bare, ih₁, ih₂, ih₃, ih₄]
      rfl

/-! ## The calls of a walk -/

/-- The calls that a walk over one forest has made when it leaves another behind. -/
structure Toured (before after : Forest) (calls : List Callback) : Prop where
  /-- They are the Euler tour of what is left. -/
  tour : calls = after.euler
  /-- A node is left after all that was entered since it was. -/
  nested : Nested calls
  /-- The nodes that are left are entered in preorder, each of them once. -/
  entered : calls.filterMap entered? = after.bare.preorder
  /-- They are left in postorder, each of them once, with what hangs from them at the
  end. -/
  left : calls.filterMap left? = after.postorder.map Tree.unmarked
  /-- Each of them is another node of the forest from before. -/
  remaining : after.bare.preorder.Subperm before.bare.preorder
  /-- Where labels tell the nodes apart, one call enters a node and one leaves it. -/
  once : before.bare.preorder.Nodup → ∀ l ∈ after.bare.preorder,
    (calls.filterMap entered?).count l = 1 ∧
      ((calls.filterMap left?).map (·.label)).count l = 1
  /-- No call is made for a node that is gone. -/
  dropped : ∀ l ∉ after.bare.preorder, ∀ call ∈ calls, call.label ≠ l
  /-- There are at most two calls for each node from before. -/
  ends : calls.length ≤ 2 * before.nodes.length

theorem toured_euler {before after : Forest}
    (h : after.bare.preorder.Subperm before.bare.preorder) :
    Toured before after after.euler where
  tour := rfl
  nested := nested_euler after
  entered := by rw [entered_euler, preorder_bare]
  left := left_euler after
  remaining := h
  once := by
    intro hdistinct l hl
    have hnodup : after.bare.preorder.Nodup := by
      obtain ⟨kept, hperm, hsublist⟩ := h
      exact hperm.nodup_iff.mp (hsublist.nodup hdistinct)
    have hleft : ((after.postorder.map Tree.unmarked).map (·.label)).Perm after.bare.preorder := by
      rw [preorder_bare, preorder, List.map_map, List.map_map]
      exact (postorder_perm after).map _
    rw [entered_euler, ← preorder_bare, left_euler, hleft.count_eq]
    have hcount : after.bare.preorder.count l = 1 := List.count_eq_one_of_mem hnodup hl
    exact ⟨hcount, hcount⟩
  dropped := by
    rintro l hl call hcall rfl
    rw [preorder_bare] at hl
    exact hl (label_mem_of_mem_euler hcall)
  ends := by
    have hlength := h.length_le
    rw [preorder, preorder, List.length_map, List.length_map, length_nodes_bare,
      length_nodes_bare] at hlength
    rw [length_euler]
    exact Nat.mul_le_mul_left 2 hlength

/-- Whatever a visitor decides on the way, as long as it never copies a chain: its
calls are the Euler tour of the forest that the walk leaves behind, and of the
forest that the walk was given if the visitor has changed no link. -/
theorem walk_toured (hv : v.Permutes) (f : Forest) (s : σ) :
    ∃ calls, f.walk v.recorded (s, []) = ((f.walk v s).1, (f.walk v s).2, calls) ∧
      Toured f (f.walk v s).1 calls ∧
      (v.KeepsLinks → calls.map Callback.bare = f.euler.map Callback.bare) := by
  have hwalks : Walks v f s (f.walk v s).1 (f.walk v s).2 := .walk v f s
  refine ⟨(f.walk v s).1.euler, ?_, toured_euler (subperm_walk hv f s), fun hlinks => ?_⟩
  · simpa using (hwalks.recorded []).walk_eq
  · rw [← euler_bare, ← euler_bare, bare_eq_of_walks hlinks hwalks]

/-- Conditionals are turned round and loops emptied. -/
def tidied : Kind → Slot → Option Slot
  | .ifElse => Edit.swap.slots
  | .whileDo => Edit.prune.slots
  | _ => some

/-- A visitor that numbers the nodes, tidies them up and drops what follows a return. -/
def tidying : Visitor Nat where
  enter t _ count :=
    ({ marks := { t.label.marks with scope := some count }, slots := tidied t.label.kind },
     count + 1)
  leave t _ count :=
    ({ marks := t.label.marks, keepRest := t.label.kind ≠ .returnVoid }, count)

/-- A block with all that it tidies up, one node to a line. -/
def untidy : Forest := .ofTrees [
  .compound [] [
    .ifElse (.const 0 3) (.returnVoid 4) (.whileDo (.const 1 6) (.returnVoid 7) 5) 2,
    .returnVoid 8,
    .const 2 9] 1]

theorem walk_toured_tidying :
    tidying.Permutes ∧ untidy.bare.preorder.Nodup ∧
      ∃ calls, untidy.walk tidying.recorded (0, []) =
          ((untidy.walk tidying 0).1, (untidy.walk tidying 0).2, calls) ∧
        Toured untidy (untidy.walk tidying 0).1 calls ∧
        calls.map (·.label.line) = [1, 2, 5, 5, 4, 4, 3, 3, 2, 8, 8, 1] := by
  have hpermutes : tidying.Permutes := by
    intro t rest s i j k hi hj
    have hsame : tidied t.label.kind i = tidied t.label.kind j := hi.trans hj.symm
    change tidied t.label.kind i = some k at hi
    cases hkind : t.label.kind with
    | ifElse =>
        rw [hkind] at hsame
        cases i <;> cases j <;> first | rfl | cases hsame
    | whileDo =>
        rw [hkind] at hi
        cases hi
    | _ =>
        rw [hkind] at hsame
        exact Option.some.inj hsame
  obtain ⟨calls, hrun, htoured, _⟩ := walk_toured hpermutes untidy 0
  refine ⟨hpermutes, by decide, calls, hrun, htoured, ?_⟩
  rw [htoured.tour]
  decide

end Forest

end CMinus
