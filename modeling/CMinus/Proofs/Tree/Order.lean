import CMinus.Tree.Walk

/-!
# The order of a walk

Two views of a walk that the passes are compared through.  The first is the
tree read as a list: `Forest.nodes` is every node in preorder and
`Forest.postorder` every node in postorder, so "the third node" and "a later
node" mean the same thing for every pass.  The second is the walk read as a
list: `Forest.moments` pairs every node with the state in which a marking walk
enters it, and `Forest.departures` with the state in which the walk leaves it.
The lists have one entry per node: the moments agree with the preorder entry by
entry, and the departures with the postorder.

A walk is a long composition of `enter` and `leave` steps.  The theorems below
do that composition once: what every step respects, the walk respects, from
any of its moments to any later one.

## Main results

* `Forest.walk_related`: a reflexive and transitive relation that every step
  respects holds from the start to every moment and from there to the end;
* `Forest.pairwise_moments`: and from every moment to every later one;
* `Forest.exists_moment_of_lt`: a counter that grows by at most one per entered
  node passes each of its values at a moment of its own;
* `Forest.count_walk_le`: and grows by at most the number of nodes;
* `Forest.preorder_walk`: the marks a walk leaves behind are those written on
  entering, node by node;
* `Forest.follows_walk`: what entering does to a part of the state says what that
  part is at every moment and at the end.
-/

namespace CMinus

/-- The name that a node uses: variables and calls use one. -/
def Kind.use? : Kind → Option String
  | var name | call name => some name
  | _ => none

/-- The label as the parser wrote it, without marks. -/
def Label.bare (l : Label) : Label := { l with marks := {} }

namespace Forest

/-- The forest as the parser wrote it, without marks. -/
def bare : Forest → Forest
  | nil => nil
  | node l a b c rest => node l.bare a.bare b.bare c.bare rest.bare

/-- Every node with what hangs from it, a node before everything below it and
before its later siblings. -/
def nodes : Forest → List Tree
  | nil => []
  | node l a b c rest => ⟨l, a, b, c⟩ :: (a.nodes ++ b.nodes ++ c.nodes ++ rest.nodes)

/-- Every node with what hangs from it, a node after everything below it and
before its later siblings. -/
def postorder : Forest → List Tree
  | nil => []
  | node l a b c rest =>
    a.postorder ++ b.postorder ++ c.postorder ++ ⟨l, a, b, c⟩ :: rest.postorder

/-- The labels of all nodes in preorder. -/
def preorder (f : Forest) : List Label := f.nodes.map (·.label)

/-- The lines of all nodes in preorder. -/
def lines (f : Forest) : List UInt32 := f.preorder.map (·.line)

/-- The names that are used, each with the line of its use, in preorder. -/
def uses (f : Forest) : List (String × UInt32) :=
  f.preorder.filterMap fun l => l.kind.use?.map (·, l.line)

@[simp] theorem preorder_nil : nil.preorder = [] := rfl

@[simp] theorem preorder_node (l : Label) (a b c rest : Forest) :
    (node l a b c rest).preorder =
      l :: (a.preorder ++ b.preorder ++ c.preorder ++ rest.preorder) := by
  simp [preorder, nodes]

@[simp] theorem lines_nil : nil.lines = [] := rfl

@[simp] theorem lines_node (l : Label) (a b c rest : Forest) :
    (node l a b c rest).lines =
      l.line :: (a.lines ++ b.lines ++ c.lines ++ rest.lines) := by
  simp [lines]

@[simp] theorem uses_nil : nil.uses = [] := rfl

@[simp] theorem uses_node (l : Label) (a b c rest : Forest) :
    (node l a b c rest).uses =
      (l.kind.use?.map (·, l.line)).toList ++
        (a.uses ++ b.uses ++ c.uses ++ rest.uses) := by
  cases h : l.kind.use? <;> simp [uses, h]

/-- The lines of a chain are those of its first node and then the others. -/
theorem lines_cons (l : Label) (a b c rest : Forest) :
    (node l a b c rest).lines = (node l a b c .nil).lines ++ rest.lines := by
  simp [List.append_assoc]

theorem uses_cons (l : Label) (a b c rest : Forest) :
    (node l a b c rest).uses = (node l a b c .nil).uses ++ rest.uses := by
  simp [List.append_assoc]

/-- A use stands on one of the lines of the tree. -/
theorem line_mem_of_mem_uses {f : Forest} {u : String × UInt32} (hu : u ∈ f.uses) :
    u.2 ∈ f.lines := by
  simp only [uses, List.mem_filterMap] at hu
  obtain ⟨l, hl, hmap⟩ := hu
  obtain ⟨name, _, rfl⟩ := Option.map_eq_some_iff.mp hmap
  exact List.mem_map_of_mem hl

/-- The two orders list every node the same number of times. -/
theorem postorder_perm (f : Forest) : f.postorder.Perm f.nodes := by
  induction f with
  | nil => exact .nil
  | node l a b c rest iha ihb ihc ihr =>
      refine List.perm_middle.trans (.cons _ ?_)
      exact ((iha.append ihb).append ihc).append ihr

theorem preorder_bare (f : Forest) : f.bare.preorder = f.preorder.map Label.bare := by
  induction f with
  | nil => rfl
  | node l a b c rest iha ihb ihc ihr =>
      simp only [bare, preorder_node, List.map_cons, List.map_append, iha, ihb, ihc, ihr]

theorem length_nodes_bare (f : Forest) : f.bare.nodes.length = f.nodes.length := by
  have hlength := congrArg List.length (preorder_bare f)
  rwa [List.length_map, preorder, preorder, List.length_map, List.length_map] at hlength

/-- Lines are read off what the parser wrote. -/
@[simp] theorem lines_bare (f : Forest) : f.bare.lines = f.lines := by
  rw [lines, preorder_bare, List.map_map]
  rfl

@[simp] theorem uses_bare (f : Forest) : f.bare.uses = f.uses := by
  rw [uses, preorder_bare, List.filterMap_map]
  rfl

/-- So are the kinds. -/
theorem kinds_bare (f : Forest) : f.bare.preorder.map (·.kind) = f.preorder.map (·.kind) := by
  rw [preorder_bare, List.map_map]
  rfl

/-- Every node of a chain heads a node of the preorder. -/
theorem mem_nodes_of_mem_trees {f : Forest} {t : Tree} (ht : t ∈ f.trees) :
    t ∈ f.nodes := by
  induction f with
  | nil => simp [trees] at ht
  | node l a b c rest _ _ _ ih =>
      simp only [trees, List.mem_cons] at ht
      rcases ht with rfl | ht
      · simp [nodes]
      · simp [nodes, ih ht]

theorem mem_preorder_of_mem_labels {f : Forest} {l : Label} (hl : l ∈ f.labels) :
    l ∈ f.preorder := by
  induction f with
  | nil => simp [labels] at hl
  | node l' a b c rest _ _ _ ih =>
      simp only [labels, List.mem_cons] at hl
      rcases hl with rfl | hl
      · simp
      · simp [ih hl]

theorem mem_preorder_of_head? {f : Forest} {l : Label} (h : f.head? = some l) :
    l ∈ f.preorder := by
  cases f with
  | nil => simp [head?] at h
  | node l' => simp [Option.some.inj h]

end Forest

/-- A node and the state in which a walk enters it. -/
structure Moment (σ : Type) where
  label : Label
  state : σ

/-- A node with its finished children, and the state in which a walk leaves it. -/
structure Departure (σ : Type) where
  tree : Tree
  state : σ

namespace Forest

variable {σ : Type} (enter : Label → σ → Marks × σ) (leave : Tree → σ → Marks × σ)

/-- The moments of a marking walk, in the order of the walk. -/
def moments : Forest → σ → List (Moment σ)
  | nil, _ => []
  | node l a b c rest, s =>
    let v := Visitor.marking enter leave
    let (marks, s₁) := enter l s
    let (a', s₂) := a.walk v s₁
    let (b', s₃) := b.walk v s₂
    let (c', s₄) := c.walk v s₃
    let (_, s₅) := leave ⟨{ l with marks }, a', b', c'⟩ s₄
    ⟨l, s⟩ :: (a.moments s₁ ++ b.moments s₂ ++ c.moments s₃ ++ rest.moments s₅)

/-- The departures of a marking walk, in the order of the walk. -/
def departures : Forest → σ → List (Departure σ)
  | nil, _ => []
  | node l a b c rest, s =>
    let v := Visitor.marking enter leave
    let (marks, s₁) := enter l s
    let (a', s₂) := a.walk v s₁
    let (b', s₃) := b.walk v s₂
    let (c', s₄) := c.walk v s₃
    let left : Tree := ⟨{ l with marks }, a', b', c'⟩
    let (_, s₅) := leave left s₄
    a.departures s₁ ++ b.departures s₂ ++ c.departures s₃ ++ ⟨left, s₄⟩ :: rest.departures s₅

@[simp] theorem moments_nil (s : σ) : moments enter leave nil s = [] := rfl

@[simp] theorem departures_nil (s : σ) : departures enter leave nil s = [] := rfl

/-- The moments are those of the nodes in preorder. -/
theorem labels_moments (f : Forest) (s : σ) :
    (f.moments enter leave s).map (·.label) = f.preorder := by
  induction f generalizing s with
  | nil => rfl
  | node l a b c rest iha ihb ihc ihr =>
      simp only [moments, List.map_cons, List.map_append, iha, ihb, ihc, ihr, preorder_node]

/-- The departures are those of the nodes in postorder. -/
theorem labels_departures (f : Forest) (s : σ) :
    (f.departures enter leave s).map (·.tree.label.bare) =
      f.postorder.map (·.label.bare) := by
  induction f generalizing s with
  | nil => rfl
  | node l a b c rest iha ihb ihc ihr =>
      simp only [departures, postorder, List.map_cons, List.map_append, iha, ihb, ihc, ihr]
      rfl

/-- A marking walk writes marks and nothing else. -/
theorem bare_walk (f : Forest) (s : σ) :
    (f.walk (.marking enter leave) s).1.bare = f.bare := by
  induction f generalizing s with
  | nil => rfl
  | node l a b c rest iha ihb ihc ihr =>
      simp only [walk_marking_node, bare, iha, ihb, ihc, ihr, Label.bare]

/-- Marks that are only written on entering end up on the walked tree. -/
theorem preorder_walk (hleave : ∀ t s, (leave t s).1 = t.label.marks) (f : Forest) (s : σ) :
    (f.walk (.marking enter leave) s).1.preorder =
      (f.moments enter leave s).map fun m =>
        { m.label with marks := (enter m.label m.state).1 } := by
  induction f generalizing s with
  | nil => rfl
  | node l a b c rest iha ihb ihc ihr =>
      simp only [walk_marking_node, moments, preorder_node, List.map_cons, List.map_append,
        iha, ihb, ihc, ihr, hleave]

/-- What holds between the entries of a list in order holds between any two. -/
theorem rel_of_pairwise {α : Type} {R : α → α → Prop} {xs : List α} (h : xs.Pairwise R)
    {i j : Nat} {x y : α} (hij : i < j) (hx : xs[i]? = some x) (hy : xs[j]? = some y) :
    R x y := by
  obtain ⟨hi, rfl⟩ := List.getElem?_eq_some_iff.mp hx
  obtain ⟨hj, rfl⟩ := List.getElem?_eq_some_iff.mp hy
  exact List.pairwise_iff_getElem.mp h i j hi hj hij

section Related

variable {R : σ → σ → Prop} (refl : ∀ s, R s s) (trans : ∀ {s t u}, R s t → R t u → R s u)
  (henter : ∀ l s, R s (enter l s).2) (hleave : ∀ t s, R s (leave t s).2)

include refl trans henter hleave

/-- What every step respects, the walk respects: from the start to the end,
from the start to each moment, and from the step taken at a moment to the
end. -/
theorem walk_related (f : Forest) (s : σ) :
    R s (f.walk (.marking enter leave) s).2 ∧
      ∀ m ∈ f.moments enter leave s,
        R s m.state ∧ R (enter m.label m.state).2 (f.walk (.marking enter leave) s).2 := by
  induction f generalizing s with
  | nil => exact ⟨refl s, by simp⟩
  | node l a b c rest iha ihb ihc ihr =>
      simp only [walk_marking_node, moments, List.mem_cons, List.mem_append]
      generalize hs₁ : (enter l s).2 = s₁
      have h₁ : R s s₁ := by rw [← hs₁]; exact henter l s
      obtain ⟨ha, hma⟩ := iha s₁
      generalize (a.walk (.marking enter leave) s₁).2 = s₂ at ha hma ⊢
      obtain ⟨hb, hmb⟩ := ihb s₂
      generalize (b.walk (.marking enter leave) s₂).2 = s₃ at hb hmb ⊢
      obtain ⟨hc, hmc⟩ := ihc s₃
      generalize (c.walk (.marking enter leave) s₃).2 = s₄ at hc hmc ⊢
      generalize hs₅ : (leave _ s₄).2 = s₅
      have h₅ : R s₄ s₅ := by rw [← hs₅]; exact hleave _ s₄
      obtain ⟨hr, hmr⟩ := ihr s₅
      have hbe := trans hb (trans hc (trans h₅ hr))
      have hce := trans hc (trans h₅ hr)
      have h₂ := trans h₁ ha
      have h₃ := trans h₂ hb
      refine ⟨trans h₂ hbe, ?_⟩
      rintro m (rfl | ((hm | hm) | hm) | hm)
      · exact ⟨refl _, by rw [hs₁]; exact trans ha hbe⟩
      · exact ⟨trans h₁ (hma m hm).1, trans (hma m hm).2 hbe⟩
      · exact ⟨trans h₂ (hmb m hm).1, trans (hmb m hm).2 hce⟩
      · exact ⟨trans h₃ (hmc m hm).1, trans (hmc m hm).2 (trans h₅ hr)⟩
      · exact ⟨trans h₃ (trans hc (trans h₅ (hmr m hm).1)), (hmr m hm).2⟩

/-- Between two moments of a walk, too, only steps are taken. -/
theorem pairwise_moments (f : Forest) (s : σ) :
    (f.moments enter leave s).Pairwise fun m m' => R (enter m.label m.state).2 m'.state := by
  induction f generalizing s with
  | nil => exact List.Pairwise.nil
  | node l a b c rest iha ihb ihc ihr =>
      have related := walk_related enter leave refl @trans henter hleave
      simp only [moments, List.pairwise_cons, List.pairwise_append, List.mem_append]
      generalize (enter l s).2 = s₁
      obtain ⟨ha, hma⟩ := related a s₁
      have pa := iha s₁
      generalize (a.walk (.marking enter leave) s₁).2 = s₂ at ha hma ⊢
      obtain ⟨hb, hmb⟩ := related b s₂
      have pb := ihb s₂
      generalize (b.walk (.marking enter leave) s₂).2 = s₃ at hb hmb ⊢
      obtain ⟨hc, hmc⟩ := related c s₃
      have pc := ihc s₃
      generalize (c.walk (.marking enter leave) s₃).2 = s₄ at hc hmc ⊢
      generalize hs₅ : (leave _ s₄).2 = s₅
      have h₅ : R s₄ s₅ := by rw [← hs₅]; exact hleave _ s₄
      obtain ⟨_, hmr⟩ := related rest s₅
      refine ⟨?_, ⟨⟨pa, pb, ?_⟩, pc, ?_⟩, ihr s₅, ?_⟩
      · rintro m (((hm | hm) | hm) | hm)
        · exact (hma m hm).1
        · exact trans ha (hmb m hm).1
        · exact trans ha (trans hb (hmc m hm).1)
        · exact trans ha (trans hb (trans hc (trans h₅ (hmr m hm).1)))
      · exact fun m hm m' hm' => trans (hma m hm).2 (hmb m' hm').1
      · rintro m (hm | hm) m' hm'
        · exact trans (hma m hm).2 (trans hb (hmc m' hm').1)
        · exact trans (hmb m hm).2 (hmc m' hm').1
      · rintro m ((hm | hm) | hm) m' hm'
        · exact trans (hma m hm).2 (trans hb (trans hc (trans h₅ (hmr m' hm').1)))
        · exact trans (hmb m hm).2 (trans hc (trans h₅ (hmr m' hm').1))
        · exact trans (hmc m hm).2 (trans h₅ (hmr m' hm').1)

end Related

/-- A counter that entering raises by at most one and that leaving keeps passes
every value it skips at a moment that raises it. -/
theorem exists_moment_of_lt (count : σ → Nat)
    (henter : ∀ l s, count (enter l s).2 ≤ count s + 1)
    (hleave : ∀ t s, count (leave t s).2 = count s)
    {f : Forest} {s : σ} {k : Nat} (hk : count s ≤ k)
    (hlt : k < count (f.walk (.marking enter leave) s).2) :
    ∃ m ∈ f.moments enter leave s,
      count m.state = k ∧ count (enter m.label m.state).2 = k + 1 := by
  induction f generalizing s with
  | nil => exact absurd hlt (Nat.not_lt.mpr hk)
  | node l a b c rest iha ihb ihc ihr =>
      simp only [walk_marking_node] at hlt
      simp only [moments, List.mem_cons, List.mem_append]
      have h₁ := henter l s
      generalize hs₁ : (enter l s).2 = s₁ at h₁ hlt ⊢
      -- the raise happens in the first part whose end has passed `k`
      by_cases hk₁ : k < count s₁
      · exact ⟨⟨l, s⟩, .inl rfl, by simp only; omega, by simp only [hs₁]; omega⟩
      by_cases hk₂ : k < count (a.walk (.marking enter leave) s₁).2
      · obtain ⟨m, hm, hcount⟩ := iha (by omega) hk₂
        exact ⟨m, .inr (.inl (.inl (.inl hm))), hcount⟩
      generalize (a.walk (.marking enter leave) s₁).2 = s₂ at hk₂ hlt ⊢
      by_cases hk₃ : k < count (b.walk (.marking enter leave) s₂).2
      · obtain ⟨m, hm, hcount⟩ := ihb (by omega) hk₃
        exact ⟨m, .inr (.inl (.inl (.inr hm))), hcount⟩
      generalize (b.walk (.marking enter leave) s₂).2 = s₃ at hk₃ hlt ⊢
      by_cases hk₄ : k < count (c.walk (.marking enter leave) s₃).2
      · obtain ⟨m, hm, hcount⟩ := ihc (by omega) hk₄
        exact ⟨m, .inr (.inl (.inr hm)), hcount⟩
      generalize (c.walk (.marking enter leave) s₃).2 = s₄ at hk₄ hlt ⊢
      generalize hs₅ : (leave _ s₄).2 = s₅ at hlt ⊢
      have h₅ : count s₅ = count s₄ := by rw [← hs₅]; exact hleave _ s₄
      obtain ⟨m, hm, hcount⟩ := ihr (by omega) hlt
      exact ⟨m, .inr (.inr hm), hcount⟩

/-- Such a counter grows by at most the number of nodes. -/
theorem count_walk_le (count : σ → Nat)
    (henter : ∀ l s, count (enter l s).2 ≤ count s + 1)
    (hleave : ∀ t s, count (leave t s).2 = count s) (f : Forest) (s : σ) :
    count (f.walk (.marking enter leave) s).2 ≤ count s + f.nodes.length := by
  induction f generalizing s with
  | nil => exact Nat.le_refl _
  | node l a b c rest iha ihb ihc ihr =>
      simp only [walk_marking_node, nodes, List.length_cons, List.length_append]
      have h₁ := henter l s
      generalize (enter l s).2 = s₁ at h₁ ⊢
      have h₂ := iha s₁
      generalize (a.walk (.marking enter leave) s₁).2 = s₂ at h₂ ⊢
      have h₃ := ihb s₂
      generalize (b.walk (.marking enter leave) s₂).2 = s₃ at h₃ ⊢
      have h₄ := ihc s₃
      generalize (c.walk (.marking enter leave) s₃).2 = s₄ at h₄ ⊢
      generalize hs₅ : (leave _ s₄).2 = s₅
      have h₅ : count s₅ = count s₄ := by rw [← hs₅]; exact hleave _ s₄
      have h₆ := ihr s₅
      omega

section Views

variable {β : Type} (view : σ → β) (act : β → Moment σ → β)

/-- A view of the state goes from `b` to `b'` over the moments, and `act` says what
each of them does to it. -/
inductive Follows : β → List (Moment σ) → β → Prop
  | nil (b : β) : Follows b [] b
  | cons {b b' : β} {m : Moment σ} {ms : List (Moment σ)} (hm : view m.state = b)
      (hms : Follows (act b m) ms b') : Follows b (m :: ms) b'

variable {view act} {b b' b'' : β} {ms ms' : List (Moment σ)}

theorem Follows.append (h : Follows view act b ms b') (h' : Follows view act b' ms' b'') :
    Follows view act b (ms ++ ms') b'' := by
  induction h with
  | nil => exact h'
  | cons hm _ ih => exact .cons hm (ih h')

/-- A list that every moment adds at most one entry to. -/
theorem Follows.eq_append {α : Type} {view : σ → List α} {part : Moment σ → Option α}
    {xs xs' : List α} (h : Follows view (fun xs m => xs ++ (part m).toList) xs ms xs') :
    xs' = xs ++ ms.filterMap part := by
  induction h with
  | nil => simp
  | @cons xs xs' m ms hm _ ih =>
      rw [ih, List.append_assoc, List.filterMap_cons]
      cases part m <;> rfl

/-- A flag that every moment may set. -/
theorem Follows.eq_any {view : σ → Bool} {p : Moment σ → Bool} {b b' : Bool}
    (h : Follows view (fun b m => b || p m) b ms b') : b' = (b || ms.any p) := by
  induction h with
  | nil => simp
  | cons hm _ ih => rw [ih, List.any_cons, Bool.or_assoc]

/-- Up to a moment the view follows the earlier ones. -/
theorem Follows.take (h : Follows view act b ms b') {i : Nat} {m : Moment σ}
    (hi : ms[i]? = some m) : Follows view act b (ms.take i) (view m.state) := by
  induction h generalizing i with
  | nil => simp at hi
  | cons hm _ ih =>
      cases i with
      | zero =>
          obtain rfl := Option.some.inj hi
          rw [hm]
          exact .nil _
      | succ i => exact .cons hm (ih hi)

/-- A view that leaving a node keeps is changed by the moments only. -/
theorem follows_walk (hleave : ∀ t s, view (leave t s).2 = view s) {f : Forest} {s : σ}
    (henter : ∀ m ∈ f.moments enter leave s,
      view (enter m.label m.state).2 = act (view m.state) m) :
    Follows view act (view s) (f.moments enter leave s)
      (view (f.walk (.marking enter leave) s).2) := by
  induction f generalizing s with
  | nil => exact .nil _
  | node l a b c rest iha ihb ihc ihr =>
      simp only [moments, List.mem_cons, List.mem_append] at henter
      have h₁ := henter ⟨l, s⟩ (.inl rfl)
      have ha := iha fun m hm => henter m (.inr (.inl (.inl (.inl hm))))
      have hb := ihb fun m hm => henter m (.inr (.inl (.inl (.inr hm))))
      have hc := ihc fun m hm => henter m (.inr (.inl (.inr hm)))
      have hr := ihr fun m hm => henter m (.inr (.inr hm))
      simp only at h₁
      rw [h₁] at ha
      rw [hleave] at hr
      exact .cons rfl (((ha.append hb).append hc).append hr)

end Views

end Forest

end CMinus
