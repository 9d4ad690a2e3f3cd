import CMinus.Proofs.Tree.Shape

/-!
# Taking one node out of a tree

A node is named by its place in preorder, which is also its place among the
moments of a walk.  `Forest.eraseIdx` takes the node of a place out of its chain:
what hangs from it goes with it, and its later siblings move up.

Proofs about two trees that differ by one leaf do not count places.
`Forest.Omits` relates such trees along the path to the leaf, one constructor per
direction that the path can take, and its `here` is the only constructor in which
anything is left out.  `omits_eraseIdx` leads from places to paths, and
`Omits.eq_eraseIdx` back.
-/

namespace CMinus

namespace Forest

/-- The forest without the node of a place in preorder and what hangs from it. -/
def eraseIdx : Forest → Nat → Forest
  | nil, _ => nil
  | node _ _ _ _ rest, 0 => rest
  | node l a b c rest, i + 1 =>
    let j := i - a.nodes.length
    let k := j - b.nodes.length
    if i < a.nodes.length then node l (a.eraseIdx i) b c rest
    else if j < b.nodes.length then node l a (b.eraseIdx j) c rest
    else if k < c.nodes.length then node l a b (c.eraseIdx k) rest
    else node l a b c (rest.eraseIdx (k - c.nodes.length))

/-- The first forest has the leaf `d` in a place, and the second one lacks it. -/
inductive Omits (d : Label) : Nat → Forest → Forest → Prop
  | here {rest : Forest} : Omits d 0 (node d nil nil nil rest) rest
  | first {i : Nat} {l : Label} {a a' b c rest : Forest} (h : Omits d i a a') :
      Omits d (i + 1) (node l a b c rest) (node l a' b c rest)
  | second {i : Nat} {l : Label} {a b b' c rest : Forest} (h : Omits d i b b') :
      Omits d (a.nodes.length + i + 1) (node l a b c rest) (node l a b' c rest)
  | third {i : Nat} {l : Label} {a b c c' rest : Forest} (h : Omits d i c c') :
      Omits d (a.nodes.length + b.nodes.length + i + 1) (node l a b c rest)
        (node l a b c' rest)
  | rest {i : Nat} {l : Label} {a b c rest rest' : Forest} (h : Omits d i rest rest') :
      Omits d (a.nodes.length + b.nodes.length + c.nodes.length + i + 1)
        (node l a b c rest) (node l a b c rest')

/-- In preorder the leaf stands in its place, and nothing else is left out. -/
theorem Omits.exists_split {d : Label} {i : Nat} {f g : Forest} (h : Omits d i f g) :
    ∃ before behind, f.preorder = before ++ d :: behind ∧ g.preorder = before ++ behind ∧
      before.length = i := by
  have hlength : ∀ f : Forest, f.preorder.length = f.nodes.length := fun f => List.length_map _
  induction h with
  | @here rest => exact ⟨[], rest.preorder, by simp, by simp, rfl⟩
  | @first i l a a' b c rest _ ih =>
      obtain ⟨before, behind, hf, hg, hi⟩ := ih
      refine ⟨l :: before, behind ++ b.preorder ++ c.preorder ++ rest.preorder, ?_, ?_, ?_⟩
      · simp [hf]
      · simp [hg]
      · simp [hi]
  | @second i l a b b' c rest _ ih =>
      obtain ⟨before, behind, hf, hg, hi⟩ := ih
      refine ⟨l :: (a.preorder ++ before), behind ++ c.preorder ++ rest.preorder, ?_, ?_, ?_⟩
      · simp [hf]
      · simp [hg]
      · simp [hi, hlength]
  | @third i l a b c c' rest _ ih =>
      obtain ⟨before, behind, hf, hg, hi⟩ := ih
      refine ⟨l :: (a.preorder ++ b.preorder ++ before), behind ++ rest.preorder, ?_, ?_, ?_⟩
      · simp [hf]
      · simp [hg]
      · simp [hi, hlength, Nat.add_assoc]
  | @rest i l a b c rest rest' _ ih =>
      obtain ⟨before, behind, hf, hg, hi⟩ := ih
      refine ⟨l :: (a.preorder ++ b.preorder ++ c.preorder ++ before), behind, ?_, ?_, ?_⟩
      · simp [hf]
      · simp [hg]
      · simp [hi, hlength, Nat.add_assoc]

theorem Omits.lt {d : Label} {i : Nat} {f g : Forest} (h : Omits d i f g) :
    i < f.nodes.length := by
  obtain ⟨before, behind, hf, _, rfl⟩ := h.exists_split
  have hlength := congrArg List.length hf
  simp only [preorder, List.length_map, List.length_append, List.length_cons] at hlength
  omega

/-- The labels that remain are those from before without the one of the place. -/
theorem Omits.preorder_eq {d : Label} {i : Nat} {f g : Forest} (h : Omits d i f g) :
    g.preorder = f.preorder.eraseIdx i := by
  obtain ⟨before, behind, hf, hg, rfl⟩ := h.exists_split
  rw [hf, hg, List.eraseIdx_append_of_length_le (Nat.le_refl _), Nat.sub_self,
    List.eraseIdx_cons_zero]

/-- The place of the leaf and the first forest determine the second. -/
theorem Omits.eq_eraseIdx {d : Label} {i : Nat} {f g : Forest} (h : Omits d i f g) :
    g = f.eraseIdx i := by
  have hpast : ∀ m n : Nat, ¬m + n < m := by omega
  induction h with
  | here => rfl
  | first h ih => simp [eraseIdx, h.lt, ih]
  | second h ih => simp [eraseIdx, hpast, h.lt, ih]
  | third h ih => simp [eraseIdx, hpast, h.lt, ih, Nat.add_assoc]
  | rest h ih => simp [eraseIdx, hpast, ih, Nat.add_assoc]

/-- A leaf can be left out. -/
theorem exists_omits {d : Label} {i : Nat} {f : Forest}
    (h : f.nodes[i]? = some { label := d }) : ∃ g, Omits d i f g := by
  induction f generalizing i with
  | nil => simp [nodes] at h
  | node l a b c rest iha ihb ihc ihr =>
      cases i with
      | zero =>
          cases Option.some.inj h
          exact ⟨rest, .here⟩
      | succ i =>
          -- the place is in the first part that is long enough
          simp only [nodes, List.getElem?_cons_succ, List.append_assoc] at h
          by_cases ha : i < a.nodes.length
          · rw [List.getElem?_append_left ha] at h
            obtain ⟨a', h⟩ := iha h
            exact ⟨_, .first h⟩
          obtain ⟨i, rfl⟩ := Nat.exists_eq_add_of_le (Nat.not_lt.mp ha)
          rw [List.getElem?_append_right (Nat.le_add_right _ _), Nat.add_sub_cancel_left] at h
          by_cases hb : i < b.nodes.length
          · rw [List.getElem?_append_left hb] at h
            obtain ⟨b', h⟩ := ihb h
            exact ⟨_, .second h⟩
          obtain ⟨i, rfl⟩ := Nat.exists_eq_add_of_le (Nat.not_lt.mp hb)
          rw [List.getElem?_append_right (Nat.le_add_right _ _), Nat.add_sub_cancel_left] at h
          by_cases hc : i < c.nodes.length
          · rw [List.getElem?_append_left hc] at h
            obtain ⟨c', h⟩ := ihc h
            rw [← Nat.add_assoc]
            exact ⟨_, .third h⟩
          obtain ⟨i, rfl⟩ := Nat.exists_eq_add_of_le (Nat.not_lt.mp hc)
          rw [List.getElem?_append_right (Nat.le_add_right _ _), Nat.add_sub_cancel_left] at h
          obtain ⟨rest', h⟩ := ihr h
          rw [← Nat.add_assoc, ← Nat.add_assoc]
          exact ⟨_, .rest h⟩

/-- In a program the declarations of variables and parameters are leaves. -/
theorem eq_leaf_of_fits {r : Role} {f : Forest} (hf : f.fits r = true) {n : Tree}
    (hn : n ∈ f.nodes) (hk : n.label.kind.isObject = true ∨ n.label.kind.isParam = true) :
    n = { label := n.label } := by
  induction f generalizing r with
  | nil => simp [nodes] at hn
  | node l a b c rest iha ihb ihc ihr =>
      obtain ⟨_, ha, hb, hc, hrest⟩ := fits_node.mp hf
      simp only [nodes, List.mem_cons, List.mem_append] at hn
      rcases hn with rfl | ((hn | hn) | hn) | hn
      · have hslots : ∀ i, l.kind.role i = .absent := by
          intro i
          cases hl : l.kind <;> simp_all [Kind.isObject, Kind.isParam, Kind.role]
        rw [hslots] at ha hb hc
        rw [eq_nil_of_fits_absent ha, eq_nil_of_fits_absent hb, eq_nil_of_fits_absent hc]
      · exact iha ha hn
      · exact ihb hb hn
      · exact ihc hc hn
      · exact ihr hrest hn

end Forest

end CMinus
