import CMinus.Failure
import CMinus.Tree.Basic

/-!
# Outlines

An outline is a program as a document describes it: nodes with any number of
child slots.  A tree has room for three, so `Outline.toForest` either finds
every node within that limit or reports the first one beyond it.

An outline is a chain of nodes and `OutlineSlots` a list of chains; the two
types refer to each other, and so do the functions on them.
-/

namespace CMinus

mutual

/-- A chain of described nodes. -/
inductive Outline where
  | nil
  | node (line : UInt32) (kind : Kind) (slots : OutlineSlots) (rest : Outline)

/-- The child slots of a described node. -/
inductive OutlineSlots where
  | nil
  | cons (chain : Outline) (more : OutlineSlots)

end

/-- The number of slots. -/
def OutlineSlots.length : OutlineSlots → Nat
  | .nil => 0
  | .cons _ more => more.length + 1

mutual

/-- The tree of an outline.  Nodes are examined in the order of a walk: a node
before its children, the children from the first slot on, and then the rest of
the chain.  The first one with too many slots is reported. -/
def Outline.toForest : Outline → Except Failure Forest
  | .nil => .ok .nil
  | .node line kind slots rest =>
    if 3 < slots.length then .error (.tooManySlots slots.length line)
    else do
      let chains ← slots.toForests
      let rest ← rest.toForest
      return .node { kind, line } (chains.getD 0 .nil) (chains.getD 1 .nil)
        (chains.getD 2 .nil) rest

/-- The trees in a list of slots. -/
def OutlineSlots.toForests : OutlineSlots → Except Failure (List Forest)
  | .nil => .ok []
  | .cons chain more => do
    let chain ← chain.toForest
    let more ← more.toForests
    return chain :: more

end

end CMinus
