import CMinus.Tree.Walk

/-!
# Recording a walk

A `Recorder` is a visitor that writes down when it enters and leaves a node,
and that may edit the tree at the nodes of one line while it is walking.  It
shows the order of a walk from outside, together with the effect that an edit
made at either moment has on what is still to be visited.

`Forest.tour` is the order stated without a walk: the calls that a visitor of
a tree ought to receive, read off the tree itself.
-/

namespace CMinus

/-- One call of a visitor, with the line of the node it was made for. -/
inductive Visit where
  | enter (line : UInt32)
  | leave (line : UInt32)
  deriving DecidableEq

/-- The calls for every node of the forest, children inside their parent. -/
def Forest.tour : Forest → List Visit
  | nil => []
  | node l a b c rest =>
    .enter l.line :: (a.tour ++ b.tour ++ c.tour ++ .leave l.line :: rest.tour)

/-- A change of links that a recorder makes at a node. -/
inductive Edit where
  /-- On entering, empty all three slots. -/
  | prune
  /-- On entering, exchange the first and the third slot. -/
  | swap
  /-- On entering, drop the rest of the chain. -/
  | cutOnEnter
  /-- On leaving, drop the rest of the chain. -/
  | cutOnLeave
  deriving DecidableEq

/-- Which calls to write down, and which edit to make on which line. -/
structure Recorder where
  onEnter : Bool := true
  onLeave : Bool := true
  edit : Option (Edit × UInt32) := none

namespace Edit

/-- The slots of a node after an edit on entering. -/
def slots : Edit → Slot → Option Slot
  | prune, _ => none
  | swap, .first => some .third
  | swap, .second => some .second
  | swap, .third => some .first
  | _, slot => some slot

end Edit

namespace Recorder

/-- The edit that applies to nodes of this line. -/
def editAt (r : Recorder) (line : UInt32) : Option Edit :=
  r.edit.bind fun (edit, target) => if line = target then some edit else none

/-- The visitor: a call is written down before the edit takes effect. -/
def visitor (r : Recorder) : Visitor (Array Visit) where
  enter t _ seen :=
    let edit := r.editAt t.label.line
    ({ marks := t.label.marks
       slots := (edit.map Edit.slots).getD some
       keepRest := edit != some .cutOnEnter },
     if r.onEnter then seen.push (.enter t.label.line) else seen)
  leave t _ seen :=
    ({ marks := t.label.marks
       keepRest := r.editAt t.label.line != some .cutOnLeave },
     if r.onLeave then seen.push (.leave t.label.line) else seen)

/-- The calls of a whole walk, and the forest it leaves behind. -/
def run (r : Recorder) (f : Forest) : Forest × Array Visit := f.walk r.visitor #[]

end Recorder

end CMinus
