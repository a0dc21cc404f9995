import FreeNames.Tree

/-!
# FreeNames.Tree.Builder

Building a tree from left to right, one step at a time.  A node can be opened at
the place reached, or further back around trees that are there already: this is
how a left operand gets into an operation that is only seen after it.

Some steps make no sense and are refused: closing a node when none is open, and
opening one at a checkpoint that lies past the trees there are, or before the
first part of the node that is open.
-/

namespace FreeNames

/-- One step of building a tree. -/
inductive Step where
  /-- Put a token into the node that is open. -/
  | token (t : Token)
  /-- Open a node. -/
  | start (kind : NodeKind)
  /-- Open a node around the trees after a checkpoint, which is a number of trees. -/
  | startAt (checkpoint : Nat) (kind : NodeKind)
  /-- Close the node that was opened last. -/
  | finish
deriving DecidableEq, Repr

/-- A tree that is being built. -/
structure Builder where
  /-- Nodes that are open, innermost first, with the number of trees before
  their first part. -/
  opened : List (NodeKind × Nat)
  /-- Trees that are not yet part of a closed node, latest first. -/
  trees : List Tree
deriving DecidableEq

namespace Builder

/-- A builder that has done nothing. -/
def initial : Builder := ⟨[], []⟩

/-- Whether a checkpoint lies among the parts of the node that is open. -/
def isValid (b : Builder) (checkpoint : Nat) : Bool :=
  checkpoint ≤ b.trees.length && b.opened.head?.all fun (_, first) => first ≤ checkpoint

/-- Do one step; `none` when it is refused. -/
def step (b : Builder) : Step → Option Builder
  | .token t => some { b with trees := .leaf t :: b.trees }
  | .start kind => some { b with opened := (kind, b.trees.length) :: b.opened }
  | .startAt checkpoint kind =>
    if b.isValid checkpoint then some { b with opened := (kind, checkpoint) :: b.opened }
    else none
  | .finish =>
    match b.opened with
    | [] => none
    | (kind, first) :: opened =>
      if first ≤ b.trees.length then
        let parts := b.trees.take (b.trees.length - first)
        let before := b.trees.drop (b.trees.length - first)
        some ⟨opened, .node kind parts.reverse :: before⟩
      else none

/-- Do steps in order. -/
def run (b : Builder) (steps : List Step) : Option Builder := steps.foldlM step b

/-- The tree that is built, if all is closed and there is one node. -/
def result? : Builder → Option Tree
  | ⟨[], [.node kind parts]⟩ => some (.node kind parts)
  | _ => none

end Builder

end FreeNames
