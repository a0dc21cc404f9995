import FreeNames.Tree

/-!
# FreeNames.Tree.Node

Nodes with their place in a text.  A node is known by where it starts and what
it holds.  Two nodes of one tree that agree in both are the same node, unless
they cover no bytes at all, which happens only in broken text.

A `Site` is a node together with the nodes around it.
-/

namespace FreeNames

/-- A node and the offset at which it starts. -/
structure Node where
  start : Nat
  kind : NodeKind
  parts : List Tree
deriving DecidableEq

namespace Node

/-- The bytes a node covers. -/
def span (n : Node) : Span := ⟨n.start, n.start + Tree.sizeAll n.parts⟩

/-- The nodes among trees in a row that start at `start`. -/
def among (start : Nat) : List Tree → List Node
  | [] => []
  | .leaf t :: ts => among (start + t.size) ts
  | .node kind parts :: ts => ⟨start, kind, parts⟩ :: among (start + Tree.sizeAll parts) ts

/-- The nodes directly inside a node. -/
def children (n : Node) : List Node := among n.start n.parts

/-- The first node of a kind directly inside a node. -/
def child? (n : Node) (kind : NodeKind) : Option Node := n.children.find? fun c => c.kind = kind

/-- The first token directly inside a node that is not trivia. -/
def firstToken? (n : Node) : Option Token :=
  n.parts.findSome? fun
    | .leaf t => if t.isTrivia then none else some t
    | .node _ _ => none

/-- What the first token directly inside a node spells. -/
def word (n : Node) : Text :=
  match n.firstToken? with
  | some t => t.text
  | none => []

end Node

/-- A node and the nodes around it, innermost first. -/
structure Site where
  node : Node
  above : List Node
deriving DecidableEq

namespace Site

/-- The nodes directly inside, with the nodes around them. -/
def children (s : Site) : List Site := s.node.children.map fun n => ⟨n, s.node :: s.above⟩

mutual

/-- All nodes of a tree that starts at `start`, a node before those inside it. -/
def within (above : List Node) (start : Nat) : Tree → List Site
  | .leaf _ => []
  | .node kind parts =>
    let n : Node := ⟨start, kind, parts⟩
    ⟨n, above⟩ :: withinAll (n :: above) start parts

/-- All nodes of trees in a row. -/
def withinAll (above : List Node) (start : Nat) : List Tree → List Site
  | [] => []
  | t :: ts => within above start t ++ withinAll above (start + t.size) ts

end

/-- A node and all nodes inside it, each before those inside it. -/
def descendants (s : Site) : List Site :=
  s :: withinAll (s.node :: s.above) s.node.start s.node.parts

mutual

/-- The node of a tree without the parentheses around it. -/
def unwrap (above : List Node) (start : Nat) : Tree → Option Site
  | .leaf _ => none
  | .node kind parts =>
    let n : Node := ⟨start, kind, parts⟩
    if kind = .parenExpr then some ((unwrapFirst (n :: above) start parts).getD ⟨n, above⟩)
    else some ⟨n, above⟩

/-- The first node among trees in a row, without the parentheses around it. -/
def unwrapFirst (above : List Node) (start : Nat) : List Tree → Option Site
  | [] => none
  | .leaf t :: ts => unwrapFirst above (start + t.size) ts
  | .node kind parts :: _ => unwrap above start (.node kind parts)

end

/-- A node without the parentheses around it. -/
def bare (s : Site) : Site :=
  (unwrap s.above s.node.start (.node s.node.kind s.node.parts)).getD s

end Site

end FreeNames
