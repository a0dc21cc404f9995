import FreeNames.Tree.Node

/-!
# FreeNames.Tree.View

Reading the parts of declarations, functions, member accesses and calls off
their nodes.  Broken text may lack any of the parts.
-/

namespace FreeNames

/-- How a variable is declared. -/
inductive VariableKind where
  | varKind | letKind | constKind
deriving DecidableEq, Repr

/-- The name used in listings. -/
def VariableKind.tag : VariableKind → String
  | .varKind => "Var"
  | .letKind => "Let"
  | .constKind => "Const"

/-- Kinds of nodes that declare names as a target does. -/
def NodeKind.isTarget : NodeKind → Bool
  | .name | .objectPattern | .arrayPattern | .assignPattern | .restPattern => true
  | _ => false

/-- Functions of any form. -/
def NodeKind.isFunction : NodeKind → Bool
  | .functionDecl | .functionExpr | .arrowFunction | .method => true
  | _ => false

namespace Tree

/-- Whether a tree is a target. -/
def isTarget : Tree → Bool
  | .leaf _ => false
  | .node kind _ => kind.isTarget

mutual

/-- Names that a target or a list of parameters declares.  Defaults and
computed keys declare nothing. -/
def bound (start : Nat) : Tree → List Node
  | .leaf _ => []
  | .node kind parts =>
    match kind with
    | .name => [⟨start, .name, parts⟩]
    | .objectPattern | .arrayPattern | .paramList => boundAll start parts
    | .objectPatternProp => (boundLast start parts).getD []
    | .assignPattern | .restPattern => boundFirst start parts
    | _ => []

/-- Names that trees in a row declare. -/
def boundAll (start : Nat) : List Tree → List Node
  | [] => []
  | t :: ts => t.bound start ++ boundAll (start + t.size) ts

/-- Names that the last target in a row declares. -/
def boundLast (start : Nat) : List Tree → Option (List Node)
  | [] => none
  | t :: ts =>
    match boundLast (start + t.size) ts with
    | some names => some names
    | none => if t.isTarget then some (t.bound start) else none

/-- Names that the first node in a row declares. -/
def boundFirst (start : Nat) : List Tree → List Node
  | [] => []
  | .leaf t :: ts => boundFirst (start + t.size) ts
  | .node kind parts :: _ => bound start (.node kind parts)

end

end Tree

namespace Node

/-- Names that a target or a list of parameters declares, in source order. -/
def boundNames (n : Node) : List Node := Tree.bound n.start (.node n.kind n.parts)

/-- How a variable declaration declares. -/
def variableKind (n : Node) : VariableKind :=
  if n.word = "let".toList then .letKind
  else if n.word = "const".toList then .constKind
  else .varKind

/-- Targets of a variable declaration. -/
def targets (n : Node) : List Node :=
  n.children.filterMap fun c => if c.kind = .varDeclarator then c.children.head? else none

/-- The name of a function or class. -/
def ownName? (n : Node) : Option Node := n.child? .name

/-- The list of parameters of a function. -/
def parameterList? (n : Node) : Option Node := n.child? .paramList

/-- The block of a function or handler. -/
def body? (n : Node) : Option Node := n.child? .blockStmt

/-- What a handler names the error. -/
def handled? (n : Node) : Option Node := n.children.find? fun c => c.kind ≠ .blockStmt

/-- The name after the dot of a member access. -/
def property? (n : Node) : Option Node := n.child? .propertyName

end Node

namespace Site

/-- The first node inside, without the parentheses around it: the object of a
member access, the callee of a call. -/
def subject? (s : Site) : Option Site := s.children.head?.map bare

/-- Arguments of a call, without the parentheses around them. -/
def arguments (s : Site) : List Site :=
  match s.children.find? fun c => c.node.kind = .argList with
  | some list => list.children.map bare
  | none => []

end Site

end FreeNames
