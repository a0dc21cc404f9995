import FreeNames.Sort
import FreeNames.Tree.View

/-!
# FreeNames.Scope

Which names each scope of a program holds:

* a `var` target and the name of a function declaration belong to the nearest
  function scope around them;
* a `let` or `const` target and the name of a class declaration belong to the
  nearest block scope around them;
* parameters and the name of a function belong to the function, and the name of
  a class expression to the class;
* the name of a handled error belongs to the block of its handler;
* imported names belong to the root.
-/

namespace FreeNames

/-- Names with the scopes that hold them, in source order of their declarations. -/
structure Scopes where
  bindings : List (Node × Text)

namespace Scopes

/-- The nearest node around a site that satisfies a condition. -/
def enclosing? (s : Site) (isScope : NodeKind → Bool) : Option Node :=
  s.above.find? fun n => isScope n.kind

/-- Names that a scope holds, if there is one. -/
def held (scope : Option Node) (names : List Node) : List (Node × Text) :=
  match scope with
  | some scope => names.map fun n => (scope, n.word)
  | none => []

/-- What a variable declaration declares. -/
def ofVariables (s : Site) : List (Node × Text) :=
  let scope :=
    match s.node.variableKind with
    | .varKind => enclosing? s NodeKind.isFunctionScope
    | .letKind | .constKind => enclosing? s NodeKind.isBlockScope
  held scope (s.node.targets.flatMap Node.boundNames)

/-- What a function declares. -/
def ofFunction (s : Site) : List (Node × Text) :=
  let own := s.node.ownName?.toList
  let outer :=
    if s.node.kind = .functionDecl then enclosing? s NodeKind.isFunctionScope else none
  held (some s.node) (s.node.parameterList?.toList.flatMap Node.boundNames)
    ++ held (some s.node) own ++ held outer own

/-- What a class declares. -/
def ofClass (s : Site) : List (Node × Text) :=
  let scope :=
    if s.node.kind = .classExpr then some s.node else enclosing? s NodeKind.isBlockScope
  held scope s.node.ownName?.toList

/-- What a handler declares. -/
def ofHandler (s : Site) : List (Node × Text) :=
  held s.node.body? (s.node.handled?.toList.flatMap Node.boundNames)

/-- What one node of the tree under `root` declares. -/
def ofSite (root : Node) (s : Site) : List (Node × Text) :=
  match s.node.kind with
  | .varDecl => ofVariables s
  | .functionDecl | .functionExpr | .arrowFunction | .method => ofFunction s
  | .classDecl | .classExpr => ofClass s
  | .catchClause => ofHandler s
  | .importDefaultSpecifier | .importSpecifier | .importNamespaceSpecifier =>
    held (some root) (s.node.children.filter fun n => n.kind = .name)
  | _ => []

/-- The scopes of the tree under a node. -/
def build (root : Site) : Scopes := ⟨root.descendants.flatMap (ofSite root.node)⟩

/-- Whether a scope itself holds a name. -/
def declares (scopes : Scopes) (scope : Node) (name : Text) : Bool :=
  scopes.bindings.any fun (holder, held) => held = name && holder = scope

/-- Names that a scope itself holds, each once and by code point. -/
def names (scopes : Scopes) (scope : Node) : List Text :=
  let held := scopes.bindings.filter fun (holder, _) => holder = scope
  Sort.sort Text.le (held.map Prod.snd).eraseDups

/-- The scopes that hold at least one name. -/
def holders (scopes : Scopes) : List Node := (scopes.bindings.map Prod.fst).eraseDups

/-- The scopes at or under a node that hold names, with the names, from the node
down. -/
def listing (scopes : Scopes) (root : Site) : List (Node × List Text) :=
  let holders := scopes.holders
  root.descendants.filterMap fun s =>
    if s.node ∈ holders then some (s.node, scopes.names s.node) else none

end Scopes

end FreeNames
