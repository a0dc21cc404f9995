import FreeNames.Scope
import FreeNames.Sort

/-!
# FreeNames.Global

Global references: names that no scope around them holds.  References are
grouped by name, and each group has the properties accessed on it:

* directly, as in `window.location`;
* through a parameter, when a function expression is called on the spot and the
  global is passed for that parameter: `(function (w) { w.location })(window)`.
-/

namespace FreeNames

/-- A global reference, by the node that refers. -/
structure Reference where
  name : Text
  site : Site

/-- A property access, by the node that names the property. -/
structure Access where
  name : Text
  node : Node
deriving DecidableEq

/-- All that is known about one global. -/
structure Group where
  name : Text
  /-- In source order. -/
  references : List Reference
  /-- Properties accessed on the references. -/
  direct : List Access
  /-- Properties accessed on a parameter that stands for a reference. -/
  aliased : List Access

namespace Group

/-- All properties accessed, by where they stand. -/
def properties (g : Group) : List Access :=
  Sort.sort (fun a b => a.node.start ≤ b.node.start) (g.direct ++ g.aliased)

end Group

namespace Globals

/-- The name under which `this` is grouped. -/
def thisName : Text := "this".toList

/-- Whether a node gives a name a meaning. -/
def gives (scopes : Scopes) (name : Text) (n : Node) : Bool :=
  (name = "arguments".toList && n.kind.bindsArguments) || scopes.declares n name

/-- The global reference that a node is, if it is one.  `undefined` never
counts, though it is a name. -/
def resolve? (scopes : Scopes) (s : Site) : Option Reference :=
  match s.node.kind with
  | .nameRef =>
    let name := s.node.word
    if name = "undefined".toList || s.above.any (gives scopes name) then none
    else some ⟨name, s⟩
  | .thisExpr =>
    if s.above.any fun n => n.kind.bindsThis then none else some ⟨thisName, s⟩
  | _ => none

/-- The name of the reference that a node is, among some references. -/
def nameOf? (references : List Reference) (n : Node) : Option Text :=
  (references.find? fun r => r.site.node = n).map Reference.name

/-- The property that a member access names. -/
def access? (member : Node) : Option Access :=
  member.property?.map fun p => ⟨p.word, p⟩

/-- The property that a node accesses on a reference. -/
def direct? (references : List Reference) (s : Site) : Option (Text × Access) := do
  guard (s.node.kind = .memberExpr)
  let object ← s.subject?
  let name ← nameOf? references object.node
  let access ← access? s.node
  return (name, access)

/-- Whether a node between a site and a function gives a name another meaning
than the function does. -/
def isShadowed (scopes : Scopes) (function : Node) (name : Text) (s : Site) : Bool :=
  (s.above.takeWhile fun n => n ≠ function).any (gives scopes name)

/-- The property that a node accesses on a parameter of a function. -/
def onParameter? (scopes : Scopes) (function : Node) (parameter : Text) (s : Site) :
    Option Access := do
  guard (s.node.kind = .memberExpr)
  let object ← s.subject?
  guard (object.node.kind = .nameRef && object.node.word = parameter)
  guard (!isShadowed scopes function parameter object)
  access? s.node

/-- The reference and the parameter of one argument: only a parameter that is a
plain name stands for its argument. -/
def passed? (references : List Reference) (argument parameter : Node) : Option (Text × Text) := do
  let name ← nameOf? references argument
  guard (parameter.kind = .name)
  return (name, parameter.word)

/-- The properties that a call accesses on references through parameters. -/
def throughCall (scopes : Scopes) (references : List Reference) (s : Site) :
    List (Text × Access) :=
  match s.subject? with
  | none => []
  | some callee =>
    if s.node.kind ≠ .callExpr || callee.node.kind ≠ .functionExpr then []
    else
      match callee.node.parameterList?, callee.node.body? with
      | some list, some body =>
        let inside := (Site.mk body (callee.node :: callee.above)).descendants
        let pairs := (s.arguments.map Site.node).zip list.children
        pairs.flatMap fun (argument, parameter) =>
          match passed? references argument parameter with
          | none => []
          | some (name, parameter) =>
            (inside.filterMap (onParameter? scopes callee.node parameter)).map (name, ·)
      | _, _ => []

/-- Items that carry a name. -/
def named {α : Type} (name : Text) (items : List (Text × α)) : List α :=
  items.filterMap fun (other, item) => if other = name then some item else none

/-- The globals of the tree under a node, by name. -/
def collect (scopes : Scopes) (root : Site) : List Group :=
  let sites := root.descendants
  let references := sites.filterMap (resolve? scopes)
  let direct := sites.filterMap (direct? references)
  let aliased := sites.flatMap (throughCall scopes references)
  (Sort.sort Text.le (references.map Reference.name).eraseDups).map fun name =>
    { name := name
      references := references.filter fun r => r.name = name
      direct := named name direct
      aliased := named name aliased }

end Globals

end FreeNames
