import FreeNames.Token
import FreeNames.Tree.NodeKind

/-!
# FreeNames.Kind

Numbers of the kinds of tokens and nodes: tokens come first, then nodes, and
what is an error comes last.
-/

namespace FreeNames

/-- A kind of token or node. -/
inductive Kind where
  | token (kind : TokenKind)
  | node (kind : NodeKind)
deriving DecidableEq, Repr

namespace Kind

/-- All kinds; the number of a kind is its place here. -/
def all : List Kind := TokenKind.all.map .token ++ NodeKind.all.map .node

/-- The kind with a number. -/
def ofNumber? (n : Nat) : Option Kind := all[n]?

/-- The name used in messages and listings. -/
def tag : Kind → String
  | .token kind => kind.tag
  | .node kind => kind.tag

/-- Whether a kind of token has a property; nodes have none. -/
def ofToken (p : TokenKind → Bool) : Kind → Bool
  | .token kind => p kind
  | .node _ => false

/-- Whether a kind of node has a property; tokens have none. -/
def ofNode (p : NodeKind → Bool) : Kind → Bool
  | .token _ => false
  | .node kind => p kind

/-- The properties of kinds and their names. -/
def properties : List (String × (Kind → Bool)) :=
  [("trivia", ofToken TokenKind.isTrivia),
   ("keyword", ofToken TokenKind.isKeyword),
   ("punct", ofToken TokenKind.isPunct),
   ("assign_op", ofToken TokenKind.isAssign),
   ("identifier_name", ofToken TokenKind.isIdentifierName),
   ("function_scope", ofNode NodeKind.isFunctionScope),
   ("block_scope", ofNode NodeKind.isBlockScope),
   ("binds_this", ofNode NodeKind.bindsThis),
   ("binds_arguments", ofNode NodeKind.bindsArguments)]

/-- The names of the properties that a kind has. -/
def flags (k : Kind) : List String :=
  properties.filterMap fun (name, p) => if p k then some name else none

end Kind

end FreeNames
