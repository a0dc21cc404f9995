import FreeNames.Grammar.Draft

/-!
# FreeNames.Grammar.Production

The productions that the grammar recurses through.  A rule of the grammar gets
what the other productions do as an argument, `Call`, so that each rule is a
plain function and can be studied by itself.
-/

namespace FreeNames

/-- What the place of an expression or statement changes about its form. -/
structure Context where
  /-- `await` is an operator. -/
  awaits : Bool := false
  /-- `yield` is an operator. -/
  yields : Bool := false
  /-- `in` is not an operator, as in the head of a `for` statement. -/
  noIn : Bool := false
deriving DecidableEq, Repr

/-- The same place with `in` as an operator, as inside brackets. -/
def Context.withIn (ctx : Context) : Context := { ctx with noIn := false }

/-- Productions of the grammar. -/
inductive Production where
  /-- A block in braces. -/
  | block
  /-- Statements up to a closing brace. -/
  | statements
  /-- The clauses of a `switch` up to its closing brace. -/
  | clauses
  /-- Statements up to the next clause of a `switch`. -/
  | clauseBody
  | statement
  /-- The declarators of a variable declaration. -/
  | declarators
  /-- An expression, commas included. -/
  | expression
  /-- What follows in a sequence of expressions. -/
  | commaTail
  /-- An expression without commas. -/
  | assignment
  | conditional
  /-- Binary operators that bind at least so tightly. -/
  | binary (least : Nat)
  /-- Operators and right operands after a left operand. -/
  | binaryTail (least : Nat)
  | unary
  /-- An operand with its member accesses and calls. -/
  | operand
  | newExpr
  /-- Member accesses, and calls if these are allowed. -/
  | suffixes (calls : Bool)
  | arguments
  | arrayItems
  | objectItems
  /-- Chunks and substitutions of a template. -/
  | templateParts
  /-- A name or pattern. -/
  | bindingTarget
  /-- A name or pattern with an optional default. -/
  | bindingElement
  | patternFields
  | patternItems
  | parameters
  | members
deriving DecidableEq, Repr

/-- What each production does at a place. -/
abbrev Call := Production → Context → Draft → Draft

end FreeNames
