import FreeNames.Grammar.ModuleItem
import FreeNames.Token.Tokenize
import FreeNames.Tree.Node

/-!
# FreeNames.Grammar.Parse

Parsing a text.  The rules of the grammar call each other through `derive`,
which counts down at every call.  No rule comes back to itself without taking a
token, so the longest chain of calls is bounded by the number of tokens left:
`chainBound` calls for each, and as many at the end.
-/

namespace FreeNames

/-- The rule of each production. -/
def Production.rule (call : Call) : Call
  | .block => Grammar.block call
  | .statements => Grammar.statements call
  | .clauses => Grammar.clauses call
  | .clauseBody => Grammar.clauseBody call
  | .statement => Grammar.statement call
  | .declarators => Grammar.declarators call
  | .expression => Grammar.expression call
  | .commaTail => Grammar.commaTail call
  | .assignment => Grammar.assignment call
  | .conditional => Grammar.conditional call
  | .binary least => Grammar.binary call least
  | .binaryTail least => Grammar.binaryTail call least
  | .unary => Grammar.unary call
  | .operand => Grammar.operand call
  | .newExpr => Grammar.newExpr call
  | .suffixes calls => Grammar.suffixes call calls
  | .arguments => Grammar.arguments call
  | .arrayItems => Grammar.arrayItems call
  | .objectItems => Grammar.objectItems call
  | .templateParts => Grammar.templateParts call
  | .bindingTarget => Grammar.bindingTarget call
  | .bindingElement => Grammar.bindingElement call
  | .patternFields => Grammar.patternFields call
  | .patternItems => Grammar.patternItems call
  | .parameters => Grammar.parameters call
  | .members => Grammar.members call

/-- Follow the rules through at most so many nested calls. -/
def derive : (bound : Nat) → Call
  | 0, _, _, d => d
  | bound + 1, p, ctx, d => p.rule (derive bound) ctx d

/-- More calls than any chain that takes no token. -/
def chainBound : Nat := 32

/-- What each production does when so many tokens are left. -/
def deriveFor (tokens : Nat) : Call := derive (chainBound * (tokens + 1))

/-- The items of a program; each takes at least one token, so `bound` is at
most the number of tokens left. -/
def programItems (call : Call) (source : SourceType) : (bound : Nat) → Draft → Draft
  | 0, d => d
  | bound + 1, d =>
    if d.ended then d
    else
      let ctx : Context := { awaits := source = .module }
      programItems call source bound (d.advance (Grammar.moduleItem call source ctx))

/-- A parsed text: the parts of the program, the steps in which they were built,
and what is wrong with the text in the order found. -/
structure Parse where
  parts : List Tree
  steps : List Step
  problems : List Problem

/-- The draft of a text that has been read to its end. -/
def Draft.ofText (source : SourceType) (text : Text) : Draft :=
  let d := Draft.ofTokens (tokenize text)
  let n := d.rest.length
  (programItems (deriveFor n) source n d).placeTrivia

/-- Parse a text.  Broken text has a tree too, with what could not be read in
error nodes. -/
def parse (source : SourceType) (text : Text) : Parse :=
  let d := Draft.ofText source text
  ⟨d.trees.reverse, (d.log .finish).steps.reverse, d.problems.reverse⟩

namespace Parse

/-- The tree of the whole text. -/
def tree (p : Parse) : Tree := .node .program p.parts

/-- The root of the tree, as a site. -/
def root (p : Parse) : Site := ⟨⟨0, .program, p.parts⟩, []⟩

/-- Whether nothing is wrong. -/
def ok (p : Parse) : Bool := p.problems.isEmpty

/-- Whether the text holds imports or exports that only a module may have. -/
def needsModule (p : Parse) : Bool := p.problems.any fun problem => problem.cause = .moduleOnly

end Parse

end FreeNames
