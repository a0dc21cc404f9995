import FreeNames.Text

/-!
# FreeNames.Token.Keyword

Reserved words of JavaScript.  Words that are reserved only in some places,
such as `let`, `of` and `async`, are identifiers here.
-/

namespace FreeNames

/-- Reserved words. -/
inductive Keyword where
  | breakKw | caseKw | catchKw | classKw | constKw | continueKw | debuggerKw | defaultKw
  | deleteKw | doKw | elseKw | exportKw | extendsKw | falseKw | finallyKw | forKw | functionKw
  | ifKw | importKw | inKw | instanceofKw | newKw | nullKw | returnKw | superKw | switchKw
  | thisKw | throwKw | trueKw | tryKw | typeofKw | varKw | voidKw | whileKw | withKw
deriving DecidableEq, Repr

namespace Keyword

/-- All reserved words, in alphabetical order. -/
def all : List Keyword :=
  [.breakKw, .caseKw, .catchKw, .classKw, .constKw, .continueKw, .debuggerKw, .defaultKw,
   .deleteKw, .doKw, .elseKw, .exportKw, .extendsKw, .falseKw, .finallyKw, .forKw, .functionKw,
   .ifKw, .importKw, .inKw, .instanceofKw, .newKw, .nullKw, .returnKw, .superKw, .switchKw,
   .thisKw, .throwKw, .trueKw, .tryKw, .typeofKw, .varKw, .voidKw, .whileKw, .withKw]

/-- How it is written. -/
def spelling : Keyword → Text
  | .breakKw => "break".toList
  | .caseKw => "case".toList
  | .catchKw => "catch".toList
  | .classKw => "class".toList
  | .constKw => "const".toList
  | .continueKw => "continue".toList
  | .debuggerKw => "debugger".toList
  | .defaultKw => "default".toList
  | .deleteKw => "delete".toList
  | .doKw => "do".toList
  | .elseKw => "else".toList
  | .exportKw => "export".toList
  | .extendsKw => "extends".toList
  | .falseKw => "false".toList
  | .finallyKw => "finally".toList
  | .forKw => "for".toList
  | .functionKw => "function".toList
  | .ifKw => "if".toList
  | .importKw => "import".toList
  | .inKw => "in".toList
  | .instanceofKw => "instanceof".toList
  | .newKw => "new".toList
  | .nullKw => "null".toList
  | .returnKw => "return".toList
  | .superKw => "super".toList
  | .switchKw => "switch".toList
  | .thisKw => "this".toList
  | .throwKw => "throw".toList
  | .trueKw => "true".toList
  | .tryKw => "try".toList
  | .typeofKw => "typeof".toList
  | .varKw => "var".toList
  | .voidKw => "void".toList
  | .whileKw => "while".toList
  | .withKw => "with".toList

/-- The name used in messages and listings: the word in capitals, marked as a keyword. -/
def tag (k : Keyword) : String := String.ofList (k.spelling.map Char.toUpper) ++ "_KW"

/-- The reserved word a text spells. -/
def ofText? (text : Text) : Option Keyword := all.find? fun k => k.spelling = text

end Keyword

end FreeNames
