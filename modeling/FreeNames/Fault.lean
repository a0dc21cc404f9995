import FreeNames.Text.Position
import FreeNames.Text.Utf8
import FreeNames.Problem
import FreeNames.Tree.NodeKind

/-!
# FreeNames.Fault

Why a program cannot be analysed or renamed in.
-/

namespace FreeNames

/-- Bytes as they are shown: `2..4`. -/
def Span.show (s : Span) : String := toString s.start ++ ".." ++ toString s.stop

/-- Input that makes no sense whatever the program is. -/
inductive BadInput where
  /-- A path has an empty segment. -/
  | emptySegment (path : Text)
  /-- A node that is not a program. -/
  | notProgram (kind : NodeKind)
  /-- An edit starts before the one in front of it ends. -/
  | editsOverlap (span : Span)
  /-- An edit reaches past the text or cuts a character. -/
  | editOutside (span : Span)
  /-- Bytes that are not UTF-8. -/
  | notUtf8 (fault : Utf8.Fault)
deriving DecidableEq, Repr

/-- The wording of bad input. -/
def BadInput.message : BadInput → String
  | .emptySegment path =>
    "empty segment in replacement path \"" ++ String.ofList path ++ "\""
  | .notProgram kind => "expected a program root, found " ++ kind.tag
  | .editsOverlap span => "replacement spans overlap or are unordered at " ++ span.show
  | .editOutside span => "replacement span " ++ span.show ++ " is outside the text"
  | .notUtf8 fault => "source is not UTF-8 text: " ++ fault.message

/-- Why nothing can be done. -/
inductive Fault where
  /-- The program is broken; lines count from one, columns from zero. -/
  | syntaxError (message : String) (span : Span) (line column : Nat)
  | badInput (cause : BadInput)
  /-- The two paths of a rule differ in length. -/
  | arity (old new : Text)
deriving DecidableEq, Repr

namespace Fault

/-- The wording of a fault. -/
def message : Fault → String
  | .syntaxError message _ line column =>
    message ++ " (" ++ toString line ++ ":" ++ toString column ++ ")"
  | .badInput cause => "Invalid input: " ++ cause.message
  | .arity old new =>
    "When replacing expressions, the parts must be the same length: \""
      ++ String.ofList old ++ "\" -> \"" ++ String.ofList new ++ "\""

/-- A message about some bytes of a text, with their line and column. -/
def located (message : String) (span : Span) (text : Text) : Fault :=
  let position := text.positionAt span.start
  .syntaxError message span (position.line + 1) position.column

/-- The fault that a problem is. -/
def ofProblem (problem : Problem) (text : Text) : Fault :=
  located problem.cause.message problem.span text

end Fault

end FreeNames
