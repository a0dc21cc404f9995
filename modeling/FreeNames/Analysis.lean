import FreeNames.Fault
import FreeNames.Global
import FreeNames.Grammar.Parse

/-!
# FreeNames.Analysis

From a text to its globals.  A script that turns out to hold imports or exports
is taken for a module.
-/

namespace FreeNames

/-- The parse in force: a script with imports or exports is parsed as a module. -/
def parseEither (source : SourceType) (text : Text) : Parse :=
  let p := parse source text
  if source = .script && p.needsModule then parse .module text else p

/-- Parse a text that has to be without problems; the first problem is the fault. -/
def parseProgram (source : SourceType) (text : Text) : Except Fault Parse :=
  let p := parseEither source text
  match p.problems with
  | [] => .ok p
  | problem :: _ => .error (.ofProblem problem text)

theorem parseProgram_eq_ok_iff {source : SourceType} {text : Text} {p : Parse} :
    parseProgram source text = .ok p ↔
      p = parseEither source text ∧ (parseEither source text).problems = [] := by
  simp only [parseProgram]
  split
  · next h => simp [h, eq_comm]
  · next h => simp [h]

/-- The globals of a parsed program. -/
def globalsAt (root : Site) : Except Fault (List Group) :=
  if root.node.kind = .program then .ok (Globals.collect (Scopes.build root) root)
  else .error (.badInput (.notProgram root.node.kind))

/-- The globals of a text. -/
def globals (source : SourceType) (text : Text) : Except Fault (List Group) := do
  globalsAt (← parseProgram source text).root

end FreeNames
