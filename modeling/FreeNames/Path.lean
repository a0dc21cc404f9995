import FreeNames.Fault

/-!
# FreeNames.Path

Paths of properties, `window.location.href`, and rules that rename them.  A path
has at least one segment and no empty one; a rule has two paths of one length.
-/

namespace FreeNames

/-- A path: the global it starts at, and properties from there. -/
structure Path where
  head : Text
  tail : List Text
deriving DecidableEq, Repr

namespace Path

/-- Cut a text at its dots. -/
def cut : Text → Text × List Text
  | [] => ([], [])
  | c :: cs =>
    let (first, more) := cut cs
    if c = '.' then ([], first :: more) else (c :: first, more)

/-- All segments of a path. -/
def segments (p : Path) : List Text := p.head :: p.tail

/-- How many segments a path has. -/
def length (p : Path) : Nat := p.segments.length

/-- The first property of a path. -/
def second? (p : Path) : Option Text := p.tail.head?

/-- Read a path. -/
def parse (text : Text) : Except Fault Path :=
  let (head, tail) := cut text
  if (head :: tail).any List.isEmpty then .error (.badInput (.emptySegment text))
  else .ok ⟨head, tail⟩

/-- Segments joined by dots, each after a dot. -/
def dotted : List Text → Text
  | [] => []
  | s :: ss => '.' :: s ++ dotted ss

/-- Write a path. -/
def print (p : Path) : Text := p.head ++ dotted p.tail

end Path

/-- A rule: rename what one path leads to as another path says. -/
structure Rule where
  old : Path
  new : Path
  sameLength : old.length = new.length
deriving DecidableEq

namespace Rule

/-- Read a rule. -/
def parse (old new : Text) : Except Fault Rule := do
  let oldPath ← Path.parse old
  let newPath ← Path.parse new
  if h : oldPath.length = newPath.length then return ⟨oldPath, newPath, h⟩
  else throw (.arity old new)

/-- Whether a rule changes nothing. -/
def isIdentity (r : Rule) : Bool := r.old = r.new

/-- How many segments the paths of a rule have. -/
def length (r : Rule) : Nat := r.old.length

/-- Write a rule. -/
def print (r : Rule) : Text := r.old.print ++ " -> ".toList ++ r.new.print

end Rule

end FreeNames
