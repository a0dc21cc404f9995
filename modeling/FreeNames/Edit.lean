import FreeNames.Fault

/-!
# FreeNames.Edit

Editing a text in several places at once.  All edits give their places in the
text as it was; applying one moves those after it by the difference in length.
Edits are checked first, so that either all are made or none.
-/

namespace FreeNames

/-- Put a text in place of some bytes. -/
structure Edit where
  span : Span
  text : Text
deriving DecidableEq, Repr

namespace Edit

/-- By how many bytes an edit moves what comes after it. -/
def shift (e : Edit) : Int := (e.text.size : Int) - (e.span.stop - e.span.start : Nat)

/-- What is wrong with edits of a text, of which the one before ends at
`previous`. -/
def fault? (text : Text) (previous : Nat) : List Edit → Option BadInput
  | [] => none
  | e :: es =>
    if e.span.start < previous then some (.editsOverlap e.span)
    else if !text.isBoundary e.span.start || !text.isBoundary e.span.stop then
      some (.editOutside e.span)
    else fault? text e.span.stop es

/-- Put a text in place of the bytes between two offsets; outside the text
nothing changes. -/
def replace (text : Text) (start stop : Nat) (new : Text) : Text :=
  match text.splitBytes? start, text.dropBytes? stop with
  | some (front, _), some back => front ++ new ++ back
  | _, _ => text

/-- A text in which some edits have been made, and by how many bytes they have
moved what comes after them. -/
structure Progress where
  moved : Int
  text : Text
deriving DecidableEq, Repr

namespace Progress

/-- Where an offset into the text as it was is now. -/
def locate (p : Progress) (offset : Nat) : Int := offset + p.moved

/-- Make one more edit, moved by those before it. -/
def make (p : Progress) (e : Edit) : Progress :=
  ⟨p.moved + e.shift,
    replace p.text (p.locate e.span.start).toNat (p.locate e.span.stop).toNat e.text⟩

end Progress

/-- Make edits one after the other. -/
def applyAll (text : Text) (edits : List Edit) : Text := (edits.foldl Progress.make ⟨0, text⟩).text

/-- Make edits in a buffer, which come in order and do not overlap: what the
buffer holds afterwards, and what was wrong with the edits, if anything. -/
def splice (buffer : Text) (edits : List Edit) : Text × Option Fault :=
  match fault? buffer 0 edits with
  | some cause => (buffer, some (.badInput cause))
  | none => (applyAll buffer edits, none)

/-- The text with edits made in it. -/
def apply (text : Text) (edits : List Edit) : Except Fault Text :=
  match splice text edits with
  | (_, some fault) => .error fault
  | (text, none) => .ok text

end Edit

end FreeNames
