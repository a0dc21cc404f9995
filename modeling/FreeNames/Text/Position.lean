import FreeNames.Text

/-!
# FreeNames.Text.Position

Lines and columns of byte offsets.  A line ends with a line feed, a carriage
return, a carriage return with its line feed, U+2028 or U+2029.  Columns count
UTF-16 code units from the start of the line.
-/

namespace FreeNames

/-- A line and a column, both counted from zero. -/
structure Position where
  line : Nat
  column : Nat
deriving DecidableEq, Repr

namespace Text

/-- UTF-16 code units of a text: two for a character beyond the basic plane. -/
def units16 : Text → Nat
  | [] => 0
  | c :: cs => (if c.toNat < 0x10000 then 1 else 2) + units16 cs

/-- Offsets just after each line end, for a text that starts at `offset`. -/
def lineStartsFrom (offset : Nat) : Text → List Nat
  | [] => []
  | '\r' :: '\n' :: cs => (offset + 2) :: lineStartsFrom (offset + 2) cs
  | c :: cs =>
    let next := offset + c.utf8Size
    if isLineTerminator c then next :: lineStartsFrom next cs else lineStartsFrom next cs

/-- Offsets at which the lines of a text start. -/
def lineStarts (text : Text) : List Nat := 0 :: lineStartsFrom 0 text

/-- How many lines a text has; the empty text has one. -/
def lineCount (text : Text) : Nat := text.lineStarts.length

/-- The line and column of a byte offset.  An offset past the end stands for
the end.  Inside a character the column is the distance in bytes from the start
of the line, as there is no whole number of code units to count. -/
def positionAt (text : Text) (offset : Nat) : Position :=
  let stop := min offset text.size
  let before := text.lineStarts.filter (· ≤ stop)
  let start := before.getLastD 0
  let column :=
    match text.slice? start stop with
    | some front => units16 front
    | none => stop - start
  ⟨before.length - 1, column⟩

end Text

end FreeNames
