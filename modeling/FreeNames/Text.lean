/-!
# FreeNames.Text

Source text as a list of characters.  Offsets into a text count the bytes of
its UTF-8 form, so a text can be cut only at offsets that fall between two
characters:

* `size` — how many bytes a text takes;
* `splitBytes?` — the two parts on either side of an offset, when there are two;
* `slice?` — the part between two offsets.
-/

namespace FreeNames

/-- Source text: its characters in order. -/
abbrev Text := List Char

instance : LawfulBEq Text := inferInstance

/-- A half-open range of byte offsets. -/
structure Span where
  start : Nat
  stop : Nat
deriving DecidableEq, Repr

namespace Text

/-- Bytes a text takes in UTF-8. -/
def size : Text → Nat
  | [] => 0
  | c :: cs => c.utf8Size + size cs

/-- The first `n` bytes and what follows them; `none` when `n` is past the end
or inside a character. -/
def splitBytes? : Nat → Text → Option (Text × Text)
  | 0, cs => some ([], cs)
  | _ + 1, [] => none
  | n + 1, c :: cs =>
    if c.utf8Size ≤ n + 1 then
      (splitBytes? (n + 1 - c.utf8Size) cs).map fun (front, back) => (c :: front, back)
    else
      none

/-- Whether an offset falls between two characters, or at either end. -/
def isBoundary (n : Nat) (cs : Text) : Bool := (splitBytes? n cs).isSome

/-- What follows the first `n` bytes. -/
def dropBytes? (n : Nat) (cs : Text) : Option Text := (splitBytes? n cs).map Prod.snd

/-- What stands between two offsets, `start ≤ stop`. -/
def slice? (start stop : Nat) (cs : Text) : Option Text :=
  (dropBytes? start cs).bind fun back => (splitBytes? (stop - start) back).map Prod.fst

/-- Order by code point, which is also the order of the UTF-8 bytes. -/
def le : Text → Text → Bool
  | [], _ => true
  | _ :: _, [] => false
  | a :: as, b :: bs => if a = b then le as bs else a.toNat < b.toNat

end Text

/-- The characters that end a line: line feed, carriage return, and the two
separators U+2028 and U+2029. -/
def isLineTerminator (c : Char) : Bool :=
  c = '\n' || c = '\r' || c.toNat = 0x2028 || c.toNat = 0x2029

end FreeNames
