import FreeNames.Text.Xid
import FreeNames.Token
import FreeNames.Token.Number

/-!
# FreeNames.Token.Name

How far a name reaches and whether it is one.  Above ASCII every character that
is not white space is read as part of a name; a name holding one that Unicode
does not allow there is an error as a whole.  A name may also spell a character
by an escape: a backslash, `u`, and its code point in hexadecimal, as four
digits or in braces.
-/

namespace FreeNames.Name

/-- White space, line ends included. -/
def isBlank (c : Char) : Bool :=
  let n := c.toNat
  n = 0x20 || (0x09 ≤ n && n ≤ 0x0D) || n = 0xA0 || n = 0xFEFF || n = 0x1680
    || (0x2000 ≤ n && n ≤ 0x200A) || n = 0x2028 || n = 0x2029 || n = 0x202F || n = 0x205F
    || n = 0x3000

/-- What a name is read to begin with. -/
def isStartChar (c : Char) : Bool :=
  c.isAlpha || c = '_' || c = '$' || (0x80 ≤ c.toNat && !isBlank c)

/-- What a name is read to go on with. -/
def isPartChar (c : Char) : Bool := isStartChar c || c.isDigit

/-- Length of the run of hexadecimal digits at the start of a text. -/
def hexRun (cs : Text) : Nat := (cs.takeWhile Number.isHexDigit).length

/-- Length of the escape at the start of a text; zero when there is no whole one. -/
def escape : Text → Nat
  | '\\' :: 'u' :: '\x7b' :: cs =>
    let n := hexRun cs
    if 0 < n && (cs.drop n).head? = some '\x7d' then 3 + n + 1 else 0
  | '\\' :: 'u' :: a :: b :: c :: d :: _ =>
    if [a, b, c, d].all Number.isHexDigit then 6 else 0
  | _ => 0

/-- Length of an escape in braces that has digits but is not closed. -/
def unclosedEscape : Text → Nat
  | '\\' :: 'u' :: '\x7b' :: cs =>
    let n := hexRun cs
    if 0 < n && (cs.drop n).head? ≠ some '\x7d' then 3 + n else 0
  | _ => 0

/-- Length of one part of a name: a character or an escape. -/
def part : Text → Nat
  | [] => 0
  | c :: cs => if isPartChar c then 1 else escape (c :: cs)

/-- Length of the parts of a name in a row, when `skip` characters belong to
the part before. -/
def parts : (skip : Nat) → Text → Nat
  | _, [] => 0
  | skip + 1, _ :: cs => 1 + parts skip cs
  | 0, c :: cs =>
    match part (c :: cs) with
    | 0 => 0
    | n + 1 => 1 + parts n cs

/-- Length of the name at the start of a text. -/
def length : Text → Nat
  | [] => 0
  | c :: cs =>
    if isStartChar c || escape (c :: cs) ≠ 0 then parts 0 (c :: cs) else 0

/-- Whether every character is allowed in its place; escapes are taken as they
are written. -/
def isAllowed : Text → Bool
  | [] => false
  | c :: cs =>
    (c.toNat < 0x80 || Xid.isStart c) && cs.all fun c => c.toNat < 0x80 || Xid.isContinue c

/-- Whether a character may lead on to more of a name: a backslash, or anything
above ASCII. -/
def leadsOn (c : Char) : Bool := c = '\\' || 0x80 ≤ c.toNat

/-- What a whole name is, given the text after it.  A reserved word counts as
one only if nothing leads on from it; before a backslash or a character above
ASCII it is an identifier. -/
def kindOf (name rest : Text) : TokenKind :=
  match if rest.head?.any leadsOn then none else Keyword.ofText? name with
  | some k => .keyword k
  | none => if isAllowed name then .ident else .error

/-- The name at the start of a text.  An unclosed escape makes an error of all
that was read, and what cannot begin a name is an error by itself. -/
def scan (cs : Text) : TokenKind × Nat :=
  let n := length cs
  match unclosedEscape (cs.drop n), n with
  | 0, 0 => (.error, 1)
  | 0, n => (kindOf (cs.take n) (cs.drop n), n)
  | k, n => (.error, n + k)

/-- The private name at the start of a text, which begins with `#`. -/
def scanPrivate (cs : Text) : TokenKind × Nat :=
  let n := length cs.tail
  match unclosedEscape (cs.tail.drop n), n with
  | 0, 0 => (.error, 1)
  | 0, n => (if isAllowed (cs.take (n + 1)) then .privateName else .error, n + 1)
  | k, n => (.error, n + 1 + k)

end FreeNames.Name
