import FreeNames.Text

/-!
# FreeNames.Token.Number

How far a number reaches.  Each function gives the length of the longest match
of its form at the start of a text, and zero when there is none.  With `D` for
digits that may be separated by single low lines, a number is the longest of

* `D .? exponent?`, an exponent being `e` or `E` with an optional sign and
  optional digits, after which one more low line may follow;
* `D? . D`, then a bare exponent if another `e` stands right after it, then an
  optional exponent;
* `D n`;
* `0x`, `0o` or `0b`, optionally with digits of that base, which one low line
  and then one `n` may follow.
-/

namespace FreeNames.Number

/-- One, when a text starts with a character of a class. -/
def one (p : Char → Bool) : Text → Nat
  | [] => 0
  | c :: _ => if p c then 1 else 0

/-- One form and then another, either of which may be empty. -/
def beside (first second : Text → Nat) (cs : Text) : Nat :=
  first cs + second (cs.drop (first cs))

/-- One form and then another that may be empty; nothing when the first is. -/
def andThen (first second : Text → Nat) (cs : Text) : Nat :=
  match first cs with
  | 0 => 0
  | n + 1 => n + 1 + second (cs.drop (n + 1))

/-- One form and then another; nothing when either is empty. -/
def both (first second : Text → Nat) (cs : Text) : Nat :=
  match first cs with
  | 0 => 0
  | n + 1 =>
    match second (cs.drop (n + 1)) with
    | 0 => 0
    | m + 1 => n + 1 + (m + 1)

/-- Length of digits that continue a run, each with a low line in front at most. -/
def moreDigits (isDigit : Char → Bool) : Text → Nat
  | [] => 0
  | '_' :: c :: cs => if isDigit c then 2 + moreDigits isDigit cs else 0
  | c :: cs => if isDigit c then 1 + moreDigits isDigit cs else 0

/-- Digits separated by single low lines. -/
def digits (isDigit : Char → Bool) : Text → Nat := andThen (one isDigit) (moreDigits isDigit)

/-- The letter that starts an exponent. -/
def isExponentLetter (c : Char) : Bool := c = 'e' || c = 'E'

/-- A sign of an exponent. -/
def isSign (c : Char) : Bool := c = '+' || c = '-'

/-- An exponent without digits. -/
def bareExponent : Text → Nat := andThen (one isExponentLetter) (one isSign)

/-- Digits and one more low line, when there are digits. -/
def digitsAndLowLine (isDigit : Char → Bool) : Text → Nat := andThen (digits isDigit) (one (· = '_'))

/-- An exponent. -/
def exponent : Text → Nat := andThen bareExponent (digitsAndLowLine Char.isDigit)

/-- A bare exponent that another exponent letter follows. -/
def doubledExponent (cs : Text) : Nat :=
  bareExponent cs * one isExponentLetter (cs.drop (bareExponent cs))

/-- `D .? exponent?` -/
def whole : Text → Nat := andThen (digits Char.isDigit) (beside (one (· = '.')) exponent)

/-- `. D`, with what may follow it. -/
def fraction : Text → Nat :=
  andThen (both (one (· = '.')) (digits Char.isDigit)) (beside doubledExponent exponent)

/-- `D? . D`, with what may follow it. -/
def fractional (cs : Text) : Nat :=
  let n := digits Char.isDigit cs
  match fraction (cs.drop n) with
  | 0 => 0
  | m + 1 => n + (m + 1)

/-- `D n` -/
def big : Text → Nat := both (digits Char.isDigit) (one (· = 'n'))

/-- Digits of base sixteen. -/
def isHexDigit (c : Char) : Bool :=
  c.isDigit || ('a' ≤ c && c ≤ 'f') || ('A' ≤ c && c ≤ 'F')

/-- The digits of the base that a letter after `0` announces. -/
def radixDigit? (letter : Char) : Option (Char → Bool) :=
  if letter = 'x' || letter = 'X' then some isHexDigit
  else if letter = 'o' || letter = 'O' then some fun c => '0' ≤ c && c ≤ '7'
  else if letter = 'b' || letter = 'B' then some fun c => c = '0' || c = '1'
  else none

/-- A number with its base written in front. -/
def radix : Text → Nat
  | '0' :: letter :: cs =>
    match radixDigit? letter with
    | none => 0
    | some isDigit => 2 + andThen (digitsAndLowLine isDigit) (one (· = 'n')) cs
  | _ => 0

/-- Length of the number at the start of a text. -/
def length (cs : Text) : Nat := max (max (whole cs) (fractional cs)) (max (big cs) (radix cs))

end FreeNames.Number
