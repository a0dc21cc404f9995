import FreeNames.Text

/-!
# FreeNames.Json

JSON documents: reading a value, and writing a string.
-/

namespace FreeNames

/-- A JSON value.  A string or key is `none` when an escape in it names half of
a surrogate pair: it is well formed, but spells no text. -/
inductive Json where
  | null
  | bool (value : Bool)
  /-- A number as it is written. -/
  | number (digits : Text)
  | string (text : Option Text)
  | array (items : List Json)
  | object (fields : List (Option Text × Json))

namespace Json

/-! ## Reading strings -/

/-- The value of a hexadecimal digit. -/
def hexValue? (c : Char) : Option Nat :=
  if c.isDigit then some (c.toNat - '0'.toNat)
  else if 'a' ≤ c && c ≤ 'f' then some (c.toNat - 'a'.toNat + 10)
  else if 'A' ≤ c && c ≤ 'F' then some (c.toNat - 'A'.toNat + 10)
  else none

/-- The value of four hexadecimal digits. -/
def unit? (a b c d : Char) : Option Nat := do
  return (((← hexValue? a) * 16 + (← hexValue? b)) * 16 + (← hexValue? c)) * 16 + (← hexValue? d)

/-- First halves of surrogate pairs. -/
def isLead (n : Nat) : Bool := 0xD800 ≤ n && n ≤ 0xDBFF

/-- Second halves of surrogate pairs. -/
def isTrail (n : Nat) : Bool := 0xDC00 ≤ n && n ≤ 0xDFFF

/-- The character that a surrogate pair stands for. -/
def pairChar (lead trail : Nat) : Char :=
  Char.ofNat ((lead - 0xD800) * 1024 + (trail - 0xDC00) + 0x10000)

/-- The character that a backslash and a letter stand for. -/
def simpleEscape? (c : Char) : Option Char :=
  if c = '\x22' || c = '\\' || c = '/' then some c
  else if c = 'b' then some '\x08'
  else if c = 'f' then some '\x0c'
  else if c = 'n' then some '\n'
  else if c = 'r' then some '\r'
  else if c = 't' then some '\t'
  else none

/-- What a string is made of as it is written: characters, and escapes that give
a UTF-16 code unit by number. -/
inductive Piece where
  | char (c : Char)
  | unit (n : Nat)

/-- The pieces of a string after its opening quote, and what follows its closing
quote. -/
def readPieces : Text → Option (List Piece × Text)
  | [] => none
  | '\x22' :: cs => some ([], cs)
  | '\\' :: 'u' :: a :: b :: c :: d :: cs =>
    match unit? a b c d with
    | none => none
    | some n => (readPieces cs).map fun read => (.unit n :: read.1, read.2)
  | '\\' :: c :: cs =>
    match simpleEscape? c with
    | none => none
    | some c => (readPieces cs).map fun read => (.char c :: read.1, read.2)
  | c :: cs =>
    if c.toNat < 0x20 then none
    else (readPieces cs).map fun read => (.char c :: read.1, read.2)

/-- The text that pieces spell, if the surrogates among them come in pairs. -/
def join? : List Piece → Option Text
  | [] => some []
  | .char c :: ps => (join? ps).map (c :: ·)
  | .unit n :: ps =>
    if isLead n then
      match ps with
      | .unit m :: ps => if isTrail m then (join? ps).map (pairChar n m :: ·) else none
      | _ => none
    else if isTrail n then none
    else (join? ps).map (Char.ofNat n :: ·)

/-- A string after its opening quote, and what follows its closing quote. -/
def readString (cs : Text) : Option (Option Text × Text) :=
  (readPieces cs).map fun read => (join? read.1, read.2)

/-! ## Reading values -/

/-- White space between the parts of a document. -/
def isBlank (c : Char) : Bool := c = ' ' || c = '\t' || c = '\n' || c = '\r'

/-- A text without the white space in front of it. -/
def skipBlank (cs : Text) : Text := cs.dropWhile isBlank

/-- Length of digits in a row; at least one has to be there. -/
def digits? (cs : Text) : Option Nat :=
  match (cs.takeWhile Char.isDigit).length with
  | 0 => none
  | n + 1 => some (n + 1)

/-- Length of the whole part of a number, which has no needless zero in front. -/
def wholePart? (cs : Text) : Option Nat := do
  let n ← digits? cs
  guard (cs.head? ≠ some '0' || n = 1)
  return n

/-- Length of the fraction of a number, if it has one. -/
def fraction? : Text → Option Nat
  | '.' :: cs => (digits? cs).map (· + 1)
  | _ => some 0

/-- Length of the exponent of a number, if it has one. -/
def exponent? : Text → Option Nat
  | [] => some 0
  | c :: cs =>
    if c = 'e' || c = 'E' then
      match cs with
      | [] => none
      | s :: rest =>
        if s = '+' || s = '-' then (digits? rest).map (· + 2) else (digits? cs).map (· + 1)
    else some 0

/-- Length of a number. -/
def number? (cs : Text) : Option Nat := do
  let sign := if cs.head? = some '-' then 1 else 0
  let n := sign + (← wholePart? (cs.drop sign))
  let n := n + (← fraction? (cs.drop n))
  return n + (← exponent? (cs.drop n))

mutual

/-- A value and what follows it. -/
def readValue : (bound : Nat) → Text → Option (Json × Text)
  | 0, _ => none
  | bound + 1, cs =>
    match skipBlank cs with
    | 'n' :: 'u' :: 'l' :: 'l' :: cs => some (.null, cs)
    | 't' :: 'r' :: 'u' :: 'e' :: cs => some (.bool true, cs)
    | 'f' :: 'a' :: 'l' :: 's' :: 'e' :: cs => some (.bool false, cs)
    | '\x22' :: cs => (readString cs).map fun read => (.string read.1, read.2)
    | '[' :: cs =>
      match skipBlank cs with
      | ']' :: cs => some (.array [], cs)
      | cs => (readItems bound cs).map fun read => (.array read.1, read.2)
    | '\x7b' :: cs =>
      match skipBlank cs with
      | '\x7d' :: cs => some (.object [], cs)
      | cs => (readFields bound cs).map fun read => (.object read.1, read.2)
    | cs => (number? cs).map fun n => (.number (cs.take n), cs.drop n)

/-- The items of an array, of which there is at least one. -/
def readItems : (bound : Nat) → Text → Option (List Json × Text)
  | 0, _ => none
  | bound + 1, cs =>
    match readValue bound cs with
    | none => none
    | some (item, cs) =>
      match skipBlank cs with
      | ',' :: cs => (readItems bound cs).map fun read => (item :: read.1, read.2)
      | ']' :: cs => some ([item], cs)
      | _ => none

/-- The fields of an object, of which there is at least one. -/
def readFields : (bound : Nat) → Text → Option (List (Option Text × Json) × Text)
  | 0, _ => none
  | bound + 1, cs =>
    match skipBlank cs with
    | '\x22' :: cs =>
      match readString cs with
      | none => none
      | some (key, cs) =>
        match skipBlank cs with
        | ':' :: cs =>
          match readValue bound cs with
          | none => none
          | some (value, cs) =>
            match skipBlank cs with
            | ',' :: cs =>
              (readFields bound cs).map fun read => ((key, value) :: read.1, read.2)
            | '\x7d' :: cs => some ([(key, value)], cs)
            | _ => none
        | _ => none
    | _ => none

end

/-- Read a document: one value, and nothing but white space around it.  Every
second call at least reads a character, which bounds the calls. -/
def parse? (text : Text) : Option Json := do
  let (value, rest) ← readValue (2 * text.length + 2) text
  guard (skipBlank rest).isEmpty
  return value

/-! ## Writing strings -/

/-- A hexadecimal digit. -/
def hexDigit (n : Nat) : Char :=
  if n < 10 then Char.ofNat ('0'.toNat + n) else Char.ofNat ('a'.toNat + (n - 10))

/-- How a character is written inside a string. -/
def escape (c : Char) : Text :=
  if c = '\x22' then ['\\', '\x22']
  else if c = '\\' then ['\\', '\\']
  else if c = '\x08' then ['\\', 'b']
  else if c = '\x0c' then ['\\', 'f']
  else if c = '\n' then ['\\', 'n']
  else if c = '\r' then ['\\', 'r']
  else if c = '\t' then ['\\', 't']
  else if c.toNat < 0x20 then
    ['\\', 'u', '0', '0', hexDigit (c.toNat / 16), hexDigit (c.toNat % 16)]
  else [c]

/-- A text as a JSON string. -/
def quote (text : Text) : Text := '\x22' :: text.flatMap escape ++ ['\x22']

end Json

end FreeNames
