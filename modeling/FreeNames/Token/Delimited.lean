import FreeNames.Token

/-!
# FreeNames.Token.Delimited

Tokens that run up to a closing mark: comments, strings, regular expressions
and templates.  Lengths are counted from just after the opening mark.
-/

namespace FreeNames.Delimited

/-- Length of a block comment up to and including its end. -/
def comment : Text → Option Nat
  | [] => none
  | '*' :: '/' :: _ => some 2
  | _ :: cs => (comment cs).map (· + 1)

/-- How far a string reaches, and whether it closes there. -/
structure Reach where
  length : Nat
  closed : Bool
deriving DecidableEq, Repr

/-- The same with `n` more characters in front. -/
def Reach.after (n : Nat) (r : Reach) : Reach := ⟨n + r.length, r.closed⟩

/-- A string up to its closing quote.  A backslash joins the next character to
the string, a line end included.  A string that does not close reaches up to the
line end or to the end of the text; a carriage return joined by a backslash does
not belong to it when nothing of the string comes after. -/
def quoted (quote : Char) : Text → Reach
  | [] => ⟨0, false⟩
  | ['\\'] => ⟨1, false⟩
  | '\\' :: '\r' :: '\n' :: cs => (quoted quote cs).after 3
  | '\\' :: '\r' :: cs =>
    let r := quoted quote cs
    if r = ⟨0, false⟩ then ⟨1, false⟩ else r.after 2
  | '\\' :: _ :: cs => (quoted quote cs).after 2
  | c :: cs =>
    if c = quote then ⟨1, true⟩
    else if c = '\n' || c = '\r' then ⟨0, false⟩
    else (quoted quote cs).after 1

/-- Length of the body of a regular expression up to and including its closing
slash, which must come before the end of the line.  A slash inside a class does
not close. -/
def regexBody (inClass : Bool) : Text → Option Nat
  | [] => none
  | '\\' :: c :: cs => if isLineTerminator c then none else (regexBody inClass cs).map (· + 2)
  | c :: cs =>
    if isLineTerminator c then none
    else if c = '/' && !inClass then some 1
    else
      let inClass := if c = '[' then true else if c = ']' then false else inClass
      (regexBody inClass cs).map (· + 1)

/-- What may stand among the flags of a regular expression. -/
def isFlag (c : Char) : Bool := c.isAlphanum || c = '_' || c = '$'

/-- Length of a regular expression with its flags. -/
def regex (cs : Text) : Option Nat :=
  (regexBody false cs).map fun n => n + ((cs.drop n).takeWhile isFlag).length

/-- A chunk of a template: up to and including the closing backtick or the
opening of the next substitution.  A chunk that ends with neither is an error
that reaches the end of the text. -/
def template : Text → TokenKind × Nat
  | [] => (.error, 0)
  | '\\' :: _ :: cs => let (kind, n) := template cs; (kind, n + 2)
  | '\x60' :: _ => (.templateTail, 1)
  | '$' :: '\x7b' :: _ => (.templateHead, 2)
  | _ :: cs => let (kind, n) := template cs; (kind, n + 1)

end FreeNames.Delimited
