import FreeNames.Token.Delimited
import FreeNames.Token.Name
import FreeNames.Token.Number

/-!
# FreeNames.Token.Tokenize

The tokens of a text.  Two marks cannot be read without what came before: a
slash may divide or open a regular expression, and a closing brace may end a
block or a substitution in a template.  `Mode` holds what decides them.
-/

namespace FreeNames

/-- What an open brace belongs to. -/
inductive Brace where
  | block | template
deriving DecidableEq, Repr

/-- What the tokens read so far mean for the next one. -/
structure Mode where
  /-- The last token that is not trivia. -/
  previous : Option TokenKind
  /-- Braces that are open, innermost first. -/
  braces : List Brace
  /-- For each open parenthesis, innermost first, whether it opens the head of
  an `if`, `for`, `while` or `with` statement. -/
  heads : List Bool
  /-- Whether the last token closes such a head. -/
  afterHead : Bool
  /-- Whether the last two tokens are `for await`. -/
  forAwait : Bool
deriving DecidableEq, Repr

namespace Mode

/-- The mode at the start of a text. -/
def initial : Mode := ⟨none, [], [], false, false⟩

/-- Tokens that end an operand, so that a slash after them divides. -/
def endsOperand : TokenKind → Bool
  | .ident | .privateName | .number | .string | .regex | .templateTail => true
  | .punct .rParen | .punct .rBracket | .punct .plusPlus | .punct .minusMinus => true
  | .keyword .thisKw | .keyword .superKw | .keyword .nullKw | .keyword .trueKw
  | .keyword .falseKw => true
  | _ => false

/-- Whether a slash opens a regular expression: it does after the head of a
statement, and wherever no operand ends. -/
def regexAllowed (m : Mode) : Bool :=
  m.afterHead || !(m.previous.any endsOperand)

/-- Words whose parentheses are the head of a statement. -/
def opensHead : TokenKind → Bool
  | .keyword .ifKw | .keyword .forKw | .keyword .whileKw | .keyword .withKw => true
  | _ => false

/-- Open braces after a token. -/
def bracesAfter (braces : List Brace) (t : Token) : List Brace :=
  let braces := if t.text.head? = some '\x7d' then braces.tail else braces
  match t.kind with
  | .punct .lBrace => .block :: braces
  | .templateHead => .template :: braces
  | _ => braces

/-- The mode after a token. -/
def after (m : Mode) (t : Token) : Mode :=
  if t.isTrivia then m
  else
    { previous := some t.kind
      braces := bracesAfter m.braces t
      heads :=
        match t.kind with
        | .punct .lParen => (m.forAwait || m.previous.any opensHead) :: m.heads
        | .punct .rParen => m.heads.tail
        | _ => m.heads
      afterHead := t.kind = .punct .rParen && m.heads.headD false
      forAwait :=
        t.kind = .ident && t.text = "await".toList && m.previous = some (.keyword .forKw) }

/-- The punctuation at the start of a text, or an error of one character. -/
def scanPunct (cs : Text) : TokenKind × Nat :=
  match Punct.at? cs with
  | some p => (.punct p, p.spelling.length)
  | none => (.error, 1)

/-- A token that starts with a slash. -/
def scanSlash (m : Mode) : Text → TokenKind × Nat
  | '/' :: '/' :: cs =>
    (.trivia .lineComment, 2 + (cs.takeWhile fun c => !isLineTerminator c).length)
  | '/' :: '*' :: cs =>
    match Delimited.comment cs with
    | some n => (.trivia .blockComment, 2 + n)
    | none => (.error, 2 + cs.length)
  | cs =>
    match if m.regexAllowed then Delimited.regex cs.tail else none with
    | some n => (.regex, 1 + n)
    | none => scanPunct cs

/-- A token that starts with a number sign: the interpreter line, which can
only be first, or a private name. -/
def scanHash (first : Bool) : Text → TokenKind × Nat
  | '#' :: '!' :: cs =>
    let n := 2 + (cs.takeWhile fun c => c ≠ '\n' && c ≠ '\r').length
    (if first then .trivia .shebang else .error, n)
  | cs => Name.scanPrivate cs

/-- A token that starts with a quote. -/
def scanQuoted (quote : Char) (cs : Text) : TokenKind × Nat :=
  let r := Delimited.quoted quote cs
  (if r.closed then .string else .error, 1 + r.length)

/-- A chunk of a template after its opening mark. -/
def scanTemplate (cs : Text) : TokenKind × Nat :=
  let (kind, n) := Delimited.template cs
  (kind, 1 + n)

/-- The kind and length of the token at the start of a text; `first` says
whether nothing stands in front of it. -/
def scan (m : Mode) (first : Bool) : Text → TokenKind × Nat
  | [] => (.error, 0)
  | c :: cs =>
    if Name.isBlank c then (.trivia .whitespace, 1 + (cs.takeWhile Name.isBlank).length)
    else if c = '/' then m.scanSlash (c :: cs)
    else if c = '#' then scanHash first (c :: cs)
    else if c = '\x22' || c = '\x27' then scanQuoted c cs
    else if c = '\x60' || (c = '\x7d' && m.braces.head? = some .template) then scanTemplate cs
    else
      match Number.length (c :: cs) with
      | 0 =>
        if Name.isStartChar c || c = '\\' then Name.scan (c :: cs) else scanPunct (c :: cs)
      | n => (.number, n)

end Mode

/-- The tokens of a text that is read in a given mode; the text has at most as
many tokens as the bound it starts with. -/
def tokensFrom : (bound : Nat) → Mode → (first : Bool) → Text → List Token
  | 0, _, _, _ => []
  | _ + 1, _, _, [] => []
  | bound + 1, m, first, c :: cs =>
    let (kind, n) := m.scan first (c :: cs)
    let t : Token := ⟨kind, (c :: cs).take n⟩
    t :: tokensFrom bound (m.after t) false ((c :: cs).drop n)

/-- The tokens of a text, trivia included.  No token is empty, so there are no
more of them than characters. -/
def tokenize (text : Text) : List Token := tokensFrom text.length .initial true text

end FreeNames
