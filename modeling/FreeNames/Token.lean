import FreeNames.Token.Keyword
import FreeNames.Token.Punct

/-!
# FreeNames.Token

Tokens of JavaScript source.  The tokens of a text leave nothing out: white
space and comments are tokens too, and a stretch that fits no token is an
`error` token.
-/

namespace FreeNames

/-- Tokens without meaning of their own. -/
inductive Trivia where
  | whitespace | lineComment | blockComment | shebang
deriving DecidableEq, Repr

namespace Trivia

/-- All kinds of trivia. -/
def all : List Trivia := [.whitespace, .lineComment, .blockComment, .shebang]

/-- The name used in listings. -/
def tag : Trivia → String
  | .whitespace => "WHITESPACE"
  | .lineComment => "LINE_COMMENT"
  | .blockComment => "BLOCK_COMMENT"
  | .shebang => "SHEBANG"

end Trivia

/-- What a token is.  A template is cut at its substitutions: a `templateHead`
runs up to the next substitution, a `templateTail` to the end of the template. -/
inductive TokenKind where
  | trivia (t : Trivia)
  | ident
  | privateName
  | number
  | string
  | regex
  | templateHead
  | templateTail
  | punct (p : Punct)
  | keyword (k : Keyword)
  | error
deriving DecidableEq, Repr

namespace TokenKind

/-- All kinds of tokens but `error`. -/
def all : List TokenKind :=
  Trivia.all.map .trivia
    ++ [.ident, .privateName, .number, .string, .regex, .templateHead, .templateTail]
    ++ Punct.all.map .punct ++ Keyword.all.map .keyword

/-- The name used in messages and listings. -/
def tag : TokenKind → String
  | .trivia t => t.tag
  | .ident => "IDENT"
  | .privateName => "PRIVATE_NAME"
  | .number => "NUMBER"
  | .string => "STRING"
  | .regex => "REGEX"
  | .templateHead => "TEMPLATE_HEAD"
  | .templateTail => "TEMPLATE_TAIL"
  | .punct p => p.tag
  | .keyword k => k.tag
  | .error => "ERROR"

/-- White space, comments and the interpreter line. -/
def isTrivia : TokenKind → Bool
  | .trivia _ => true
  | _ => false

/-- Reserved words. -/
def isKeyword : TokenKind → Bool
  | .keyword _ => true
  | _ => false

/-- Punctuation and operators. -/
def isPunct : TokenKind → Bool
  | .punct _ => true
  | _ => false

/-- Operators that assign. -/
def isAssign : TokenKind → Bool
  | .punct p => p.isAssign
  | _ => false

/-- What may stand where the grammar asks for a name that need not be free of
reserved words: after `.`, as a key, as an imported or exported name. -/
def isIdentifierName : TokenKind → Bool
  | .ident | .keyword _ => true
  | _ => false

end TokenKind

/-- A token: what it is and how it is written. -/
structure Token where
  kind : TokenKind
  text : Text
deriving DecidableEq, Repr

namespace Token

/-- Bytes the token takes. -/
def size (t : Token) : Nat := Text.size t.text

/-- Whether the token is trivia. -/
def isTrivia (t : Token) : Bool := t.kind.isTrivia

/-- Whether a line ends inside the token. -/
def hasLineBreak (t : Token) : Bool := t.text.any isLineTerminator

/-- Tokens with the offsets at which they start, the first one at `offset`. -/
def locate (offset : Nat) : List Token → List (Nat × Token)
  | [] => []
  | t :: ts => (offset, t) :: locate (offset + t.size) ts

/-- The text that tokens spell together. -/
def concat (ts : List Token) : Text := ts.flatMap Token.text

end Token

end FreeNames
