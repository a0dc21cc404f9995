import FreeNames.Problem
import FreeNames.Tree.Builder

/-!
# FreeNames.Grammar.Draft

The state of a parse.  A `Draft` holds the tokens that are left, the trees
gathered so far for the node that is open, and the problems met.

Trivia stands in front of a token until it is placed.  It is placed before a
node that starts at the token, so that no node but the root starts with trivia:

* `Draft.take` — place the trivia and the next token;
* `Draft.node` — place the trivia, then gather the parts of a node;
* `Draft.group` — place the trivia, then gather trees apart from those before;
* `Draft.enclose` — make one node of all the trees gathered and of what follows.

A group that is enclosed halfway becomes the first part of a larger node: this
is how the left operand of an operator ends up inside the operation.  A draft
also keeps the steps in which its trees were built.
-/

namespace FreeNames

/-- What stands between two tokens: the trivia not yet placed, whether a line
ends there, and where it stops. -/
structure Gap where
  trivia : List Token
  newline : Bool
  stop : Nat
  onlyTrivia : ∀ t ∈ trivia, t.isTrivia = true
deriving DecidableEq, Repr

namespace Gap

/-- The gap at an offset before which a token stops. -/
def empty (offset : Nat) : Gap := ⟨[], false, offset, by simp⟩

/-- The gap with one more token in it. -/
def push (g : Gap) (t : Token) (h : t.isTrivia = true) : Gap where
  trivia := g.trivia ++ [t]
  newline := g.newline || t.hasLineBreak
  stop := g.stop + t.size
  onlyTrivia := by simpa [or_imp, forall_and, h] using g.onlyTrivia

/-- The gap when its trivia has been placed. -/
def placed (g : Gap) : Gap := { g with trivia := [], onlyTrivia := by simp }

end Gap

/-- A token that is not trivia, with the gap in front of it. -/
structure Lexeme where
  gap : Gap
  token : Token
deriving DecidableEq, Repr

/-- Pair the tokens that are not trivia with the gaps in front of them, and
keep the last gap.  The tokens come after some trivia. -/
def lexemesFrom (gap : Gap) : List Token → List Lexeme × Gap
  | [] => ([], gap)
  | t :: ts =>
    if h : t.isTrivia then lexemesFrom (gap.push t h) ts
    else
      let (lexemes, last) := lexemesFrom (.empty (gap.stop + t.size)) ts
      (⟨gap, t⟩ :: lexemes, last)

/-- The state of a parse. -/
structure Draft where
  /-- What is left to read. -/
  rest : List Lexeme
  /-- The gap at the end of the text. -/
  last : Gap
  /-- Trees of the open node or group, latest first. -/
  trees : List Tree
  /-- Number of trees that stand before those of the open node or group. -/
  base : Nat
  /-- Steps in which the trees were built, latest first. -/
  steps : List Step
  /-- Problems met, latest first. -/
  problems : List Problem
deriving DecidableEq

namespace Draft

/-- The draft of a parse that has read nothing. -/
def ofTokens (tokens : List Token) : Draft :=
  let (lexemes, last) := lexemesFrom (.empty 0) tokens
  ⟨lexemes, last, [], 0, [.start .program], []⟩

/-! ## Looking ahead -/

/-- Whether nothing is left but trivia. -/
def ended (d : Draft) : Bool := d.rest.isEmpty

/-- The kind of the token `n` ahead; `error` past the end. -/
def kindAt (d : Draft) (n : Nat) : TokenKind :=
  match d.rest[n]? with
  | some l => l.token.kind
  | none => .error

/-- The text of the token `n` ahead; empty past the end. -/
def textAt (d : Draft) (n : Nat) : Text :=
  match d.rest[n]? with
  | some l => l.token.text
  | none => []

/-- Whether a line ends before the token `n` ahead, after the token before it. -/
def newlineAt (d : Draft) (n : Nat) : Bool :=
  match d.rest[n]? with
  | some l => l.gap.newline
  | none => d.last.newline

/-- The kind of the next token. -/
def kind (d : Draft) : TokenKind := d.kindAt 0

/-- Whether a line ends before the next token. -/
def newline (d : Draft) : Bool := d.newlineAt 0

/-- Whether the next token is of a kind. -/
def sees (d : Draft) (kind : TokenKind) : Bool := !d.ended && d.kind = kind

/-- Whether the next token is of one of some kinds. -/
def seesAny (d : Draft) (kinds : List TokenKind) : Bool := kinds.any d.sees

/-- Whether the token `n` ahead is an identifier spelt as a word. -/
def wordAt (d : Draft) (n : Nat) (word : String) : Bool :=
  d.kindAt n = .ident && d.textAt n = word.toList

/-- Whether the next token is an identifier spelt as a word. -/
def seesWord (d : Draft) (word : String) : Bool := d.wordAt 0 word

/-- How many lexemes a bracketed group takes at the start of some, with `depth`
brackets open before them.  Brackets count alike, whatever their shape; a group
that does not close takes all. -/
def groupLength (depth : Nat) : List Lexeme → Nat
  | [] => 0
  | l :: ls =>
    match l.token.kind with
    | .punct .lParen | .punct .lBracket | .punct .lBrace => 1 + groupLength (depth + 1) ls
    | .punct .rParen | .punct .rBracket | .punct .rBrace =>
      if depth ≤ 1 then 1 else 1 + groupLength (depth - 1) ls
    | _ => 1 + groupLength depth ls

/-- How far ahead the token after a bracketed group is, when the group starts
`n` ahead. -/
def afterGroup (d : Draft) (n : Nat) : Nat := n + groupLength 0 (d.rest.drop n)

/-! ## Placing tokens -/

/-- Place tokens in front of the next one. -/
def place (d : Draft) (tokens : List Token) : Draft :=
  { d with
    trees := (tokens.map Tree.leaf).reverse ++ d.trees
    steps := (tokens.map Step.token).reverse ++ d.steps }

/-- Place the trivia before the next token, or at the end. -/
def placeTrivia (d : Draft) : Draft :=
  match d.rest with
  | [] => { d with last := d.last.placed }.place d.last.trivia
  | l :: ls => { d with rest := { l with gap := l.gap.placed } :: ls }.place l.gap.trivia

/-- Place the next token with the trivia before it; at the end only the trivia. -/
def take (d : Draft) : Draft :=
  match d.rest with
  | [] => d.placeTrivia
  | l :: ls => { d with rest := ls }.place (l.gap.trivia ++ [l.token])

/-- Do a step that places no token. -/
def log (d : Draft) (step : Step) : Draft := { d with steps := step :: d.steps }

/-- Gather trees apart from those before. -/
def apart (d : Draft) : Draft := { d with trees := [], base := d.base + d.trees.length }

/-- Put trees that were gathered apart after those of another draft. -/
def rejoin (e d : Draft) : Draft := { e with trees := e.trees ++ d.trees, base := d.base }

/-- Make one node of all the trees gathered. -/
def wrap (d : Draft) (kind : NodeKind) : Draft :=
  { d with trees := [.node kind d.trees.reverse] }

/-- Gather trees apart from those before, starting at the next token. -/
def group (d : Draft) (body : Draft → Draft) : Draft :=
  let d := d.placeTrivia
  (body d.apart).rejoin d

/-- Make one node of all the trees gathered and of what follows. -/
def enclose (d : Draft) (kind : NodeKind) (body : Draft → Draft) : Draft :=
  ((body (d.log (.startAt d.base kind))).wrap kind).log .finish

/-- A node that starts at the next token. -/
def node (d : Draft) (kind : NodeKind) (body : Draft → Draft) : Draft :=
  let d := d.placeTrivia
  (((body (d.apart.log (.start kind))).wrap kind).log .finish).rejoin d

/-- A node of one token. -/
def single (d : Draft) (kind : NodeKind) : Draft := d.node kind take

/-! ## Reporting -/

/-- The range of the next token, or the empty range at the end. -/
def spanHere (d : Draft) : Span :=
  match d.rest with
  | [] => ⟨d.last.stop, d.last.stop⟩
  | l :: _ => ⟨l.gap.stop, l.gap.stop + l.token.size⟩

/-- Report a problem with the next token. -/
def report (d : Draft) (cause : Cause) : Draft :=
  { d with problems := ⟨cause, d.spanHere⟩ :: d.problems }

/-- Report the next token and put it into an error node, if there is one. -/
def skip (d : Draft) (cause : Cause) : Draft :=
  let d := d.report cause
  if d.ended then d else d.single .error

/-- Marks that an enclosing construct may be waiting for. -/
def closers : List TokenKind :=
  [.punct .rParen, .punct .rBrace, .punct .rBracket, .punct .semicolon, .punct .comma]

/-- Report the next token, and put it into an error node unless it is a mark
that an enclosing construct may be waiting for. -/
def refuse (d : Draft) (cause : Cause) : Draft :=
  if d.seesAny closers then d.report cause else d.skip cause

/-! ## Small steps -/

/-- Take the next token if it is of a kind. -/
def takeIf (d : Draft) (kind : TokenKind) : Draft := if d.sees kind then d.take else d

/-- Take the next token if it is a word. -/
def takeIfWord (d : Draft) (word : String) : Draft := if d.seesWord word then d.take else d

/-- Take a token of a kind, or report that it is missing. -/
def expect (d : Draft) (kind : TokenKind) : Draft :=
  if d.sees kind then d.take else d.report (.expected kind)

/-- Take a word, or report that it is missing. -/
def expectWord (d : Draft) (word : String) : Draft :=
  if d.seesWord word then d.take else d.report (.expectedWord word)

/-- End a statement.  The semicolon may be left out before a closing brace, at
the end of the text and where a line ends. -/
def endStatement (d : Draft) : Draft :=
  if d.sees (.punct .semicolon) then d.take
  else if d.sees (.punct .rBrace) || d.ended || d.newline then d
  else d.report .unexpected

/-- Go on in a list after one of its items: the list ends at its closing mark,
and goes on after a comma. -/
def nextItem (d : Draft) (close : TokenKind) (more : Draft → Draft) : Draft :=
  if d.sees close then d
  else if d.sees (.punct .comma) then more d.take
  else d.report (.expected (.punct .comma))

/-- Run a step that has to take a token; if it takes none, skip one. -/
def advance (d : Draft) (step : Draft → Draft) : Draft :=
  let e := step d
  if e.rest.length = d.rest.length then e.skip .unexpected else e

end Draft

end FreeNames
