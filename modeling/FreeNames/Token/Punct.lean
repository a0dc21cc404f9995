import FreeNames.Text

/-!
# FreeNames.Token.Punct

Punctuation of JavaScript.  Where several spellings fit the start of a text,
the longest is meant: `>>>=` is one operator and not four.
-/

namespace FreeNames

/-- Punctuation and operators. -/
inductive Punct where
  | lBrace | rBrace | lParen | rParen | lBracket | rBracket | semicolon | comma | dot
  | dotDotDot | questionDot | question | questionQuestion | colon | fatArrow | lt | gt | ltEq
  | gtEq | eqEq | bangEq | eqEqEq | bangEqEq | plus | minus | star | slash | percent | starStar
  | plusPlus | minusMinus | shl | shr | ushr | amp | pipe | caret | bang | tilde | ampAmp
  | pipePipe | eq | plusEq | minusEq | starEq | slashEq | percentEq | starStarEq | shlEq
  | shrEq | ushrEq | ampEq | pipeEq | caretEq | ampAmpEq | pipePipeEq | questionQuestionEq
deriving DecidableEq, Repr

namespace Punct

/-- All punctuation; the assignment operators come last, from `=` on. -/
def all : List Punct :=
  [.lBrace, .rBrace, .lParen, .rParen, .lBracket, .rBracket, .semicolon, .comma, .dot,
   .dotDotDot, .questionDot, .question, .questionQuestion, .colon, .fatArrow, .lt, .gt, .ltEq,
   .gtEq, .eqEq, .bangEq, .eqEqEq, .bangEqEq, .plus, .minus, .star, .slash, .percent,
   .starStar, .plusPlus, .minusMinus, .shl, .shr, .ushr, .amp, .pipe, .caret, .bang, .tilde,
   .ampAmp, .pipePipe, .eq, .plusEq, .minusEq, .starEq, .slashEq, .percentEq, .starStarEq,
   .shlEq, .shrEq, .ushrEq, .ampEq, .pipeEq, .caretEq, .ampAmpEq, .pipePipeEq,
   .questionQuestionEq]

/-- How it is written. -/
def spelling : Punct → Text
  | .lBrace => "\x7b".toList
  | .rBrace => "\x7d".toList
  | .lParen => "(".toList
  | .rParen => ")".toList
  | .lBracket => "[".toList
  | .rBracket => "]".toList
  | .semicolon => ";".toList
  | .comma => ",".toList
  | .dot => ".".toList
  | .dotDotDot => "...".toList
  | .questionDot => "?.".toList
  | .question => "?".toList
  | .questionQuestion => "??".toList
  | .colon => ":".toList
  | .fatArrow => "=>".toList
  | .lt => "<".toList
  | .gt => ">".toList
  | .ltEq => "<=".toList
  | .gtEq => ">=".toList
  | .eqEq => "==".toList
  | .bangEq => "!=".toList
  | .eqEqEq => "===".toList
  | .bangEqEq => "!==".toList
  | .plus => "+".toList
  | .minus => "-".toList
  | .star => "*".toList
  | .slash => "/".toList
  | .percent => "%".toList
  | .starStar => "**".toList
  | .plusPlus => "++".toList
  | .minusMinus => "--".toList
  | .shl => "<<".toList
  | .shr => ">>".toList
  | .ushr => ">>>".toList
  | .amp => "&".toList
  | .pipe => "|".toList
  | .caret => "^".toList
  | .bang => "!".toList
  | .tilde => "~".toList
  | .ampAmp => "&&".toList
  | .pipePipe => "||".toList
  | .eq => "=".toList
  | .plusEq => "+=".toList
  | .minusEq => "-=".toList
  | .starEq => "*=".toList
  | .slashEq => "/=".toList
  | .percentEq => "%=".toList
  | .starStarEq => "**=".toList
  | .shlEq => "<<=".toList
  | .shrEq => ">>=".toList
  | .ushrEq => ">>>=".toList
  | .ampEq => "&=".toList
  | .pipeEq => "|=".toList
  | .caretEq => "^=".toList
  | .ampAmpEq => "&&=".toList
  | .pipePipeEq => "||=".toList
  | .questionQuestionEq => "??=".toList

/-- The name used in messages and listings. -/
def tag : Punct → String
  | .lBrace => "L_BRACE"
  | .rBrace => "R_BRACE"
  | .lParen => "L_PAREN"
  | .rParen => "R_PAREN"
  | .lBracket => "L_BRACKET"
  | .rBracket => "R_BRACKET"
  | .semicolon => "SEMICOLON"
  | .comma => "COMMA"
  | .dot => "DOT"
  | .dotDotDot => "DOT_DOT_DOT"
  | .questionDot => "QUESTION_DOT"
  | .question => "QUESTION"
  | .questionQuestion => "QUESTION_QUESTION"
  | .colon => "COLON"
  | .fatArrow => "FAT_ARROW"
  | .lt => "LT"
  | .gt => "GT"
  | .ltEq => "LT_EQ"
  | .gtEq => "GT_EQ"
  | .eqEq => "EQ_EQ"
  | .bangEq => "BANG_EQ"
  | .eqEqEq => "EQ_EQ_EQ"
  | .bangEqEq => "BANG_EQ_EQ"
  | .plus => "PLUS"
  | .minus => "MINUS"
  | .star => "STAR"
  | .slash => "SLASH"
  | .percent => "PERCENT"
  | .starStar => "STAR_STAR"
  | .plusPlus => "PLUS_PLUS"
  | .minusMinus => "MINUS_MINUS"
  | .shl => "SHL"
  | .shr => "SHR"
  | .ushr => "USHR"
  | .amp => "AMP"
  | .pipe => "PIPE"
  | .caret => "CARET"
  | .bang => "BANG"
  | .tilde => "TILDE"
  | .ampAmp => "AMP_AMP"
  | .pipePipe => "PIPE_PIPE"
  | .eq => "EQ"
  | .plusEq => "PLUS_EQ"
  | .minusEq => "MINUS_EQ"
  | .starEq => "STAR_EQ"
  | .slashEq => "SLASH_EQ"
  | .percentEq => "PERCENT_EQ"
  | .starStarEq => "STAR_STAR_EQ"
  | .shlEq => "SHL_EQ"
  | .shrEq => "SHR_EQ"
  | .ushrEq => "USHR_EQ"
  | .ampEq => "AMP_EQ"
  | .pipeEq => "PIPE_EQ"
  | .caretEq => "CARET_EQ"
  | .ampAmpEq => "AMP_AMP_EQ"
  | .pipePipeEq => "PIPE_PIPE_EQ"
  | .questionQuestionEq => "QUESTION_QUESTION_EQ"

/-- The operators that assign: `=`, `+=`, `??=` and the like. -/
def isAssign : Punct → Bool
  | .eq | .plusEq | .minusEq | .starEq | .slashEq | .percentEq | .starStarEq | .shlEq |
    .shrEq | .ushrEq | .ampEq | .pipeEq | .caretEq | .ampAmpEq | .pipePipeEq |
    .questionQuestionEq => true
  | _ => false

/-- The longer of two candidates, the first when they tie. -/
def longer (a : Option Punct) (b : Punct) : Option Punct :=
  match a with
  | none => some b
  | some a => if a.spelling.length < b.spelling.length then some b else some a

/-- The longest punctuation at the start of a text. -/
def at? (text : Text) : Option Punct :=
  (all.filter fun p => p.spelling.isPrefixOf text).foldl longer none

end Punct

end FreeNames
