import FreeNames.Token

/-!
# FreeNames.Problem

What can be wrong with the form of a program.
-/

namespace FreeNames

/-- Why a token cannot stand where it stands. -/
inductive Cause where
  /-- Nothing that may come here starts with the token. -/
  | unexpected
  /-- One kind of token has to come here. -/
  | expected (kind : TokenKind)
  /-- One word has to come here. -/
  | expectedWord (word : String)
  | expectedIdentifier
  | expectedString
  | expectedFunctionName
  | expectedClassName
  | expectedCase
  | missingHandler
  | newlineAfterThrow
  | unterminatedTemplate
  /-- An `import` or `export` inside another statement. -/
  | notTopLevel
  /-- An `import` or `export` in a script. -/
  | moduleOnly
deriving DecidableEq, Repr

/-- The wording of a cause. -/
def Cause.message : Cause → String
  | .unexpected => "Unexpected token"
  | .expected kind => "Unexpected token, expected " ++ kind.tag
  | .expectedWord word => "Unexpected token, expected \"" ++ word ++ "\""
  | .expectedIdentifier => "Unexpected token, expected identifier"
  | .expectedString => "Unexpected token, expected string"
  | .expectedFunctionName => "Unexpected token, expected function name"
  | .expectedClassName => "Unexpected token, expected class name"
  | .expectedCase => "Unexpected token, expected case or default"
  | .missingHandler => "Missing catch or finally clause"
  | .newlineAfterThrow => "Illegal newline after throw"
  | .unterminatedTemplate => "Unterminated template"
  | .notTopLevel => "'import' and 'export' may only appear at the top level"
  | .moduleOnly => "'import' and 'export' may appear only with 'sourceType: module'"

/-- A cause and the token it is about; at the end of the text, the empty range
there. -/
structure Problem where
  cause : Cause
  span : Span
deriving DecidableEq, Repr

end FreeNames
