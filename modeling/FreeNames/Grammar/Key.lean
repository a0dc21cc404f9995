import FreeNames.Grammar.Production

/-!
# FreeNames.Grammar.Key

Names of properties: after a dot, and as keys of object literals, classes and
patterns.
-/

namespace FreeNames.Grammar

/-- The name after `.` or `?.`; reserved words are allowed. -/
def propertyName (d : Draft) : Draft :=
  if d.kind.isIdentifierName || d.sees .privateName then d.single .propertyName
  else d.report .unexpected

/-- What a key can begin with. -/
def startsKey : TokenKind → Bool
  | .ident | .keyword _ | .string | .number | .privateName | .punct .lBracket => true
  | _ => false

/-- A key: a name, a string, a number, or an expression in brackets. -/
def propertyKey (call : Call) (ctx : Context) (d : Draft) : Draft :=
  if d.sees (.punct .lBracket) then
    d.node .computedKey fun d => (call .assignment ctx.withIn d.take).expect (.punct .rBracket)
  else if startsKey d.kind then d.single .propertyKey
  else d.refuse .unexpected

end FreeNames.Grammar
