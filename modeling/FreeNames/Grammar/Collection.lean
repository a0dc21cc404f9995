import FreeNames.Grammar.Class

/-!
# FreeNames.Grammar.Collection

Lists of expressions: arguments, array literals and object literals.
-/

namespace FreeNames.Grammar

/-- An expression that is spread, after `...`. -/
def spreadElement (call : Call) (ctx : Context) (d : Draft) : Draft :=
  d.node .spreadElement fun d => call .assignment ctx d.take

/-- A spread or plain expression. -/
def spreadOrPlain (call : Call) (ctx : Context) (d : Draft) : Draft :=
  if d.sees (.punct .dotDotDot) then spreadElement call ctx d else call .assignment ctx d

/-- Arguments of a call. -/
def arguments (call : Call) (ctx : Context) (d : Draft) : Draft :=
  if d.ended || d.sees (.punct .rParen) then d
  else (spreadOrPlain call ctx d).nextItem (.punct .rParen) (call .arguments ctx)

/-- Arguments of a call in parentheses. -/
def argumentList (call : Call) (ctx : Context) (d : Draft) : Draft :=
  d.node .argList fun d =>
    (call .arguments ctx.withIn (d.expect (.punct .lParen))).expect (.punct .rParen)

/-- Items of an array literal; a comma alone leaves one out. -/
def arrayItems (call : Call) (ctx : Context) (d : Draft) : Draft :=
  if d.ended || d.sees (.punct .rBracket) then d
  else if d.sees (.punct .comma) then call .arrayItems ctx d.take
  else (spreadOrPlain call ctx d).nextItem (.punct .rBracket) (call .arrayItems ctx)

/-- An array literal. -/
def arrayLiteral (call : Call) (ctx : Context) (d : Draft) : Draft :=
  d.node .arrayExpr fun d => (call .arrayItems ctx.withIn d.take).expect (.punct .rBracket)

/-- Whether a name comes next that is key and value in one. -/
def seesShorthand (d : Draft) : Bool :=
  d.sees .ident
    && (d.kindAt 1 = .punct .comma || d.kindAt 1 = .punct .rBrace || d.kindAt 1 = .punct .eq)

/-- A name that is key and value in one; a default may follow where the literal
stands for a pattern. -/
def shorthand (call : Call) (ctx : Context) (d : Draft) : Draft :=
  d.node .objectProperty fun d =>
    let d := d.single .nameRef
    if d.sees (.punct .eq) then call .assignment ctx d.take else d

/-- A key with a value, or a method. -/
def keyed (call : Call) (ctx : Context) (d : Draft) : Draft :=
  let d := propertyKey call ctx d
  if d.sees (.punct .lParen) then methodRest call false false d
  else d.enclose .objectProperty fun d => call .assignment ctx (d.expect (.punct .colon))

/-- A property of an object literal. -/
def property (call : Call) (ctx : Context) (d : Draft) : Draft :=
  d.group fun d =>
    if seesAccessor d then methodRest call false false (propertyKey call ctx d.take)
    else
      let isAsync := d.seesWord "async" && startsMember (d.kindAt 1) && !d.newlineAt 1
      let d := if isAsync then d.take else d
      let isGenerator := d.sees (.punct .star)
      let d := d.takeIf (.punct .star)
      if isAsync || isGenerator then
        methodRest call isAsync isGenerator (propertyKey call ctx d)
      else if seesShorthand d then shorthand call ctx d
      else keyed call ctx d

/-- Items of an object literal. -/
def objectItems (call : Call) (ctx : Context) (d : Draft) : Draft :=
  if d.ended || d.sees (.punct .rBrace) then d
  else
    let d :=
      if d.sees (.punct .dotDotDot) then spreadElement call ctx d else property call ctx d
    d.nextItem (.punct .rBrace) (call .objectItems ctx)

/-- An object literal. -/
def objectLiteral (call : Call) (ctx : Context) (d : Draft) : Draft :=
  d.node .objectExpr fun d => (call .objectItems ctx.withIn d.take).expect (.punct .rBrace)

end FreeNames.Grammar
