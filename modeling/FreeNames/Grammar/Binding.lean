import FreeNames.Grammar.Key

/-!
# FreeNames.Grammar.Binding

Names that are declared, and the patterns that declare several at once.
-/

namespace FreeNames.Grammar

/-- A declared name. -/
def bindingName (d : Draft) : Draft :=
  if d.sees .ident then d.single .name else d.refuse .expectedIdentifier

/-- A declared name, or an object or array pattern. -/
def bindingTarget (call : Call) (ctx : Context) (d : Draft) : Draft :=
  if d.sees (.punct .lBrace) then
    d.node .objectPattern fun d => (call .patternFields ctx d.take).expect (.punct .rBrace)
  else if d.sees (.punct .lBracket) then
    d.node .arrayPattern fun d => (call .patternItems ctx d.take).expect (.punct .rBracket)
  else bindingName d

/-- A target, with a default if `=` follows. -/
def bindingElement (call : Call) (ctx : Context) (d : Draft) : Draft :=
  d.group fun d =>
    let d := call .bindingTarget ctx d
    if d.sees (.punct .eq) then
      d.enclose .assignPattern fun d => call .assignment ctx.withIn d.take
    else d

/-- The target that takes the rest, after `...`. -/
def restPattern (call : Call) (ctx : Context) (d : Draft) : Draft :=
  d.node .restPattern fun d => call .bindingTarget ctx d.take

/-- A rest pattern or an element. -/
def restOrElement (call : Call) (ctx : Context) (d : Draft) : Draft :=
  if d.sees (.punct .dotDotDot) then restPattern call ctx d else call .bindingElement ctx d

/-- A field of an object pattern: an element that is its own key, or a key and
an element. -/
def patternField (call : Call) (ctx : Context) (d : Draft) : Draft :=
  d.node .objectPatternProp fun d =>
    if d.sees .ident && d.kindAt 1 ≠ .punct .colon then call .bindingElement ctx d
    else call .bindingElement ctx ((propertyKey call ctx d).expect (.punct .colon))

/-- Fields of an object pattern. -/
def patternFields (call : Call) (ctx : Context) (d : Draft) : Draft :=
  if d.ended || d.sees (.punct .rBrace) then d
  else
    let d :=
      if d.sees (.punct .dotDotDot) then restPattern call ctx d else patternField call ctx d
    d.nextItem (.punct .rBrace) (call .patternFields ctx)

/-- Items of an array pattern; a comma alone leaves one out. -/
def patternItems (call : Call) (ctx : Context) (d : Draft) : Draft :=
  if d.ended || d.sees (.punct .rBracket) then d
  else if d.sees (.punct .comma) then call .patternItems ctx d.take
  else (restOrElement call ctx d).nextItem (.punct .rBracket) (call .patternItems ctx)

/-- Parameters of a function. -/
def parameters (call : Call) (ctx : Context) (d : Draft) : Draft :=
  if d.ended || d.sees (.punct .rParen) then d
  else (restOrElement call ctx d).nextItem (.punct .rParen) (call .parameters ctx)

/-- Parameters of a function in parentheses. -/
def parameterList (call : Call) (ctx : Context) (d : Draft) : Draft :=
  d.node .paramList fun d =>
    (call .parameters ctx (d.expect (.punct .lParen))).expect (.punct .rParen)

end FreeNames.Grammar
