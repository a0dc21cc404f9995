import FreeNames.Grammar.Collection

/-!
# FreeNames.Grammar.Operand

Operands: names, literals and what stands in brackets, with the member accesses,
calls and templates that follow them.
-/

namespace FreeNames.Grammar

/-- Chunks and substitutions of a template up to its last chunk. -/
def templateParts (call : Call) (ctx : Context) (d : Draft) : Draft :=
  if d.sees .templateTail then d.take
  else if d.sees .templateHead then
    call .templateParts ctx (call .expression ctx.withIn d.take)
  else d.report .unterminatedTemplate

/-- A template. -/
def template (call : Call) (ctx : Context) (d : Draft) : Draft :=
  d.node .templateLiteral (call .templateParts ctx)

/-- An expression in brackets, as an index. -/
def index (call : Call) (ctx : Context) (d : Draft) : Draft :=
  (call .expression ctx.withIn (d.expect (.punct .lBracket))).expect (.punct .rBracket)

/-- An expression in parentheses. -/
def parenthesized (call : Call) (ctx : Context) (d : Draft) : Draft :=
  d.node .parenExpr fun d => (call .expression ctx.withIn d.take).expect (.punct .rParen)

/-- A word, a dot and a name: `new.target`, `import.meta`. -/
def metaProperty (d : Draft) : Draft := d.node .metaProperty fun d => propertyName d.take.take

/-- Whether an `import` comes next that is an expression. -/
def seesImportExpr (d : Draft) : Bool :=
  d.sees (.keyword .importKw) && (d.kindAt 1 = .punct .lParen || d.kindAt 1 = .punct .dot)

/-- `import(…)` or `import.meta`. -/
def importExpr (call : Call) (ctx : Context) (d : Draft) : Draft :=
  if d.kindAt 1 = .punct .dot then metaProperty d
  else d.node .importCall fun d => argumentList call ctx d.take

/-- An operand without suffixes. -/
def primary (call : Call) (ctx : Context) (d : Draft) : Draft :=
  match d.kind with
  | .keyword .thisKw => d.single .thisExpr
  | .keyword .superKw => d.single .superExpr
  | .ident => if seesAsyncFunction d then function call .functionExpr false d else d.single .nameRef
  | .number | .string | .regex | .keyword .nullKw | .keyword .trueKw | .keyword .falseKw =>
    d.single .literal
  | .templateHead | .templateTail => template call ctx d
  | .punct .lBracket => arrayLiteral call ctx d
  | .punct .lBrace => objectLiteral call ctx d
  | .punct .lParen => parenthesized call ctx d
  | .keyword .functionKw => function call .functionExpr false d
  | .keyword .classKw => classDefinition call .classExpr false ctx d
  | .keyword .importKw => if seesImportExpr d then importExpr call ctx d else d.refuse .unexpected
  | _ => d.refuse .unexpected

/-- A `new` expression.  The first list of arguments belongs to it. -/
def newExpr (call : Call) (ctx : Context) (d : Draft) : Draft :=
  if d.kindAt 1 = .punct .dot then metaProperty d
  else
    d.node .newExpr fun d =>
      let d := d.take.group fun d =>
        let d :=
          if d.sees (.keyword .newKw) then call .newExpr ctx d else primary call ctx d
        call (.suffixes false) ctx d
      if d.sees (.punct .lParen) then argumentList call ctx d else d

/-- One suffix: it makes a larger operand of all that was gathered. -/
def suffix? (call : Call) (calls : Bool) (ctx : Context) (d : Draft) : Option Draft :=
  match d.kind with
  | .punct .dot => some (d.enclose .memberExpr fun d => propertyName d.take)
  | .punct .questionDot =>
    match d.kindAt 1 with
    | .punct .lBracket => some (d.enclose .indexExpr fun d => index call ctx d.take)
    | .punct .lParen => some (d.enclose .callExpr fun d => argumentList call ctx d.take)
    | _ => some (d.enclose .memberExpr fun d => propertyName d.take)
  | .punct .lBracket => some (d.enclose .indexExpr (index call ctx))
  | .punct .lParen => if calls then some (d.enclose .callExpr (argumentList call ctx)) else none
  | .templateHead | .templateTail =>
    if (d.textAt 0).head? = some '\x60' then some (d.enclose .taggedTemplate (template call ctx))
    else none
  | _ => none

/-- Suffixes of an operand. -/
def suffixes (call : Call) (calls : Bool) (ctx : Context) (d : Draft) : Draft :=
  match suffix? call calls ctx d with
  | some d => call (.suffixes calls) ctx d
  | none => d

/-- An operand with its suffixes. -/
def operand (call : Call) (ctx : Context) (d : Draft) : Draft :=
  d.group fun d =>
    let d := if d.sees (.keyword .newKw) then call .newExpr ctx d else primary call ctx d
    call (.suffixes true) ctx d

end FreeNames.Grammar
