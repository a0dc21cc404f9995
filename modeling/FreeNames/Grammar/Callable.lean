import FreeNames.Grammar.Binding

/-!
# FreeNames.Grammar.Callable

Functions, methods and arrow functions.  Each reads its parameters and its body
in a context of its own.
-/

namespace FreeNames.Grammar

/-- Parameters and body of a function or method. -/
def functionRest (call : Call) (isAsync isGenerator : Bool) (d : Draft) : Draft :=
  let ctx : Context := ⟨isAsync, isGenerator, false⟩
  call .block ctx (parameterList call ctx d)

/-- Whether `async function` comes next, on one line. -/
def seesAsyncFunction (d : Draft) : Bool :=
  d.seesWord "async" && d.kindAt 1 = .keyword .functionKw && !d.newlineAt 1

/-- A function with the word `function`. -/
def function (call : Call) (kind : NodeKind) (needsName : Bool) (d : Draft) : Draft :=
  d.node kind fun d =>
    let isAsync := d.seesWord "async"
    let d := (d.takeIfWord "async").expect (.keyword .functionKw)
    let isGenerator := d.sees (.punct .star)
    let d := d.takeIf (.punct .star)
    let d :=
      if d.sees .ident then bindingName d
      else if needsName then d.report .expectedFunctionName
      else d
    functionRest call isAsync isGenerator d

/-- Make a method of a key that has been read, with what follows it. -/
def methodRest (call : Call) (isAsync isGenerator : Bool) (d : Draft) : Draft :=
  d.enclose .method (functionRest call isAsync isGenerator)

/-- Whether an arrow function comes next: a name or a group in parentheses,
perhaps after `async` on the same line, and then `=>` on the same line. -/
def seesArrow (d : Draft) : Bool :=
  let afterAsync :=
    d.seesWord "async" && (d.kindAt 1 = .ident || d.kindAt 1 = .punct .lParen) && !d.newlineAt 1
  let start := if afterAsync then 1 else 0
  match d.kindAt start with
  | .ident => arrowAt (start + 1)
  | .punct .lParen => arrowAt (d.afterGroup start)
  | _ => false
where
  arrowAt (n : Nat) : Bool := d.kindAt n = .punct .fatArrow && !d.newlineAt n

/-- An arrow function.  A single name may stand for a list of parameters, and an
expression for a body. -/
def arrowFunction (call : Call) (ctx : Context) (d : Draft) : Draft :=
  d.node .arrowFunction fun d =>
    let isAsync := d.seesWord "async" && d.kindAt 1 ≠ .punct .fatArrow
    let ctx : Context := ⟨isAsync, false, ctx.noIn⟩
    let d := if isAsync then d.take else d
    let d :=
      if d.sees .ident then d.node .paramList bindingName else parameterList call ctx d
    let d := d.expect (.punct .fatArrow)
    if d.sees (.punct .lBrace) then call .block ctx.withIn d else call .assignment ctx d

end FreeNames.Grammar
