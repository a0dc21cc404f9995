import FreeNames.Grammar.Operand

/-!
# FreeNames.Grammar.Operator

Expressions with operators, from the loosest to the tightest: sequences,
assignments, conditionals, binary operators, unary operators.  A binary
operator takes a right operand whose operators bind more tightly, so operators
of one level group to the left; only `**` groups to the right.
-/

namespace FreeNames.Grammar

/-- Further expressions of a sequence. -/
def commaTail (call : Call) (ctx : Context) (d : Draft) : Draft :=
  if d.sees (.punct .comma) then call .commaTail ctx (call .assignment ctx d.take) else d

/-- Expressions separated by commas. -/
def expression (call : Call) (ctx : Context) (d : Draft) : Draft :=
  d.group fun d =>
    let d := call .assignment ctx d
    if d.sees (.punct .comma) then d.enclose .sequenceExpr (call .commaTail ctx) else d

/-- Whether an operand that may be left out is left out. -/
def seesNoOperand (d : Draft) : Bool :=
  d.ended
    || d.seesAny [.punct .semicolon, .punct .rBrace, .punct .rParen, .punct .rBracket,
      .punct .comma, .punct .colon]

/-- A `yield`, with its operand on the same line or after `*`. -/
def yieldExpr (call : Call) (ctx : Context) (d : Draft) : Draft :=
  d.node .yieldExpr fun d =>
    let d := d.take
    if d.sees (.punct .star) then call .assignment ctx d.take
    else if d.newline || seesNoOperand d then d
    else call .assignment ctx d

/-- An expression without commas. -/
def assignment (call : Call) (ctx : Context) (d : Draft) : Draft :=
  if seesArrow d then arrowFunction call ctx d
  else if ctx.yields && d.seesWord "yield" then yieldExpr call ctx d
  else
    d.group fun d =>
      let d := call .conditional ctx d
      if d.kind.isAssign then d.enclose .assignExpr fun d => call .assignment ctx d.take else d

/-- A conditional expression. -/
def conditional (call : Call) (ctx : Context) (d : Draft) : Draft :=
  d.group fun d =>
    let d := call (.binary 1) ctx d
    if d.sees (.punct .question) then
      d.enclose .conditionalExpr fun d =>
        let d := (call .assignment ctx.withIn d.take).expect (.punct .colon)
        call .assignment ctx d
    else d

/-- How tightly a binary operator binds. -/
def precedence? (ctx : Context) : TokenKind → Option Nat
  | .punct .questionQuestion => some 1
  | .punct .pipePipe => some 2
  | .punct .ampAmp => some 3
  | .punct .pipe => some 4
  | .punct .caret => some 5
  | .punct .amp => some 6
  | .punct .eqEq | .punct .bangEq | .punct .eqEqEq | .punct .bangEqEq => some 7
  | .keyword .inKw => if ctx.noIn then none else some 8
  | .punct .lt | .punct .gt | .punct .ltEq | .punct .gtEq | .keyword .instanceofKw => some 8
  | .punct .shl | .punct .shr | .punct .ushr => some 9
  | .punct .plus | .punct .minus => some 10
  | .punct .star | .punct .slash | .punct .percent => some 11
  | .punct .starStar => some 12
  | _ => none

/-- Operators that bind at least so tightly, with their right operands. -/
def binaryTail (call : Call) (least : Nat) (ctx : Context) (d : Draft) : Draft :=
  match precedence? ctx d.kind with
  | none => d
  | some p =>
    if p < least then d
    else
      let next := if d.sees (.punct .starStar) then p else p + 1
      call (.binaryTail least) ctx
        (d.enclose .binaryExpr fun d => call (.binary next) ctx d.take)

/-- An operation of operators that bind at least so tightly.  A private name may
stand before `in`. -/
def binary (call : Call) (least : Nat) (ctx : Context) (d : Draft) : Draft :=
  d.group fun d =>
    let d :=
      if d.sees .privateName && d.kindAt 1 = .keyword .inKw then d.single .literal
      else call .unary ctx d
    call (.binaryTail least) ctx d

/-- An operand, with `++` or `--` after it on the same line. -/
def postfixed (call : Call) (ctx : Context) (d : Draft) : Draft :=
  d.group fun d =>
    let d := call .operand ctx d
    if d.seesAny [.punct .plusPlus, .punct .minusMinus] && !d.newline then
      d.enclose .updateExpr Draft.take
    else d

/-- An operand with the operators in front of it. -/
def unary (call : Call) (ctx : Context) (d : Draft) : Draft :=
  match d.kind with
  | .keyword .deleteKw | .keyword .voidKw | .keyword .typeofKw | .punct .plus | .punct .minus
  | .punct .tilde | .punct .bang => d.node .unaryExpr fun d => call .unary ctx d.take
  | .punct .plusPlus | .punct .minusMinus => d.node .updateExpr fun d => call .unary ctx d.take
  | _ =>
    if ctx.awaits && d.seesWord "await" then d.node .awaitExpr fun d => call .unary ctx d.take
    else postfixed call ctx d

end FreeNames.Grammar
