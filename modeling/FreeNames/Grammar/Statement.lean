import FreeNames.Grammar.Operator

/-!
# FreeNames.Grammar.Statement

Statements.  Most are told by their first word.  Some words are only sometimes
special: `let` declares when a name or pattern follows it, `async` starts a
function when `function` follows on the same line, and any name before a colon
is a label.  A `for` statement is told by what follows its first clause.
-/

namespace FreeNames.Grammar

/-! ## Blocks and declarations -/

/-- A block in braces. -/
def block (call : Call) (ctx : Context) (d : Draft) : Draft :=
  d.node .blockStmt fun d =>
    (call .statements ctx (d.expect (.punct .lBrace))).expect (.punct .rBrace)

/-- Statements up to a closing brace. -/
def statements (call : Call) (ctx : Context) (d : Draft) : Draft :=
  if d.ended || d.sees (.punct .rBrace) then d
  else call .statements ctx (d.advance (call .statement ctx))

/-- Whether `let` comes next and starts a declaration. -/
def seesLet (d : Draft) : Bool :=
  d.seesWord "let"
    && (d.kindAt 1 = .ident || d.kindAt 1 = .punct .lBracket || d.kindAt 1 = .punct .lBrace)

/-- Whether a variable declaration comes next. -/
def seesVariables (d : Draft) : Bool :=
  d.seesAny [.keyword .varKw, .keyword .constKw] || seesLet d

/-- Declarators of a variable declaration. -/
def declarators (call : Call) (ctx : Context) (d : Draft) : Draft :=
  let d := d.node .varDeclarator fun d =>
    let d := call .bindingTarget ctx d
    if d.sees (.punct .eq) then call .assignment ctx d.take else d
  if d.sees (.punct .comma) then call .declarators ctx d.take else d

/-- A variable declaration, without the end of a statement. -/
def variableList (call : Call) (ctx : Context) (d : Draft) : Draft :=
  d.node .varDecl fun d => call .declarators ctx d.take

/-- A variable declaration as a statement. -/
def variableStatement (call : Call) (ctx : Context) (d : Draft) : Draft :=
  d.node .varDecl fun d => (call .declarators ctx d.take).endStatement

/-- An expression as a statement. -/
def expressionStatement (call : Call) (ctx : Context) (d : Draft) : Draft :=
  d.node .exprStmt fun d => (call .expression ctx d).endStatement

/-! ## Control flow -/

/-- The expression in parentheses after a word such as `if`. -/
def condition (call : Call) (ctx : Context) (d : Draft) : Draft :=
  (call .expression ctx.withIn (d.expect (.punct .lParen))).expect (.punct .rParen)

/-- An `if` statement. -/
def ifStatement (call : Call) (ctx : Context) (d : Draft) : Draft :=
  d.node .ifStmt fun d =>
    let d := call .statement ctx (condition call ctx d.take)
    if d.sees (.keyword .elseKw) then call .statement ctx d.take else d

/-- A word, a condition and a statement. -/
def guarded (call : Call) (kind : NodeKind) (ctx : Context) (d : Draft) : Draft :=
  d.node kind fun d => call .statement ctx (condition call ctx d.take)

/-- A `do` statement; the semicolon after it is always optional. -/
def doStatement (call : Call) (ctx : Context) (d : Draft) : Draft :=
  d.node .doWhileStmt fun d =>
    let d := (call .statement ctx d.take).expect (.keyword .whileKw)
    (condition call ctx d).takeIf (.punct .semicolon)

/-- The first clause in the head of a `for` statement. -/
def forStart (call : Call) (ctx : Context) (d : Draft) : Draft :=
  let ctx := { ctx with noIn := true }
  if d.sees (.punct .semicolon) then d
  else if seesVariables d then variableList call ctx d
  else call .expression ctx d

/-- What kind of `for` statement it is, by what follows the first clause. -/
def forKind (d : Draft) : NodeKind :=
  if d.sees (.keyword .inKw) then .forInStmt
  else if d.seesWord "of" then .forOfStmt
  else .forStmt

/-- The condition and the step in the head of a `for` statement. -/
def forSteps (call : Call) (ctx : Context) (d : Draft) : Draft :=
  let d := d.expect (.punct .semicolon)
  let d := if d.sees (.punct .semicolon) then d else call .expression ctx.withIn d
  let d := d.expect (.punct .semicolon)
  if d.sees (.punct .rParen) then d else call .expression ctx.withIn d

/-- The rest of the head of a `for` statement. -/
def forRest (call : Call) (kind : NodeKind) (ctx : Context) (d : Draft) : Draft :=
  match kind with
  | .forInStmt => call .expression ctx.withIn d.take
  | .forOfStmt => call .assignment ctx.withIn d.take
  | _ => forSteps call ctx d

/-- A `for` statement of any kind. -/
def forStatement (call : Call) (ctx : Context) (d : Draft) : Draft :=
  d.group fun d =>
    let d := (d.take.takeIfWord "await").expect (.punct .lParen)
    let d := forStart call ctx d
    let kind := forKind d
    d.enclose kind fun d =>
      let d := (forRest call kind ctx d).expect (.punct .rParen)
      call .statement ctx d

/-- Whether a clause of a `switch` comes next. -/
def seesClause (d : Draft) : Bool := d.seesAny [.keyword .caseKw, .keyword .defaultKw]

/-- Statements of a clause. -/
def clauseBody (call : Call) (ctx : Context) (d : Draft) : Draft :=
  if d.ended || seesClause d || d.sees (.punct .rBrace) then d
  else call .clauseBody ctx (d.advance (call .statement ctx))

/-- A clause of a `switch`. -/
def clause (call : Call) (ctx : Context) (d : Draft) : Draft :=
  d.node .switchCase fun d =>
    let d :=
      if d.sees (.keyword .caseKw) then call .expression ctx.withIn d.take else d.take
    call .clauseBody ctx (d.expect (.punct .colon))

/-- Clauses of a `switch`; what is no clause is skipped. -/
def clauses (call : Call) (ctx : Context) (d : Draft) : Draft :=
  if d.ended || d.sees (.punct .rBrace) then d
  else if seesClause d then call .clauses ctx (clause call ctx d)
  else call .clauses ctx (d.skip .expectedCase)

/-- A `switch` statement. -/
def switchStatement (call : Call) (ctx : Context) (d : Draft) : Draft :=
  d.node .switchStmt fun d =>
    let d := (condition call ctx d.take).expect (.punct .lBrace)
    (call .clauses ctx d).expect (.punct .rBrace)

/-- The handler of a `try` statement; the name of the error may be left out. -/
def catchClause (call : Call) (ctx : Context) (d : Draft) : Draft :=
  d.node .catchClause fun d =>
    let d := d.take
    let d :=
      if d.sees (.punct .lParen) then
        (call .bindingTarget ctx d.take).expect (.punct .rParen)
      else d
    call .block ctx d

/-- A `try` statement, which needs a handler or a final block. -/
def tryStatement (call : Call) (ctx : Context) (d : Draft) : Draft :=
  d.node .tryStmt fun d =>
    let d := call .block ctx d.take
    let hasCatch := d.sees (.keyword .catchKw)
    let d := if hasCatch then catchClause call ctx d else d
    if d.sees (.keyword .finallyKw) then
      d.node .finallyClause fun d => call .block ctx d.take
    else if hasCatch then d
    else d.report .missingHandler

/-- A `return` statement, with its operand on the same line. -/
def returnStatement (call : Call) (ctx : Context) (d : Draft) : Draft :=
  d.node .returnStmt fun d =>
    let d := d.take
    let d := if seesNoOperand d || d.newline then d else call .expression ctx.withIn d
    d.endStatement

/-- A `throw` statement, whose operand has to be on the same line. -/
def throwStatement (call : Call) (ctx : Context) (d : Draft) : Draft :=
  d.node .throwStmt fun d =>
    let d := d.take
    let d := if d.newline then d.report .newlineAfterThrow else d
    (call .expression ctx.withIn d).endStatement

/-- A `break` or `continue`, with its label on the same line. -/
def jumpStatement (kind : NodeKind) (d : Draft) : Draft :=
  d.node kind fun d =>
    let d := d.take
    let d := if d.sees .ident && !d.newline then d.single .label else d
    d.endStatement

/-- A label and a statement. -/
def labeledStatement (call : Call) (ctx : Context) (d : Draft) : Draft :=
  d.node .labeledStmt fun d => call .statement ctx (d.single .label).take

/-! ## All statements -/

/-- A statement that starts with an identifier. -/
def wordStatement (call : Call) (ctx : Context) (d : Draft) : Draft :=
  if seesLet d then variableStatement call ctx d
  else if seesAsyncFunction d then function call .functionDecl true d
  else if d.kindAt 1 = .punct .colon then labeledStatement call ctx d
  else expressionStatement call ctx d

/-- A statement. -/
def statement (call : Call) (ctx : Context) (d : Draft) : Draft :=
  match d.kind with
  | .punct .lBrace => call .block ctx d
  | .keyword .varKw | .keyword .constKw => variableStatement call ctx d
  | .ident => wordStatement call ctx d
  | .keyword .functionKw => function call .functionDecl true d
  | .keyword .classKw => classDefinition call .classDecl true ctx d
  | .keyword .ifKw => ifStatement call ctx d
  | .keyword .forKw => forStatement call ctx d
  | .keyword .whileKw => guarded call .whileStmt ctx d
  | .keyword .doKw => doStatement call ctx d
  | .keyword .switchKw => switchStatement call ctx d
  | .keyword .tryKw => tryStatement call ctx d
  | .keyword .returnKw => returnStatement call ctx d
  | .keyword .throwKw => throwStatement call ctx d
  | .keyword .breakKw => jumpStatement .breakStmt d
  | .keyword .continueKw => jumpStatement .continueStmt d
  | .keyword .withKw => guarded call .withStmt ctx d
  | .keyword .debuggerKw => d.node .debuggerStmt fun d => d.take.endStatement
  | .punct .semicolon => d.single .emptyStmt
  | .keyword .importKw | .keyword .exportKw =>
    if seesImportExpr d then expressionStatement call ctx d else d.skip .notTopLevel
  | _ => expressionStatement call ctx d

end FreeNames.Grammar
