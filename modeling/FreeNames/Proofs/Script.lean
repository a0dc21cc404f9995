import FreeNames.Grammar.ModuleItem
import FreeNames.Proofs.Built

/-!
# FreeNames.Proofs.Script

The rules of the grammar as data.  A `Script` is made of the few things that
rules do: take a token, report a problem, choose by what comes next, gather the
parts of a node, call another production.  `Script.run` says what a script does,
and each production has a script that does what its rule does: see
`FreeNames.Proofs.Running`.

What holds of every rule can then be proved by induction on scripts, with one
case for each of these things, and what depends on the rules themselves can be
computed.
-/

namespace FreeNames

/-! ## the language -/

/-- All kinds of tokens. -/
def TokenKind.every : List TokenKind := .error :: TokenKind.all

theorem Keyword.mem_all (k : Keyword) : k ∈ all := by cases k <;> decide

theorem TokenKind.mem_every (k : TokenKind) : k ∈ every := by
  cases k with
  | trivia t =>
      have ht : t ∈ Trivia.all := by cases t <;> decide
      simp [every, all, ht]
  | punct p =>
      have hp : p ∈ Punct.all := by cases p <;> decide
      simp [every, all, hp]
  | keyword k => simp [every, all, k.mem_all]
  | _ => simp [every, all]

/-- What rules ask about the tokens that come next and about their context. -/
inductive Test where
  | ended
  | sees (k : TokenKind)
  | seesAny (ks : List TokenKind)
  | kindAt (n : Nat) (p : TokenKind → Bool)
  | newlineAt (n : Nat)
  | wordAt (n : Nat) (w : String) (contextual : w.toList ∈ contextualWords)
  /-- The next token starts as a template does. -/
  | backtick
  /-- An arrow function comes next. -/
  | arrow
  /-- The word `from` follows the group that comes next. -/
  | fromAfter
  | context (p : Context → Bool)
  /-- An answer that is known. -/
  | given (b : Bool)
  | not (t : Test)
  | and (s t : Test)
  | or (s t : Test)

/-- The answer to a test. -/
@[simp] def Test.holds (ctx : Context) (d : Draft) : Test → Bool
  | ended => d.ended
  | sees k => d.sees k
  | seesAny ks => d.seesAny ks
  | kindAt n p => p (d.kindAt n)
  | newlineAt n => d.newlineAt n
  | wordAt n w _ => d.wordAt n w
  | backtick => d.kind ≠ .ident && (d.textAt 0).head? = some '\x60'
  | arrow => Grammar.seesArrow d
  | fromAfter => d.wordAt (d.afterGroup 0) "from"
  | context p => p ctx
  | given b => b
  | not t => !t.holds ctx d
  | and s t => s.holds ctx d && t.holds ctx d
  | or s t => s.holds ctx d || t.holds ctx d

/-- What a rule does. -/
inductive Script where
  | done
  | take
  | report (c : Cause)
  | single (k : NodeKind)
  | seq (a b : Script)
  | choose (t : Test) (a b : Script)
  /-- Choose by the kind of the next token. -/
  | look (f : TokenKind → Script)
  /-- Remember the answer to a test. -/
  | ask (t : Test) (f : Bool → Script)
  | group (a : Script)
  | enclose (k : NodeKind) (a : Script)
  | node (k : NodeKind) (a : Script)
  /-- Call a production in a context that comes from that of the rule. -/
  | call (p : Production) (place : Context → Context := id)
  | advance (a : Script)
  /-- Take a token, then items with commas between them up to a closing mark. -/
  | list (close : TokenKind) (item : Script)

/-- Items of a list up to its closing mark; at most `bound` of them. -/
def Draft.items (close : TokenKind) (item : Draft → Draft) : (bound : Nat) → Draft → Draft
  | 0, d => d
  | bound + 1, d =>
    if d.ended || d.sees close then d else (item d).nextItem close (items close item bound)

/-- What a script does to a draft. -/
@[simp] def Script.run (call : Call) (ctx : Context) : Script → Draft → Draft
  | done, d => d
  | take, d => d.take
  | report c, d => d.report c
  | single k, d => d.single k
  | seq a b, d => b.run call ctx (a.run call ctx d)
  | choose t a b, d => if t.holds ctx d then a.run call ctx d else b.run call ctx d
  | look f, d => (f d.kind).run call ctx d
  | ask t f, d => (f (t.holds ctx d)).run call ctx d
  | group a, d => d.group (a.run call ctx)
  | enclose k a, d => d.enclose k (a.run call ctx)
  | node k a, d => d.node k (a.run call ctx)
  | .call p place, d => call p (place ctx) d
  | advance a, d => d.advance (a.run call ctx)
  | list close item, d => Draft.items close (item.run call ctx) d.rest.length d.take

/-- What the tests, calls, nodes and reports of a script have to pass. -/
structure Check where
  test : Test → Bool := fun _ => true
  place : (Context → Context) → Bool := fun _ => true
  kind : NodeKind → Bool := fun _ => true
  cause : Cause → Bool := fun _ => true

/-- All that a script asks, calls, makes and reports passes a check; the nodes for
skipped tokens and the reports of missing commas need not. -/
@[simp] def Script.passes (c : Check) : Script → Bool
  | done | take => true
  | report cause => c.cause cause
  | single k => c.kind k
  | seq a b => a.passes c && b.passes c
  | choose t a b => c.test t && a.passes c && b.passes c
  | look f => TokenKind.every.all fun k => (f k).passes c
  | ask t f => c.test t && (f true).passes c && (f false).passes c
  | group a | advance a | list _ a => a.passes c
  | enclose k a | node k a => c.kind k && a.passes c
  | call _ place => c.place place

theorem Script.passes_all (s : Script) : s.passes {} = true := by
  induction s <;> simp_all

/-- Less may be asked of nodes and reports. -/
theorem Script.passes_of_imp {s : Script} {c c' : Check} (hs : s.passes c = true)
    (htest : c.test = c'.test) (hplace : c.place = c'.place)
    (hkind : ∀ k, c.kind k = true → c'.kind k = true)
    (hcause : ∀ cause, c.cause cause = true → c'.cause cause = true) : s.passes c' = true := by
  induction s <;> simp_all

instance : Append Script := ⟨.seq⟩

namespace Test

/-- The next token is spelt as a word. -/
def seesWord (w : String) (contextual : w.toList ∈ contextualWords := by decide) : Test :=
  wordAt 0 w contextual

/-- The token after the next one is of a kind. -/
def andThen (k : TokenKind) : Test := kindAt 1 fun k' => k' = k

def newline : Test := newlineAt 0

def seesAsyncFunction : Test :=
  .and (.and (seesWord "async") (andThen (.keyword .functionKw))) (.not (newlineAt 1))

def seesAccessor : Test :=
  .and (.or (seesWord "get") (seesWord "set")) (kindAt 1 Grammar.startsKey)

/-- `async` comes next and modifies a member. -/
def seesAsyncMember : Test :=
  .and (.and (seesWord "async") (kindAt 1 Grammar.startsMember)) (.not (newlineAt 1))

def seesShorthand : Test :=
  .and (sees .ident)
    (.or (.or (andThen (.punct .comma)) (andThen (.punct .rBrace))) (andThen (.punct .eq)))

def seesImportExpr : Test :=
  .and (sees (.keyword .importKw)) (.or (andThen (.punct .lParen)) (andThen (.punct .dot)))

def seesNoOperand : Test :=
  .or ended (seesAny [.punct .semicolon, .punct .rBrace, .punct .rParen, .punct .rBracket,
    .punct .comma, .punct .colon])

def seesLet : Test :=
  .and (seesWord "let")
    (.or (.or (andThen .ident) (andThen (.punct .lBracket))) (andThen (.punct .lBrace)))

def seesVariables : Test := .or (seesAny [.keyword .varKw, .keyword .constKw]) seesLet

def seesClause : Test := seesAny [.keyword .caseKw, .keyword .defaultKw]

/-- A list is at its end. -/
def closed (close : TokenKind) : Test := .or ended (sees close)

end Test

namespace Script

/-! ## small steps -/

def skip (c : Cause) : Script := report c ++ choose .ended done (single .error)

def refuse (c : Cause) : Script := choose (.seesAny Draft.closers) (report c) (skip c)

def takeIf (t : Test) : Script := choose t take done

def expect (k : TokenKind) : Script := choose (.sees k) take (report (.expected k))

def expectWord (w : String) (contextual : w.toList ∈ contextualWords := by decide) : Script :=
  choose (.seesWord w contextual) take (report (.expectedWord w))

def endStatement : Script :=
  choose (.sees (.punct .semicolon)) take
    (choose (.or (.or (.sees (.punct .rBrace)) .ended) .newline) done (report .unexpected))

def nextItem (close : TokenKind) (more : Script) : Script :=
  choose (.sees close) done
    (choose (.sees (.punct .comma)) (take ++ more) (report (.expected (.punct .comma))))

/-! ## keys and bindings -/

def propertyName : Script :=
  choose (.or (.kindAt 0 TokenKind.isIdentifierName) (.sees .privateName)) (single .propertyName)
    (report .unexpected)

def propertyKey : Script :=
  choose (.sees (.punct .lBracket))
    (node .computedKey (take ++ call .assignment .withIn ++ expect (.punct .rBracket)))
    (choose (.kindAt 0 Grammar.startsKey) (single .propertyKey) (refuse .unexpected))

def bindingName : Script := choose (.sees .ident) (single .name) (refuse .expectedIdentifier)

def bindingTarget : Script :=
  choose (.sees (.punct .lBrace))
    (node .objectPattern (take ++ call .patternFields ++ expect (.punct .rBrace)))
    (choose (.sees (.punct .lBracket))
      (node .arrayPattern (take ++ call .patternItems ++ expect (.punct .rBracket)))
      bindingName)

def bindingElement : Script :=
  group (call .bindingTarget ++
    choose (.sees (.punct .eq)) (enclose .assignPattern (take ++ call .assignment .withIn)) done)

def restPattern : Script := node .restPattern (take ++ call .bindingTarget)

def restOrElement : Script :=
  choose (.sees (.punct .dotDotDot)) restPattern (call .bindingElement)

def patternField : Script :=
  node .objectPatternProp
    (choose (.and (.sees .ident) (.kindAt 1 fun k => k ≠ .punct .colon)) (call .bindingElement)
      (propertyKey ++ expect (.punct .colon) ++ call .bindingElement))

def patternFields : Script :=
  choose (.closed (.punct .rBrace)) done
    (choose (.sees (.punct .dotDotDot)) restPattern patternField ++
      nextItem (.punct .rBrace) (call .patternFields))

def patternItems : Script :=
  choose (.closed (.punct .rBracket)) done
    (choose (.sees (.punct .comma)) (take ++ call .patternItems)
      (restOrElement ++ nextItem (.punct .rBracket) (call .patternItems)))

def parameters : Script :=
  choose (.closed (.punct .rParen)) done
    (restOrElement ++ nextItem (.punct .rParen) (call .parameters))

def parameterList (place : Context → Context) : Script :=
  node .paramList (expect (.punct .lParen) ++ call .parameters place ++ expect (.punct .rParen))

/-! ## functions and classes -/

def functionRest (isAsync isGenerator : Bool) : Script :=
  parameterList (fun _ => ⟨isAsync, isGenerator, false⟩) ++
    call .block fun _ => ⟨isAsync, isGenerator, false⟩

def optionalName (needsName : Bool) (c : Cause) : Script :=
  choose (.sees .ident) bindingName (choose (.given needsName) (report c) done)

def function (kind : NodeKind) (needsName : Bool) : Script :=
  node kind
    (ask (.seesWord "async") fun isAsync =>
      takeIf (.seesWord "async") ++ expect (.keyword .functionKw) ++
        ask (.sees (.punct .star)) fun isGenerator =>
          takeIf (.sees (.punct .star)) ++ optionalName needsName .expectedFunctionName ++
            functionRest isAsync isGenerator)

def methodRest (isAsync isGenerator : Bool) : Script :=
  enclose .method (functionRest isAsync isGenerator)

def arrowFunction : Script :=
  node .arrowFunction
    (ask (.and (.seesWord "async") (.kindAt 1 fun k => k ≠ .punct .fatArrow)) fun isAsync =>
      takeIf (.given isAsync) ++
        choose (.sees .ident) (node .paramList bindingName)
          (parameterList fun ctx => ⟨isAsync, false, ctx.noIn⟩) ++
        expect (.punct .fatArrow) ++
        choose (.sees (.punct .lBrace)) (call .block fun _ => ⟨isAsync, false, false⟩)
          (call .assignment fun ctx => ⟨isAsync, false, ctx.noIn⟩))

def classDefinition (kind : NodeKind) (needsName : Bool) : Script :=
  node kind
    (take ++ optionalName needsName .expectedClassName ++
      choose (.sees (.keyword .extendsKw)) (node .classHeritage (take ++ call .operand)) done ++
      node .classBody
        (expect (.punct .lBrace) ++ call .members ++ expect (.punct .rBrace)))

def staticBlock : Script := node .staticBlock (take ++ call .block fun _ => {})

def fieldRest : Script :=
  enclose .classField
    (choose (.sees (.punct .eq)) (take ++ call .assignment fun _ => {}) done ++ endStatement)

def methodOrField : Script :=
  choose .seesAccessor (take ++ propertyKey ++ methodRest false false)
    (ask .seesAsyncMember fun isAsync =>
      takeIf (.given isAsync) ++ ask (.sees (.punct .star)) fun isGenerator =>
        takeIf (.sees (.punct .star)) ++ propertyKey ++
          choose (.or (.or (.given isAsync) (.given isGenerator)) (.sees (.punct .lParen)))
            (methodRest isAsync isGenerator) fieldRest)

def member : Script :=
  group
    (choose (.and (.seesWord "static") (.andThen (.punct .lBrace))) staticBlock
      (takeIf (.and (.seesWord "static") (.kindAt 1 Grammar.startsMember)) ++ methodOrField))

def members : Script :=
  choose (.closed (.punct .rBrace)) done
    (choose (.sees (.punct .semicolon)) (take ++ call .members)
      (advance member ++ call .members))

/-! ## collections -/

def spreadElement : Script := node .spreadElement (take ++ call .assignment)

def spreadOrPlain : Script := choose (.sees (.punct .dotDotDot)) spreadElement (call .assignment)

def arguments : Script :=
  choose (.closed (.punct .rParen)) done
    (spreadOrPlain ++ nextItem (.punct .rParen) (call .arguments))

def argumentList : Script :=
  node .argList
    (expect (.punct .lParen) ++ call .arguments .withIn ++ expect (.punct .rParen))

def arrayItems : Script :=
  choose (.closed (.punct .rBracket)) done
    (choose (.sees (.punct .comma)) (take ++ call .arrayItems)
      (spreadOrPlain ++ nextItem (.punct .rBracket) (call .arrayItems)))

def arrayLiteral : Script :=
  node .arrayExpr (take ++ call .arrayItems .withIn ++ expect (.punct .rBracket))

def shorthand : Script :=
  node .objectProperty
    (single .nameRef ++ choose (.sees (.punct .eq)) (take ++ call .assignment) done)

def keyed : Script :=
  propertyKey ++
    choose (.sees (.punct .lParen)) (methodRest false false)
      (enclose .objectProperty (expect (.punct .colon) ++ call .assignment))

def property : Script :=
  group
    (choose .seesAccessor (take ++ propertyKey ++ methodRest false false)
      (ask .seesAsyncMember fun isAsync =>
        takeIf (.given isAsync) ++ ask (.sees (.punct .star)) fun isGenerator =>
          takeIf (.sees (.punct .star)) ++
            choose (.or (.given isAsync) (.given isGenerator))
              (propertyKey ++ methodRest isAsync isGenerator)
              (choose .seesShorthand shorthand keyed)))

def objectItems : Script :=
  choose (.closed (.punct .rBrace)) done
    (choose (.sees (.punct .dotDotDot)) spreadElement property ++
      nextItem (.punct .rBrace) (call .objectItems))

def objectLiteral : Script :=
  node .objectExpr (take ++ call .objectItems .withIn ++ expect (.punct .rBrace))

/-! ## operands -/

def templateParts : Script :=
  choose (.sees .templateTail) take
    (choose (.sees .templateHead) (take ++ call .expression .withIn ++ call .templateParts)
      (report .unterminatedTemplate))

def template : Script := node .templateLiteral (call .templateParts)

def index : Script :=
  expect (.punct .lBracket) ++ call .expression .withIn ++ expect (.punct .rBracket)

def parenthesized : Script :=
  node .parenExpr (take ++ call .expression .withIn ++ expect (.punct .rParen))

def metaProperty : Script := node .metaProperty (take ++ take ++ propertyName)

def importExpr : Script :=
  choose (.andThen (.punct .dot)) metaProperty (node .importCall (take ++ argumentList))

def primary : Script :=
  look fun
    | .keyword .thisKw => single .thisExpr
    | .keyword .superKw => single .superExpr
    | .ident => choose .seesAsyncFunction (function .functionExpr false) (single .nameRef)
    | .number | .string | .regex | .keyword .nullKw | .keyword .trueKw | .keyword .falseKw =>
      single .literal
    | .templateHead | .templateTail => template
    | .punct .lBracket => arrayLiteral
    | .punct .lBrace => objectLiteral
    | .punct .lParen => parenthesized
    | .keyword .functionKw => function .functionExpr false
    | .keyword .classKw => classDefinition .classExpr false
    | .keyword .importKw => choose .seesImportExpr importExpr (refuse .unexpected)
    | _ => refuse .unexpected

def newOrPrimary : Script := choose (.sees (.keyword .newKw)) (call .newExpr) primary

def newExpr : Script :=
  choose (.andThen (.punct .dot)) metaProperty
    (node .newExpr
      (take ++ group (newOrPrimary ++ call (.suffixes false)) ++
        choose (.sees (.punct .lParen)) argumentList done))

def suffixes (calls : Bool) : Script :=
  look fun
    | .punct .dot => again (enclose .memberExpr (take ++ propertyName))
    | .punct .questionDot =>
      choose (.andThen (.punct .lBracket)) (again (enclose .indexExpr (take ++ index)))
        (choose (.andThen (.punct .lParen)) (again (enclose .callExpr (take ++ argumentList)))
          (again (enclose .memberExpr (take ++ propertyName))))
    | .punct .lBracket => again (enclose .indexExpr index)
    | .punct .lParen =>
      choose (.given calls) (again (enclose .callExpr argumentList)) done
    | .templateHead | .templateTail =>
      choose .backtick (again (enclose .taggedTemplate template)) done
    | _ => done
where
  again (suffix : Script) : Script := suffix ++ call (.suffixes calls)

def operand : Script := group (newOrPrimary ++ call (.suffixes true))

/-! ## operators -/

def commaTail : Script :=
  choose (.sees (.punct .comma)) (take ++ call .assignment ++ call .commaTail) done

def expression : Script :=
  group (call .assignment ++
    choose (.sees (.punct .comma)) (enclose .sequenceExpr (call .commaTail)) done)

def yieldExpr : Script :=
  node .yieldExpr
    (take ++ choose (.sees (.punct .star)) (take ++ call .assignment)
      (choose (.or .newline .seesNoOperand) done (call .assignment)))

def assignment : Script :=
  choose .arrow arrowFunction
    (choose (.and (.context Context.yields) (.seesWord "yield")) yieldExpr
      (group (call .conditional ++
        choose (.kindAt 0 TokenKind.isAssign) (enclose .assignExpr (take ++ call .assignment))
          done)))

def conditional : Script :=
  group (call (.binary 1) ++
    choose (.sees (.punct .question))
      (enclose .conditionalExpr
        (take ++ call .assignment .withIn ++ expect (.punct .colon) ++ call .assignment))
      done)

/-- An operator and its right operand, if the operator binds tightly enough; `in`
is no operator in some contexts. -/
def binaryTail (least : Nat) : Script :=
  look fun k =>
    match Grammar.precedence? {} k with
    | none => done
    | some p =>
      choose (.context fun ctx => p < least || ctx.noIn && k = .keyword .inKw) done
        (enclose .binaryExpr
            (take ++ call (.binary (if k = .punct .starStar then p else p + 1))) ++
          call (.binaryTail least))

def binary (least : Nat) : Script :=
  group
    (choose (.and (.sees .privateName) (.andThen (.keyword .inKw))) (single .literal)
        (call .unary) ++
      call (.binaryTail least))

def postfixed : Script :=
  group (call .operand ++
    choose (.and (.seesAny [.punct .plusPlus, .punct .minusMinus]) (.not .newline))
      (enclose .updateExpr take) done)

def unary : Script :=
  look fun
    | .keyword .deleteKw | .keyword .voidKw | .keyword .typeofKw | .punct .plus | .punct .minus
    | .punct .tilde | .punct .bang => node .unaryExpr (take ++ call .unary)
    | .punct .plusPlus | .punct .minusMinus => node .updateExpr (take ++ call .unary)
    | _ =>
      choose (.and (.context Context.awaits) (.seesWord "await"))
        (node .awaitExpr (take ++ call .unary)) postfixed

/-! ## statements -/

def block : Script :=
  node .blockStmt
    (expect (.punct .lBrace) ++ call .statements ++ expect (.punct .rBrace))

def statements : Script :=
  choose (.closed (.punct .rBrace)) done (advance (call .statement) ++ call .statements)

def declarators : Script :=
  node .varDeclarator
      (call .bindingTarget ++ choose (.sees (.punct .eq)) (take ++ call .assignment) done) ++
    choose (.sees (.punct .comma)) (take ++ call .declarators) done

def variableList (place : Context → Context) : Script :=
  node .varDecl (take ++ call .declarators place)

def variableStatement : Script := node .varDecl (take ++ call .declarators ++ endStatement)

def expressionStatement : Script := node .exprStmt (call .expression ++ endStatement)

def condition : Script :=
  expect (.punct .lParen) ++ call .expression .withIn ++ expect (.punct .rParen)

def ifStatement : Script :=
  node .ifStmt
    (take ++ condition ++ call .statement ++
      choose (.sees (.keyword .elseKw)) (take ++ call .statement) done)

def guarded (kind : NodeKind) : Script := node kind (take ++ condition ++ call .statement)

def doStatement : Script :=
  node .doWhileStmt
    (take ++ call .statement ++ expect (.keyword .whileKw) ++ condition ++
      takeIf (.sees (.punct .semicolon)))

def forStart : Script :=
  choose (.sees (.punct .semicolon)) done
    (choose .seesVariables (variableList fun ctx => { ctx with noIn := true })
      (call .expression fun ctx => { ctx with noIn := true }))

def forSteps : Script :=
  expect (.punct .semicolon) ++
    choose (.sees (.punct .semicolon)) done (call .expression .withIn) ++
    expect (.punct .semicolon) ++
    choose (.sees (.punct .rParen)) done (call .expression .withIn)

def forLoop : Script :=
  choose (.sees (.keyword .inKw)) (loop .forInStmt (take ++ call .expression .withIn))
    (choose (.seesWord "of") (loop .forOfStmt (take ++ call .assignment .withIn))
      (loop .forStmt forSteps))
where
  loop (kind : NodeKind) (rest : Script) : Script :=
    enclose kind (rest ++ expect (.punct .rParen) ++ call .statement)

def forStatement : Script :=
  group
    (take ++ takeIf (.seesWord "await") ++ expect (.punct .lParen) ++ forStart ++ forLoop)

def clauseBody : Script :=
  choose (.or (.or .ended .seesClause) (.sees (.punct .rBrace))) done
    (advance (call .statement) ++ call .clauseBody)

def clause : Script :=
  node .switchCase
    (choose (.sees (.keyword .caseKw)) (take ++ call .expression .withIn) take ++
      expect (.punct .colon) ++ call .clauseBody)

def clauses : Script :=
  choose (.closed (.punct .rBrace)) done
    (choose .seesClause (clause ++ call .clauses) (skip .expectedCase ++ call .clauses))

def switchStatement : Script :=
  node .switchStmt
    (take ++ condition ++ expect (.punct .lBrace) ++ call .clauses ++ expect (.punct .rBrace))

def catchClause : Script :=
  node .catchClause
    (take ++
      choose (.sees (.punct .lParen)) (take ++ call .bindingTarget ++ expect (.punct .rParen))
        done ++
      call .block)

def tryStatement : Script :=
  node .tryStmt
    (take ++ call .block ++ ask (.sees (.keyword .catchKw)) fun hasCatch =>
      choose (.given hasCatch) catchClause done ++
        choose (.sees (.keyword .finallyKw)) (node .finallyClause (take ++ call .block))
          (choose (.given hasCatch) done (report .missingHandler)))

def returnStatement : Script :=
  node .returnStmt
    (take ++ choose (.or .seesNoOperand .newline) done (call .expression .withIn) ++ endStatement)

def throwStatement : Script :=
  node .throwStmt
    (take ++ choose .newline (report .newlineAfterThrow) done ++ call .expression .withIn ++
      endStatement)

def jumpStatement (kind : NodeKind) : Script :=
  node kind
    (take ++ choose (.and (.sees .ident) (.not .newline)) (single .label) done ++ endStatement)

def labeledStatement : Script := node .labeledStmt (single .label ++ take ++ call .statement)

def wordStatement : Script :=
  choose .seesLet variableStatement
    (choose .seesAsyncFunction (function .functionDecl true)
      (choose (.andThen (.punct .colon)) labeledStatement expressionStatement))

def statement : Script :=
  look fun
    | .punct .lBrace => call .block
    | .keyword .varKw | .keyword .constKw => variableStatement
    | .ident => wordStatement
    | .keyword .functionKw => function .functionDecl true
    | .keyword .classKw => classDefinition .classDecl true
    | .keyword .ifKw => ifStatement
    | .keyword .forKw => forStatement
    | .keyword .whileKw => guarded .whileStmt
    | .keyword .doKw => doStatement
    | .keyword .switchKw => switchStatement
    | .keyword .tryKw => tryStatement
    | .keyword .returnKw => returnStatement
    | .keyword .throwKw => throwStatement
    | .keyword .breakKw => jumpStatement .breakStmt
    | .keyword .continueKw => jumpStatement .continueStmt
    | .keyword .withKw => guarded .withStmt
    | .keyword .debuggerKw => node .debuggerStmt (take ++ endStatement)
    | .punct .semicolon => single .emptyStmt
    | .keyword .importKw | .keyword .exportKw =>
      choose .seesImportExpr expressionStatement (skip .notTopLevel)
    | _ => expressionStatement

/-! ## imports and exports -/

def requireModule : SourceType → Script
  | .script => report .moduleOnly
  | .module => done

def externalName : Script :=
  choose (.or (.kindAt 0 TokenKind.isIdentifierName) (.sees .string)) (single .moduleExportName)
    (refuse .expectedIdentifier)

def fromModule : Script :=
  choose (.sees .string) (single .literal) (refuse .expectedString) ++
    choose (.and (.sees (.keyword .withKw)) (.andThen (.punct .lBrace))) (take ++ objectLiteral)
      done

def importSpecifier : Script :=
  node .importSpecifier
    (choose (.wordAt 1 "as" (by decide)) (externalName ++ take ++ bindingName) bindingName)

def namedImports : Script := list (.punct .rBrace) importSpecifier ++ expect (.punct .rBrace)

def namespaceImport : Script :=
  node .importNamespaceSpecifier (take ++ expectWord "as" ++ bindingName)

def importedNames : Script :=
  look fun
    | .punct .star => namespaceImport
    | .punct .lBrace => namedImports
    | _ => report .unexpected

def importClause : Script :=
  choose (.sees .ident)
    (node .importDefaultSpecifier bindingName ++
      choose (.sees (.punct .comma)) (take ++ importedNames) done)
    importedNames

def importDeclaration (source : SourceType) : Script :=
  requireModule source ++
    node .importDecl
      (take ++ choose (.sees .string) done (importClause ++ expectWord "from") ++ fromModule ++
        endStatement)

def exportSpecifier (again : Bool) : Script :=
  node .exportSpecifier
    (choose (.and (.not (.given again)) (.sees .ident)) (single .nameRef) externalName ++
      choose (.seesWord "as") (take ++ externalName) done)

def namedExports : Script :=
  ask .fromAfter fun again =>
    list (.punct .rBrace) (exportSpecifier again) ++ expect (.punct .rBrace) ++
      choose (.given again) (take ++ fromModule) done ++ endStatement

def exportAll : Script :=
  take ++ choose (.seesWord "as") (take ++ externalName) done ++ expectWord "from" ++
    fromModule ++ endStatement

def exportDefault : Script :=
  take ++
    choose (.or (.sees (.keyword .functionKw)) .seesAsyncFunction) (function .functionDecl false)
      (choose (.sees (.keyword .classKw)) (classDefinition .classDecl false)
        (call .assignment .withIn ++ endStatement))

def exported : Script :=
  look fun
    | .keyword .defaultKw => exportDefault
    | .punct .star => exportAll
    | .punct .lBrace => namedExports
    | .keyword .varKw | .keyword .constKw => variableStatement
    | .keyword .functionKw => function .functionDecl true
    | .keyword .classKw => classDefinition .classDecl true
    | _ =>
      choose .seesLet variableStatement
        (choose .seesAsyncFunction (function .functionDecl true) (refuse .unexpected))

def exportDeclaration (source : SourceType) : Script :=
  requireModule source ++ node .exportDecl (take ++ exported)

def moduleItem (source : SourceType) : Script :=
  look fun
    | .keyword .importKw =>
      choose .seesImportExpr (call .statement) (importDeclaration source)
    | .keyword .exportKw => exportDeclaration source
    | _ => call .statement

end Script

/-- The script of each production. -/
def Production.script : Production → Script
  | .block => .block
  | .statements => .statements
  | .clauses => .clauses
  | .clauseBody => .clauseBody
  | .statement => .statement
  | .declarators => .declarators
  | .expression => .expression
  | .commaTail => .commaTail
  | .assignment => .assignment
  | .conditional => .conditional
  | .binary least => .binary least
  | .binaryTail least => .binaryTail least
  | .unary => .unary
  | .operand => .operand
  | .newExpr => .newExpr
  | .suffixes calls => .suffixes calls
  | .arguments => .arguments
  | .arrayItems => .arrayItems
  | .objectItems => .objectItems
  | .templateParts => .templateParts
  | .bindingTarget => .bindingTarget
  | .bindingElement => .bindingElement
  | .patternFields => .patternFields
  | .patternItems => .patternItems
  | .parameters => .parameters
  | .members => .members

end FreeNames
