import FreeNames.Grammar.Callable

/-!
# FreeNames.Grammar.Class

Classes and their members: methods, accessors, fields and static blocks.
-/

namespace FreeNames.Grammar

/-- A class. -/
def classDefinition (call : Call) (kind : NodeKind) (needsName : Bool) (ctx : Context)
    (d : Draft) : Draft :=
  d.node kind fun d =>
    let d := d.take
    let d :=
      if d.sees .ident then bindingName d
      else if needsName then d.report .expectedClassName
      else d
    let d :=
      if d.sees (.keyword .extendsKw) then
        d.node .classHeritage fun d => call .operand ctx d.take
      else d
    d.node .classBody fun d =>
      (call .members ctx (d.expect (.punct .lBrace))).expect (.punct .rBrace)

/-- What can follow a word in front of a member when the word modifies it. -/
def startsMember (kind : TokenKind) : Bool := startsKey kind || kind = .punct .star

/-- Whether an accessor comes next: `get` or `set` before a key. -/
def seesAccessor (d : Draft) : Bool :=
  (d.seesWord "get" || d.seesWord "set") && startsKey (d.kindAt 1)

/-- A static block. -/
def staticBlock (call : Call) (d : Draft) : Draft :=
  d.node .staticBlock fun d => call .block {} d.take

/-- The rest of a field after its key. -/
def fieldRest (call : Call) (d : Draft) : Draft :=
  d.enclose .classField fun d =>
    let d := if d.sees (.punct .eq) then call .assignment {} d.take else d
    d.endStatement

/-- A method or field, after `static`. -/
def methodOrField (call : Call) (ctx : Context) (d : Draft) : Draft :=
  if seesAccessor d then methodRest call false false (propertyKey call ctx d.take)
  else
    let isAsync := d.seesWord "async" && startsMember (d.kindAt 1) && !d.newlineAt 1
    let d := if isAsync then d.take else d
    let isGenerator := d.sees (.punct .star)
    let d := propertyKey call ctx (d.takeIf (.punct .star))
    if isAsync || isGenerator || d.sees (.punct .lParen) then
      methodRest call isAsync isGenerator d
    else fieldRest call d

/-- A member of a class. -/
def member (call : Call) (ctx : Context) (d : Draft) : Draft :=
  d.group fun d =>
    if d.seesWord "static" && d.kindAt 1 = .punct .lBrace then staticBlock call d
    else
      let isStatic := d.seesWord "static" && startsMember (d.kindAt 1)
      methodOrField call ctx (if isStatic then d.take else d)

/-- Members of a class; semicolons between them are empty. -/
def members (call : Call) (ctx : Context) (d : Draft) : Draft :=
  if d.ended || d.sees (.punct .rBrace) then d
  else if d.sees (.punct .semicolon) then call .members ctx d.take
  else call .members ctx (d.advance (member call ctx))

end FreeNames.Grammar
