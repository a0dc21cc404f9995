/-!
# FreeNames.Tree.NodeKind

Kinds of nodes of a syntax tree, and what each means for scoping.
-/

namespace FreeNames

/-- What a node of a syntax tree is. -/
inductive NodeKind where
  | program | blockStmt | varDecl | varDeclarator | functionDecl | classDecl | exprStmt
  | ifStmt | forStmt | forInStmt | forOfStmt | whileStmt | doWhileStmt | switchStmt
  | switchCase | tryStmt | catchClause | finallyClause | returnStmt | throwStmt | breakStmt
  | continueStmt | labeledStmt | withStmt | debuggerStmt | emptyStmt | importDecl
  | importDefaultSpecifier | importSpecifier | importNamespaceSpecifier | exportDecl
  | exportSpecifier | moduleExportName | functionExpr | arrowFunction | paramList | classExpr
  | classHeritage | classBody | method | classField | staticBlock | nameRef | thisExpr
  | superExpr | literal | templateLiteral | taggedTemplate | arrayExpr | objectExpr
  | objectProperty | propertyKey | computedKey | spreadElement | parenExpr | memberExpr
  | propertyName | indexExpr | callExpr | newExpr | argList | metaProperty | importCall
  | unaryExpr | updateExpr | awaitExpr | yieldExpr | binaryExpr | conditionalExpr | assignExpr
  | sequenceExpr | name | objectPattern | objectPatternProp | arrayPattern | assignPattern
  | restPattern | label | error
deriving DecidableEq, Repr

namespace NodeKind

/-- All kinds of nodes. -/
def all : List NodeKind :=
  [.program, .blockStmt, .varDecl, .varDeclarator, .functionDecl, .classDecl, .exprStmt,
   .ifStmt, .forStmt, .forInStmt, .forOfStmt, .whileStmt, .doWhileStmt, .switchStmt,
   .switchCase, .tryStmt, .catchClause, .finallyClause, .returnStmt, .throwStmt, .breakStmt,
   .continueStmt, .labeledStmt, .withStmt, .debuggerStmt, .emptyStmt, .importDecl,
   .importDefaultSpecifier, .importSpecifier, .importNamespaceSpecifier, .exportDecl,
   .exportSpecifier, .moduleExportName, .functionExpr, .arrowFunction, .paramList, .classExpr,
   .classHeritage, .classBody, .method, .classField, .staticBlock, .nameRef, .thisExpr,
   .superExpr, .literal, .templateLiteral, .taggedTemplate, .arrayExpr, .objectExpr,
   .objectProperty, .propertyKey, .computedKey, .spreadElement, .parenExpr, .memberExpr,
   .propertyName, .indexExpr, .callExpr, .newExpr, .argList, .metaProperty, .importCall,
   .unaryExpr, .updateExpr, .awaitExpr, .yieldExpr, .binaryExpr, .conditionalExpr, .assignExpr,
   .sequenceExpr, .name, .objectPattern, .objectPatternProp, .arrayPattern, .assignPattern,
   .restPattern, .label, .error]

/-- The name used in messages and listings. -/
def tag : NodeKind → String
  | .program => "PROGRAM"
  | .blockStmt => "BLOCK_STMT"
  | .varDecl => "VAR_DECL"
  | .varDeclarator => "VAR_DECLARATOR"
  | .functionDecl => "FUNCTION_DECL"
  | .classDecl => "CLASS_DECL"
  | .exprStmt => "EXPR_STMT"
  | .ifStmt => "IF_STMT"
  | .forStmt => "FOR_STMT"
  | .forInStmt => "FOR_IN_STMT"
  | .forOfStmt => "FOR_OF_STMT"
  | .whileStmt => "WHILE_STMT"
  | .doWhileStmt => "DO_WHILE_STMT"
  | .switchStmt => "SWITCH_STMT"
  | .switchCase => "SWITCH_CASE"
  | .tryStmt => "TRY_STMT"
  | .catchClause => "CATCH_CLAUSE"
  | .finallyClause => "FINALLY_CLAUSE"
  | .returnStmt => "RETURN_STMT"
  | .throwStmt => "THROW_STMT"
  | .breakStmt => "BREAK_STMT"
  | .continueStmt => "CONTINUE_STMT"
  | .labeledStmt => "LABELED_STMT"
  | .withStmt => "WITH_STMT"
  | .debuggerStmt => "DEBUGGER_STMT"
  | .emptyStmt => "EMPTY_STMT"
  | .importDecl => "IMPORT_DECL"
  | .importDefaultSpecifier => "IMPORT_DEFAULT_SPECIFIER"
  | .importSpecifier => "IMPORT_SPECIFIER"
  | .importNamespaceSpecifier => "IMPORT_NAMESPACE_SPECIFIER"
  | .exportDecl => "EXPORT_DECL"
  | .exportSpecifier => "EXPORT_SPECIFIER"
  | .moduleExportName => "MODULE_EXPORT_NAME"
  | .functionExpr => "FUNCTION_EXPR"
  | .arrowFunction => "ARROW_FUNCTION"
  | .paramList => "PARAM_LIST"
  | .classExpr => "CLASS_EXPR"
  | .classHeritage => "CLASS_HERITAGE"
  | .classBody => "CLASS_BODY"
  | .method => "METHOD"
  | .classField => "CLASS_FIELD"
  | .staticBlock => "STATIC_BLOCK"
  | .nameRef => "NAME_REF"
  | .thisExpr => "THIS_EXPR"
  | .superExpr => "SUPER_EXPR"
  | .literal => "LITERAL"
  | .templateLiteral => "TEMPLATE_LITERAL"
  | .taggedTemplate => "TAGGED_TEMPLATE"
  | .arrayExpr => "ARRAY_EXPR"
  | .objectExpr => "OBJECT_EXPR"
  | .objectProperty => "OBJECT_PROPERTY"
  | .propertyKey => "PROPERTY_KEY"
  | .computedKey => "COMPUTED_KEY"
  | .spreadElement => "SPREAD_ELEMENT"
  | .parenExpr => "PAREN_EXPR"
  | .memberExpr => "MEMBER_EXPR"
  | .propertyName => "PROPERTY_NAME"
  | .indexExpr => "INDEX_EXPR"
  | .callExpr => "CALL_EXPR"
  | .newExpr => "NEW_EXPR"
  | .argList => "ARG_LIST"
  | .metaProperty => "META_PROPERTY"
  | .importCall => "IMPORT_CALL"
  | .unaryExpr => "UNARY_EXPR"
  | .updateExpr => "UPDATE_EXPR"
  | .awaitExpr => "AWAIT_EXPR"
  | .yieldExpr => "YIELD_EXPR"
  | .binaryExpr => "BINARY_EXPR"
  | .conditionalExpr => "CONDITIONAL_EXPR"
  | .assignExpr => "ASSIGN_EXPR"
  | .sequenceExpr => "SEQUENCE_EXPR"
  | .name => "NAME"
  | .objectPattern => "OBJECT_PATTERN"
  | .objectPatternProp => "OBJECT_PATTERN_PROP"
  | .arrayPattern => "ARRAY_PATTERN"
  | .assignPattern => "ASSIGN_PATTERN"
  | .restPattern => "REST_PATTERN"
  | .label => "LABEL"
  | .error => "ERROR"

/-- Nodes that hold the names of `var` declarations and of function declarations. -/
def isFunctionScope : NodeKind → Bool
  | .program | .functionDecl | .functionExpr | .arrowFunction | .method | .staticBlock => true
  | _ => false

/-- Nodes that hold the names of `let`, `const` and class declarations. -/
def isBlockScope (k : NodeKind) : Bool := k = .blockStmt || k.isFunctionScope

/-- Nodes that give `this` a meaning of its own. -/
def bindsThis : NodeKind → Bool
  | .functionDecl | .functionExpr | .method | .classField | .staticBlock => true
  | _ => false

/-- Nodes that give `arguments` a meaning of its own. -/
def bindsArguments : NodeKind → Bool
  | .functionDecl | .functionExpr | .method => true
  | _ => false

end NodeKind

end FreeNames
