import FreeNames.Grammar.Statement

/-!
# FreeNames.Grammar.ModuleItem

What stands at the top level: statements, imports and exports.  Imports and
exports are read in scripts too, and reported there.
-/

namespace FreeNames

/-- Whether a text is a classic script or a module. -/
inductive SourceType where
  | script | module
deriving DecidableEq, Repr

namespace Grammar

/-- Report an import or export that does not stand in a module. -/
def requireModule (source : SourceType) (d : Draft) : Draft :=
  match source with
  | .script => d.report .moduleOnly
  | .module => d

/-- The name of a module. -/
def moduleName (d : Draft) : Draft :=
  if d.sees .string then d.single .literal else d.refuse .expectedString

/-- A name under which something is imported or exported, and that declares
nothing. -/
def externalName (d : Draft) : Draft :=
  if d.kind.isIdentifierName || d.sees .string then d.single .moduleExportName
  else d.refuse .expectedIdentifier

/-- Attributes of an import, after `with`. -/
def importAttributes (call : Call) (ctx : Context) (d : Draft) : Draft :=
  if d.sees (.keyword .withKw) && d.kindAt 1 = .punct .lBrace then
    objectLiteral call ctx d.take
  else d

/-- The end of an import or export that names a module. -/
def fromModule (call : Call) (ctx : Context) (d : Draft) : Draft :=
  importAttributes call ctx (moduleName d)

/-- One name in the braces of an import. -/
def importSpecifier (d : Draft) : Draft :=
  d.node .importSpecifier fun d =>
    bindingName (if d.wordAt 1 "as" then (externalName d).take else d)

/-- Names in the braces of an import; at most `bound` of them. -/
def importSpecifiers : (bound : Nat) → Draft → Draft
  | 0, d => d
  | bound + 1, d =>
    if d.ended || d.sees (.punct .rBrace) then d
    else (importSpecifier d).nextItem (.punct .rBrace) (importSpecifiers bound)

/-- Names of an import, in braces. -/
def namedImports (d : Draft) : Draft :=
  (importSpecifiers d.rest.length d.take).expect (.punct .rBrace)

/-- The import of everything under one name. -/
def namespaceImport (d : Draft) : Draft :=
  d.node .importNamespaceSpecifier fun d => bindingName (d.take.expectWord "as")

/-- What an import declares besides a default. -/
def importedNames (d : Draft) : Draft :=
  match d.kind with
  | .punct .star => namespaceImport d
  | .punct .lBrace => namedImports d
  | _ => d.report .unexpected

/-- What an import declares. -/
def importClause (d : Draft) : Draft :=
  if d.sees .ident then
    let d := d.node .importDefaultSpecifier bindingName
    if d.sees (.punct .comma) then importedNames d.take else d
  else importedNames d

/-- An import. -/
def importDeclaration (call : Call) (source : SourceType) (ctx : Context) (d : Draft) : Draft :=
  (requireModule source d).node .importDecl fun d =>
    let d := d.take
    let d := if d.sees .string then d else (importClause d).expectWord "from"
    (fromModule call ctx d).endStatement

/-- One name in the braces of an export.  A name of this module is a reference;
a name of another module is not. -/
def exportSpecifier (again : Bool) (d : Draft) : Draft :=
  d.node .exportSpecifier fun d =>
    let d := if !again && d.sees .ident then d.single .nameRef else externalName d
    if d.seesWord "as" then externalName d.take else d

/-- Names in the braces of an export; at most `bound` of them. -/
def exportSpecifiers (again : Bool) : (bound : Nat) → Draft → Draft
  | 0, d => d
  | bound + 1, d =>
    if d.ended || d.sees (.punct .rBrace) then d
    else (exportSpecifier again d).nextItem (.punct .rBrace) (exportSpecifiers again bound)

/-- Names of an export, in braces; they are exported again if a module follows. -/
def namedExports (call : Call) (ctx : Context) (d : Draft) : Draft :=
  let again := d.wordAt (d.afterGroup 0) "from"
  let d := (exportSpecifiers again d.rest.length d.take).expect (.punct .rBrace)
  (if again then fromModule call ctx d.take else d).endStatement

/-- The export of all names of another module. -/
def exportAll (call : Call) (ctx : Context) (d : Draft) : Draft :=
  let d := d.take
  let d := if d.seesWord "as" then externalName d.take else d
  (fromModule call ctx (d.expectWord "from")).endStatement

/-- The default export. -/
def exportDefault (call : Call) (ctx : Context) (d : Draft) : Draft :=
  let d := d.take
  if d.sees (.keyword .functionKw) || seesAsyncFunction d then
    function call .functionDecl false d
  else if d.sees (.keyword .classKw) then classDefinition call .classDecl false ctx d
  else (call .assignment ctx.withIn d).endStatement

/-- What follows `export`. -/
def exported (call : Call) (ctx : Context) (d : Draft) : Draft :=
  match d.kind with
  | .keyword .defaultKw => exportDefault call ctx d
  | .punct .star => exportAll call ctx d
  | .punct .lBrace => namedExports call ctx d
  | .keyword .varKw | .keyword .constKw => variableStatement call ctx d
  | .keyword .functionKw => function call .functionDecl true d
  | .keyword .classKw => classDefinition call .classDecl true ctx d
  | _ =>
    if seesLet d then variableStatement call ctx d
    else if seesAsyncFunction d then function call .functionDecl true d
    else d.refuse .unexpected

/-- An export. -/
def exportDeclaration (call : Call) (source : SourceType) (ctx : Context) (d : Draft) : Draft :=
  (requireModule source d).node .exportDecl fun d => exported call ctx d.take

/-- What stands at the top level. -/
def moduleItem (call : Call) (source : SourceType) (ctx : Context) (d : Draft) : Draft :=
  match d.kind with
  | .keyword .importKw =>
    if seesImportExpr d then call .statement ctx d
    else importDeclaration call source ctx d
  | .keyword .exportKw => exportDeclaration call source ctx d
  | _ => call .statement ctx d

end Grammar

end FreeNames
