import FreeNames.Analysis
import FreeNames.Edit
import FreeNames.Options
import FreeNames.Path
import FreeNames.Text.Xid

/-!
# FreeNames.Rename

Renaming globals and their properties in place.  A rule changes one segment:

* if the heads of its paths differ, the references to the global are renamed;
  with longer paths only those that the first property follows directly;
* if the heads agree, the first property is renamed where it is accessed.

Rules are applied one after the other, each to the text that the one before it
left.
-/

namespace FreeNames

namespace Rule

/-- What may go on a name. -/
def isNamePart (c : Char) : Bool :=
  c = '$' || c = '\\' || c.toNat = 0x200C || c.toNat = 0x200D || Xid.isContinue c

/-- What is left of a text after another one at its start. -/
def after? : Text → Text → Option Text
  | [], cs => some cs
  | _ :: _, [] => none
  | p :: ps, c :: cs => if p = c then after? ps cs else none

/-- Whether a dot and a property follow at an offset, and the name ends there. -/
def followedBy (text : Text) (offset : Nat) (property : Text) : Bool :=
  match (text.dropBytes? offset).bind (after? ('.' :: property)) with
  | some rest => !rest.head?.any isNamePart
  | none => false

/-- Drop edits of the bytes that the one before edits too. -/
def dropRepeated : List Edit → List Edit
  | [] => []
  | e :: es =>
    e :: match dropRepeated es with
      | [] => []
      | f :: fs => if e.span = f.span then fs else f :: fs

/-- The edits that a rule asks for in one group. -/
def editsIn (r : Rule) (text : Text) (g : Group) : List Edit :=
  if r.old.head ≠ r.new.head then
    let references := g.references.filter fun reference =>
      match r.old.second? with
      | none => true
      | some property => followedBy text reference.site.node.span.stop property
    references.map fun reference => ⟨reference.site.node.span, r.new.head⟩
  else
    match r.old.second?, r.new.second? with
    | some old, some new =>
      (g.properties.filter fun access => access.name = old).map fun access =>
        ⟨access.node.span, new⟩
    | _, _ => []

/-- The edits that a rule asks for, in order, given the globals of a text. -/
def plan (r : Rule) (groups : List Group) (text : Text) : List Edit :=
  if r.isIdentity then []
  else
    match groups.find? fun g => g.name = r.old.head with
    | none => []
    | some g =>
      dropRepeated (Sort.sort (fun a b => a.span.start ≤ b.span.start) (r.editsIn text g))

end Rule

/-- Apply one rule to a buffer: what the buffer holds afterwards, and how many
places changed or why the rule failed. -/
def renameIn (source : SourceType) (buffer old new : Text) : Text × Except Fault Nat :=
  if old = new then (buffer, .ok 0)
  else
    match Rule.parse old new with
    | .error fault => (buffer, .error fault)
    | .ok rule =>
      match globals source buffer with
      | .error fault => (buffer, .error fault)
      | .ok groups =>
        let edits := rule.plan groups buffer
        match Edit.splice buffer edits with
        | (buffer, some fault) => (buffer, .error fault)
        | (buffer, none) => (buffer, .ok edits.length)

/-- Apply rules to a buffer in order, up to the first that fails: what the buffer
holds afterwards, and why the rule failed. -/
def renameEach (source : SourceType) (buffer : Text) : List (Text × Text) → Text × Option Fault
  | [] => (buffer, none)
  | (old, new) :: rules =>
    match renameIn source buffer old new with
    | (buffer, .error fault) => (buffer, some fault)
    | (buffer, .ok _) => renameEach source buffer rules

/-- Apply all rules of some options. -/
def rename (options : Options) (text : Text) : Except Fault Text :=
  match renameEach options.source text options.rules.entries with
  | (text, none) => .ok text
  | (_, some fault) => .error fault

/-- A buffer that rules are applied to, step after step. -/
structure Replacer where
  options : Options
  buffer : Text
deriving DecidableEq

namespace Replacer

/-- Apply all rules of the options; those before one that fails stay applied. -/
def apply (r : Replacer) : Replacer × Option Fault :=
  let (buffer, fault) := renameEach r.options.source r.buffer r.options.rules.entries
  (⟨r.options, buffer⟩, fault)

/-- Apply one rule, which need not be one of the options. -/
def applyRule (r : Replacer) (old new : Text) : Replacer × Except Fault Nat :=
  let (buffer, result) := renameIn r.options.source r.buffer old new
  (⟨r.options, buffer⟩, result)

end Replacer

/-- Apply all rules of some options to bytes that should be UTF-8. -/
def renameBytes (options : Options) (bytes : List UInt8) : Except Fault Text :=
  match Utf8.decode bytes with
  | .ok text => rename options text
  | .error fault => .error (.badInput (.notUtf8 fault))

end FreeNames
