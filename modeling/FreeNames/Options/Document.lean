import FreeNames.Json
import FreeNames.Options

/-!
# FreeNames.Options.Document

Options as JSON documents:

```
{"replacements": {"window": "_window"}, "sourceType": "module"}
```

Both fields may be left out and other fields are ignored.  The two values may
also stand in an array, in this order.
-/

namespace FreeNames

/-- How a source type is written. -/
def SourceType.word : SourceType → Text
  | .script => "script".toList
  | .module => "module".toList

/-- The source type that a word names. -/
def SourceType.ofWord? (word : Text) : Option SourceType :=
  [.script, .module].find? fun source => source.word = word

namespace Options

/-- Rules from the fields of an object, whose values are all strings. -/
def rulesOf? : List (Option Text × Json) → Option (List (Text × Text))
  | [] => some []
  | (some old, .string (some new)) :: fields => (rulesOf? fields).map ((old, new) :: ·)
  | _ => none

/-- Rules from a document. -/
def readRules? : Json → Option Ruleset
  | .object fields => (rulesOf? fields).map Ruleset.ofList
  | _ => none

/-- A source type from a document: its word, or an object with the word as its
only key and nothing for a value. -/
def readSource? : Json → Option SourceType
  | .string (some word) => SourceType.ofWord? word
  | .object [(some word, .null)] => SourceType.ofWord? word
  | _ => none

/-- The only value of a key among fields; `none` inside when there is none, and
nothing at all when there are several. -/
def field? (key : String) (fields : List (Option Text × Json)) : Option (Option Json) :=
  match fields.filter fun field => field.1 = some key.toList with
  | [] => some none
  | [(_, value)] => some (some value)
  | _ => none

/-- Options from values that may be missing. -/
def readBoth? (rules source : Option Json) : Option Options := do
  let rules ← match rules with
    | some value => readRules? value
    | none => some Ruleset.empty
  let source ← match source with
    | some value => readSource? value
    | none => some .script
  return ⟨rules, source⟩

/-- Options from a document. -/
def ofJson? : Json → Option Options
  | .object fields => do
    guard (fields.all fun field => field.1.isSome)
    readBoth? (← field? "replacements" fields) (← field? "sourceType" fields)
  | .array [] => readBoth? none none
  | .array [rules] => readBoth? (some rules) none
  | .array [rules, source] => readBoth? (some rules) (some source)
  | _ => none

/-- Read options. -/
def parse? (document : Text) : Option Options := (Json.parse? document).bind ofJson?

/-- A rule as a field of an object. -/
def printRule (rule : Text × Text) : Text := Json.quote rule.1 ++ ':' :: Json.quote rule.2

/-- Rules as fields of an object, separated by commas. -/
def printRules : List (Text × Text) → Text
  | [] => []
  | [rule] => printRule rule
  | rule :: rules => printRule rule ++ ',' :: printRules rules

/-- Write options, without white space. -/
def print (o : Options) : Text :=
  "\x7b\"replacements\":\x7b".toList ++ printRules o.rules.entries
    ++ "\x7d,\"sourceType\":".toList ++ Json.quote o.source.word ++ "\x7d".toList

end Options

end FreeNames
