import FreeNames.Grammar.ModuleItem

/-!
# FreeNames.Options

What to rename and how to read the source.
-/

namespace FreeNames

/-- Replace the value of a key, in place; a new key comes last. -/
def putEntry (key value : Text) : List (Text × Text) → List (Text × Text)
  | [] => [(key, value)]
  | (k, v) :: rest => if k = key then (k, value) :: rest else (k, v) :: putEntry key value rest

theorem mem_keys_putEntry {key value k : Text} {entries : List (Text × Text)} :
    k ∈ (putEntry key value entries).map Prod.fst ↔ k = key ∨ k ∈ entries.map Prod.fst := by
  induction entries with
  | nil => simp [putEntry]
  | cons e rest ih =>
    obtain ⟨j, v⟩ := e
    by_cases h : j = key
    · simp [putEntry, h]
    · simp only [putEntry, h, if_false, List.map_cons, List.mem_cons, ih]
      exact or_left_comm

theorem nodup_keys_putEntry {key value : Text} {entries : List (Text × Text)}
    (h : (entries.map Prod.fst).Nodup) : ((putEntry key value entries).map Prod.fst).Nodup := by
  induction entries with
  | nil => simp [putEntry]
  | cons e rest ih =>
    obtain ⟨j, v⟩ := e
    rw [List.map_cons, List.nodup_cons] at h
    by_cases hj : j = key
    · simpa [putEntry, hj] using h
    · simp only [putEntry, hj, if_false, List.map_cons, List.nodup_cons, mem_keys_putEntry,
        not_or]
      exact ⟨⟨not_false, h.1⟩, ih h.2⟩

/-- Rules in the order in which they were first given, at most one for each path. -/
structure Ruleset where
  entries : List (Text × Text)
  distinct : (entries.map Prod.fst).Nodup
deriving DecidableEq

namespace Ruleset

/-- No rules. -/
def empty : Ruleset := ⟨[], List.nodup_nil⟩

/-- Add a rule.  A rule for a path that has one takes its place. -/
def put (rules : Ruleset) (old new : Text) : Ruleset :=
  ⟨putEntry old new rules.entries, nodup_keys_putEntry rules.distinct⟩

/-- Add rules in order. -/
def ofList (rules : List (Text × Text)) : Ruleset :=
  rules.foldl (fun set (old, new) => set.put old new) empty

end Ruleset

/-- What to rename and how to read the source. -/
structure Options where
  rules : Ruleset
  source : SourceType
deriving DecidableEq

namespace Options

/-- No rules, and a script. -/
def default : Options := ⟨.empty, .script⟩

/-- Add a rule. -/
def withRule (o : Options) (old new : Text) : Options := { o with rules := o.rules.put old new }

/-- Choose how to read the source. -/
def withSource (o : Options) (source : SourceType) : Options := { o with source := source }

end Options

end FreeNames
