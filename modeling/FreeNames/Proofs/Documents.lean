import FreeNames.Options.Document

/-!
# FreeNames.Proofs.Documents

Options as documents, written and read.  The layers follow the reader:

* **strings** — each character is written as one piece, which is read back as the
  character (`readPieces_escape`), so a quoted text is read as the text;
* **fields** — rules are read back one after the other, in their order;
* **options** — the two fields are found by their keys, and rules with distinct paths
  are put into a set without one taking the place of another.

Main statement: `options_survive`.
-/

namespace FreeNames

namespace Json

/-! ## strings -/

theorem hexValue?_hexDigit : ∀ n < 16, hexValue? (hexDigit n) = some n := by decide

/-- Control characters are written as code units with two zeros in front. -/
theorem unit?_hexDigit {n : Nat} (h : n < 0x20) :
    unit? '0' '0' (hexDigit (n / 16)) (hexDigit (n % 16)) = some n := by
  have hzero : hexValue? '0' = some 0 := rfl
  simp only [unit?, hzero, hexValue?_hexDigit (n / 16) (by omega),
    hexValue?_hexDigit (n % 16) (by omega), bind, Option.bind, pure]
  congr 1
  omega

/-- How a character is written: by a letter after a backslash, by its number, or as it is. -/
theorem escape_cases (c : Char) :
    (∃ e, e ≠ 'u' ∧ simpleEscape? e = some c ∧ escape c = ['\\', e]) ∨
    (c.toNat < 0x20 ∧
      escape c = ['\\', 'u', '0', '0', hexDigit (c.toNat / 16), hexDigit (c.toNat % 16)]) ∨
    (c ≠ '\x22' ∧ c ≠ '\\' ∧ ¬c.toNat < 0x20 ∧ escape c = [c]) := by
  by_cases hletter : c ∈ ['\x22', '\\', '\x08', '\x0c', '\n', '\r', '\t']
  · left
    simp only [List.mem_cons, List.not_mem_nil, or_false] at hletter
    rcases hletter with rfl | rfl | rfl | rfl | rfl | rfl | rfl <;>
      exact ⟨_, by decide, rfl, rfl⟩
  · right
    simp only [List.mem_cons, List.not_mem_nil, or_false, not_or] at hletter
    by_cases hcontrol : c.toNat < 0x20
    · exact Or.inl ⟨hcontrol, by simp [escape, hletter, hcontrol]⟩
    · exact Or.inr ⟨hletter.1, hletter.2.1, hcontrol, by simp [escape, hletter, hcontrol]⟩

/-- A piece that spells a character. -/
def Piece.Spells (p : Piece) (c : Char) : Prop :=
  ∀ ps, join? (p :: ps) = (join? ps).map (c :: ·)

theorem Piece.spells_char (c : Char) : (char c).Spells c := fun _ => rfl

theorem Piece.spells_unit {c : Char} (h : c.toNat < 0x20) : (unit c.toNat).Spells c := by
  intro ps
  have hlead : isLead c.toNat = false := by
    rw [isLead, decide_eq_false (by omega)]
    rfl
  have htrail : isTrail c.toNat = false := by
    rw [isTrail, decide_eq_false (by omega)]
    rfl
  rw [join?.eq_def]
  simp [hlead, htrail]

theorem readPieces_letter {c e : Char} (hu : e ≠ 'u') (he : simpleEscape? e = some c)
    (rest : Text) : readPieces ('\\' :: e :: rest) =
      (readPieces rest).map fun read => (.char c :: read.1, read.2) := by
  rw [readPieces.eq_def]
  simp [hu, he]

theorem readPieces_plain {c : Char} (hquote : c ≠ '\x22') (hslash : c ≠ '\\')
    (hplain : ¬c.toNat < 0x20) (rest : Text) : readPieces (c :: rest) =
      (readPieces rest).map fun read => (.char c :: read.1, read.2) := by
  rw [readPieces.eq_def]
  simp [hslash, hplain]

/-- What is written for a character is read as one piece that spells it. -/
theorem readPieces_escape (c : Char) (rest : Text) :
    ∃ p : Piece, p.Spells c ∧
      readPieces (escape c ++ rest) = (readPieces rest).map fun read => (p :: read.1, read.2) := by
  rcases escape_cases c with ⟨e, hu, he, hc⟩ | ⟨hcontrol, hc⟩ | ⟨hquote, hslash, hplain, hc⟩
  · exact ⟨.char c, Piece.spells_char c, hc ▸ readPieces_letter hu he rest⟩
  · refine ⟨.unit c.toNat, Piece.spells_unit hcontrol, ?_⟩
    simp [hc, readPieces, unit?_hexDigit hcontrol]
  · exact ⟨.char c, Piece.spells_char c, hc ▸ readPieces_plain hquote hslash hplain rest⟩

/-- A text that is written as a string is read back. -/
theorem readString_flatMap_escape (text rest : Text) :
    readString (text.flatMap escape ++ '\x22' :: rest) = some (some text, rest) := by
  suffices h : ∃ ps, readPieces (text.flatMap escape ++ '\x22' :: rest) = some (ps, rest) ∧
      join? ps = some text by
    obtain ⟨ps, hread, hjoin⟩ := h
    simp [readString, hread, hjoin]
  induction text with
  | nil => exact ⟨[], rfl, rfl⟩
  | cons c cs ih =>
      obtain ⟨ps, hread, hjoin⟩ := ih
      obtain ⟨p, hspells, hp⟩ := readPieces_escape c (cs.flatMap escape ++ '\x22' :: rest)
      refine ⟨p :: ps, ?_, by rw [hspells, hjoin]; rfl⟩
      rw [List.flatMap_cons, List.append_assoc, hp, hread]
      rfl

/-! ## values -/

theorem skipBlank_cons {c : Char} (h : isBlank c = false) (cs : Text) :
    skipBlank (c :: cs) = c :: cs :=
  List.dropWhile_cons_of_neg (by simp [h])

section

variable {bound : Nat} {key written rest : Text} {value : Json}

theorem quote_append (text rest : Text) :
    quote text ++ rest = '\x22' :: (text.flatMap escape ++ '\x22' :: rest) := by
  simp [quote]

theorem readValue_quote (bound : Nat) (text rest : Text) :
    readValue (bound + 1) (quote text ++ rest) = some (.string (some text), rest) := by
  rw [quote_append]
  exact congrArg (Option.map fun read => (string read.1, read.2))
    (readString_flatMap_escape text rest)

/-- A field with more fields after it. -/
theorem readFields_comma
    (hvalue : readValue bound (written ++ ',' :: rest) = some (value, ',' :: rest)) :
    readFields (bound + 1) (quote key ++ ':' :: (written ++ ',' :: rest)) =
      (readFields bound rest).map fun read => ((some key, value) :: read.1, read.2) := by
  rw [quote_append, readFields, skipBlank_cons rfl]
  simp only [readString_flatMap_escape, skipBlank_cons (c := ':') rfl, hvalue,
    skipBlank_cons (c := ',') rfl]

/-- The last field. -/
theorem readFields_brace
    (hvalue : readValue bound (written ++ '\x7d' :: rest) = some (value, '\x7d' :: rest)) :
    readFields (bound + 1) (quote key ++ ':' :: (written ++ '\x7d' :: rest)) =
      some ([(some key, value)], rest) := by
  rw [quote_append, readFields, skipBlank_cons rfl]
  simp only [readString_flatMap_escape, skipBlank_cons (c := ':') rfl, hvalue,
    skipBlank_cons (c := '\x7d') rfl]

/-- An object with fields in it, the first of which starts with a key. -/
theorem readValue_brace {fields : List (Option Text × Json)}
    (h : readFields bound (quote key ++ written) = some (fields, rest)) :
    readValue (bound + 1) ('\x7b' :: (quote key ++ written)) = some (.object fields, rest) := by
  rw [quote_append] at h ⊢
  exact congrArg (Option.map fun read => (object read.1, read.2)) h

end

end Json

namespace Options

open Json

/-! ## rules -/

/-- Rules as fields of an object. -/
def fieldsOf (rules : List (Text × Text)) : List (Option Text × Json) :=
  rules.map fun rule => (some rule.1, .string (some rule.2))

theorem exists_printRules_cons (rule : Text × Text) (rules : List (Text × Text)) :
    ∃ rest, printRules (rule :: rules) = quote rule.1 ++ rest := by
  cases rules with
  | nil => exact ⟨_, rfl⟩
  | cons next rules => exact ⟨_, List.append_assoc ..⟩

theorem length_le_printRules (rules : List (Text × Text)) :
    rules.length ≤ (printRules rules).length := by
  fun_induction printRules rules with
  | case1 => exact Nat.le_refl _
  | case2 rule =>
      simp only [printRule, List.length_append, List.length_cons, List.length_nil]
      omega
  | case3 rule rules hne ih =>
      rw [List.length_append, List.length_cons, List.length_cons]
      omega

/-- Rules are read back in their order. -/
theorem readFields_printRules (rule : Text × Text) (rules : List (Text × Text)) (bound : Nat)
    (rest : Text) :
    readFields (bound + rules.length + 2) (printRules (rule :: rules) ++ '\x7d' :: rest) =
      some (fieldsOf (rule :: rules), rest) := by
  induction rules generalizing rule with
  | nil =>
      rw [printRules, printRule, List.append_assoc, List.cons_append]
      exact readFields_brace (readValue_quote ..)
  | cons next rules ih =>
      have hprint : printRules (rule :: next :: rules) ++ '\x7d' :: rest =
          quote rule.1 ++ ':' ::
            (quote rule.2 ++ ',' :: (printRules (next :: rules) ++ '\x7d' :: rest)) := by
        simp [printRules, printRule]
      rw [hprint]
      refine (readFields_comma (readValue_quote ..)).trans ?_
      rw [List.length_cons, ← Nat.add_assoc, ih]
      rfl

/-- An object of rules is read back. -/
theorem readValue_printRules (rules : List (Text × Text)) (bound : Nat) (rest : Text) :
    readValue (bound + rules.length + 2) ('\x7b' :: printRules rules ++ '\x7d' :: rest) =
      some (.object (fieldsOf rules), rest) := by
  cases rules with
  | nil => rfl
  | cons rule rules =>
      obtain ⟨written, hwritten⟩ := exists_printRules_cons rule rules
      have hfields := readFields_printRules rule rules bound rest
      rw [hwritten, List.append_assoc] at hfields
      rw [hwritten, List.cons_append, List.append_assoc]
      exact readValue_brace hfields

/-- The document of some options. -/
def toJson (o : Options) : Json :=
  .object [(some "replacements".toList, .object (fieldsOf o.rules.entries)),
    (some "sourceType".toList, .string (some o.source.word))]

theorem print_eq (o : Options) :
    o.print = '\x7b' :: (quote "replacements".toList ++ ':' ::
      (('\x7b' :: printRules o.rules.entries ++ ['\x7d']) ++ ',' ::
        (quote "sourceType".toList ++ ':' :: (quote o.source.word ++ ['\x7d'])))) := by
  have hrules : "\x7b\"replacements\":\x7b".toList =
      '\x7b' :: (quote "replacements".toList ++ [':', '\x7b']) := by decide
  have hsource : "\x7d,\"sourceType\":".toList =
      '\x7d' :: ',' :: (quote "sourceType".toList ++ [':']) := by decide
  have hclose : "\x7d".toList = ['\x7d'] := rfl
  unfold print
  rewrite [hrules, hsource, hclose]
  generalize quote "replacements".toList = rulesKey
  generalize quote "sourceType".toList = sourceKey
  simp

/-- What is written for some options is their document. -/
theorem parse?_print (o : Options) : Json.parse? o.print = some o.toJson := by
  obtain ⟨bound, hbound⟩ :
      ∃ bound, 2 * o.print.length + 2 = bound + o.rules.entries.length + 2 + 1 + 1 := by
    have hlength := length_le_printRules o.rules.entries
    refine ⟨2 * o.print.length - o.rules.entries.length - 2, ?_⟩
    rw [print_eq]
    simp only [List.length_cons, List.length_append]
    omega
  have hsource : readFields (bound + o.rules.entries.length + 2)
      (quote "sourceType".toList ++ ':' :: (quote o.source.word ++ ['\x7d'])) =
        some ([(some "sourceType".toList, .string (some o.source.word))], []) :=
    readFields_brace (readValue_quote ..)
  have hrules : readValue (bound + o.rules.entries.length + 2)
      (('\x7b' :: printRules o.rules.entries ++ ['\x7d']) ++ ',' ::
        (quote "sourceType".toList ++ ':' :: (quote o.source.word ++ ['\x7d']))) =
      some (.object (fieldsOf o.rules.entries), ',' ::
        (quote "sourceType".toList ++ ':' :: (quote o.source.word ++ ['\x7d']))) := by
    rw [List.append_assoc]
    exact readValue_printRules ..
  have hread : readValue (2 * o.print.length + 2) o.print = some (o.toJson, []) := by
    rw [hbound, print_eq]
    refine readValue_brace ?_
    refine (readFields_comma hrules).trans ?_
    rw [hsource]
    rfl
  rw [Json.parse?, hread]
  rfl

/-! ## options -/

theorem rulesOf?_fieldsOf (rules : List (Text × Text)) : rulesOf? (fieldsOf rules) = some rules := by
  induction rules with
  | nil => rfl
  | cons rule rules ih =>
      change (rulesOf? (fieldsOf rules)).map (rule :: ·) = _
      rw [ih]
      rfl

end Options

theorem SourceType.ofWord?_word (source : SourceType) : ofWord? source.word = some source := by
  cases source <;> decide

theorem putEntry_of_not_mem {key value : Text} {entries : List (Text × Text)}
    (h : key ∉ entries.map Prod.fst) : putEntry key value entries = entries ++ [(key, value)] := by
  induction entries with
  | nil => rfl
  | cons e rest ih =>
      obtain ⟨k, v⟩ := e
      rw [List.map_cons, List.mem_cons, not_or] at h
      rw [putEntry, if_neg (Ne.symm h.1), ih h.2]
      rfl

/-- Rules with distinct paths are all kept, in their order. -/
theorem Ruleset.entries_ofList {rules : List (Text × Text)} (h : (rules.map Prod.fst).Nodup) :
    (ofList rules).entries = rules := by
  suffices hfold : ∀ set : Ruleset, ((set.entries ++ rules).map Prod.fst).Nodup →
      (rules.foldl (fun set rule => set.put rule.1 rule.2) set).entries = set.entries ++ rules from
    hfold empty h
  clear h
  induction rules with
  | nil =>
      intro set _
      exact (List.append_nil _).symm
  | cons rule rules ih =>
      intro set hnodup
      have hput : (set.put rule.1 rule.2).entries = set.entries ++ [rule] := by
        refine putEntry_of_not_mem fun hmem => ?_
        rw [List.map_append, List.map_cons] at hnodup
        exact (List.nodup_append.mp hnodup).2.2 _ hmem _ List.mem_cons_self rfl
      rw [List.foldl_cons, ih _ (by rwa [hput, List.append_assoc]), hput, List.append_assoc]
      rfl

theorem Ruleset.ofList_entries (rules : Ruleset) : ofList rules.entries = rules := by
  have h := entries_ofList rules.distinct
  obtain ⟨entries, distinct⟩ := rules
  cases hlist : ofList entries with
  | mk kept hkept =>
      rw [hlist] at h
      cases h
      rfl

namespace Options

theorem ofJson?_toJson (o : Options) : ofJson? o.toJson = some o := by
  have hrules : readRules? (.object (fieldsOf o.rules.entries)) = some o.rules := by
    rw [readRules?, rulesOf?_fieldsOf, Option.map_some, Ruleset.ofList_entries]
  have hsource : readSource? (.string (some o.source.word)) = some o.source := o.source.ofWord?_word
  have hread : ofJson? o.toJson = readBoth? (some (.object (fieldsOf o.rules.entries)))
      (some (.string (some o.source.word))) := rfl
  rw [hread]
  simp [readBoth?, hrules, hsource]

end Options

/-- Options are written as a document with two fields, the rules in their order and the word
for the source type, and read back from it. -/
theorem options_survive (o : Options) :
    Json.parse? o.print = some (.object [
      (some "replacements".toList,
        .object (o.rules.entries.map fun rule => (some rule.1, .string (some rule.2)))),
      (some "sourceType".toList, .string (some (match o.source with
        | .script => "script".toList
        | .module => "module".toList)))]) ∧
    Options.parse? o.print = some o := by
  have hdocument := Options.parse?_print o
  constructor
  · rw [hdocument, Options.toJson]
    cases o.source <;> rfl
  · rw [Options.parse?, hdocument, Option.bind_some, Options.ofJson?_toJson]

end FreeNames
