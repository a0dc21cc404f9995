import FreeNames.Rename

/-!
# FreeNames.Proofs.Sequences

Rules in sequence.  A rule that fails leaves the buffer alone (`fst_renameIn_of_error`), so what a
failed run leaves is what the rules before the failing one make of the text:

* `renameEach_append` — rules one after the other are one list of rules;
* `renameEach_eq_failed_iff` — a run fails exactly at the first rule that does;
* `Options.FailsAt` — the same said of some options and the number of the failing rule.

Main statement: `rename_in_sequence`, about the rules of any options and a replacer after any
steps.
-/

namespace FreeNames

variable {source : SourceType} {buffer kept old new : Text} {fault : Fault}

/-! ## one rule after the other -/

/-- A rule that fails leaves the buffer as it is. -/
theorem fst_renameIn_of_error (h : (renameIn source buffer old new).2 = .error fault) :
    (renameIn source buffer old new).1 = buffer := by
  by_cases heq : old = new
  · simp [renameIn, heq]
  · cases hrule : Rule.parse old new with
    | error fault => simp [renameIn, heq, hrule]
    | ok rule =>
      cases hglobals : globals source buffer with
      | error fault => simp [renameIn, heq, hrule, hglobals]
      | ok groups =>
        simp only [renameIn, heq, hrule, hglobals, if_false, Edit.splice] at h ⊢
        cases hfault : Edit.fault? buffer 0 (rule.plan groups buffer) with
        | some cause => rfl
        | none => simp [hfault] at h

/-- What a rule that fails gives. -/
theorem renameIn_eq_of_error (h : (renameIn source buffer old new).2 = .error fault) :
    renameIn source buffer old new = (buffer, .error fault) :=
  Prod.ext (fst_renameIn_of_error h) h

/-- The rules of the second list see what those of the first have left. -/
theorem renameEach_append (rules more : List (Text × Text)) :
    renameEach source buffer (rules ++ more) =
      match renameEach source buffer rules with
      | (buffer, none) => renameEach source buffer more
      | (buffer, some fault) => (buffer, some fault) := by
  induction rules generalizing buffer with
  | nil => rfl
  | cons rule rules ih =>
    obtain ⟨old, new⟩ := rule
    simp only [List.cons_append, renameEach]
    obtain ⟨buffer', result⟩ := renameIn source buffer old new
    cases result with
    | error fault => rfl
    | ok count => exact ih

/-- A run fails at the rule before which all went well, with its fault, and leaves what the
rules before it have made. -/
theorem renameEach_eq_failed_iff {rules : List (Text × Text)} :
    renameEach source buffer rules = (kept, some fault) ↔
      ∃ before rule after, rules = before ++ rule :: after ∧
        renameEach source buffer before = (kept, none) ∧
        (renameIn source kept rule.1 rule.2).2 = .error fault := by
  constructor
  · intro h
    induction rules generalizing buffer with
    | nil => simp [renameEach] at h
    | cons rule rules ih =>
      cases hresult : (renameIn source buffer rule.1 rule.2).2 with
      | error found =>
        rw [renameEach, renameIn_eq_of_error hresult] at h
        obtain ⟨rfl, rfl⟩ : buffer = kept ∧ found = fault := by simpa using h
        exact ⟨[], rule, rules, rfl, rfl, hresult⟩
      | ok count =>
        have hstep : renameIn source buffer rule.1 rule.2 =
            ((renameIn source buffer rule.1 rule.2).1, .ok count) := Prod.ext rfl hresult
        rw [renameEach, hstep] at h
        obtain ⟨before, failing, after, rfl, hbefore, hfails⟩ := ih h
        refine ⟨rule :: before, failing, after, rfl, ?_, hfails⟩
        rw [renameEach, hstep]
        exact hbefore
  · rintro ⟨before, rule, after, rfl, hbefore, hfails⟩
    rw [renameEach_append, hbefore]
    simp only [renameEach, renameIn_eq_of_error hfails]

/-! ## options and replacers -/

theorem rename_eq_ok_iff {options : Options} {text output : Text} :
    rename options text = .ok output ↔
      renameEach options.source text options.rules.entries = (output, none) := by
  rw [rename]
  obtain ⟨buffer, fault?⟩ := renameEach options.source text options.rules.entries
  cases fault? <;> simp

/-- The first rules. -/
def Ruleset.take (rules : Ruleset) (count : Nat) : Ruleset :=
  ⟨rules.entries.take count, by
    rw [List.map_take]
    exact rules.distinct.sublist (List.take_sublist ..)⟩

/-- On a text, the first `count` rules of some options leave `kept` and the next one fails
there. -/
structure Options.FailsAt (options : Options) (text : Text) (count : Nat) (kept : Text)
    (fault : Fault) : Prop where
  before : rename ⟨options.rules.take count, options.source⟩ text = .ok kept
  fails : ∃ rule, options.rules.entries[count]? = some rule ∧
    ((Replacer.mk options kept).applyRule rule.1 rule.2).2 = .error fault

namespace Options.FailsAt

variable {options : Options} {text kept' : Text} {fault' : Fault} {count count' : Nat}

/-- The failing rule comes first among those that are left. -/
theorem exists_drop (h : options.FailsAt text count kept fault) :
    ∃ rule after, options.rules.entries.drop count = rule :: after ∧
      renameEach options.source text (options.rules.entries.take count) = (kept, none) ∧
      (renameIn options.source kept rule.1 rule.2).2 = .error fault := by
  obtain ⟨rule, hrule, hfails⟩ := h.fails
  obtain ⟨hlt, hget⟩ := List.getElem?_eq_some_iff.1 hrule
  refine ⟨rule, options.rules.entries.drop (count + 1), ?_, rename_eq_ok_iff.1 h.before, hfails⟩
  rw [← hget, List.drop_eq_getElem_cons hlt]

/-- No longer list of first rules goes well after a rule that fails. -/
theorem le (h : options.FailsAt text count kept fault)
    (h' : options.FailsAt text count' kept' fault') : count' ≤ count := by
  refine Nat.le_of_not_lt fun hlt => ?_
  obtain ⟨rule, after, hdrop, hbefore, hfails⟩ := h.exists_drop
  obtain ⟨extra, rfl⟩ : ∃ extra, count' = count + (extra + 1) := ⟨count' - count - 1, by omega⟩
  have hsplit : options.rules.entries.take (count + (extra + 1)) =
      options.rules.entries.take count ++ rule :: after.take extra := by
    rw [List.take_add, hdrop, List.take_succ_cons]
  have hfailed : renameEach options.source text
      (options.rules.entries.take (count + (extra + 1))) = (kept, some fault) :=
    renameEach_eq_failed_iff.2 ⟨_, rule, _, hsplit, hbefore, hfails⟩
  have hwell := rename_eq_ok_iff.1 h'.before
  simp [Ruleset.take, hfailed] at hwell

end Options.FailsAt

namespace Replacer

/-- What may be asked of a replacer. -/
inductive Step where
  /-- Apply the rules of the options. -/
  | all
  /-- Apply one rule. -/
  | one (old new : Text)

/-- A replacer after a step, which may have failed. -/
def step (r : Replacer) : Step → Replacer
  | .all => r.apply.1
  | .one old new => (r.applyRule old new).1

/-- A replacer after some steps. -/
def run (r : Replacer) (steps : List Step) : Replacer := steps.foldl step r

theorem options_step (r : Replacer) (s : Step) : (r.step s).options = r.options := by
  cases s <;> rfl

/-- No step changes the options. -/
theorem options_run (r : Replacer) (steps : List Step) : (r.run steps).options = r.options := by
  induction steps generalizing r with
  | nil => rfl
  | cons s steps ih => exact (ih (r.step s)).trans (options_step r s)

/-- A replacer fails where the rules of its options do, and keeps what those before made. -/
theorem apply_eq_failed_iff (r : Replacer) :
    r.apply = (⟨r.options, kept⟩, some fault) ↔
      ∃ count, r.options.FailsAt r.buffer count kept fault := by
  have happly : r.apply = (⟨r.options, kept⟩, some fault) ↔
      renameEach r.options.source r.buffer r.options.rules.entries = (kept, some fault) := by
    simp only [apply, Prod.ext_iff, Replacer.mk.injEq, true_and]
  rw [happly]
  constructor
  · intro h
    obtain ⟨before, rule, after, hsplit, hbefore, hfails⟩ := renameEach_eq_failed_iff.1 h
    refine ⟨before.length, ⟨rename_eq_ok_iff.2 ?_, rule, ?_, hfails⟩⟩
    · simpa [Ruleset.take, hsplit] using hbefore
    · simp [hsplit]
  · rintro ⟨count, h⟩
    obtain ⟨rule, after, hdrop, hbefore, hfails⟩ := h.exists_drop
    refine renameEach_eq_failed_iff.2 ⟨_, rule, after, ?_, hbefore, hfails⟩
    rw [← hdrop, List.take_append_drop]

end Replacer

/-- Rules compose, and fail with nothing but the rules before the failing one applied.  The
replacer may have taken any steps, failed ones too, before all its rules are applied. -/
theorem rename_in_sequence :
    (∀ (source : SourceType) (text : Text) (rules first second : Ruleset),
      rules.entries = first.entries ++ second.entries →
      rename ⟨rules, source⟩ text = rename ⟨first, source⟩ text >>= rename ⟨second, source⟩) ∧
    ∀ (options : Options) (text : Text) (steps : List Replacer.Step) (fault : Fault),
      let r := (Replacer.mk options text).run steps
      r.apply.2 = some fault →
      ∃ count kept, options.FailsAt r.buffer count kept fault ∧ r.apply.1.buffer = kept ∧
        ∀ count' kept' fault', options.FailsAt r.buffer count' kept' fault' → count' = count := by
  constructor
  · intro source text rules first second hsplit
    simp only [rename, hsplit, renameEach_append]
    obtain ⟨buffer, fault?⟩ := renameEach source text first.entries
    cases fault? <;> rfl
  · intro options text steps fault r hfault
    have hoptions : r.options = options := Replacer.options_run _ steps
    have hfailed : r.apply = (⟨r.options, r.apply.1.buffer⟩, some fault) := Prod.ext rfl hfault
    obtain ⟨count, hcount⟩ := r.apply_eq_failed_iff.1 hfailed
    rw [hoptions] at hcount
    refine ⟨count, r.apply.1.buffer, hcount, rfl, fun count' kept' fault' h => ?_⟩
    exact Nat.le_antisymm (hcount.le h) (h.le hcount)

/-- The rule that breaks the text goes well, and the next one fails on what it left. -/
theorem rename_in_sequence_broken :
    ∃ (first second whole : Ruleset) (r : Replacer) (fault : Fault),
      first = Ruleset.ofList [("a".toList, "(".toList)] ∧
      second = Ruleset.ofList [("e".toList, "y".toList), ("b".toList, "c".toList)] ∧
      whole.entries = first.entries ++ second.entries ∧
      r = (Replacer.mk ⟨whole, .script⟩ "b; e".toList).run [.one "b".toList "a".toList] ∧
      r.buffer = "a; e".toList ∧ r.apply.1.buffer = "(; e".toList ∧ r.apply.2 = some fault ∧
      rename ⟨whole, .script⟩ r.buffer = rename ⟨first, .script⟩ r.buffer >>=
        rename ⟨second, .script⟩ ∧
      ∃ count kept, Options.FailsAt ⟨whole, .script⟩ r.buffer count kept fault ∧
        r.apply.1.buffer = kept ∧ ∀ count' kept' fault',
          Options.FailsAt ⟨whole, .script⟩ r.buffer count' kept' fault' → count' = count := by
  obtain ⟨whole, hwhole⟩ : ∃ whole, whole = Ruleset.ofList
    [("a".toList, "(".toList), ("e".toList, "y".toList), ("b".toList, "c".toList)] := ⟨_, rfl⟩
  obtain ⟨r, hr⟩ : ∃ r, r = (Replacer.mk ⟨whole, .script⟩ "b; e".toList).run
    [.one "b".toList "a".toList] := ⟨_, rfl⟩
  have hrun : r.apply.2.isSome = true ∧ r.buffer = "a; e".toList ∧
      r.apply.1.buffer = "(; e".toList := by rw [hr, hwhole]; decide +kernel
  obtain ⟨hfails, hbuffer, hleft⟩ := hrun
  obtain ⟨fault, hfault⟩ := Option.isSome_iff_exists.1 hfails
  have hentries : whole.entries = (Ruleset.ofList [("a".toList, "(".toList)]).entries ++
      (Ruleset.ofList [("e".toList, "y".toList), ("b".toList, "c".toList)]).entries := by
    rw [hwhole]; decide +kernel
  have hkept := rename_in_sequence.2 ⟨whole, .script⟩ "b; e".toList
    [.one "b".toList "a".toList] fault
  rw [← hr] at hkept
  exact ⟨_, _, whole, r, fault, rfl, rfl, hentries, hr, hbuffer, hleft, hfault,
    rename_in_sequence.1 .script _ _ _ _ hentries, hkept hfault⟩

end FreeNames
