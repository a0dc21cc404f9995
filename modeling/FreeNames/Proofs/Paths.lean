import Mathlib.Data.List.Infix
import FreeNames.Proofs.Renaming

/-!
# FreeNames.Proofs.Paths

Paths and the texts they are written as.  Cutting a text at its dots and joining
segments by dots undo each other, so what can be read is told from the text alone: a
dot may neither begin nor end it, nor follow another.

A rule is read from two texts.  As each path is written by one text only, a rule changes
nothing just when its texts are the same.

Main statement: `paths_correspond`.
-/

namespace FreeNames

namespace Path

/-! ## cutting at dots -/

/-- What may stand between dots. -/
def IsSegment (segment : Text) : Prop := segment ≠ [] ∧ '.' ∉ segment

theorem cut_eq_splitOn (text : Text) : (cut text).1 :: (cut text).2 = text.splitOn '.' := by
  induction text with
  | nil => rfl
  | cons c cs ih =>
      rw [List.splitOn_eq_splitOnP] at ih ⊢
      rw [List.splitOnP_cons_eq_if_modifyHead, ← ih, cut]
      by_cases hc : c = '.' <;> simp [hc]

theorem not_mem_of_mem_cut {text segment : Text} (h : segment ∈ (cut text).1 :: (cut text).2) :
    '.' ∉ segment := by
  suffices hall : ∀ s ∈ (cut text).1 :: (cut text).2, '.' ∉ s from hall segment h
  clear h
  induction text with
  | nil => simp [cut]
  | cons c cs ih =>
      rw [List.forall_mem_cons] at ih
      by_cases hc : c = '.'
      · simpa [cut, hc] using ih
      · have hne : '.' ≠ c := Ne.symm hc
        simpa [cut, hc, hne] using ih

/-- The first segment is empty if there is no text or a dot begins it. -/
theorem cut_fst_eq_nil_iff {text : Text} :
    (cut text).1 = [] ↔ text = [] ∨ text.head? = some '.' := by
  cases text with
  | nil => simp [cut]
  | cons c cs => by_cases hc : c = '.' <;> simp [cut, hc]

/-- A later segment is empty if a dot ends the text or follows another. -/
theorem nil_mem_cut_snd_iff {text : Text} :
    [] ∈ (cut text).2 ↔ text.getLast? = some '.' ∨ ['.', '.'] <:+: text := by
  induction text with
  | nil => simp [cut]
  | cons c cs ih =>
      rw [List.infix_cons_iff]
      by_cases hc : c = '.'
      · -- what follows the dot begins with an empty segment, or has one later on
        have hfront : ['.', '.'] <+: c :: cs ↔ cs.head? = some '.' := by
          cases cs <;> simp [hc, List.cons_prefix_cons, eq_comm]
        have hlast : (c :: cs).getLast? = some '.' ↔ cs = [] ∨ cs.getLast? = some '.' := by
          cases cs <;> simp [hc, List.getLast?_cons_cons]
        have hsnd : (cut (c :: cs)).2 = (cut cs).1 :: (cut cs).2 := by simp [cut, hc]
        rw [hsnd, List.mem_cons, eq_comm, cut_fst_eq_nil_iff, ih, hfront, hlast]
        exact or_or_or_comm
      · have hfront : ¬['.', '.'] <+: c :: cs := by
          simp [List.cons_prefix_cons, Ne.symm hc]
        have hlast : (c :: cs).getLast? = some '.' ↔ cs.getLast? = some '.' := by
          cases cs <;> simp [hc, List.getLast?_cons_cons]
        have hsnd : (cut (c :: cs)).2 = (cut cs).2 := by simp [cut, hc]
        rw [hsnd, ih, hlast, or_iff_right hfront]

/-! ## reading and writing -/

/-- A path is read from the text that its segments are cut from, if none is empty. -/
theorem parse_eq_ok_iff {text : Text} {p : Path} :
    parse text = .ok p ↔ p.segments = text.splitOn '.' ∧ [] ∉ p.segments := by
  obtain ⟨head, tail⟩ := p
  have hany : ((cut text).1 :: (cut text).2).any List.isEmpty = true ↔
      [] ∈ (cut text).1 :: (cut text).2 := by
    rw [List.any_eq_true]
    simp [List.isEmpty_iff]
  rw [← cut_eq_splitOn, segments]
  simp only [parse]
  split
  · next h =>
      have hmem := hany.mp h
      simp only [reduceCtorEq, false_iff, not_and_not_right]
      intro heq
      rwa [heq]
  · next h =>
      have hmem := mt hany.mpr h
      simp only [Except.ok.injEq, mk.injEq, List.cons.injEq]
      constructor
      · rintro ⟨rfl, rfl⟩
        exact ⟨⟨rfl, rfl⟩, hmem⟩
      · rintro ⟨⟨rfl, rfl⟩, -⟩
        exact ⟨rfl, rfl⟩

theorem exists_parse_iff {text : Text} :
    (∃ p, parse text = .ok p) ↔ [] ∉ text.splitOn '.' := by
  simp only [parse_eq_ok_iff]
  constructor
  · rintro ⟨p, heq, hne⟩
    exact heq ▸ hne
  · intro hne
    rw [← cut_eq_splitOn] at hne
    exact ⟨⟨(cut text).1, (cut text).2⟩, cut_eq_splitOn text, hne⟩

/-- Which texts can be read, told from their dots. -/
theorem exists_parse_iff_dots {text : Text} :
    (∃ p, parse text = .ok p) ↔ text ≠ [] ∧ text.head? ≠ some '.' ∧
      text.getLast? ≠ some '.' ∧ ¬['.', '.'] <:+: text := by
  rw [exists_parse_iff, ← cut_eq_splitOn, List.mem_cons, eq_comm, cut_fst_eq_nil_iff,
    nil_mem_cut_snd_iff]
  tauto

theorem isSegment_of_parse {text segment : Text} {p : Path} (h : parse text = .ok p)
    (hmem : segment ∈ p.segments) : IsSegment segment := by
  obtain ⟨heq, hne⟩ := parse_eq_ok_iff.mp h
  rw [heq, ← cut_eq_splitOn] at hmem
  exact ⟨fun hnil => hne (by rwa [heq, ← cut_eq_splitOn, ← hnil]), not_mem_of_mem_cut hmem⟩

/-- Segments joined by dots are read back. -/
theorem exists_parse_intercalate {segments : List Text} (hne : segments ≠ [])
    (h : ∀ s ∈ segments, IsSegment s) :
    ∃ p, parse (['.'].intercalate segments) = .ok p ∧ p.segments = segments := by
  cases segments with
  | nil => exact absurd rfl hne
  | cons head tail =>
      refine ⟨⟨head, tail⟩, parse_eq_ok_iff.mpr ⟨?_, fun hmem => (h _ hmem).1 rfl⟩, rfl⟩
      exact (List.splitOn_intercalate '.' (fun s hs => (h s hs).2) hne).symm

end Path

/-! ## rules -/

namespace Rule

variable {old new : Text} {r : Rule}

theorem isIdentity_iff_of_parse (h : parse old new = .ok r) : r.isIdentity = true ↔ old = new := by
  obtain ⟨hold, hnew⟩ := paths_of_parse h
  rw [isIdentity, decide_eq_true_iff]
  constructor
  · intro heq
    rw [← Path.print_of_parse hold, ← Path.print_of_parse hnew, heq]
  · rintro rfl
    exact Except.ok.inj (hold.symm.trans hnew)

/-- A rule that is read does to a buffer what its plan says, whether its texts are the same
or not. -/
theorem renameIn_eq_splice_plan (h : parse old new = .ok r) {source : SourceType} {buffer : Text}
    {groups : List Group} (hglobals : globals source buffer = .ok groups) :
    renameIn source buffer old new =
      match Edit.splice buffer (r.plan groups buffer) with
      | (result, some fault) => (result, .error fault)
      | (result, none) => (result, .ok (r.plan groups buffer).length) := by
  by_cases hsame : old = new
  · have hplan : r.plan groups buffer = [] := if_pos ((isIdentity_iff_of_parse h).mpr hsame)
    rw [renameIn, if_pos hsame, hplan]
    rfl
  · rcases hsplice : Edit.splice buffer (r.plan groups buffer) with ⟨result, _ | fault⟩ <;>
      simp [renameIn, hsame, h, hglobals, hsplice]

end Rule

/-- Paths and the texts they are written as: which texts can be read, what is read from them,
that joined segments are read back, and that a rule that is read changes nothing just when
its texts are the same. -/
theorem paths_correspond :
    (∀ text : Text, (∃ p, Path.parse text = .ok p) ↔ text ≠ [] ∧ text.head? ≠ some '.' ∧
      text.getLast? ≠ some '.' ∧ ¬['.', '.'] <:+: text) ∧
    (∀ text p, Path.parse text = .ok p → 1 ≤ p.length ∧ p.segments[0]? = some p.head ∧
      (∀ s ∈ p.segments, s ≠ [] ∧ '.' ∉ s) ∧ p.print = text) ∧
    (∀ segments : List Text, segments ≠ [] → (∀ s ∈ segments, s ≠ [] ∧ '.' ∉ s) →
      ∃ p, Path.parse (['.'].intercalate segments) = .ok p ∧ p.segments = segments) ∧
    ∀ old new r, Rule.parse old new = .ok r →
      (r.isIdentity = true ↔ old = new) ∧
      ∀ source buffer groups, globals source buffer = .ok groups →
        renameIn source buffer old new =
          match Edit.splice buffer (r.plan groups buffer) with
          | (result, some fault) => (result, .error fault)
          | (result, none) => (result, .ok (r.plan groups buffer).length) := by
  refine ⟨fun _ => Path.exists_parse_iff_dots, fun text p h => ?_,
    fun segments hne h => Path.exists_parse_intercalate hne h, fun old new r h => ?_⟩
  · exact ⟨Nat.le_add_left 1 _, rfl, fun s hs => Path.isSegment_of_parse h hs,
      Path.print_of_parse h⟩
  · exact ⟨Rule.isIdentity_iff_of_parse h, fun _ _ _ => Rule.renameIn_eq_splice_plan h⟩

/-- A rule for a property, and a text that cannot be read as two dots stand in a row. -/
theorem paths_correspond_property :
    ∃ old new r buffer groups, old = "window.é".toList ∧ new = "window.a".toList ∧
      buffer = "(window).é".toList ∧ Rule.parse old new = .ok r ∧
      globals .script buffer = .ok groups ∧ r.old.print = old ∧
      (∀ s ∈ r.new.segments, s ≠ [] ∧ '.' ∉ s) ∧ r.isIdentity ≠ true ∧
      (renameIn .script buffer old new =
        match Edit.splice buffer (r.plan groups buffer) with
        | (result, some fault) => (result, .error fault)
        | (result, none) => (result, .ok (r.plan groups buffer).length)) ∧
      (∃ p, Path.parse (['.'].intercalate ["window".toList, "é".toList]) = .ok p ∧
        p.segments = ["window".toList, "é".toList]) ∧
      ¬∃ p, Path.parse "window..é".toList = .ok p := by
  obtain ⟨hreads, hpaths, hjoined, hrules⟩ := paths_correspond
  obtain ⟨r, hr⟩ : ∃ r, Rule.parse "window.é".toList "window.a".toList = .ok r := ⟨_, rfl⟩
  obtain ⟨groups, hgroups⟩ : ∃ groups, globals .script "(window).é".toList = .ok groups := by
    have hok : (globals .script "(window).é".toList).isOk = true := by decide +kernel
    cases h : globals .script "(window).é".toList with
    | ok groups => exact ⟨groups, rfl⟩
    | error fault =>
        rw [h] at hok
        cases hok
  obtain ⟨hold, hnew⟩ := Rule.paths_of_parse hr
  obtain ⟨hidentity, hrename⟩ := hrules _ _ r hr
  refine ⟨_, _, r, _, groups, rfl, rfl, rfl, hr, hgroups, (hpaths _ _ hold).2.2.2,
    (hpaths _ _ hnew).2.2.1, fun h => absurd (hidentity.mp h) (by decide), hrename _ _ _ hgroups,
    hjoined _ (by decide) (by decide), fun h => ?_⟩
  exact ((hreads _).mp h).2.2.2 (by decide)

end FreeNames
