import FreeNames.Analysis
import FreeNames.Proofs.Covering
import FreeNames.Proofs.Lossless

/-!
# FreeNames.Proofs.SourceOrder

Problems come in the order of the text.  A problem is reported with the range of the
next token that is not trivia, or with the empty range at the end.  The ranges that
are still ahead of a draft (`Draft.spans`) are a list which rules only drop the front
of: placing trivia leaves it alone, and taking a token drops one range.  So where the
next problem would be reported never moves back, however deep the rule that reports it
(`Draft.Ordered`, `Draft.steady_ordered`).

Main statement: `problems_in_source_order`, for every text.
-/

namespace FreeNames

/-- The range of a token at an offset. -/
def Token.spanAt (o : Nat) (t : Token) : Span := ⟨o, o + t.size⟩

/-- The ranges at which a text can have problems: its tokens without trivia, and its
end. -/
def problemSpans (offset : Nat) (ts : List Token) : List Span :=
  ((Token.locate offset ts).filter fun p => !p.2.isTrivia).map (fun p => p.2.spanAt p.1) ++
    [⟨offset + Token.sizeAll ts, offset + Token.sizeAll ts⟩]

theorem mem_problemSpans_iff {offset : Nat} {ts : List Token} {span : Span} :
    span ∈ problemSpans offset ts ↔
      (∃ o t, (o, t) ∈ Token.locate offset ts ∧ t.isTrivia = false ∧ span = t.spanAt o) ∨
        span = ⟨offset + Token.sizeAll ts, offset + Token.sizeAll ts⟩ := by
  simp only [problemSpans, List.mem_append, List.mem_map, List.mem_filter, Prod.exists,
    List.mem_singleton, Bool.not_eq_true', and_assoc, eq_comm (b := span)]

/-- Each range starts no later than those after it. -/
theorem pairwise_problemSpans (offset : Nat) (ts : List Token) :
    (problemSpans offset ts).Pairwise fun a b => a.start ≤ b.start := by
  rw [problemSpans, List.pairwise_append]
  refine ⟨?_, List.pairwise_singleton _ _, ?_⟩
  · rw [List.pairwise_map]
    refine ((Token.locate_pairwise offset ts).filter _).imp fun {a b} hle => ?_
    simp only [Token.spanAt]
    omega
  · simp only [List.mem_map, List.mem_filter, List.mem_singleton, Prod.exists, Token.spanAt]
    rintro _ ⟨o, t, ⟨hmem, -⟩, rfl⟩ _ rfl
    obtain ⟨before, after, rfl, rfl⟩ := Token.mem_locate_iff.mp hmem
    simp

namespace Draft

/-- The ranges of the tokens that are left and of the end. -/
def spans (d : Draft) : List Span :=
  d.rest.map (fun l => l.token.spanAt l.gap.stop) ++ [⟨d.last.stop, d.last.stop⟩]

theorem spans_ofTokens (ts : List Token) : (ofTokens ts).spans = problemSpans 0 ts := by
  suffices h : ∀ g : Gap, (lexemesFrom g ts).1.map (fun l => l.token.spanAt l.gap.stop) ++
      [⟨(lexemesFrom g ts).2.stop, (lexemesFrom g ts).2.stop⟩] = problemSpans g.stop ts from
    h (.empty 0)
  induction ts with
  | nil => exact fun g => rfl
  | cons t ts ih =>
      intro g
      have hspans : problemSpans g.stop (t :: ts) =
          (if t.isTrivia then [] else [t.spanAt g.stop]) ++ problemSpans (g.stop + t.size) ts := by
        rw [problemSpans, problemSpans, Token.locate, List.filter_cons, Token.sizeAll_cons,
          Nat.add_assoc]
        cases t.isTrivia <;> rfl
      rw [hspans]
      by_cases ht : t.isTrivia = true
      · rw [lexemesFrom, dif_pos ht, if_pos ht]
        exact ih (g.push t ht)
      · rw [lexemesFrom, dif_neg ht, if_neg ht]
        exact congrArg (t.spanAt g.stop :: ·) (ih (.empty (g.stop + t.size)))

/-- A problem is reported at the first of the ranges ahead. -/
theorem head?_spans (d : Draft) : d.spans.head? = some d.spanHere := by
  unfold spans spanHere
  cases d.rest <;> rfl

@[simp] theorem spans_placeTrivia (d : Draft) : d.placeTrivia.spans = d.spans := by
  cases h : d.rest with
  | nil => rw [placeTrivia_nil h]; simp [spans, h, Gap.placed]
  | cons l ls => rw [placeTrivia_cons h]; simp [spans, h, Gap.placed]

theorem spans_take_suffix (d : Draft) : d.take.spans <:+ d.spans := by
  cases h : d.rest with
  | nil =>
      have htake : d.take.spans = d.spans := by rw [take, h, spans_placeTrivia]
      exact htake ▸ List.suffix_refl _
  | cons l ls =>
      rw [take_cons h, spans, spans, h]
      exact ⟨[l.token.spanAt l.gap.stop], rfl⟩

/-- The problems of a draft were reported at some ranges, of which those ahead are the
last ones; none starts after a later one or after what is ahead. -/
structure Ordered (all : List Span) (d : Draft) : Prop where
  ahead : d.spans <:+ all
  spans : ∀ p ∈ d.problems, p.span ∈ all
  passed : ∀ p ∈ d.problems, p.span.start ≤ d.spanHere.start
  order : d.problems.Pairwise fun p q => q.span.start ≤ p.span.start

variable {all : List Span} {d e : Draft}

/-- What is ahead of a draft comes before what is ahead later. -/
theorem spanHere_le (hall : all.Pairwise fun a b => a.start ≤ b.start) (hd : d.spans <:+ all)
    (he : e.spans <:+ d.spans) : d.spanHere.start ≤ e.spanHere.start := by
  have hpairs := hall.sublist hd.sublist
  obtain ⟨ds, hds⟩ := List.head?_eq_some_iff.mp d.head?_spans
  have hmem : e.spanHere ∈ d.spans := he.subset (List.mem_of_mem_head? e.head?_spans)
  rw [hds, List.pairwise_cons] at hpairs
  rw [hds, List.mem_cons] at hmem
  rcases hmem with heq | hmem
  · rw [heq]
  · exact hpairs.1 _ hmem

/-- Ranges that are passed by leave the problems in order. -/
theorem Ordered.drop (hall : all.Pairwise fun a b => a.start ≤ b.start) (h : d.Ordered all)
    (hspans : e.spans <:+ d.spans) (hproblems : e.problems = d.problems) : e.Ordered all where
  ahead := hspans.trans h.ahead
  spans := hproblems ▸ h.spans
  passed p hp := Nat.le_trans (h.passed p (hproblems ▸ hp)) (spanHere_le hall h.ahead hspans)
  order := hproblems ▸ h.order

/-- One more problem is reported at what is ahead. -/
theorem Ordered.report (h : d.Ordered all) (c : Cause) : (d.report c).Ordered all where
  ahead := h.ahead
  spans p hp := by
    rw [problems_report, List.mem_cons] at hp
    rcases hp with rfl | hp
    · exact h.ahead.subset (List.mem_of_mem_head? d.head?_spans)
    · exact h.spans p hp
  passed p hp := by
    rw [problems_report, List.mem_cons] at hp
    rcases hp with rfl | hp
    · exact Nat.le_refl _
    · exact h.passed p hp
  order := List.pairwise_cons.mpr ⟨h.passed, h.order⟩

/-- What was gathered apart is reported in order too. -/
theorem Ordered.congr (h : d.Ordered all) (hrest : e.rest = d.rest) (hlast : e.last = d.last)
    (hproblems : e.problems = d.problems) : e.Ordered all := by
  have hspans : e.spans = d.spans := by rw [Draft.spans, Draft.spans, hrest, hlast]
  have hhere : e.spanHere = d.spanHere := by rw [spanHere, spanHere, hrest, hlast]
  exact ⟨hspans ▸ h.ahead, hproblems ▸ h.spans, hproblems ▸ hhere ▸ h.passed, hproblems ▸ h.order⟩

theorem steady_ordered (hall : all.Pairwise fun a b => a.start ≤ b.start) :
    Steady fun d e => d.Ordered all → e.Ordered all where
  refl _ := id
  trans hl hr := hr ∘ hl
  placeTrivia d h := h.drop hall (by simp) (by simp)
  take d h := h.drop hall d.spans_take_suffix (by simp)
  report d c _ h := h.report c
  group {d e} hbody h := (hbody (h.congr rfl rfl rfl)).congr rfl rfl rfl
  enclose {d e k} _ hbody h := (hbody (h.congr rfl rfl rfl)).congr rfl rfl rfl
  node {d e k} _ hbody h := (hbody (h.congr rfl rfl rfl)).congr rfl rfl rfl

theorem ordered_ofText (source : SourceType) (text : Text) :
    (ofText source text).Ordered (problemSpans 0 (tokenize text)) := by
  refine (steady_ordered (pairwise_problemSpans 0 _)).of_built (built_ofText source text) ?_
  exact ⟨spans_ofTokens _ ▸ List.suffix_refl _, by simp [ofTokens],
    by simp [ofTokens], by simp [ofTokens]⟩

end Draft

/-! ## problems of a text -/

theorem pairwise_problems (source : SourceType) (text : Text) :
    (parse source text).problems.Pairwise fun p q => p.span.start ≤ q.span.start :=
  List.pairwise_reverse.mpr (Draft.ordered_ofText source text).order

theorem span_of_mem_problems {source : SourceType} {text : Text} {p : Problem}
    (h : p ∈ (parse source text).problems) :
    (∃ o t, (o, t) ∈ Token.locate 0 (tokenize text) ∧ t.isTrivia = false ∧
      p.span = ⟨o, o + t.size⟩) ∨ p.span = ⟨text.size, text.size⟩ := by
  have hspan := (Draft.ordered_ofText source text).spans p (List.mem_reverse.mp h)
  rw [mem_problemSpans_iff, Nat.zero_add, Token.sizeAll, concat_tokenize] at hspan
  exact hspan

/-- A problem starts between two characters. -/
theorem isBoundary_of_mem_problems {source : SourceType} {text : Text} {p : Problem}
    (h : p ∈ (parse source text).problems) : text.isBoundary p.span.start = true := by
  rcases span_of_mem_problems h with ⟨o, t, hmem, -, hspan⟩ | hspan
  · obtain ⟨-, -, -, -, hstart, -⟩ := exists_of_mem_locate hmem
    rw [hspan]
    exact hstart
  · rw [hspan]
    exact Text.isBoundary_iff.mpr ⟨text, [], (List.append_nil text).symm, rfl⟩

/-- The parse in force is that of the text, as a script or as a module. -/
theorem exists_parseEither (source : SourceType) (text : Text) :
    ∃ source', parseEither source text = parse source' text := by
  by_cases h : (source = .script && (parse source text).needsModule) = true
  · exact ⟨.module, if_pos h⟩
  · exact ⟨source, if_neg h⟩

/-- The problems of a text are reported in the order in which they start.  Each has the
range of a token that is not trivia, or the empty range at the end.  The problem that is
the fault of a program is the first one, so none starts before it, and it starts between
two characters. -/
theorem problems_in_source_order (source : SourceType) (text : Text) :
    (parse source text).problems.Pairwise (fun p q => p.span.start ≤ q.span.start) ∧
    (∀ p ∈ (parse source text).problems,
      (∃ o t, (o, t) ∈ Token.locate 0 (tokenize text) ∧ t.isTrivia = false ∧
        p.span = ⟨o, o + t.size⟩) ∨ p.span = ⟨text.size, text.size⟩) ∧
    ∀ first later, (parseEither source text).problems = first :: later →
      parseProgram source text = .error (.ofProblem first text) ∧
        (∀ p ∈ later, first.span.start ≤ p.span.start) ∧
        text.isBoundary first.span.start = true := by
  refine ⟨pairwise_problems source text, fun p => span_of_mem_problems, fun first later h => ?_⟩
  have hfault : parseProgram source text = .error (.ofProblem first text) := by
    rw [parseProgram, h]
  obtain ⟨source', heq⟩ := exists_parseEither source text
  rw [heq] at h
  have hpairs := pairwise_problems source' text
  rw [h, List.pairwise_cons] at hpairs
  exact ⟨hfault, hpairs.1, isBoundary_of_mem_problems (h ▸ List.mem_cons_self)⟩

/-- A parenthesis that is not closed before a number on its line, and one that is not
closed before the end. -/
theorem problems_in_source_order_unclosed :
    let text : Text := "é = (1 2; f(".toList
    let first : Problem := ⟨.expected (.punct .rParen), ⟨8, 9⟩⟩
    let later : List Problem := [⟨.unexpected, ⟨8, 9⟩⟩, ⟨.expected (.punct .rParen), ⟨13, 13⟩⟩]
    (parseEither .script text).problems = first :: later ∧
      parseProgram .script text = .error (.ofProblem first text) ∧
      (∀ p ∈ later, first.span.start ≤ p.span.start) ∧
      text.isBoundary first.span.start = true := by
  intro text first later
  have h : (parseEither .script text).problems = first :: later := by decide +kernel
  exact ⟨h, (problems_in_source_order .script text).2.2 first later h⟩

end FreeNames
