import FreeNames.Proofs.Margins
import FreeNames.Proofs.Trivia

/-!
# FreeNames.Proofs.LineBreaks

Where lines end among the tokens of a text.  A draft notes of each gap whether a line
ends in it, and keeps the note when the trivia of the gap is placed.  So the note about
the next gap is about the trivia that has been placed last and the trivia that is left
before the next token (`Draft.Lined`), and whether a line ends further ahead does not
change while tokens are taken (`Draft.Slides`).

Main statements: `Draft.steady_lined`, `Draft.steady_slides`.
-/

namespace FreeNames

/-- No line ends in any of some tokens. -/
def OneLine (ts : List Token) : Prop := ∀ t ∈ ts, t.hasLineBreak = false

theorem oneLine_iff {ts : List Token} : OneLine ts ↔ ts.any Token.hasLineBreak = false := by
  simp [OneLine]

/-- What a gap notes is true of the trivia in it. -/
def Gap.Fair (g : Gap) : Prop := g.newline = g.trivia.any Token.hasLineBreak

namespace Draft

variable {d e : Draft}

/-! ## gaps -/

/-- The gaps that are left. -/
def gaps (d : Draft) : List Gap := d.rest.map Lexeme.gap ++ [d.last]

/-- The gap before the next token, or at the end. -/
def gap (d : Draft) : Gap :=
  match d.rest with
  | [] => d.last
  | l :: _ => l.gap

theorem newline_eq (d : Draft) : d.newline = d.gap.newline := by
  unfold newline newlineAt gap
  cases d.rest <;> rfl

/-- Trivia that comes next is that of the next gap. -/
theorem Sifted.takeWhile_left (h : d.Sifted) : d.left.takeWhile Token.isTrivia = d.gap.trivia := by
  cases hrest : d.rest with
  | nil =>
      rw [left, gap, hrest, List.flatMap_nil, List.nil_append]
      simpa using @List.takeWhile_append_of_pos _ _ _ [] d.last.onlyTrivia
  | cons l ls =>
      have htoken := h.of_cons hrest
      rw [left, gap, hrest, List.flatMap_cons, List.append_assoc, List.append_assoc,
        List.takeWhile_append_of_pos l.gap.onlyTrivia, List.singleton_append,
        List.takeWhile_cons_of_neg (by simp [htoken]), List.append_nil]

/-- Of what is left, all but trivia is seen ahead. -/
theorem Sifted.solid_left (h : d.Sifted) : Token.solid d.left = d.ahead := by
  have htrivia {ts : List Token} (hts : ∀ t ∈ ts, t.isTrivia = true) : Token.solid ts = [] := by
    simpa [Token.solid] using hts
  have hrest (ls : List Lexeme) (hls : ∀ l ∈ ls, l.token.isTrivia = false) :
      Token.solid (ls.flatMap fun l => l.gap.trivia ++ [l.token]) = ls.map Lexeme.token := by
    induction ls with
    | nil => rfl
    | cons l ls ih =>
        rw [List.forall_mem_cons] at hls
        rw [List.flatMap_cons, Token.solid_append, Token.solid_append, htrivia l.gap.onlyTrivia,
          ih hls.2]
        simp [Token.solid, hls.1]
  rw [left, Token.solid_append, htrivia d.last.onlyTrivia, List.append_nil]
  exact hrest d.rest fun l hl => h _ (List.mem_map_of_mem hl)

/-! ## lines in a draft -/

/-- What is noted of gaps is true: of the next one, of its trivia that has been placed
and of what is left of it. -/
structure Lined (d : Draft) : Prop where
  sifted : d.Sifted
  here : d.gap.newline =
    (d.placed.takeWhile Token.isTrivia ++ d.gap.trivia).any Token.hasLineBreak
  later : ∀ g ∈ d.gaps.tail, g.Fair

namespace Lined

theorem congr (h : d.Lined) (hrest : e.rest = d.rest) (hlast : e.last = d.last)
    (hplaced : e.placed = d.placed) : e.Lined := by
  have hgap : e.gap = d.gap := by rw [gap, gap, hrest, hlast]
  have hgaps : e.gaps = d.gaps := by rw [gaps, gaps, hrest, hlast]
  refine ⟨?_, by rw [hgap, hplaced, h.here], by rw [hgaps]; exact h.later⟩
  rw [Sifted, ahead, hrest]
  exact h.sifted

/-- Trivia that is placed has its line ends still noted. -/
theorem any_placed {g : Gap} {ts : List Token} (hg : g.newline =
      (ts.takeWhile Token.isTrivia ++ g.trivia).any Token.hasLineBreak) :
    g.placed.newline = ((g.trivia.reverse ++ ts).takeWhile Token.isTrivia ++
      g.placed.trivia).any Token.hasLineBreak := by
  rw [Gap.newline_placed, Gap.trivia_placed, List.append_nil,
    List.takeWhile_append_of_pos (by simpa using g.onlyTrivia), List.any_append, List.any_reverse,
    Bool.or_comm, ← List.any_append]
  exact hg

theorem placeTrivia (h : d.Lined) : d.placeTrivia.Lined := by
  have hsifted : d.placeTrivia.Sifted := by
    rw [Sifted, ahead_placeTrivia]
    exact h.sifted
  have hhere := h.here
  have hlater := h.later
  cases hrest : d.rest with
  | nil =>
      rw [gap, hrest] at hhere
      rw [placeTrivia_nil hrest] at hsifted ⊢
      refine ⟨hsifted, ?_, ?_⟩
      · rw [gap, rest_place, hrest, placed_place]
        exact any_placed hhere
      · simp [gaps, hrest]
  | cons l ls =>
      rw [gap, hrest] at hhere
      rw [gaps, hrest] at hlater
      rw [placeTrivia_cons hrest] at hsifted ⊢
      refine ⟨hsifted, ?_, hlater⟩
      rw [placed_place]
      exact any_placed hhere

theorem take (h : d.Lined) : d.take.Lined := by
  cases hrest : d.rest with
  | nil =>
      rw [Draft.take, hrest]
      exact h.placeTrivia
  | cons l ls =>
      have hsifted : d.take.Sifted := by
        rw [Sifted, ahead_take]
        exact fun t ht => h.sifted t (List.mem_of_mem_tail ht)
      have htoken := h.sifted.of_cons hrest
      have hlater := h.later
      rw [gaps, hrest, List.map_cons, List.cons_append, List.tail_cons] at hlater
      rw [take_cons hrest] at hsifted ⊢
      refine ⟨hsifted, ?_, fun g hg => hlater g (List.mem_of_mem_tail hg)⟩
      -- the token ends the trivia before it, so only the next gap counts
      have hfair : Gap.Fair ({ d with rest := ls }.place (l.gap.trivia ++ [l.token])).gap := by
        refine hlater _ ?_
        rw [gap, rest_place]
        cases ls <;> simp
      rw [placed_place, List.reverse_append, List.reverse_singleton, List.singleton_append,
        List.cons_append, List.takeWhile_cons_of_neg (by simp [htoken]), List.nil_append]
      exact hfair

end Lined

theorem steady_lined : Steady fun d e => d.Lined → e.Lined where
  refl _ := id
  trans hl hr := hr ∘ hl
  placeTrivia _ h := h.placeTrivia
  take _ h := h.take
  report _ _ _ h := h.congr rfl rfl rfl
  group hbody h := (hbody (h.congr rfl rfl rfl)).congr rfl rfl rfl
  enclose _ hbody h := (hbody (h.congr rfl rfl rfl)).congr rfl rfl rfl
  node _ hbody h := (hbody (h.congr rfl rfl rfl)).congr rfl rfl rfl

/-- The gaps of a text are noted as they are. -/
theorem lined_ofTokens (ts : List Token) : (ofTokens ts).Lined := by
  have hfair (g : Gap) (hg : g.Fair) :
      ∀ f ∈ (lexemesFrom g ts).1.map Lexeme.gap ++ [(lexemesFrom g ts).2], f.Fair := by
    induction ts generalizing g with
    | nil => simpa [lexemesFrom] using hg
    | cons t ts ih =>
        by_cases ht : t.isTrivia = true
        · rw [lexemesFrom, dif_pos ht]
          refine ih _ ?_
          rw [Gap.Fair] at hg ⊢
          simp [Gap.push, hg]
        · rw [lexemesFrom, dif_neg ht]
          rintro f (_ | ⟨_, hf⟩)
          · exact hg
          · exact ih (.empty _) rfl f hf
  have hgaps : ∀ f ∈ (ofTokens ts).gaps, f.Fair := hfair (.empty 0) rfl
  refine ⟨sifted_ofTokens ts, ?_, fun g hg => hgaps g (List.mem_of_mem_tail hg)⟩
  refine hgaps _ ?_
  rw [gap, gaps]
  cases (ofTokens ts).rest <;> simp

/-! ## lines and trees -/

/-- Line ends are noted as they are, and what has been gathered for the open node or
group is what has been placed last. -/
structure Aligned (d : Draft) : Prop where
  lined : d.Lined
  gathered : Tree.tokensAll d.trees.reverse <:+ d.placed.reverse

namespace Aligned

theorem reads (h : d.Aligned) (hlined : e.Lined) (hreads : Reads d e) : e.Aligned := by
  obtain ⟨new, htrees, hplaced, -⟩ := hreads
  obtain ⟨front, hfront⟩ := h.gathered
  refine ⟨hlined, front, ?_⟩
  rw [htrees, hplaced, List.reverse_append, List.reverse_reverse, ← hfront, List.append_assoc]

theorem congr (h : d.Aligned) (hrest : e.rest = d.rest) (hlast : e.last = d.last)
    (hplaced : e.placed = d.placed) (htrees : e.trees = [] ∨ e.trees = d.trees) : e.Aligned := by
  refine ⟨h.lined.congr hrest hlast hplaced, ?_⟩
  rcases htrees with htrees | htrees
  · simp [htrees]
  · rw [htrees, hplaced]
    exact h.gathered

theorem placeTrivia (h : d.Aligned) : d.placeTrivia.Aligned :=
  h.reads h.lined.placeTrivia (reads_placeTrivia d)

theorem take (h : d.Aligned) : d.take.Aligned := h.reads h.lined.take (reads_take d)

/-- A node or group that is opened. -/
theorem opened (h : d.Aligned) : d.placeTrivia.apart.Aligned :=
  h.placeTrivia.congr rfl rfl rfl (Or.inl rfl)

end Aligned

theorem aligned_ofTokens (ts : List Token) : (ofTokens ts).Aligned :=
  ⟨lined_ofTokens ts, by simp [ofTokens]⟩

/-! ## lines further ahead -/

/-- What is noted of gaps further ahead stays, as tokens are taken before them. -/
structure Slides (d e : Draft) : Prop where
  length : e.rest.length ≤ d.rest.length
  newlineAt (n : Nat) : e.newlineAt n = d.newlineAt (n + (d.rest.length - e.rest.length))

theorem newlineAt_take_succ (h : d.rest ≠ []) (n : Nat) :
    d.take.newlineAt n = d.newlineAt (n + 1) := by
  obtain ⟨l, ls, hrest⟩ := List.exists_cons_of_ne_nil h
  rw [take_cons hrest]
  simp [newlineAt, hrest]

theorem steady_slides : Steady Slides where
  refl d := ⟨Nat.le_refl _, by simp⟩
  trans {d e f} hl hr := by
    have hle := hl.length
    have hle' := hr.length
    refine ⟨by omega, fun n => ?_⟩
    rw [hr.newlineAt, hl.newlineAt]
    congr 1
    omega
  placeTrivia d := ⟨by simp, by simp⟩
  take d := by
    refine ⟨by rw [length_rest_take]; omega, fun n => ?_⟩
    rw [length_rest_take]
    cases hrest : d.rest with
    | nil =>
        rw [take, hrest, newlineAt_placeTrivia]
        rfl
    | cons l ls =>
        rw [newlineAt_take_succ (by simp [hrest])]
        congr 1
        simp
  report d c _ := ⟨Nat.le_refl _, fun n => by rw [rest_report, Nat.sub_self]; rfl⟩
  group h := ⟨h.length, h.newlineAt⟩
  enclose _ h := ⟨h.length, h.newlineAt⟩
  node _ h := ⟨h.length, h.newlineAt⟩

end Draft

end FreeNames
