import FreeNames.Proofs.Lossless
import FreeNames.Proofs.Relexing

/-!
# FreeNames.Proofs.Neighbours

Which tokens stand next to each other in a text without problems.  None of them
is an error, and no name stands directly after a number or a regular expression
(`apart_of_ok`).  The rules take a name after such a token only on another line,
and then trivia stands between the two.
-/

namespace FreeNames

/-! ## tokens in a row -/

namespace Token

theorem not_joinable_trivia {s t : Token} (h : t.isTrivia = true) : ¬s.Joinable t := by
  rintro ⟨-, hident, -⟩
  simp [isTrivia, hident, TokenKind.isTrivia] at h

theorem not_joinable_after_trivia {s t : Token} (h : s.isTrivia = true) : ¬s.Joinable t := by
  rintro ⟨habsorbs, -, -⟩
  generalize hk : s.kind = k at habsorbs
  rw [isTrivia, hk] at h
  cases k <;> simp_all [TokenKind.absorbs, TokenKind.isTrivia]

/-- Tokens, latest first, of which none is an error and none could become part
of the one before it. -/
structure Apart (ts : List Token) : Prop where
  noError : ∀ t ∈ ts, t.kind ≠ .error
  chain : ts.IsChain fun t s => ¬s.Joinable t

theorem Apart.cons {t : Token} {ts : List Token} (h : Apart ts) (ht : t.kind ≠ .error)
    (hjoin : ∀ s ∈ ts.head?, ¬s.Joinable t) : Apart (t :: ts) where
  noError := by
    intro u hu
    rcases List.mem_cons.mp hu with rfl | hu
    · exact ht
    · exact h.noError u hu
  chain := List.isChain_cons.mpr ⟨hjoin, h.chain⟩

theorem Apart.trivia {ts before : List Token} (h : Apart before)
    (hts : ∀ t ∈ ts, t.isTrivia = true) : Apart (ts ++ before) := by
  induction ts with
  | nil => exact h
  | cons t ts ih =>
      have ht := hts t List.mem_cons_self
      refine (ih fun u hu => hts u (List.mem_cons_of_mem t hu)).cons ?_ fun s _ =>
        not_joinable_trivia ht
      intro hk
      simp [isTrivia, hk, TokenKind.isTrivia] at ht

end Token

/-! ## what has been placed -/

namespace Draft

theorem lastKind?_of_head? {d : Draft} {s : Token} (h : d.placed.head? = some s)
    (hs : s.isTrivia = false) : d.lastKind? = some s.kind := by
  rw [placed] at h
  rw [lastKind?]
  generalize d.steps = steps at h
  induction steps with
  | nil => simp at h
  | cons step steps ih =>
      cases step with
      | token t =>
          obtain rfl : t = s := by simpa using h
          simp [hs]
      | start k => simpa using ih (by simpa using h)
      | startAt n k => simpa using ih (by simpa using h)
      | finish => simpa using ih (by simpa using h)

/-- Where a line ends in front of a token, trivia stands there, or was placed
there last. -/
def Gapped (before : Option Token) (g : Gap) : Prop :=
  g.newline = true → g.trivia ≠ [] ∨ ∃ t ∈ before, t.isTrivia = true

/-- Tokens are apart where they have been placed, and lines end in trivia where
they have not. -/
structure Neat (d : Draft) : Prop where
  apart : Token.Apart d.placed
  first : ∀ l ∈ d.rest.head?, Gapped d.placed.head? l.gap
  later : ∀ l ∈ d.rest.tail, Gapped none l.gap

theorem Neat.of_eq {d e : Draft} (h : d.Neat) (hplaced : e.placed = d.placed)
    (hrest : e.rest = d.rest) : e.Neat := by
  obtain ⟨hapart, hfirst, hlater⟩ := h
  exact ⟨hplaced ▸ hapart, hplaced ▸ hrest ▸ hfirst, hrest ▸ hlater⟩

theorem Gapped.placed {before : List Token} {g : Gap} (h : Gapped before.head? g) :
    Gapped (g.trivia.reverse ++ before).head? g.placed := by
  intro hnewline
  right
  cases hts : g.trivia.reverse with
  | nil =>
      have hnil : g.trivia = [] := List.reverse_eq_nil_iff.mp hts
      simpa [hnil] using h hnewline
  | cons t ts =>
      refine ⟨t, rfl, g.onlyTrivia t ?_⟩
      rw [← List.mem_reverse, hts]
      exact List.mem_cons_self

theorem Neat.placeTrivia {d : Draft} (h : d.Neat) : d.placeTrivia.Neat := by
  cases hr : d.rest with
  | nil =>
      rw [placeTrivia_nil hr]
      refine ⟨?_, by simp [hr], by simp [hr]⟩
      rw [placed_place]
      exact h.apart.trivia fun t ht => d.last.onlyTrivia t (List.mem_reverse.mp ht)
  | cons l ls =>
      rw [placeTrivia_cons hr]
      refine ⟨?_, ?_, by simpa [hr] using h.later⟩
      · rw [placed_place]
        exact h.apart.trivia fun t ht => l.gap.onlyTrivia t (List.mem_reverse.mp ht)
      · rw [placed_place]
        simp only [rest_place, List.head?_cons, Option.mem_def, Option.some.injEq, forall_eq']
        exact (h.first l (by simp [hr])).placed

/-- A token that does not become part of the one before it may be taken. -/
theorem Neat.take {d : Draft} (h : d.Neat) {l : Lexeme} {ls : List Lexeme} (hr : d.rest = l :: ls)
    (herr : l.token.kind ≠ .error)
    (hjoin : l.gap.trivia = [] → ∀ s ∈ d.placed.head?, ¬s.Joinable l.token) : d.take.Neat := by
  have hplaced : d.take.placed = l.token :: (l.gap.trivia.reverse ++ d.placed) := by
    rw [take_cons hr, placed_place, List.reverse_append]
    rfl
  have hrest : d.take.rest = ls := by rw [take_cons hr]; rfl
  refine ⟨?_, ?_, ?_⟩
  · rw [hplaced]
    refine (h.apart.trivia fun t ht => l.gap.onlyTrivia t (List.mem_reverse.mp ht)).cons herr ?_
    cases hts : l.gap.trivia.reverse with
    | nil => exact hjoin (List.reverse_eq_nil_iff.mp hts)
    | cons t ts =>
        intro s hs
        obtain rfl : t = s := by simpa using hs
        apply Token.not_joinable_after_trivia
        apply l.gap.onlyTrivia
        rw [← List.mem_reverse, hts]
        exact List.mem_cons_self
  · rw [hrest]
    intro m hm hnewline
    have hlater := h.later m (by rw [hr]; exact List.mem_of_mem_head? hm) hnewline
    exact hlater.imp_right fun hnone => by simp at hnone
  · rw [hrest]
    intro m hm
    exact h.later m (by rw [hr]; exact List.mem_of_mem_tail hm)

theorem Plain.not_joinable {d : Draft} (h : d.Plain) {l : Lexeme} {ls : List Lexeme}
    (hr : d.rest = l :: ls) (s : Token) : ¬s.Joinable l.token := by
  rintro ⟨-, hident, hword⟩
  rcases h with h | ⟨-, h⟩
  · simp [kind, kindAt, hr, hident, TokenKind.isPlain] at h
  · simp [textAt, hr, hword] at h

theorem Neat.single {d : Draft} {k : NodeKind} (h : d.Neat) (hfits : k.fits d.kind = true)
    (hclear : ¬d.Stuck) : (d.single k).Neat := by
  obtain ⟨l, ls, hr, hkind⟩ := exists_cons_of_kind rfl (NodeKind.ne_error_of_fits hfits)
  let e := d.placeTrivia.apart.log (.start k)
  have he : e.Neat := h.placeTrivia.of_eq rfl rfl
  have hrest : e.rest = { l with gap := l.gap.placed } :: ls := by
    show d.placeTrivia.rest = _
    rw [placeTrivia_cons hr]
    rfl
  refine (he.take hrest (hkind ▸ NodeKind.ne_error_of_fits hfits) ?_).of_eq rfl rfl
  rintro - s hs ⟨habsorbs, hident, hword⟩
  -- a token that could absorb a name stands on the same line only if the draft is stuck
  cases htrivia : s.isTrivia with
  | true => exact Token.not_joinable_after_trivia htrivia ⟨habsorbs, hident, hword⟩
  | false =>
      have hlast : d.lastKind? = some s.kind := by
        rw [← lastKind?_of_head? hs htrivia]
        simp [e]
      apply hclear
      refine ⟨?_, ?_, ?_, ?_⟩
      · rw [← hkind]
        exact hident
      · simpa [textAt, hr] using hword
      · cases hnewline : d.newline with
        | false => rfl
        | true =>
            have hgap := he.first _ (by rw [hrest]; rfl)
            rcases hgap (by simpa [newline, newlineAt, hr] using hnewline) with
              hgap | ⟨t, ht, htrivia'⟩
            · exact absurd rfl hgap
            · obtain rfl : t = s := Option.some.inj (ht.symm.trans hs)
              simp [htrivia] at htrivia'
      · simp [hlast, habsorbs]

/-- What rules place without a problem is apart. -/
theorem Neat.of_built {d e : Draft} (h : d.Neat) (hbuilt : Built d e) (he : e.problems = []) :
    e.Neat := by
  induction hbuilt with
  | refl _ => exact h
  | trans left right ihl ihr => exact ihr (ihl h (right.problems_eq_nil he)) he
  | placeTrivia _ => exact h.placeTrivia
  | @take d plain =>
      have hplain := plain (by simpa using he)
      obtain ⟨l, ls, hr, hkind⟩ := exists_cons_of_kind rfl hplain.kind_ne_error
      exact h.take hr (hkind ▸ hplain.kind_ne_error) fun _ s _ => hplain.not_joinable hr s
  | report _ _ => simp at he
  | skip reported _ => exact absurd (by simpa using he) reported
  | single fits clear _ => exact h.single fits (clear (by simpa using he))
  | group _ ih => exact (ih (h.placeTrivia.of_eq rfl rfl) he).of_eq rfl rfl
  | enclose _ _ ih => exact (ih (h.of_eq rfl rfl) he).of_eq rfl rfl
  | node _ _ ih => exact (ih (h.placeTrivia.of_eq rfl rfl) he).of_eq rfl rfl

theorem gapped_lexemesFrom {g : Gap} (hg : Gapped none g) (ts : List Token) :
    ∀ l ∈ (lexemesFrom g ts).1, Gapped none l.gap := by
  induction ts generalizing g with
  | nil => simp [lexemesFrom]
  | cons t ts ih =>
      rw [lexemesFrom]
      split
      · exact ih fun _ => Or.inl (by simp [Gap.push])
      · intro l hl
        rcases List.mem_cons.mp hl with rfl | hl
        · exact hg
        · exact ih (by simp [Gapped, Gap.empty]) l hl

theorem neat_ofTokens (ts : List Token) : (ofTokens ts).Neat := by
  have hgapped : ∀ l ∈ (ofTokens ts).rest, Gapped none l.gap :=
    gapped_lexemesFrom (by simp [Gapped, Gap.empty]) ts
  refine ⟨⟨by simp [placed, ofTokens], by simp [placed, ofTokens]⟩, fun l hl => ?_, fun l hl => ?_⟩
  · exact fun hnewline => (hgapped l (List.mem_of_mem_head? hl) hnewline).imp_right (by simp)
  · exact hgapped l (List.mem_of_mem_tail hl)

theorem placed_ofText (source : SourceType) (text : Text) :
    (ofText source text).placed = (tokenize text).reverse := by
  obtain ⟨new, -, hplaced, hleft⟩ := steady_reads.of_built (built_ofText source text)
  rw [left_ofTokens, left_ofText, List.append_nil] at hleft
  simpa [placed, ofTokens, hleft] using hplaced

end Draft

/-- In a text without problems no token is an error, and no name stands directly
after a token that could absorb it. -/
theorem apart_of_ok {source : SourceType} {text : Text} (h : (parse source text).problems = []) :
    (∀ t ∈ tokenize text, t.kind ≠ .error) ∧
      (tokenize text).IsChain fun s t => ¬s.Joinable t := by
  have hproblems : (Draft.ofText source text).problems = [] := by simpa [parse] using h
  have hneat := (Draft.neat_ofTokens (tokenize text)).of_built (built_ofText source text) hproblems
  have hapart := hneat.apart
  rw [Draft.placed_ofText] at hapart
  exact ⟨fun t ht => hapart.noError t (List.mem_reverse.mpr ht), by
    rw [← List.isChain_reverse]
    exact hapart.chain⟩

/-- A text without problems, with identifiers in place of others, has the tokens
that it is made of. -/
theorem tokenize_respelt {source : SourceType} {text : Text} {dots : Bool} {us : List Token}
    (hok : (parse source text).problems = []) (h : Respelt dots none (tokenize text) us) :
    tokenize (Token.concat us) = us := by
  obtain ⟨herr, hapart⟩ := apart_of_ok hok
  exact tokenize_eq_iff_lexed.mpr ((lexed_tokenize text).respelt herr hapart h)

end FreeNames
