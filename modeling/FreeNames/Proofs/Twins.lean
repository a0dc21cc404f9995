import FreeNames.Proofs.Relexing

/-!
# FreeNames.Proofs.Twins

Drafts that differ only in how names are spelt (`Draft.Twin`).  Words that mean
something of their own in some places are not names here, unless `dots` says that
they are names after a dot.  Twins see the same ahead of them, but for such words
after a dot, and every small step makes twins of twins.  Offsets do not count: no
step depends on them.
-/

namespace FreeNames

/-! ## leaving out how identifiers are spelt -/

/-- A token without the spelling, if it is an identifier. -/
def Token.blur (t : Token) : Token := if t.kind = .ident then ⟨.ident, []⟩ else t

namespace Tree

mutual

/-- A tree with other tokens for its leaves. -/
def map (f : Token → Token) : Tree → Tree
  | .leaf t => .leaf (f t)
  | .node kind parts => .node kind (mapAll f parts)

/-- Trees in a row with other tokens for their leaves. -/
def mapAll (f : Token → Token) : List Tree → List Tree
  | [] => []
  | t :: ts => t.map f :: mapAll f ts

end

theorem mapAll_eq (f : Token → Token) (ts : List Tree) : mapAll f ts = ts.map (Tree.map f) := by
  induction ts with
  | nil => rfl
  | cons t ts ih => rw [mapAll, ih, List.map_cons]

end Tree

/-- A gap without its place. -/
def Gap.blur (g : Gap) : Gap := { g with stop := 0 }

/-! ## tokens that are spelt otherwise -/

namespace Respelt

variable {dots : Bool} {last : Option TokenKind} {ts us : List Token}

/-- What is no identifier stays. -/
theorem getElem?_eq (h : Respelt dots last ts us) {n : Nat}
    (hn : ∀ t, ts[n]? = some t → t.kind ≠ .ident) : ts[n]? = us[n]? := by
  induction h generalizing n with
  | nil => rfl
  | keep t _ ih =>
      cases n with
      | zero => rfl
      | succ n => exact ih hn
  | respell _ _ _ _ ih =>
      cases n with
      | zero => exact absurd rfl (hn _ rfl)
      | succ n => exact ih hn

/-- No dot comes before a token. -/
def Undotted (last : Option TokenKind) (ts : List Token) : Nat → Prop
  | 0 => last.any TokenKind.isDot = false
  | n + 1 => ∀ t, ts[n]? = some t → t.kind.isDot = false

/-- A word that means something of its own stays, unless a dot comes before it. -/
theorem getElem?_eq_word_iff (h : Respelt dots last ts us)
    (hsolid : ∀ t ∈ ts, t.isTrivia = false) {n : Nat} (hdot : dots = true → Undotted last ts n)
    {w : Text} (hw : w ∈ contextualWords) :
    ts[n]? = some ⟨.ident, w⟩ ↔ us[n]? = some ⟨.ident, w⟩ := by
  induction h generalizing n with
  | nil => rfl
  | @keep last t ts us _ ih =>
      rw [List.forall_mem_cons] at hsolid
      cases n with
      | zero => rfl
      | succ n =>
          refine ih hsolid.2 fun hdots => ?_
          cases n with
          | zero =>
              have hlast : t.seen last = some t.kind := by simp [Token.seen, hsolid.1]
              rw [Undotted, hlast]
              exact hdot hdots t rfl
          | succ n => exact hdot hdots
  | @respell last a b ts us _ _ hfree _ ih =>
      rw [List.forall_mem_cons] at hsolid
      cases n with
      | zero =>
          have hwords : a ∉ contextualWords ∧ b ∉ contextualWords :=
            hfree.resolve_left fun hdotted => by
              have hnot := hdot hdotted.1
              rw [Undotted, hdotted.2] at hnot
              cases hnot
          have ha : a ≠ w := fun heq => hwords.1 (heq ▸ hw)
          have hb : b ≠ w := fun heq => hwords.2 (heq ▸ hw)
          simp [ha, hb]
      | succ n =>
          refine ih hsolid.2 fun hdots => ?_
          cases n with
          | zero => rfl
          | succ n => exact hdot hdots

end Respelt

namespace Draft

theorem wordAt_eq (d : Draft) (n : Nat) (w : String) :
    d.wordAt n w = decide (d.ahead[n]? = some ⟨.ident, w.toList⟩) := by
  rw [Draft.wordAt, kindAt_eq, textAt_eq]
  cases d.ahead[n]? with
  | none => simp
  | some t =>
      obtain ⟨k, x⟩ := t
      simp

/-- Drafts that differ only in how names are spelt and in what follows from it. -/
structure Twin (dots : Bool) (d e : Draft) : Prop where
  ahead : Respelt dots d.lastKind? d.ahead e.ahead
  solid : ∀ t ∈ d.ahead, t.isTrivia = false
  gaps : d.rest.map (fun l => l.gap.blur) = e.rest.map fun l => l.gap.blur
  last : d.last.blur = e.last.blur
  trees : d.trees.map (Tree.map Token.blur) = e.trees.map (Tree.map Token.blur)
  causes : d.problems.map Problem.cause = e.problems.map Problem.cause

namespace Twin

variable {dots : Bool} {d e : Draft}

/-! ## looking ahead -/

theorem length (h : Twin dots d e) : d.rest.length = e.rest.length := by
  simpa using congrArg List.length h.gaps

theorem ended (h : Twin dots d e) : d.ended = e.ended := by
  rw [Bool.eq_iff_iff]
  simp only [Draft.ended, List.isEmpty_iff, ← List.length_eq_zero_iff, h.length]

theorem kindAt (h : Twin dots d e) (n : Nat) : d.kindAt n = e.kindAt n := by
  have hn : d.ahead[n]?.map Token.kind = e.ahead[n]?.map Token.kind := by
    rw [← List.getElem?_map, ← List.getElem?_map, h.ahead.kinds_eq]
  rw [kindAt_eq, kindAt_eq]
  cases hd : d.ahead[n]? <;> cases he : e.ahead[n]? <;> simp_all

theorem newlineAt (h : Twin dots d e) (n : Nat) : d.newlineAt n = e.newlineAt n := by
  have hlast : d.last.newline = e.last.newline :=
    show d.last.blur.newline = e.last.blur.newline from congrArg Gap.newline h.last
  have hn : d.rest[n]?.map (fun l => l.gap.newline) = e.rest[n]?.map fun l => l.gap.newline := by
    have hgaps := congrArg (fun gs => (gs.map Gap.newline)[n]?) h.gaps
    simpa [Function.comp_def, Gap.blur] using hgaps
  rw [Draft.newlineAt, Draft.newlineAt]
  cases hd : d.rest[n]? <;> cases he : e.rest[n]? <;> simp_all

theorem textAt (h : Twin dots d e) {n : Nat} (hk : d.kindAt n ≠ .ident) :
    d.textAt n = e.textAt n := by
  rw [textAt_eq, textAt_eq, h.ahead.getElem?_eq fun t ht hident => hk ?_]
  rw [kindAt_eq, ht]
  exact hident

/-- Words that mean something of their own are seen alike, but after a dot. -/
theorem wordAt (h : Twin dots d e) {n : Nat}
    (hdot : dots = true → Respelt.Undotted d.lastKind? d.ahead n) {w : String}
    (hw : w.toList ∈ contextualWords) : d.wordAt n w = e.wordAt n w := by
  rw [wordAt_eq, wordAt_eq, decide_eq_decide]
  exact h.ahead.getElem?_eq_word_iff h.solid hdot hw

theorem kind (h : Twin dots d e) : d.kind = e.kind := h.kindAt 0

theorem sees (h : Twin dots d e) (k : TokenKind) : d.sees k = e.sees k := by
  rw [Draft.sees, Draft.sees, h.ended, h.kind]

theorem seesAny (h : Twin dots d e) (ks : List TokenKind) : d.seesAny ks = e.seesAny ks := by
  rw [Draft.seesAny, Draft.seesAny, funext h.sees]

theorem afterGroup (h : Twin dots d e) (n : Nat) : d.afterGroup n = e.afterGroup n := by
  rw [Draft.afterGroup, Draft.afterGroup]
  congr 1
  apply groupLength_congr
  have hkinds : (d.rest.map Lexeme.token).map Token.kind =
      (e.rest.map Lexeme.token).map Token.kind := h.ahead.kinds_eq
  rw [List.map_drop, List.map_drop, List.map_drop, List.map_drop, hkinds]

/-! ## small steps -/

/-- Twins have the next token in common, but for its spelling. -/
theorem rest_cases (h : Twin dots d e) :
    d.rest = [] ∧ e.rest = [] ∨
      ∃ l ls m ms, d.rest = l :: ls ∧ e.rest = m :: ms ∧ l.gap.blur = m.gap.blur ∧
        l.token.blur = m.token.blur ∧
        ls.map (fun l => l.gap.blur) = ms.map (fun l => l.gap.blur) ∧
        Respelt dots (l.token.seen d.lastKind?) (ls.map Lexeme.token) (ms.map Lexeme.token) := by
  have hahead := h.ahead
  have hgaps := h.gaps
  rw [Draft.ahead, Draft.ahead] at hahead
  cases hd : d.rest with
  | nil =>
      rw [hd, List.map_nil, eq_comm, List.map_eq_nil_iff] at hgaps
      exact Or.inl ⟨rfl, hgaps⟩
  | cons l ls =>
      rw [hd, List.map_cons, eq_comm, List.map_eq_cons_iff] at hgaps
      obtain ⟨m, ms, he, hgap, hgaps⟩ := hgaps
      rw [hd, he, List.map_cons, List.map_cons] at hahead
      refine Or.inr ⟨l, ls, m, ms, rfl, he, hgap.symm, ?_, hgaps.symm, ?_⟩
      · generalize l.token = t at hahead
        generalize m.token = u at hahead
        cases hahead <;> rfl
      · generalize l.token = t at hahead
        generalize m.token = u at hahead
        cases hahead with
        | keep _ rest => exact rest
        | respell _ _ _ rest => exact rest

theorem trees_place_eq {ts us : List Token}
    (h : d.trees.map (Tree.map Token.blur) = e.trees.map (Tree.map Token.blur))
    (htokens : ts.map Token.blur = us.map Token.blur) :
    (d.place ts).trees.map (Tree.map Token.blur) =
      (e.place us).trees.map (Tree.map Token.blur) := by
  have hleaf (ts : List Token) :
      (ts.map Tree.leaf).reverse.map (Tree.map Token.blur) =
        ((ts.map Token.blur).map Tree.leaf).reverse := by
    rw [List.map_reverse, List.map_map, List.map_map]
    rfl
  rw [trees_place, trees_place, List.map_append, List.map_append, hleaf, hleaf, htokens, h]

theorem placeTrivia (h : Twin dots d e) : Twin dots d.placeTrivia e.placeTrivia where
  ahead := by
    rw [lastKind?_placeTrivia, ahead_placeTrivia, ahead_placeTrivia]
    exact h.ahead
  solid := by
    rw [ahead_placeTrivia]
    exact h.solid
  gaps := by
    rcases h.rest_cases with ⟨hd, he⟩ | ⟨l, ls, m, ms, hd, he, hgap, -, hgaps, -⟩
    · rw [placeTrivia_nil hd, placeTrivia_nil he]
      exact h.gaps
    · have hplaced : l.gap.placed.blur = m.gap.placed.blur := congrArg Gap.placed hgap
      rw [placeTrivia_cons hd, placeTrivia_cons he]
      simp [hplaced, hgaps]
  last := by
    rcases h.rest_cases with ⟨hd, he⟩ | ⟨l, ls, m, ms, hd, he, -⟩
    · rw [placeTrivia_nil hd, placeTrivia_nil he]
      exact congrArg Gap.placed h.last
    · rw [placeTrivia_cons hd, placeTrivia_cons he]
      exact h.last
  trees := by
    rcases h.rest_cases with ⟨hd, he⟩ | ⟨l, ls, m, ms, hd, he, hgap, -⟩
    · have htrivia : d.last.trivia = e.last.trivia :=
        show d.last.blur.trivia = e.last.blur.trivia from congrArg Gap.trivia h.last
      rw [placeTrivia_nil hd, placeTrivia_nil he, htrivia]
      exact trees_place_eq h.trees rfl
    · have htrivia : l.gap.trivia = m.gap.trivia :=
        show l.gap.blur.trivia = m.gap.blur.trivia from congrArg Gap.trivia hgap
      rw [placeTrivia_cons hd, placeTrivia_cons he, htrivia]
      exact trees_place_eq h.trees rfl
  causes := by simpa using h.causes

theorem take (h : Twin dots d e) : Twin dots d.take e.take := by
  rcases h.rest_cases with ⟨hd, he⟩ | ⟨l, ls, m, ms, hd, he, hgap, htoken, hgaps, hahead⟩
  · rw [Draft.take, Draft.take, hd, he]
    exact h.placeTrivia
  · have htrivia : l.gap.trivia = m.gap.trivia :=
      show l.gap.blur.trivia = m.gap.blur.trivia from congrArg Gap.trivia hgap
    have hlast := lastKind?_take_cons hd
    have hsolid := h.solid
    rw [Draft.ahead, hd, List.map_cons, List.forall_mem_cons] at hsolid
    rw [take_cons hd, take_cons he] at *
    refine ⟨?_, hsolid.2, hgaps, h.last, trees_place_eq h.trees ?_, h.causes⟩
    · rw [hlast]
      exact hahead
    · rw [htrivia, List.map_append, List.map_append, List.map_singleton, List.map_singleton, htoken]

theorem report (h : Twin dots d e) (c : Cause) : Twin dots (d.report c) (e.report c) :=
  { h with causes := by simp [h.causes] }

theorem apart (h : Twin dots d e) : Twin dots d.apart e.apart := { h with trees := rfl }

theorem log (h : Twin dots d e) {s t : Step} (hs : (d.log s).lastKind? = d.lastKind?) :
    Twin dots (d.log s) (e.log t) :=
  { h with ahead := hs ▸ h.ahead }

theorem wrap (h : Twin dots d e) (k : NodeKind) : Twin dots (d.wrap k) (e.wrap k) :=
  { h with trees := by simp [Tree.map, Tree.mapAll_eq, List.map_reverse, h.trees] }

theorem rejoin (h : Twin dots d e) {d' e' : Draft} (h' : Twin dots d' e') :
    Twin dots (d.rejoin d') (e.rejoin e') :=
  { h with trees := by simp [h.trees, h'.trees] }

end Twin

end Draft

end FreeNames
