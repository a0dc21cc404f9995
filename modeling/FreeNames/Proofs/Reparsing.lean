import FreeNames.Analysis
import FreeNames.Proofs.Lossless
import FreeNames.Proofs.Running
import FreeNames.Proofs.Twins

/-!
# FreeNames.Proofs.Reparsing

Names can be spelt otherwise without changing how a text is parsed: twins answer
every test of the rules alike, so the rules make twins of twins.  Hence two texts
whose tokens differ only in how names are spelt have trees of one shape and the
same problems (`twin_ofText`).  A shape and the leaves are all there is to a tree,
so the tree of the one text tells that of the other (`exists_parse_of_shape`).
-/

namespace FreeNames

/-! ## tests -/

namespace Grammar

variable {dots : Bool} {d e : Draft}

theorem arrowAt_eq (h : d.Twin dots e) (n : Nat) :
    seesArrow.arrowAt d n = seesArrow.arrowAt e n := by
  rw [seesArrow.arrowAt, seesArrow.arrowAt, h.kindAt, h.newlineAt]

theorem seesArrow_eq (h : d.Twin dots e)
    (hdot : dots = true → Respelt.Undotted d.lastKind? d.ahead 0) : seesArrow d = seesArrow e := by
  have hasync : d.seesWord "async" = e.seesWord "async" := h.wordAt hdot (by decide)
  unfold seesArrow
  simp only [hasync, h.kindAt, h.newlineAt, h.afterGroup, arrowAt_eq h]

end Grammar

theorem Draft.groupLength_pos (depth : Nat) (l : Lexeme) (ls : List Lexeme) :
    0 < groupLength depth (l :: ls) := by
  rw [groupLength]
  split
  iterate 3 omega
  iterate 3 split <;> omega
  omega

/-- A group ends with a bracket, unless it takes all. -/
theorem Draft.isDot_of_groupLength {depth n : Nat} {ls : List Lexeme}
    (hn : groupLength depth ls = n + 1) (hlt : n + 1 < ls.length) {l : Lexeme}
    (hl : ls[n]? = some l) : l.token.kind.isDot = false := by
  induction ls generalizing depth n with
  | nil => simp at hlt
  | cons m ls ih =>
      have hmore {depth : Nat} (hn : 1 + groupLength depth ls = n + 1) :
          l.token.kind.isDot = false := by
        cases n with
        | zero =>
            cases ls with
            | nil => simp at hlt
            | cons m ls =>
                have hpos := groupLength_pos depth m ls
                omega
        | succ n =>
            have hrest : groupLength depth ls = n + 1 := by omega
            exact ih hrest (by simpa using hlt) hl
      rw [groupLength] at hn
      split at hn
      · exact hmore hn
      · exact hmore hn
      · exact hmore hn
      iterate 3
        next hk =>
          split at hn
          · obtain rfl : n = 0 := by omega
            obtain rfl : m = l := by simpa using hl
            rw [hk]
            rfl
          · exact hmore hn
      · exact hmore hn

/-- The word after a group is seen alike. -/
theorem Draft.Twin.wordAt_afterGroup {dots : Bool} {d e : Draft} (h : d.Twin dots e) {w : String}
    (hw : w.toList ∈ contextualWords) :
    d.wordAt (d.afterGroup 0) w = e.wordAt (e.afterGroup 0) w := by
  rw [← h.afterGroup]
  by_cases hlt : d.afterGroup 0 < d.rest.length
  · refine h.wordAt (fun _ => ?_) hw
    simp only [Draft.afterGroup, List.drop_zero, Nat.zero_add] at hlt ⊢
    cases hn : groupLength 0 d.rest with
    | zero =>
        cases hrest : d.rest with
        | nil => simp [hrest] at hlt
        | cons l ls =>
            have hpos := groupLength_pos 0 l ls
            rw [hrest] at hn
            omega
    | succ n =>
        intro t ht
        rw [Draft.ahead, List.getElem?_map] at ht
        obtain ⟨l, hl, rfl⟩ := Option.map_eq_some_iff.mp ht
        exact isDot_of_groupLength hn (hn ▸ hlt) hl
  · have hnone : d.ahead[d.afterGroup 0]? = none ∧ e.ahead[d.afterGroup 0]? = none := by
      simp only [List.getElem?_eq_none_iff, Draft.ahead, List.length_map, ← h.length]
      omega
    rw [wordAt_eq, wordAt_eq, hnone.1, hnone.2]

/-- No word that a test looks for comes after a dot. -/
def Test.Undotted (d : Draft) : Test → Prop
  | wordAt n _ _ => Respelt.Undotted d.lastKind? d.ahead n
  | arrow => Respelt.Undotted d.lastKind? d.ahead 0
  | not t => t.Undotted d
  | and s t => s.Undotted d ∧ t.Undotted d
  | or s t => s.Undotted d ∧ t.Undotted d
  | _ => True

/-- Twins answer tests alike. -/
theorem Test.holds_twin {dots : Bool} (t : Test) (ctx : Context) {d e : Draft}
    (h : d.Twin dots e) (hdot : dots = true → t.Undotted d) : t.holds ctx d = t.holds ctx e := by
  induction t with
  | ended => exact h.ended
  | sees k => exact h.sees k
  | seesAny ks => exact h.seesAny ks
  | kindAt n p => exact congrArg p (h.kindAt n)
  | newlineAt n => exact h.newlineAt n
  | wordAt n w hw => exact h.wordAt hdot hw
  | backtick =>
      by_cases hk : d.kind = .ident
      · simp [holds, ← h.kind, hk]
      · rw [holds, holds, h.kind, h.textAt hk]
  | arrow => exact Grammar.seesArrow_eq h hdot
  | fromAfter => exact h.wordAt_afterGroup (by decide)
  | context p => rfl
  | given b => rfl
  | not t ih => rw [holds, holds, ih hdot]
  | and s t ihs iht =>
      rw [holds, holds, ihs fun hdots => (hdot hdots).1, iht fun hdots => (hdot hdots).2]
  | or s t ihs iht =>
      rw [holds, holds, ihs fun hdots => (hdot hdots).1, iht fun hdots => (hdot hdots).2]

/-! ## whole texts -/

theorem likeness_twin (dots : Bool) : Likeness (Draft.Twin dots) where
  length h := h.length
  kind h := h.kind
  placeTrivia h := h.placeTrivia
  take h := h.take
  report c h := h.report c
  apart h := h.apart
  start _ h := h.log rfl
  startAt _ h := h.log rfl
  close k h := (h.wrap k).log rfl
  rejoin h h' := h.rejoin h'

theorem twin_lexemesFrom {dots : Bool} {last : Option TokenKind} {g g' : Gap}
    (hg : g.blur = g'.blur) {ts us : List Token} (h : Respelt dots last ts us) :
    Respelt dots last ((lexemesFrom g ts).1.map Lexeme.token)
        ((lexemesFrom g' us).1.map Lexeme.token) ∧
      (∀ t ∈ (lexemesFrom g ts).1.map Lexeme.token, t.isTrivia = false) ∧
      (lexemesFrom g ts).1.map (fun l => l.gap.blur) =
        (lexemesFrom g' us).1.map (fun l => l.gap.blur) ∧
      (lexemesFrom g ts).2.blur = (lexemesFrom g' us).2.blur := by
  induction h generalizing g g' with
  | nil last => exact ⟨.nil last, by simp [lexemesFrom], rfl, hg⟩
  | @keep last t ts us _ ih =>
      rw [lexemesFrom, lexemesFrom]
      by_cases ht : t.isTrivia = true
      · rw [dif_pos ht, dif_pos ht]
        rw [Token.seen, if_pos ht] at ih
        refine ih ?_
        simp only [Gap.blur, Gap.push, Gap.mk.injEq] at hg ⊢
        simp [hg]
      · rw [dif_neg ht, dif_neg ht]
        have hempty : (Gap.empty (g.stop + t.size)).blur =
            (Gap.empty (g'.stop + t.size)).blur := rfl
        obtain ⟨htokens, hsolid, hgaps, hlast⟩ := ih hempty
        exact ⟨.keep t htokens, by simpa [ht] using hsolid, by simp [hg, hgaps], hlast⟩
  | @respell last a b ts us old new hfree _ ih =>
      have htrivia (x : Text) : ¬(⟨.ident, x⟩ : Token).isTrivia = true := Bool.false_ne_true
      have hempty : (Gap.empty (g.stop + (⟨.ident, a⟩ : Token).size)).blur =
          (Gap.empty (g'.stop + (⟨.ident, b⟩ : Token).size)).blur := rfl
      obtain ⟨htokens, hsolid, hgaps, hlast⟩ := ih hempty
      rw [lexemesFrom, lexemesFrom, dif_neg (htrivia a), dif_neg (htrivia b)]
      refine ⟨.respell old new hfree htokens, ?_, by simp [hg, hgaps], hlast⟩
      rw [List.map_cons, List.forall_mem_cons]
      exact ⟨rfl, hsolid⟩

/-- Tokens that differ only in how names are spelt make drafts that do. -/
theorem twin_ofTokens {dots : Bool} {ts us : List Token} (h : Respelt dots none ts us) :
    (Draft.ofTokens ts).Twin dots (Draft.ofTokens us) := by
  obtain ⟨htokens, hsolid, hgaps, hlast⟩ :=
    twin_lexemesFrom (rfl : (Gap.empty 0).blur = (Gap.empty 0).blur) h
  exact ⟨htokens, hsolid, hgaps, hlast, rfl, rfl⟩

theorem twin_ofText {source : SourceType} {text text' : Text}
    (h : Respelt false none (tokenize text) (tokenize text')) :
    (Draft.ofText source text).Twin false (Draft.ofText source text') :=
  (likeness_twin false).ofText (fun t ctx _ _ h => t.holds_twin ctx h nofun) source
    (twin_ofTokens h)

/-! ## trees of one shape -/

namespace Tree

mutual

theorem tokens_map (f : Token → Token) : (t : Tree) → (t.map f).tokens = t.tokens.map f
  | .leaf _ => by simp [map]
  | .node _ parts => by simp [map, tokensAll_mapAll f parts]

theorem tokensAll_mapAll (f : Token → Token) :
    (ts : List Tree) → tokensAll (mapAll f ts) = (tokensAll ts).map f
  | [] => by simp [mapAll]
  | t :: ts => by simp [mapAll, tokens_map f t, tokensAll_mapAll f ts]

end

mutual

theorem eq_of_map_eq {f : Token → Token} :
    (s t : Tree) → s.map f = t.map f → s.tokens = t.tokens → s = t
  | .leaf s, .leaf t, _, htokens => by simpa using htokens
  | .leaf s, .node k qs, hmap, _ => by simp [map] at hmap
  | .node j ps, .leaf t, hmap, _ => by simp [map] at hmap
  | .node j ps, .node k qs, hmap, htokens => by
      simp only [map, node.injEq] at hmap
      rw [hmap.1, eq_of_mapAll_eq ps qs hmap.2 (by simpa using htokens)]

/-- A shape and the leaves are all there is to trees. -/
theorem eq_of_mapAll_eq {f : Token → Token} :
    (ss ts : List Tree) → mapAll f ss = mapAll f ts → tokensAll ss = tokensAll ts → ss = ts
  | [], [], _, _ => rfl
  | [], t :: ts, hmap, _ => by simp [mapAll] at hmap
  | s :: ss, [], hmap, _ => by simp [mapAll] at hmap
  | s :: ss, t :: ts, hmap, htokens => by
      simp only [mapAll, List.cons.injEq] at hmap
      have hlength : s.tokens.length = t.tokens.length := by
        simpa [tokens_map] using congrArg (fun t => t.tokens.length) hmap.1
      simp only [tokensAll_cons] at htokens
      obtain ⟨hfirst, hrest⟩ := List.append_inj htokens hlength
      rw [eq_of_map_eq s t hmap.1 hfirst, eq_of_mapAll_eq ss ts hmap.2 hrest]

end

end Tree

theorem parse_of_respelt {text text' : Text}
    (h : Respelt false none (tokenize text) (tokenize text')) (source : SourceType) :
    Tree.mapAll Token.blur (parse source text).parts =
        Tree.mapAll Token.blur (parse source text').parts ∧
      (parse source text).problems.map Problem.cause =
        (parse source text').problems.map Problem.cause := by
  have htwin : (Draft.ofText source text).Twin false (Draft.ofText source text') := twin_ofText h
  simp [parse, Tree.mapAll_eq, htwin.trees, htwin.causes]

theorem parseEither_of_respelt {text text' : Text}
    (h : Respelt false none (tokenize text) (tokenize text')) (source : SourceType) :
    ∃ source', parseEither source text = parse source' text ∧
      parseEither source text' = parse source' text' := by
  have hneeds : (parse source text).needsModule = (parse source text').needsModule := by
    have hcauses := congrArg (List.any · fun cause => cause = .moduleOnly)
      (parse_of_respelt h source).2
    simpa [Parse.needsModule, List.any_map, Function.comp_def] using hcauses
  simp only [parseEither, hneeds]
  split
  · exact ⟨.module, rfl, rfl⟩
  · exact ⟨source, rfl, rfl⟩

/-- A text whose tokens differ only in how names are spelt from those of a text
without problems has no problems either.  Its tree is the one that has the shape
of the other tree and the tokens of the text. -/
theorem exists_parse_of_shape {source : SourceType} {text text' : Text} {p : Parse}
    {parts : List Tree} (h : Respelt false none (tokenize text) (tokenize text'))
    (hp : parseProgram source text = .ok p)
    (hshape : Tree.mapAll Token.blur p.parts = Tree.mapAll Token.blur parts)
    (htokens : Tree.tokensAll parts = tokenize text') :
    ∃ p', parseProgram source text' = .ok p' ∧ p'.parts = parts := by
  obtain ⟨source', heither, heither'⟩ := parseEither_of_respelt h source
  obtain ⟨hparts, hcauses⟩ := parse_of_respelt h source'
  obtain ⟨rfl, hnone⟩ := parseProgram_eq_ok_iff.mp hp
  rw [heither] at hnone hshape
  rw [hnone, List.map_nil, eq_comm, List.map_eq_nil_iff, ← heither'] at hcauses
  refine ⟨parse source' text', parseProgram_eq_ok_iff.mpr ⟨heither'.symm, hcauses⟩, ?_⟩
  refine Tree.eq_of_mapAll_eq _ _ (hparts.symm.trans hshape) ?_
  rw [htokens]
  exact Draft.tokensAll_ofText source' text'

end FreeNames
