import FreeNames.Proofs.FreshName

/-!
# FreeNames.Proofs.Trivia

White space and comments do not count, but for the line breaks in them.  Take two
texts that have the same tokens but for trivia, and breaks of line before the same
ones of them (`lineBreaks`).

* Their drafts see the same ahead, and hold the same trees when trivia is left out
  (`Draft.Akin`); every test of the rules has the same answer on both.  So the trees
  of the texts are the same without trivia, and so are the problems
  (`akin_ofText`).
* Leaving trivia out carries the nodes of a tree to those of the tree without
  (`carriesGlobals_solid`).  No node around a reference gets confused with another,
  because it has a token of its own place.  So both texts have the globals of the one
  tree that is left.

Main statement: `parse_ignores_trivia`.
-/

namespace FreeNames

/-! ## trees without trivia -/

/-- Tokens without the trivia among them. -/
def Token.solid (ts : List Token) : List Token := ts.filter fun t => !t.isTrivia

namespace Tree

mutual

/-- A tree without the trivia in it; nothing, if it is trivia itself. -/
def solid : Tree → List Tree
  | .leaf t => if t.isTrivia then [] else [.leaf t]
  | .node kind parts => [.node kind (solidAll parts)]

/-- Trees in a row without the trivia among and in them. -/
def solidAll : List Tree → List Tree
  | [] => []
  | t :: ts => t.solid ++ solidAll ts

end

@[simp] theorem solidAll_append (ss ts : List Tree) :
    solidAll (ss ++ ts) = solidAll ss ++ solidAll ts := by
  induction ss with
  | nil => simp [solidAll]
  | cons s ss ih => simp [solidAll, ih]

theorem solidAll_reverse (ts : List Tree) : solidAll ts.reverse = (solidAll ts).reverse := by
  have hsolid (t : Tree) : t.solid.reverse = t.solid := by
    cases t with
    | leaf t => by_cases ht : t.isTrivia <;> simp [solid, ht]
    | node k ps => simp [solid]
  induction ts with
  | nil => simp [solidAll]
  | cons t ts ih => simp [solidAll, ih, hsolid]

theorem solidAll_trivia {ts : List Token} (h : ∀ t ∈ ts, t.isTrivia = true) :
    solidAll (ts.map leaf) = [] := by
  induction ts with
  | nil => simp [solidAll]
  | cons t ts ih =>
      rw [List.forall_mem_cons] at h
      simp [solidAll, solid, h.1, ih h.2]

mutual

theorem tokensAll_solid : (t : Tree) → tokensAll t.solid = Token.solid t.tokens
  | .leaf t => by by_cases ht : t.isTrivia <;> simp [solid, Token.solid, ht]
  | .node _ parts => by simp [solid, tokensAll_solidAll parts]

theorem tokensAll_solidAll : (ts : List Tree) →
    tokensAll (solidAll ts) = Token.solid (tokensAll ts)
  | [] => by simp [solidAll, Token.solid]
  | t :: ts => by
      simp [solidAll, tokensAll_solid t, tokensAll_solidAll ts, Token.solid]

end

end Tree

/-! ## drafts that differ in trivia -/

/-- For each token that is not trivia, and for the end, whether a line ends in the
trivia before it.  Some trivia has been read already, with a line break or without. -/
def lineBreaks (broken : Bool) : List Token → List Bool
  | [] => [broken]
  | t :: ts =>
    if t.isTrivia then lineBreaks (broken || t.hasLineBreak) ts
    else broken :: lineBreaks false ts

namespace Draft

/-- Drafts that differ only in trivia and in what follows from it. -/
structure Akin (d e : Draft) : Prop where
  ahead : d.ahead = e.ahead
  newlines : d.rest.map (fun l => l.gap.newline) = e.rest.map fun l => l.gap.newline
  last : d.last.newline = e.last.newline
  trees : Tree.solidAll d.trees = Tree.solidAll e.trees
  causes : d.problems.map Problem.cause = e.problems.map Problem.cause

namespace Akin

variable {d e : Draft}

/-! ### looking ahead -/

theorem length (h : Akin d e) : d.rest.length = e.rest.length := by
  simpa [Draft.ahead] using congrArg List.length h.ahead

theorem ended (h : Akin d e) : d.ended = e.ended := by
  rw [Bool.eq_iff_iff]
  simp only [Draft.ended, List.isEmpty_iff, ← List.length_eq_zero_iff, h.length]

theorem kindAt (h : Akin d e) (n : Nat) : d.kindAt n = e.kindAt n := by
  rw [kindAt_eq, kindAt_eq, h.ahead]

theorem textAt (h : Akin d e) (n : Nat) : d.textAt n = e.textAt n := by
  rw [textAt_eq, textAt_eq, h.ahead]

theorem kind (h : Akin d e) : d.kind = e.kind := h.kindAt 0

theorem newlineAt (h : Akin d e) (n : Nat) : d.newlineAt n = e.newlineAt n := by
  have hn := congrArg (fun breaks => breaks[n]?) h.newlines
  simp only [List.getElem?_map] at hn
  rw [Draft.newlineAt, Draft.newlineAt]
  cases hd : d.rest[n]? <;> cases he : e.rest[n]? <;> simp_all [h.last]

theorem sees (h : Akin d e) (k : TokenKind) : d.sees k = e.sees k := by
  rw [Draft.sees, Draft.sees, h.ended, h.kind]

theorem wordAt (h : Akin d e) (n : Nat) (w : String) : d.wordAt n w = e.wordAt n w := by
  rw [Draft.wordAt, Draft.wordAt, h.kindAt, h.textAt]

theorem afterGroup (h : Akin d e) (n : Nat) : d.afterGroup n = e.afterGroup n := by
  have htokens : d.rest.map Lexeme.token = e.rest.map Lexeme.token := h.ahead
  rw [Draft.afterGroup, Draft.afterGroup]
  congr 1
  apply groupLength_congr
  rw [List.map_drop, List.map_drop, List.map_drop, List.map_drop, htokens]

theorem seesArrow (h : Akin d e) : Grammar.seesArrow d = Grammar.seesArrow e := by
  have hasync : d.seesWord "async" = e.seesWord "async" := h.wordAt 0 _
  have harrow (n : Nat) : Grammar.seesArrow.arrowAt d n = Grammar.seesArrow.arrowAt e n := by
    rw [Grammar.seesArrow.arrowAt, Grammar.seesArrow.arrowAt, h.kindAt, h.newlineAt]
  unfold Grammar.seesArrow
  simp only [hasync, h.kindAt, h.newlineAt, h.afterGroup, harrow]

/-- No test of the rules sees trivia. -/
theorem holds (t : Test) (ctx : Context) (h : Akin d e) : t.holds ctx d = t.holds ctx e := by
  induction t with
  | ended => exact h.ended
  | sees k => exact h.sees k
  | seesAny ks =>
      show d.seesAny ks = e.seesAny ks
      rw [Draft.seesAny, Draft.seesAny, funext h.sees]
  | kindAt n p => exact congrArg p (h.kindAt n)
  | newlineAt n => exact h.newlineAt n
  | wordAt n w hw => exact h.wordAt n w
  | backtick => rw [Test.holds, Test.holds, h.kind, h.textAt]
  | arrow => exact h.seesArrow
  | fromAfter =>
      show d.wordAt (d.afterGroup 0) "from" = e.wordAt (e.afterGroup 0) "from"
      rw [h.afterGroup, h.wordAt]
  | context p => rfl
  | given b => rfl
  | not t ih => rw [Test.holds, Test.holds, ih]
  | and s t ihs iht => rw [Test.holds, Test.holds, ihs, iht]
  | or s t ihs iht => rw [Test.holds, Test.holds, ihs, iht]

/-! ### small steps -/

theorem solidAll_place (d : Draft) (ts : List Token) :
    Tree.solidAll (d.place ts).trees =
      (Tree.solidAll (ts.map Tree.leaf)).reverse ++ Tree.solidAll d.trees := by
  rw [trees_place, Tree.solidAll_append, Tree.solidAll_reverse]

theorem solidAll_placeTrivia (d : Draft) :
    Tree.solidAll d.placeTrivia.trees = Tree.solidAll d.trees := by
  cases h : d.rest with
  | nil =>
      rw [placeTrivia_nil h, solidAll_place, Tree.solidAll_trivia d.last.onlyTrivia]
      rfl
  | cons l ls =>
      rw [placeTrivia_cons h, solidAll_place, Tree.solidAll_trivia l.gap.onlyTrivia]
      rfl

theorem newlines_placeTrivia (d : Draft) :
    d.placeTrivia.rest.map (fun l => l.gap.newline) = d.rest.map (fun l => l.gap.newline) ∧
      d.placeTrivia.last.newline = d.last.newline := by
  cases h : d.rest with
  | nil => simp [placeTrivia_nil h, h]
  | cons l ls => simp [placeTrivia_cons h]

theorem placeTrivia (h : Akin d e) : Akin d.placeTrivia e.placeTrivia where
  ahead := by rw [ahead_placeTrivia, ahead_placeTrivia, h.ahead]
  newlines := by rw [(newlines_placeTrivia d).1, (newlines_placeTrivia e).1, h.newlines]
  last := by rw [(newlines_placeTrivia d).2, (newlines_placeTrivia e).2, h.last]
  trees := by rw [solidAll_placeTrivia, solidAll_placeTrivia, h.trees]
  causes := by simpa using h.causes

theorem take (h : Akin d e) : Akin d.take e.take := by
  have hahead := h.ahead
  have hnewlines := h.newlines
  rw [Draft.ahead, Draft.ahead] at hahead
  cases hd : d.rest with
  | nil =>
      have he : e.rest = [] := by
        rwa [hd, List.map_nil, eq_comm, List.map_eq_nil_iff] at hahead
      rw [Draft.take, Draft.take, hd, he]
      exact h.placeTrivia
  | cons l ls =>
      cases he : e.rest with
      | nil => simp [hd, he] at hahead
      | cons m ms =>
          simp only [hd, he, List.map_cons, List.cons.injEq] at hahead hnewlines
          have hplaced (g : Gap) (t : Token) :
              Tree.solidAll ((g.trivia ++ [t]).map Tree.leaf) =
                Tree.solidAll ([t].map Tree.leaf) := by
            rw [List.map_append, Tree.solidAll_append, Tree.solidAll_trivia g.onlyTrivia,
              List.nil_append]
          rw [take_cons hd, take_cons he]
          refine ⟨hahead.2, hnewlines.2, h.last, ?_, h.causes⟩
          rw [solidAll_place, solidAll_place, hplaced, hplaced, hahead.1]
          exact congrArg _ h.trees

theorem wrap (h : Akin d e) (k : NodeKind) : Akin (d.wrap k) (e.wrap k) :=
  { h with trees := by simp [Tree.solidAll, Tree.solid, Tree.solidAll_reverse, h.trees] }

end Akin

theorem likeness_akin : Likeness Akin where
  length h := h.length
  kind h := h.kind
  placeTrivia h := h.placeTrivia
  take h := h.take
  report c h := { h with causes := by simp [h.causes] }
  apart h := { h with trees := rfl }
  start _ h := { h with }
  startAt _ h := { h with }
  close k h := { h.wrap k with }
  rejoin h h' := { h with trees := by simp [h.trees, h'.trees] }

end Draft

/-! ## texts that differ in trivia -/

theorem lexemesFrom_solid (g : Gap) (ts : List Token) :
    (lexemesFrom g ts).1.map Lexeme.token = Token.solid ts ∧
      ((lexemesFrom g ts).1.map fun l => l.gap.newline) ++ [(lexemesFrom g ts).2.newline] =
        lineBreaks g.newline ts := by
  induction ts generalizing g with
  | nil => simp [lexemesFrom, Token.solid, lineBreaks]
  | cons t ts ih =>
      rw [lexemesFrom]
      by_cases ht : t.isTrivia = true
      · simp only [dif_pos ht, ih]
        simp [Token.solid, lineBreaks, ht, Gap.push]
      · rw [dif_neg ht]
        obtain ⟨htokens, hbreaks⟩ := ih (.empty (g.stop + t.size))
        simp only [List.map_cons, htokens, List.cons_append, hbreaks]
        simp [Token.solid, lineBreaks, ht, Gap.empty]

theorem akin_ofTokens {ts us : List Token} (hsolid : Token.solid ts = Token.solid us)
    (hbreaks : lineBreaks false ts = lineBreaks false us) :
    (Draft.ofTokens ts).Akin (Draft.ofTokens us) := by
  obtain ⟨htokens, hnewlines⟩ := lexemesFrom_solid (.empty 0) ts
  obtain ⟨htokens', hnewlines'⟩ := lexemesFrom_solid (.empty 0) us
  have hboth := List.append_inj' (hnewlines.trans (hbreaks.trans hnewlines'.symm)) rfl
  exact ⟨htokens.trans (hsolid.trans htokens'.symm), hboth.1, List.singleton_inj.mp hboth.2,
    rfl, rfl⟩

theorem akin_ofText (source : SourceType) {text text' : Text}
    (hsolid : Token.solid (tokenize text) = Token.solid (tokenize text'))
    (hbreaks : lineBreaks false (tokenize text) = lineBreaks false (tokenize text')) :
    (Draft.ofText source text).Akin (Draft.ofText source text') :=
  Draft.likeness_akin.ofText (fun t ctx _ _ h => h.holds t ctx) source
    (akin_ofTokens hsolid hbreaks)

/-! ## offsets without trivia -/

/-- Where an offset is when trivia is left out: the bytes of the tokens that start
before it and are not trivia. -/
def solidOffset (ts : List Token) (offset : Nat) : Nat :=
  Token.sizeAll
    (((Token.locate 0 ts).filter fun p => p.1 < offset && !p.2.isTrivia).map Prod.snd)

theorem Token.solid_append (ss ts : List Token) : solid (ss ++ ts) = solid ss ++ solid ts :=
  List.filter_append ..

theorem solidOffset_eq {ts before after : List Token} (hne : ∀ t ∈ ts, t.text ≠ [])
    (hts : ts = before ++ after) :
    solidOffset ts (Token.sizeAll before) = Token.sizeAll (Token.solid before) := by
  subst hts
  have hbefore : (Token.locate 0 before).filter
        (fun p => p.1 < Token.sizeAll before && !p.2.isTrivia) =
      (Token.locate 0 before).filter fun p => !p.2.isTrivia := by
    refine List.filter_congr fun p hp => ?_
    obtain ⟨ss, us, hsplit, hstart⟩ := Token.mem_locate_iff.mp hp
    have hpos := Token.size_pos (hne p.2 (by simp [hsplit]))
    have hlt : p.1 < Token.sizeAll before := by
      rw [hsplit, hstart, Token.sizeAll_append, Token.sizeAll_cons]
      omega
    rw [decide_eq_true hlt, Bool.true_and]
  have hafter : (Token.locate (0 + Token.sizeAll before) after).filter
      (fun p => p.1 < Token.sizeAll before && !p.2.isTrivia) = [] := by
    refine List.filter_eq_nil_iff.mpr fun p hp => ?_
    have hle := Token.le_of_mem_locate hp
    simp only [Bool.and_eq_true, decide_eq_true_eq, not_and]
    omega
  have hsolid : ((Token.locate 0 before).filter fun p => !p.2.isTrivia).map Prod.snd =
      Token.solid before := by
    conv => rhs; rw [Token.solid, ← Token.map_snd_locate 0 before, List.filter_map]
    rfl
  rw [solidOffset, Token.locate_append, List.filter_append, hbefore, hafter, List.append_nil,
    hsolid]

theorem Token.eq_nil_of_sizeAll_solid {t t' : Token} {between ts ts' : List Token}
    (ht : t.isTrivia = false) (hne : t.text ≠ []) (hsplit : t :: ts = between ++ t' :: ts')
    (hsize : sizeAll (solid between) = 0) : between = [] := by
  cases between with
  | nil => rfl
  | cons u between =>
      obtain ⟨rfl, -⟩ := List.cons.inj hsplit
      have hpos := size_pos hne
      simp only [solid, List.filter_cons, ht, Bool.not_false, if_true, sizeAll_cons] at hsize
      omega

/-- What is not trivia starts at different offsets when trivia is left out. -/
theorem eq_of_solidOffset_eq {ts : List Token} (hne : ∀ t ∈ ts, t.text ≠ []) {o o' : Nat}
    {t t' : Token} (h : (o, t) ∈ Token.locate 0 ts) (h' : (o', t') ∈ Token.locate 0 ts)
    (ht : t.isTrivia = false) (ht' : t'.isTrivia = false)
    (heq : solidOffset ts o = solidOffset ts o') : o = o' := by
  obtain ⟨before, after, hts, rfl⟩ := Token.mem_locate_iff.mp h
  obtain ⟨before', after', hts', rfl⟩ := Token.mem_locate_iff.mp h'
  rw [Nat.zero_add, Nat.zero_add, solidOffset_eq hne hts, solidOffset_eq hne hts'] at heq
  -- the one of the two that comes first would stand between the offsets
  rcases List.append_eq_append_iff.mp (hts.symm.trans hts') with
    ⟨between, rfl, hsplit⟩ | ⟨between, rfl, hsplit⟩
  · rw [Token.solid_append, Token.sizeAll_append] at heq
    rw [Token.eq_nil_of_sizeAll_solid ht (hne t (by simp [hts])) hsplit (by omega),
      List.append_nil]
  · rw [Token.solid_append, Token.sizeAll_append] at heq
    rw [Token.eq_nil_of_sizeAll_solid ht' (hne t' (by simp [hts'])) hsplit (by omega),
      List.append_nil]

/-! ## nodes without trivia -/

namespace Node

/-- A node without the trivia in it, where it stands when trivia is left out. -/
def solid (ts : List Token) (n : Node) : Node :=
  ⟨solidOffset ts n.start, n.kind, Tree.solidAll n.parts⟩

@[simp] theorem kind_solid (ts : List Token) (n : Node) : (n.solid ts).kind = n.kind := rfl

theorem word_solid (ts : List Token) (n : Node) : (n.solid ts).word = n.word := by
  have hfirst : (n.solid ts).firstToken? = n.firstToken? := by
    rw [firstToken?, firstToken?, solid]
    generalize n.parts = parts
    induction parts with
    | nil => simp [Tree.solidAll]
    | cons p parts ih =>
        cases p with
        | leaf t =>
            by_cases ht : t.isTrivia
            · simp [Tree.solidAll, Tree.solid, ht, ih]
            · simp [Tree.solidAll, Tree.solid, ht]
        | node k ps => simp [Tree.solidAll, Tree.solid, ih]
  rw [word, word, hfirst]

variable {ts : List Token} (hne : ∀ t ∈ ts, t.text ≠ [])

include hne

theorem span_solid {n : Node} (h : n.Stands 0 ts) :
    (n.solid ts).span = n.span.map (solidOffset ts) := by
  obtain ⟨before, after, hts, hstart⟩ := h
  rw [Nat.zero_add] at hstart
  have hstop : ts = (before ++ Tree.tokensAll n.parts) ++ after := by
    rw [hts, List.append_assoc]
  have hsize := solidOffset_eq hne hstop
  rw [Token.sizeAll_append, Token.solid_append, Token.sizeAll_append] at hsize
  simp only [span, solid, Span.map, Tree.sizeAll_eq, Tree.tokensAll_solidAll, hstart, hsize,
    solidOffset_eq hne hts]

theorem among_solidAll {after : List Token} : (parts : List Tree) → (before : List Token) →
    ts = before ++ (Tree.tokensAll parts ++ after) →
    among (Token.sizeAll (Token.solid before)) (Tree.solidAll parts) =
      (among (Token.sizeAll before) parts).map (solid ts)
  | [], _, _ => by simp [Tree.solidAll, among]
  | .leaf t :: parts, before, hts => by
      have ih := among_solidAll parts (before ++ [t]) (by simpa using hts)
      rw [Token.solid_append, Token.sizeAll_append, Token.sizeAll_append] at ih
      by_cases ht : t.isTrivia
      · simpa [Token.solid, Tree.solidAll, Tree.solid, among, ht] using ih
      · simpa [Token.solid, Tree.solidAll, Tree.solid, among, ht] using ih
  | .node k ps :: parts, before, hts => by
      have ih := among_solidAll parts (before ++ Tree.tokensAll ps) (by simpa using hts)
      rw [Token.solid_append, Token.sizeAll_append, Token.sizeAll_append,
        ← Tree.tokensAll_solidAll, ← Tree.sizeAll_eq, ← Tree.sizeAll_eq] at ih
      simp only [Tree.solidAll, Tree.solid, List.singleton_append, among, List.map_cons, ih,
        List.cons.injEq, and_true]
      rw [solid, solidOffset_eq hne hts]

/-- Leaving trivia out carries a tree. -/
theorem carries_solid {root : Node} (hroot : root.Stands 0 ts) : Carries (solid ts) root where
  kind _ := rfl
  children n hn := by
    obtain ⟨before, after, hts, hstart⟩ := hn.stands hroot
    rw [Nat.zero_add] at hstart
    rw [children, children, solid, hstart, solidOffset_eq hne hts]
    exact among_solidAll hne n.parts before hts

/-- The first token of a node that is not trivia is where the node starts when
trivia is left out. -/
theorem exists_first_solid {n : Node} (h : n.Stands 0 ts) {t : Token} {us : List Token}
    (hsolid : Token.solid (Tree.tokensAll n.parts) = t :: us) :
    t.isTrivia = false ∧ ∃ o, (o, t) ∈ Token.locate n.start (Tree.tokensAll n.parts) ∧
      (o, t) ∈ Token.locate 0 ts ∧ solidOffset ts o = solidOffset ts n.start := by
  obtain ⟨trivia, rest, htokens, htrivia, ht, -⟩ := List.filter_eq_cons_iff.mp hsolid
  obtain ⟨before, after, hts, hstart⟩ := h
  rw [Nat.zero_add] at hstart
  have hsplit : ts = (before ++ trivia) ++ t :: (rest ++ after) := by simp [hts, htokens]
  have hnone : Token.solid trivia = [] := List.filter_eq_nil_iff.mpr htrivia
  have hoffset : solidOffset ts (n.start + Token.sizeAll trivia) = solidOffset ts n.start := by
    rw [hstart, ← Token.sizeAll_append, solidOffset_eq hne hsplit, solidOffset_eq hne hts,
      Token.solid_append, hnone, List.append_nil]
  refine ⟨by simpa using ht, n.start + Token.sizeAll trivia, ?_, ?_, hoffset⟩
  · exact Token.mem_locate_iff.mpr ⟨trivia, rest, htokens, rfl⟩
  · exact Token.mem_locate_iff.mpr
      ⟨before ++ trivia, rest ++ after, hsplit, by rw [hstart, Token.sizeAll_append]; omega⟩

end Node

/-! ## globals without trivia -/

section

variable {source : SourceType} {text : Text}

/-- A node around a reference has a token of its own place, so no other node is
carried to the same node. -/
theorem eq_of_solid_eq {n m : Node} (hn : (parse source text).root.Leads n)
    (hm : Node.Within (parse source text).root.node m)
    (heq : m.solid (tokenize text) = n.solid (tokenize text)) : m = n := by
  have hne : ∀ t ∈ tokenize text, t.text ≠ [] := fun t ht => text_ne_nil_of_mem_tokenize ht
  obtain ⟨s, hs, hrefers, hmem⟩ := hn
  -- the node as a site around the reference
  obtain ⟨outer, hroot, hinside⟩ :
      ∃ outer, (parse source text).root.Reaches ⟨n, outer⟩ ∧ Site.Reaches ⟨n, outer⟩ s := by
    rcases List.mem_cons.mp hmem with rfl | hmem
    · exact ⟨s.above, hs, .refl⟩
    · obtain ⟨inner, outer, habove⟩ := List.append_of_mem hmem
      exact ⟨outer, hs.of_above rfl habove⟩
  obtain ⟨sm, hsm, rfl⟩ := Site.exists_reaches hm
  -- the first token of both that is not trivia
  have hnsolid : Token.solid (Tree.tokensAll n.parts) ≠ [] := by
    have hunit : s.node.kind.isUnit = true := by
      rcases hrefers with hk | hk <;> rw [hk] <;> rfl
    obtain ⟨t, hparts, hfits, -⟩ := hs.within.exists_token hunit
    obtain ⟨before, after, htokens, -⟩ := hinside.within.stands (.self n)
    have hnot : t.isTrivia = false := NodeKind.not_isTrivia_of_fits hfits
    have ht : t ∈ Token.solid (Tree.tokensAll n.parts) := by
      simp [Token.solid, htokens, hparts, hnot]
    exact List.ne_nil_of_mem ht
  obtain ⟨t, us, hfirst⟩ := List.exists_cons_of_ne_nil hnsolid
  have hparts : Tree.solidAll sm.node.parts = Tree.solidAll n.parts := congrArg Node.parts heq
  have hfirst' : Token.solid (Tree.tokensAll sm.node.parts) = t :: us := by
    rw [← Tree.tokensAll_solidAll, hparts, Tree.tokensAll_solidAll, hfirst]
  obtain ⟨ht, o, ho, hlocated, hoffset⟩ :=
    Node.exists_first_solid hne (stands_of_within hroot.within) hfirst
  obtain ⟨-, o', ho', hlocated', hoffset'⟩ :=
    Node.exists_first_solid hne (stands_of_within hm) hfirst'
  have hstart : solidOffset (tokenize text) sm.node.start = solidOffset (tokenize text) n.start :=
    congrArg Node.start heq
  obtain rfl : o = o' :=
    eq_of_solidOffset_eq hne hlocated hlocated' ht ht
      (hoffset.trans (hstart.symm.trans hoffset'.symm))
  -- the site that the token is directly inside is inside both
  obtain ⟨a, ha, hholds⟩ := Site.exists_holds (s := ⟨n, outer⟩) ho
  obtain ⟨a', ha', hholds'⟩ := Site.exists_holds (s := sm) ho'
  obtain rfl := (hroot.trans ha).eq_of_holds (hsm.trans ha') hholds hholds'
  have hstands : (parse source text).root.node.Stands 0 (tokenize text) := stands_of_within .refl
  have hcarries := Node.carries_solid hne hstands
  rcases ha.comparable ha' with hreaches | hreaches
  · exact congrArg Site.node (hcarries.eq_of_reaches hroot.within hreaches heq)
  · exact congrArg Site.node (hcarries.eq_of_reaches hm hreaches heq.symm).symm

/-- The globals of a tree are those of the tree without trivia. -/
theorem carriesGlobals_solid (source : SourceType) (text : Text) :
    CarriesGlobals (Node.solid (tokenize text)) id
      (fun a => ⟨a.name, a.node.solid (tokenize text)⟩) (parse source text).root := by
  have hne : ∀ t ∈ tokenize text, t.text ≠ [] := fun t ht => text_ne_nil_of_mem_tokenize ht
  have hscopes : CarriesScopes (Node.solid (tokenize text)) (parse source text).root :=
    { toCarries := Node.carries_solid hne (stands_of_within .refl)
      top := rfl
      injective := fun n m hn hm heq => eq_of_solid_eq hn hm heq
      word := fun n _ _ _ => n.word_solid _ }
  refine hscopes.carriesGlobals (fun n _ _ => n.word_solid _) fun n hn => ?_
  rw [Globals.access?, Globals.access?, Node.property?, hscopes.child?_map hn, Option.map_map,
    Option.map_map]
  simp only [Function.comp_def, Node.word_solid]
  rfl

end

/-- The root of a text without trivia. -/
theorem map_solid_root (source : SourceType) (text : Text) :
    (parse source text).root.map (Node.solid (tokenize text)) =
      ⟨⟨0, .program, Tree.solidAll (parse source text).parts⟩, []⟩ := by
  have hzero : solidOffset (tokenize text) 0 = 0 :=
    solidOffset_eq (fun t ht => text_ne_nil_of_mem_tokenize ht)
      (List.nil_append (tokenize text)).symm
  simp only [Parse.root, Site.map, Node.solid, hzero, List.map_nil]

/-- Trivia does not count, but for line breaks.  Two texts with the same tokens but
for trivia, and with line breaks before the same ones of them, have the same tree when
trivia is left out, the same problems in the same order, and the same globals: the
same names, references and properties, at the same places when trivia is left out. -/
theorem parse_ignores_trivia (source : SourceType) {text text' : Text}
    (hsolid : Token.solid (tokenize text) = Token.solid (tokenize text'))
    (hbreaks : lineBreaks false (tokenize text) = lineBreaks false (tokenize text')) :
    (parse source text).tree.solid = (parse source text').tree.solid ∧
      (parse source text).problems.map Problem.cause =
        (parse source text').problems.map Problem.cause ∧
      ∃ groups groups', globalsAt (parse source text).root = .ok groups ∧
        globalsAt (parse source text').root = .ok groups' ∧
        (groups.map fun g => g.outline.moved (solidOffset (tokenize text))) =
          groups'.map fun g => g.outline.moved (solidOffset (tokenize text')) := by
  have hakin := akin_ofText source hsolid hbreaks
  have hparts : Tree.solidAll (parse source text).parts =
      Tree.solidAll (parse source text').parts := by
    simp only [parse, Tree.solidAll_reverse, hakin.trees]
  have houtlines (text : Text) :
      ((Globals.collect (Scopes.build (parse source text).root) (parse source text).root).map
        fun g => g.outline.moved (solidOffset (tokenize text))) =
      (Globals.collect
        (Scopes.build ⟨⟨0, .program, Tree.solidAll (parse source text).parts⟩, []⟩)
        ⟨⟨0, .program, Tree.solidAll (parse source text).parts⟩, []⟩).map Group.outline := by
    have hne : ∀ t ∈ tokenize text, t.text ≠ [] := fun t ht => text_ne_nil_of_mem_tokenize ht
    have hspan (n : Node) (hn : Node.Within (parse source text).root.node n) :=
      Node.span_solid hne (stands_of_within hn)
    rw [← map_solid_root, (carriesGlobals_solid source text).collect_map_id, List.map_map]
    exact List.map_congr_left fun g hg =>
      (Group.outline_map (fun n => n.kind_solid _) hspan hg id).symm
  refine ⟨by simp only [Parse.tree, Tree.solid, hparts], ?_, _, _, rfl, rfl, ?_⟩
  · simp only [parse, List.map_reverse, hakin.causes]
  · rw [houtlines text, houtlines text', hparts]

/-- Spaces and comments, with a global passed for a parameter and a statement that only
a line break ends. -/
theorem parse_ignores_trivia_passed :
    let text : Text := "(function (w) \x7b w.a // b\n  c/* d */ \x7d)(e , f )".toList
    let text' : Text := "(function(w)\x7bw.a\nc\x7d)(e,f)".toList
    Token.solid (tokenize text) = Token.solid (tokenize text') ∧
      lineBreaks false (tokenize text) = lineBreaks false (tokenize text') ∧
      (parse .script text).tree.solid = (parse .script text').tree.solid ∧
      (parse .script text).problems.map Problem.cause =
        (parse .script text').problems.map Problem.cause ∧
      ∃ groups groups', globalsAt (parse .script text).root = .ok groups ∧
        globalsAt (parse .script text').root = .ok groups' ∧
        (groups.map fun g => g.outline.moved (solidOffset (tokenize text))) =
          groups'.map fun g => g.outline.moved (solidOffset (tokenize text')) := by
  intro text text'
  have hrun : Token.solid (tokenize text) = Token.solid (tokenize text') ∧
      lineBreaks false (tokenize text) = lineBreaks false (tokenize text') := by decide +kernel
  obtain ⟨hsolid, hbreaks⟩ := hrun
  exact ⟨hsolid, hbreaks, parse_ignores_trivia .script hsolid hbreaks⟩

end FreeNames
