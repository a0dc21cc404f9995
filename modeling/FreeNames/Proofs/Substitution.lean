import FreeNames.Proofs.Neighbours
import FreeNames.Proofs.Undotted

/-!
# FreeNames.Proofs.Substitution

New names in a tree.  References and property names of a text without problems
can be spelt otherwise (`Tree.RespeltAll`), property names also as words that mean
something of their own in other places, since a property name stands after a dot
(`Tree.DottedAll`).  The text that the new tree spells has that tree.

Main statement: `parse_respelt`.
-/

namespace FreeNames

/-! ## property names stand after a dot -/

namespace Tree

mutual

/-- A property name stands after a dot; `last` is the last token before the tree. -/
def Dotted (last : Option TokenKind) : Tree → Prop
  | .leaf _ => True
  | .node k parts => (k = .propertyName → last.any TokenKind.isDot = true) ∧ DottedAll last parts

/-- The same for trees in a row. -/
def DottedAll (last : Option TokenKind) : List Tree → Prop
  | [] => True
  | t :: ts => t.Dotted last ∧ DottedAll (t.tokens.foldl Token.seen last) ts

end

theorem dottedAll_append {last : Option TokenKind} {ss ts : List Tree} :
    DottedAll last (ss ++ ts) ↔
      DottedAll last ss ∧ DottedAll ((tokensAll ss).foldl Token.seen last) ts := by
  induction ss generalizing last with
  | nil => simp [DottedAll]
  | cons s ss ih => simp [DottedAll, ih, and_assoc]

theorem dottedAll_map_leaf (last : Option TokenKind) (ts : List Token) :
    DottedAll last (ts.map leaf) := by
  induction ts generalizing last with
  | nil => trivial
  | cons t ts ih => exact ⟨trivial, ih _⟩

end Tree

/-- Property names stand after dots in what has been read after a token, and the
last token read is known. -/
structure Draft.Dotted (last : Option TokenKind) (d : Draft) : Prop where
  all : Tree.DottedAll last d.trees.reverse
  seen : (Tree.tokensAll d.trees.reverse).foldl Token.seen last = d.lastKind?

namespace Draft.Dotted

variable {last : Option TokenKind} {d e : Draft} {k : NodeKind}

theorem of_eq (h : d.Dotted last) (htrees : e.trees = d.trees)
    (hlast : e.lastKind? = d.lastKind?) : e.Dotted last := by
  refine ⟨?_, ?_⟩
  · rw [htrees]
    exact h.all
  · rw [htrees, hlast]
    exact h.seen

theorem place (h : d.Dotted last) (ts : List Token) : (d.place ts).Dotted last := by
  have htrees : (d.place ts).trees.reverse = d.trees.reverse ++ ts.map Tree.leaf := by simp
  refine ⟨?_, ?_⟩
  · rw [htrees, Tree.dottedAll_append]
    exact ⟨h.all, Tree.dottedAll_map_leaf _ ts⟩
  · rw [htrees, Tree.tokensAll_append, Tree.tokensAll_map_leaf, List.foldl_append, h.seen,
      lastKind?_place]

theorem placeTrivia (h : d.Dotted last) : d.placeTrivia.Dotted last := by
  cases hrest : d.rest with
  | nil =>
      rw [placeTrivia_nil hrest]
      refine place ?_ _
      exact h.of_eq rfl rfl
  | cons l ls =>
      rw [placeTrivia_cons hrest]
      refine place ?_ _
      exact h.of_eq rfl rfl

theorem take (h : d.Dotted last) : d.take.Dotted last := by
  cases hrest : d.rest with
  | nil =>
      rw [Draft.take, hrest]
      exact h.placeTrivia
  | cons l ls =>
      rw [take_cons hrest]
      refine place ?_ _
      exact h.of_eq rfl rfl

theorem apart (d : Draft) : d.apart.Dotted d.lastKind? := ⟨trivial, rfl⟩

theorem rejoin (he : e.Dotted d.lastKind?) (hd : d.Dotted last) : (e.rejoin d).Dotted last := by
  have htrees : (e.rejoin d).trees.reverse = d.trees.reverse ++ e.trees.reverse := by simp
  refine ⟨?_, ?_⟩
  · rw [htrees, Tree.dottedAll_append, hd.seen]
    exact ⟨hd.all, he.all⟩
  · rw [htrees, Tree.tokensAll_append, List.foldl_append, hd.seen, he.seen, lastKind?_rejoin]

theorem wrap (h : d.Dotted last) (hk : k = .propertyName → last.any TokenKind.isDot = true) :
    (d.wrap k).Dotted last := by
  refine ⟨⟨⟨hk, h.all⟩, trivial⟩, ?_⟩
  simpa using h.seen

theorem single (h : d.Dotted last)
    (hk : k = .propertyName → d.lastKind?.any TokenKind.isDot = true) :
    (d.single k).Dotted last := by
  have hstart : (d.placeTrivia.apart.log (.start k)).Dotted d.placeTrivia.lastKind? :=
    (apart d.placeTrivia).of_eq rfl rfl
  have hbody := hstart.take.wrap (k := k) (by simpa using hk)
  exact rejoin (hbody.of_eq rfl rfl) h.placeTrivia

end Draft.Dotted

theorem NodeKind.ne_propertyName_of_isLarge {k : NodeKind} (h : k.isLarge = true) :
    k ≠ .propertyName := by
  rintro rfl
  simp [isLarge, isUnit] at h

/-- Rules make property names after dots only. -/
theorem Built.dotted {d e : Draft} (h : Built d e) {last : Option TokenKind}
    (hd : d.Dotted last) : e.Dotted last := by
  induction h generalizing last with
  | refl _ => exact hd
  | trans _ _ ihl ihr => exact ihr (ihl hd)
  | placeTrivia _ => exact hd.placeTrivia
  | take _ => exact hd.take
  | report _ _ => exact hd.of_eq rfl rfl
  | skip _ _ => exact hd.single nofun
  | single _ _ dotted => exact hd.single dotted
  | group _ ih => exact .rejoin (ih (.apart _)) hd.placeTrivia
  | enclose large _ ih =>
      have hbody := (ih (hd.of_eq rfl rfl)).wrap
        fun hk => absurd hk (NodeKind.ne_propertyName_of_isLarge large)
      exact hbody.of_eq rfl rfl
  | node large _ ih =>
      have hbody := (ih ((Draft.Dotted.apart _).of_eq rfl rfl)).wrap
        fun hk => absurd hk (NodeKind.ne_propertyName_of_isLarge large)
      exact .rejoin (hbody.of_eq rfl rfl) hd.placeTrivia

theorem dottedAll_parse (source : SourceType) (text : Text) :
    Tree.DottedAll none (parse source text).parts :=
  ((built_ofText source text).dotted ⟨trivial, rfl⟩).all

/-! ## new names in a tree -/

/-- Trees in a row with new names for some references and property names, which
are identifiers by themselves.  A reference neither is nor becomes a word that
means something of its own in some places. -/
inductive Tree.RespeltAll : List Tree → List Tree → Prop
  | nil : RespeltAll [] []
  | leaf (t : Token) {ps qs : List Tree} (rest : RespeltAll ps qs) :
    RespeltAll (.leaf t :: ps) (.leaf t :: qs)
  | node (k : NodeKind) {parts parts' ps qs : List Tree} (inner : RespeltAll parts parts')
    (rest : RespeltAll ps qs) : RespeltAll (.node k parts :: ps) (.node k parts' :: qs)
  | name {k : NodeKind} {old new : Text} {ps qs : List Tree}
    (kind : k = .propertyName ∨
      k = .nameRef ∧ old ∉ contextualWords ∧ new ∉ contextualWords)
    (oldName : tokenize old = [⟨.ident, old⟩]) (newName : tokenize new = [⟨.ident, new⟩])
    (rest : RespeltAll ps qs) :
    RespeltAll (.node k [.leaf ⟨.ident, old⟩] :: ps) (.node k [.leaf ⟨.ident, new⟩] :: qs)

namespace Tree.RespeltAll

variable {ps qs : List Tree}

theorem respelt (h : RespeltAll ps qs) {last : Option TokenKind} {ts us : List Token}
    (hdotted : DottedAll last ps)
    (hrest : Respelt true ((tokensAll ps).foldl Token.seen last) ts us) :
    Respelt true last (tokensAll ps ++ ts) (tokensAll qs ++ us) := by
  induction h generalizing last ts us with
  | nil => exact hrest
  | leaf t _ ih => exact .keep t (ih hdotted.2 hrest)
  | node k _ _ ihinner ih =>
      simp only [tokensAll_cons, tokens_node, List.append_assoc, List.foldl_append] at hrest ⊢
      exact ihinner hdotted.1.2 (ih hdotted.2 hrest)
  | @name k old new ps qs hkind hold hnew _ ih =>
      have hfree : true = true ∧ last.any TokenKind.isDot = true ∨
          old ∉ contextualWords ∧ new ∉ contextualWords := by
        rcases hkind with hk | ⟨-, hwords⟩
        · exact Or.inl ⟨rfl, hdotted.1.1 hk⟩
        · exact Or.inr hwords
      exact .respell (isIdentifier_of_tokenize hold).isName (isIdentifier_of_tokenize hnew) hfree
        (ih hdotted.2 hrest)

theorem blur_eq (h : RespeltAll ps qs) : mapAll Token.blur ps = mapAll Token.blur qs := by
  induction h with
  | nil => rfl
  | leaf t _ ih => rw [mapAll, mapAll, ih]
  | node k _ _ ihinner ih => rw [mapAll, mapAll, map, map, ihinner, ih]
  | name _ _ _ _ ih =>
      rw [mapAll, mapAll, ih]
      rfl

end Tree.RespeltAll

/-- New names for references and property names of a text without problems: the
text that the new tree spells has the tokens of that tree, which are of the same
kinds as before, has no problems and is parsed to that tree. -/
theorem parse_respelt {source : SourceType} {text : Text} {parts : List Tree}
    (hok : (parse source text).problems = [])
    (h : Tree.RespeltAll (parse source text).parts parts) :
    tokenize (Token.concat (Tree.tokensAll parts)) = Tree.tokensAll parts ∧
      (Tree.tokensAll parts).map Token.kind = (tokenize text).map Token.kind ∧
      (parse source (Token.concat (Tree.tokensAll parts))).problems = [] ∧
      (parse source (Token.concat (Tree.tokensAll parts))).parts = parts := by
  have htokens : Tree.tokensAll (parse source text).parts = tokenize text :=
    Draft.tokensAll_ofText source text
  have hrespelt : Respelt true none (tokenize text) (Tree.tokensAll parts) := by
    simpa [htokens] using h.respelt (dottedAll_parse source text) (.nil _)
  have htokenize := tokenize_respelt hok hrespelt
  refine ⟨htokenize, hrespelt.kinds_eq.symm, ?_⟩
  rw [← htokenize] at hrespelt
  have htwin := twin_ofText_of_ok hok hrespelt
  have hcauses : (parse source text).problems.map Problem.cause =
      (parse source (Token.concat (Tree.tokensAll parts))).problems.map Problem.cause := by
    simp [parse, htwin.causes]
  have hshape : Tree.mapAll Token.blur (parse source text).parts =
      Tree.mapAll Token.blur (parse source (Token.concat (Tree.tokensAll parts))).parts := by
    simp [parse, Tree.mapAll_eq, htwin.trees]
  refine ⟨by simpa [hok] using hcauses.symm, ?_⟩
  refine Tree.eq_of_mapAll_eq _ _ (hshape.symm.trans h.blur_eq) ?_
  exact (Draft.tokensAll_ofText source _).trans htokenize

theorem parse_respelt_quotient :
    (parse .script "a.of/b".toList).problems = [] ∧
      ∃ parts, Tree.RespeltAll (parse .script "a.of/b".toList).parts parts ∧
        Token.concat (Tree.tokensAll parts) = "ä.await/b".toList ∧
        tokenize "ä.await/b".toList = Tree.tokensAll parts ∧
        (Tree.tokensAll parts).map Token.kind = (tokenize "a.of/b".toList).map Token.kind ∧
        (parse .script "ä.await/b".toList).problems = [] ∧
        (parse .script "ä.await/b".toList).parts = parts := by
  have hok : (parse .script "a.of/b".toList).problems = [] := by decide +kernel
  have hparts : (parse .script "a.of/b".toList).parts =
      [.node .exprStmt [.node .binaryExpr
        [.node .memberExpr [.node .nameRef [.leaf ⟨.ident, "a".toList⟩],
          .leaf ⟨.punct .dot, ".".toList⟩, .node .propertyName [.leaf ⟨.ident, "of".toList⟩]],
        .leaf ⟨.punct .slash, "/".toList⟩, .node .nameRef [.leaf ⟨.ident, "b".toList⟩]]]] := by
    decide +kernel
  have hrespelt : Tree.RespeltAll (parse .script "a.of/b".toList).parts
      [.node .exprStmt [.node .binaryExpr
        [.node .memberExpr [.node .nameRef [.leaf ⟨.ident, "ä".toList⟩],
          .leaf ⟨.punct .dot, ".".toList⟩, .node .propertyName [.leaf ⟨.ident, "await".toList⟩]],
        .leaf ⟨.punct .slash, "/".toList⟩, .node .nameRef [.leaf ⟨.ident, "b".toList⟩]]]] := by
    rw [hparts]
    refine .node _ (.node _ (.node _ (.name ?_ ?_ ?_ (.leaf _ (.name ?_ ?_ ?_ .nil)))
      (.leaf _ (.node _ (.leaf _ .nil) .nil))) .nil) .nil
    · exact Or.inr ⟨rfl, by decide, by decide⟩
    · decide +kernel
    · decide +kernel
    · exact Or.inl rfl
    · decide +kernel
    · decide +kernel
  exact ⟨hok, _, hrespelt, rfl, parse_respelt hok hrespelt⟩

end FreeNames
