import FreeNames.Proofs.Lossless

/-!
# FreeNames.Proofs.Units

Names, references, labels, keys and literals are nodes of exactly one token.
The token is of a kind that fits the node, so that a node of this sort covers
the bytes of one token and nothing else.
-/

namespace FreeNames

/-- A tree whose nodes of one token hold one that fits. -/
inductive Tree.Sound : Tree → Prop
  | leaf (t : Token) : Sound (.leaf t)
  | unit {k : NodeKind} {t : Token} (fits : k.fits t.kind = true) : Sound (.node k [.leaf t])
  | large {k : NodeKind} {parts : List Tree} (kind : k.isUnit = false)
    (all : ∀ p ∈ parts, Sound p) : Sound (.node k parts)

namespace Tree.Sound

theorem parts {k : NodeKind} {ps : List Tree} (h : Sound (.node k ps)) : ∀ p ∈ ps, Sound p := by
  cases h with
  | unit _ => simpa using Sound.leaf _
  | large _ hall => exact hall

theorem eq_leaf {k : NodeKind} {ps : List Tree} (h : Sound (.node k ps)) (hk : k.isUnit = true) :
    ∃ t, ps = [.leaf t] ∧ k.fits t.kind = true := by
  cases h with
  | unit hfits => exact ⟨_, rfl, hfits⟩
  | large hlarge _ => simp [hlarge] at hk

end Tree.Sound

/-! ## what is built is sound -/

namespace Draft

/-- Where trivia has been placed, the next token is all that is taken. -/
theorem trees_single {d : Draft} {l : Lexeme} {ls : List Lexeme} (h : d.rest = l :: ls)
    (k : NodeKind) : (d.single k).trees = .node k [.leaf l.token] :: d.placeTrivia.trees := by
  have hrest : (d.placeTrivia.apart.log (.start k)).rest =
      { l with gap := l.gap.placed } :: ls := by
    rw [placeTrivia_cons h]
    rfl
  simp only [single, node, trees_rejoin, trees_log, trees_wrap]
  rw [take_cons hrest]
  simp

end Draft

theorem NodeKind.isUnit_of_isLarge {k : NodeKind} (h : k.isLarge = true) : k.isUnit = false := by
  cases k <;> simp_all [isLarge, isUnit]

theorem Built.sound {d e : Draft} (h : Built d e) (hd : d.Every Tree.Sound) :
    e.Every Tree.Sound := by
  induction h with
  | refl _ => exact hd
  | trans _ _ ihl ihr => exact ihr (ihl hd)
  | placeTrivia _ => exact hd.placeTrivia .leaf
  | take _ => exact hd.take .leaf
  | report _ _ => exact hd
  | skip _ _ => exact hd.single .leaf fun hall => .large rfl hall
  | @single d k hfits _ _ =>
      obtain ⟨l, ls, hrest, hl⟩ := Draft.exists_cons_of_kind rfl (NodeKind.ne_error_of_fits hfits)
      intro t ht
      rw [Draft.trees_single hrest, List.mem_cons] at ht
      rcases ht with rfl | ht
      · exact .unit (hl ▸ hfits)
      · exact hd.placeTrivia .leaf t ht
  | group _ ih => exact (ih (Draft.every_apart _)).rejoin (hd.placeTrivia .leaf)
  | enclose hlarge _ ih => exact (ih hd).wrap fun hall => .large (NodeKind.isUnit_of_isLarge hlarge) hall
  | node hlarge _ ih =>
      have hbody := ih (Draft.every_started _ _)
      exact (hbody.wrap fun hall => .large (NodeKind.isUnit_of_isLarge hlarge) hall).rejoin
        (hd.placeTrivia .leaf)

/-! ## nodes of a parse -/

/-- The tree of a parse is sound. -/
theorem sound_root (source : SourceType) (text : Text) :
    Tree.Sound (.node .program (parse source text).parts) := by
  refine .large rfl fun p hp => ?_
  have hsound : (Draft.ofText source text).Every Tree.Sound :=
    (built_ofText source text).sound (by simp [Draft.Every, Draft.ofTokens])
  exact hsound p (List.mem_reverse.mp hp)

theorem Node.Within.sound {root n : Node} (h : Within root n)
    (hroot : Tree.Sound (.node root.kind root.parts)) : Tree.Sound (.node n.kind n.parts) := by
  induction h with
  | refl => exact hroot
  | child _ hc ih =>
      obtain ⟨before, after, hparts, -⟩ := mem_among hc
      exact ih.parts _ (by simp [hparts])

/-- A node of one token stands where the token does. -/
theorem Node.Stands.mem_locate {n : Node} {offset : Nat} {tokens : List Token} {t : Token}
    (h : n.Stands offset tokens) (hparts : n.parts = [.leaf t]) :
    (n.start, t) ∈ Token.locate offset tokens := by
  obtain ⟨before, after, rfl, hstart⟩ := h
  exact Token.mem_locate_iff.mpr ⟨before, after, by simp [hparts], hstart⟩

theorem Node.span_eq {n : Node} {t : Token} (hparts : n.parts = [.leaf t]) :
    n.span = ⟨n.start, n.start + t.size⟩ := by
  simp [span, hparts, Tree.sizeAll_eq]

/-- The word of a node of one token is what the token spells. -/
theorem Node.word_eq {n : Node} {t : Token} (hparts : n.parts = [.leaf t])
    (ht : t.isTrivia = false) : n.word = t.text := by
  simp [word, firstToken?, hparts, ht]

/-- A node of one token, anywhere in the tree of a parse. -/
theorem Node.Within.exists_token {source : SourceType} {text : Text} {n : Node}
    (h : Within (parse source text).root.node n) (hk : n.kind.isUnit = true) :
    ∃ t, n.parts = [.leaf t] ∧ n.kind.fits t.kind = true ∧ n.word = t.text ∧
      (n.start, t) ∈ Token.locate 0 (tokenize text) := by
  obtain ⟨t, hparts, hfits⟩ := (h.sound (sound_root source text)).eq_leaf hk
  have hstands := h.stands (.self _)
  rw [tokensAll_root] at hstands
  refine ⟨t, hparts, hfits, word_eq hparts ?_, hstands.mem_locate hparts⟩
  exact NodeKind.not_isTrivia_of_fits hfits

end FreeNames
