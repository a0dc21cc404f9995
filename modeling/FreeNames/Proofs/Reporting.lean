import FreeNames.Proofs.Neighbours
import FreeNames.Proofs.Units

/-!
# FreeNames.Proofs.Reporting

Nothing bad is accepted in silence.  A token gets into an error node only after a
problem was reported, and a token that is an error itself is taken only then, so
a parse without problems holds neither.

Main statement: `no_error_of_ok`, for every text.
-/

namespace FreeNames

/-- A tree without error nodes. -/
inductive Tree.Clean : Tree → Prop
  | leaf (t : Token) : Clean (.leaf t)
  | node {k : NodeKind} {parts : List Tree} (kind : k ≠ .error) (all : ∀ p ∈ parts, Clean p) :
    Clean (.node k parts)

theorem NodeKind.ne_error_of_isLarge {k : NodeKind} (h : k.isLarge = true) : k ≠ .error := by
  rintro rfl
  simp [isLarge] at h

/-! ## what is built without a problem is clean -/

/-- Without a problem no rule makes an error node. -/
theorem Built.clean {d e : Draft} (h : Built d e) (he : e.problems = [])
    (hd : d.Every Tree.Clean) : e.Every Tree.Clean := by
  induction h with
  | refl _ => exact hd
  | trans _ right ihl ihr => exact ihr he (ihl (right.problems_eq_nil he) hd)
  | placeTrivia _ => exact hd.placeTrivia .leaf
  | take _ => exact hd.take .leaf
  | report _ _ => exact hd
  | skip reported _ => exact absurd (by simpa using he) reported
  | single fits _ _ =>
      refine hd.single .leaf fun hall => .node ?_ hall
      rintro rfl
      simp [NodeKind.fits] at fits
  | group _ ih => exact (ih he (Draft.every_apart _)).rejoin (hd.placeTrivia .leaf)
  | enclose large _ ih =>
      exact (ih he hd).wrap fun hall => .node (NodeKind.ne_error_of_isLarge large) hall
  | node large _ ih =>
      have hbody := ih he (Draft.every_started _ _)
      exact (hbody.wrap fun hall => .node (NodeKind.ne_error_of_isLarge large) hall).rejoin
        (hd.placeTrivia .leaf)

/-! ## nodes of a parse -/

theorem clean_root {source : SourceType} {text : Text} (h : (parse source text).problems = []) :
    Tree.Clean (.node .program (parse source text).parts) := by
  have hproblems : (Draft.ofText source text).problems = [] := by simpa [parse] using h
  have hclean : (Draft.ofText source text).Every Tree.Clean :=
    (built_ofText source text).clean hproblems (by simp [Draft.Every, Draft.ofTokens])
  exact .node (by simp) fun p hp => hclean p (List.mem_reverse.mp hp)

theorem Node.Within.clean {root n : Node} (h : Within root n)
    (hroot : Tree.Clean (.node root.kind root.parts)) : Tree.Clean (.node n.kind n.parts) := by
  induction h with
  | refl => exact hroot
  | child _ hc ih =>
      obtain ⟨before, after, hparts, -⟩ := mem_among hc
      cases ih with
      | node _ hall => exact hall _ (by simp [hparts])

/-- A text without problems has no error token, neither among its tokens nor in
its tree, and its tree has no error node.  So each error token of a text, be it
an unclosed string, comment or template, a stray character or a name that is not
allowed, makes the parse report a problem. -/
theorem no_error_of_ok {source : SourceType} {text : Text}
    (h : (parse source text).problems = []) :
    (∀ t ∈ tokenize text, t.kind ≠ .error) ∧
      (∀ t ∈ (parse source text).tree.tokens, t.kind ≠ .error) ∧
      ∀ s ∈ (parse source text).root.descendants, s.node.kind ≠ .error := by
  have htokens : (parse source text).tree.tokens = tokenize text := by
    rw [Parse.tree, Tree.tokens_node]
    exact Draft.tokensAll_ofText source text
  have herror := (apart_of_ok h).1
  refine ⟨herror, htokens ▸ herror, fun s hs => ?_⟩
  have hclean := (Site.within_of_mem_descendants hs).clean (clean_root h)
  cases hclean with
  | node hk _ => exact hk

theorem no_error_template_regex_division :
    (parse .script "x = `a$\x7b/[/]b/g.test(y)\x7d` / 2 // c\n".toList).problems = [] ∧
      (∀ t ∈ tokenize "x = `a$\x7b/[/]b/g.test(y)\x7d` / 2 // c\n".toList, t.kind ≠ .error) ∧
      (∀ t ∈ (parse .script "x = `a$\x7b/[/]b/g.test(y)\x7d` / 2 // c\n".toList).tree.tokens,
        t.kind ≠ .error) ∧
      ∀ s ∈ (parse .script "x = `a$\x7b/[/]b/g.test(y)\x7d` / 2 // c\n".toList).root.descendants,
        s.node.kind ≠ .error := by
  have h : (parse .script "x = `a$\x7b/[/]b/g.test(y)\x7d` / 2 // c\n".toList).problems = [] := by
    decide +kernel
  exact ⟨h, no_error_of_ok h⟩

end FreeNames
