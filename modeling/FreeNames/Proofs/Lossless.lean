import FreeNames.Proofs.Sites
import FreeNames.Proofs.Statements

/-!
# FreeNames.Proofs.Lossless

A parse loses nothing.  The leaves of its tree are the tokens of the text, so
the tree spells the text and every node spells the bytes it covers.  The steps
in which the tree was built are all accepted by a builder that has done nothing,
and make that tree.

Main statement: `parse_lossless`, for every text, broken or not.
-/

namespace FreeNames

/-! ## tokens are placed in order -/

namespace Draft

/-- The tokens that are not yet placed. -/
def left (d : Draft) : List Token :=
  d.rest.flatMap (fun l => l.gap.trivia ++ [l.token]) ++ d.last.trivia

/-- Tokens that have been placed, latest first. -/
def placed (d : Draft) : List Token :=
  d.steps.filterMap fun
    | .token t => some t
    | _ => none

@[simp] theorem placed_place (d : Draft) (ts : List Token) :
    (d.place ts).placed = ts.reverse ++ d.placed := by
  rw [placed, steps_place, List.filterMap_append, ← List.map_reverse, List.filterMap_map]
  congr 1
  exact List.filterMap_some

/-- What one draft has more of than another was left to read there. -/
def Reads (d e : Draft) : Prop :=
  ∃ new : List Token,
    Tree.tokensAll e.trees.reverse = Tree.tokensAll d.trees.reverse ++ new ∧
      e.placed = new.reverse ++ d.placed ∧ d.left = new ++ e.left

/-- The tokens of a text stand in the lexemes and in the gap at the end. -/
theorem left_lexemesFrom (g : Gap) (ts : List Token) :
    (lexemesFrom g ts).1.flatMap (fun l => l.gap.trivia ++ [l.token])
      ++ (lexemesFrom g ts).2.trivia = g.trivia ++ ts := by
  induction ts generalizing g with
  | nil => simp [lexemesFrom]
  | cons t ts ih =>
      rw [lexemesFrom]
      split
      · rw [ih]
        simp [Gap.push]
      · simp [ih, Gap.empty]

theorem left_ofTokens (ts : List Token) : (ofTokens ts).left = ts :=
  left_lexemesFrom (.empty 0) ts

theorem reads_placeTrivia (d : Draft) : Reads d d.placeTrivia := by
  cases h : d.rest with
  | nil =>
      rw [placeTrivia_nil h]
      exact ⟨d.last.trivia, by simp, placed_place _ _, by simp [left, h]⟩
  | cons l ls =>
      rw [placeTrivia_cons h]
      exact ⟨l.gap.trivia, by simp, placed_place _ _, by simp [left, h]⟩

theorem reads_take (d : Draft) : Reads d d.take := by
  cases h : d.rest with
  | nil =>
      rw [take, h]
      exact reads_placeTrivia d
  | cons l ls =>
      rw [take_cons h]
      exact ⟨l.gap.trivia ++ [l.token], by simp, placed_place _ _, by simp [left, h]⟩

theorem steady_reads : Steady Reads where
  refl d := ⟨[], by simp, rfl, rfl⟩
  trans := by
    rintro d e f ⟨new, htrees, hplaced, hleft⟩ ⟨more, htrees', hplaced', hleft'⟩
    exact ⟨new ++ more, by simp [htrees', htrees], by simp [hplaced', hplaced],
      by simp [hleft, hleft']⟩
  placeTrivia := reads_placeTrivia
  take := reads_take
  report d c _ := ⟨[], by simp, rfl, rfl⟩
  group := by
    rintro d e ⟨new, htrees, hplaced, hleft⟩
    exact ⟨new, by simpa using htrees, hplaced, hleft⟩
  enclose := by
    rintro d e k - ⟨new, htrees, hplaced, hleft⟩
    exact ⟨new, by simpa using htrees, hplaced, hleft⟩
  node := by
    rintro d e k - ⟨new, htrees, hplaced, hleft⟩
    exact ⟨new, by simpa using htrees, hplaced, hleft⟩

end Draft

/-! ## the steps make the trees -/

namespace Builder

theorem run_append (b : Builder) (xs ys : List Step) :
    b.run (xs ++ ys) = (b.run xs).bind fun c => c.run ys := by
  simp [run, List.foldlM_append]

@[simp] theorem run_nil (b : Builder) : b.run [] = some b := rfl

theorem run_cons (b : Builder) (s : Step) (steps : List Step) :
    b.run (s :: steps) = (b.step s).bind fun c => c.run steps := by
  simp [run]

theorem run_tokens (opened : List (NodeKind × Nat)) (trees : List Tree) (ts : List Token) :
    run ⟨opened, trees⟩ (ts.map Step.token) =
      some ⟨opened, (ts.map Tree.leaf).reverse ++ trees⟩ := by
  induction ts generalizing trees with
  | nil => simp
  | cons t ts ih =>
      rw [List.map_cons, run_cons]
      simp [step, ih]

/-- What is built between opening a node and closing it becomes its parts. -/
theorem run_node {b c : Builder} {s : Step} {new : List Step} {k : NodeKind} {first : Nat}
    {opened : List (NodeKind × Nat)} {trees outer : List Tree} (hstart : b.step s = some c)
    (hbody : c.run new = some ⟨(k, first) :: opened, trees ++ outer⟩)
    (hfirst : outer.length = first) :
    b.run (s :: new ++ [.finish]) = some ⟨opened, .node k trees.reverse :: outer⟩ := by
  rw [List.cons_append, run_cons, hstart, Option.bind_some, run_append, hbody]
  simp [run_cons, step, ← hfirst]

end Builder

namespace Draft

/-- The steps that one draft has more than another make the trees it has more,
in any builder whose open node starts no later. -/
def Replays (d e : Draft) : Prop :=
  e.base = d.base ∧ ∃ new : List Step, e.steps = new.reverse ++ d.steps ∧
    ∀ (opened : List (NodeKind × Nat)) (outer : List Tree), outer.length = d.base →
      (∀ o ∈ opened.head?, o.2 ≤ d.base) →
      Builder.run ⟨opened, d.trees ++ outer⟩ new = some ⟨opened, e.trees ++ outer⟩

theorem replays_place (d : Draft) (ts : List Token) : Replays d (d.place ts) := by
  refine ⟨rfl, ts.map Step.token, rfl, fun opened outer _ _ => ?_⟩
  rw [Builder.run_tokens, trees_place, List.append_assoc]

theorem replays_placeTrivia (d : Draft) : Replays d d.placeTrivia := by
  cases h : d.rest with
  | nil =>
      rw [placeTrivia_nil h]
      exact replays_place d _
  | cons l ls =>
      rw [placeTrivia_cons h]
      exact replays_place d _

theorem replays_take (d : Draft) : Replays d d.take := by
  cases h : d.rest with
  | nil =>
      rw [take, h]
      exact replays_placeTrivia d
  | cons l ls =>
      rw [take_cons h]
      exact replays_place d _

theorem Replays.trans {d e f : Draft} (hl : Replays d e) (hr : Replays e f) : Replays d f := by
  obtain ⟨hbase, new, hsteps, hrun⟩ := hl
  obtain ⟨hbase', more, hsteps', hrun'⟩ := hr
  refine ⟨hbase'.trans hbase, new ++ more, by simp [hsteps', hsteps], ?_⟩
  intro opened outer hlength hopened
  rw [Builder.run_append, hrun opened outer hlength hopened, Option.bind_some,
    hrun' opened outer (hlength.trans hbase.symm) (hbase ▸ hopened)]

theorem Replays.group {d e : Draft} (h : Replays d.apart e) : Replays d (e.rejoin d) := by
  obtain ⟨hbase, new, hsteps, hrun⟩ := h
  refine ⟨rfl, new, hsteps, fun opened outer hlength hopened => ?_⟩
  have hrun := hrun opened (d.trees ++ outer) (by simp [hlength, Nat.add_comm])
    fun o ho => Nat.le_add_right_of_le (hopened o ho)
  simpa using hrun

theorem Replays.enclose {d e : Draft} {k : NodeKind}
    (h : Replays (d.log (.startAt d.base k)) e) : Replays d ((e.wrap k).log .finish) := by
  obtain ⟨hbase, new, hsteps, hrun⟩ := h
  refine ⟨hbase, .startAt d.base k :: new ++ [.finish], by simp [hsteps], ?_⟩
  intro opened outer hlength hopened
  have hvalid : Builder.isValid ⟨opened, d.trees ++ outer⟩ d.base = true := by
    cases opened with
    | nil => simp [Builder.isValid, hlength]
    | cons o opened => simpa [Builder.isValid, hlength] using hopened o rfl
  have hbody := hrun ((k, d.base) :: opened) outer hlength (by simp)
  exact Builder.run_node (by simp [Builder.step, hvalid]) hbody hlength

theorem Replays.node {d e : Draft} {k : NodeKind} (h : Replays (d.apart.log (.start k)) e) :
    Replays d (((e.wrap k).log .finish).rejoin d) := by
  obtain ⟨hbase, new, hsteps, hrun⟩ := h
  refine ⟨rfl, .start k :: new ++ [.finish], by simp [hsteps], ?_⟩
  intro opened outer hlength hopened
  have hbody := hrun ((k, (d.trees ++ outer).length) :: opened) (d.trees ++ outer)
    (by simp [hlength, Nat.add_comm]) (by simp [hlength, Nat.add_comm])
  exact Builder.run_node rfl hbody rfl

theorem steady_replays : Steady Replays where
  refl _ := ⟨rfl, [], rfl, fun _ _ _ _ => rfl⟩
  trans := Replays.trans
  placeTrivia := replays_placeTrivia
  take := replays_take
  report _ _ _ := ⟨rfl, [], rfl, fun _ _ _ _ => rfl⟩
  group := Replays.group
  enclose _ := Replays.enclose
  node _ := Replays.node

/-! ## a text is read to its end -/

theorem rest_programItems {call : Call} {source : SourceType} {d : Draft} {bound : Nat}
    (hc : Lawful call) (h : d.Clear) (hbound : d.rest.length ≤ bound) :
    (programItems call source bound d).rest = [] := by
  induction bound generalizing d with
  | zero => exact List.length_eq_zero_iff.mp (by simpa [programItems] using hbound)
  | succ bound ih =>
      unfold programItems
      split
      · next hend => exact List.isEmpty_iff.mp hend
      · next hend =>
          have hlt : (d.advance (Grammar.moduleItem call source
              { awaits := source = .module })).rest.length < d.rest.length :=
            length_rest_advance (steady_length.of_built (Grammar.built_moduleItem hc h))
              (by simpa using hend)
          exact ih (clear_advance (Grammar.clear_moduleItem hc h)) (by omega)

theorem left_ofText (source : SourceType) (text : Text) : (ofText source text).left = [] := by
  have hrest (n : Nat) : (programItems (deriveFor n) source (ofTokens (tokenize text)).rest.length
      (ofTokens (tokenize text))).rest = [] :=
    rest_programItems (lawful_derive _) (clear_of_lastKind? rfl) (Nat.le_refl _)
  simp only [ofText, placeTrivia_nil (hrest _)]
  simp [left, hrest]

theorem tokensAll_ofText (source : SourceType) (text : Text) :
    Tree.tokensAll (ofText source text).trees.reverse = tokenize text := by
  obtain ⟨new, htrees, -, hleft⟩ := steady_reads.of_built (built_ofText source text)
  rw [left_ofTokens, left_ofText, List.append_nil] at hleft
  simpa [ofTokens, hleft] using htrees

/-- A builder that has done nothing can do the steps of a parse, and makes the
tree. -/
theorem run_ofText (source : SourceType) (text : Text) :
    Builder.run .initial ((ofText source text).log .finish).steps.reverse =
      some ⟨[], [.node .program (ofText source text).trees.reverse]⟩ := by
  obtain ⟨-, new, hsteps, hrun⟩ := steady_replays.of_built (built_ofText source text)
  have hbody := hrun [(.program, 0)] [] rfl (by simp [ofTokens])
  rw [steps_log, hsteps]
  simpa [ofTokens] using Builder.run_node (b := .initial) (s := .start .program) rfl hbody rfl

end Draft

theorem tokensAll_root (source : SourceType) (text : Text) :
    Tree.tokensAll (parse source text).root.node.parts = tokenize text :=
  Draft.tokensAll_ofText source text

/-- A token of a text is directly inside one site of its tree only. -/
theorem Site.Reaches.eq_of_holds {source : SourceType} {text : Text} {s s' : Site} {o : Nat}
    {t t' : Token} (hs : (parse source text).root.Reaches s)
    (hs' : (parse source text).root.Reaches s') (h : s.node.Holds o t)
    (h' : s'.node.Holds o t') : s = s' := by
  refine Site.eq_of_holds (fun u hu => ?_) hs hs' h h'
  rw [tokensAll_root] at hu
  exact text_ne_nil_of_mem_tokenize hu

/-- Every text, broken or not, has a tree whose leaves are its tokens.  The tree
is what a builder makes of the steps of the parse, none of which it refuses; it
spells the text, and each of its nodes spells the bytes it covers. -/
theorem parse_lossless (source : SourceType) (text : Text) :
    (Builder.run .initial (parse source text).steps).bind Builder.result? =
      some (parse source text).tree ∧
    (parse source text).tree = .node .program (parse source text).parts ∧
    (parse source text).tree.tokens = tokenize text ∧
    (parse source text).tree.text = text ∧
    ∀ s ∈ (parse source text).root.descendants,
      text.slice? s.node.span.start s.node.span.stop =
        some (Token.concat (Tree.tokensAll s.node.parts)) := by
  have htokens : Tree.tokensAll (parse source text).parts = tokenize text :=
    Draft.tokensAll_ofText source text
  refine ⟨?_, rfl, ?_, ?_, fun s hs => ?_⟩
  · rw [parse, Draft.run_ofText]
    rfl
  · rw [Parse.tree, Tree.tokens_node, htokens]
  · rw [Tree.text, Parse.tree, Tree.tokens_node, htokens, concat_tokenize]
  · have hstands := (Site.within_of_mem_descendants hs).stands (.self (parse source text).root.node)
    have hslice := hstands.slice?_span
    rwa [show Tree.tokensAll (parse source text).root.node.parts = tokenize text from htokens,
      concat_tokenize] at hslice

end FreeNames
