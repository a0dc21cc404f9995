import FreeNames.Proofs.Reading

/-!
# FreeNames.Proofs.Margins

Nodes have no margins of trivia.  Where a node or group starts, the trivia before it
has been placed, so that the first token that gets into it is none; a node made
around trees that are there starts where a group did.  At the other end a rule stops
with a token that it takes, unless it met a problem.

Main statement: `trimmed_nodes`.
-/

namespace FreeNames

/-- The first leaf, if there is one, is not trivia. -/
def Tree.Starts (_ : NodeKind) (parts : List Tree) : Prop :=
  ∀ t ∈ (tokensAll parts).head?, t.isTrivia = false

/-- There is a leaf, and the last one is not trivia. -/
def Tree.Ends (_ : NodeKind) (parts : List Tree) : Prop :=
  ∃ t ∈ (tokensAll parts).getLast?, t.isTrivia = false

/-! ## where nodes start -/

namespace Draft

variable {d e : Draft}

/-- Of the tokens gathered for the open node or group and those that are left, the first
is not trivia. -/
def Flush (d : Draft) : Prop :=
  ∀ t ∈ (Tree.tokensAll d.trees.reverse ++ d.left).head?, t.isTrivia = false

/-- Tokens that are left are gathered in order, so the first stays the first. -/
theorem Flush.reads (h : d.Flush) (hr : Reads d e) : e.Flush := by
  obtain ⟨new, htrees, -, hleft⟩ := hr
  rw [Flush, hleft, ← List.append_assoc, ← htrees] at h
  exact h

theorem Flush.starts (h : d.Flush) (k : NodeKind) : Tree.Starts k d.trees.reverse := by
  intro t ht
  refine h t ?_
  rw [List.head?_append, Option.mem_def.mp ht]
  rfl

/-- A node or group starts at a token. -/
theorem Sifted.flush_opened (h : d.Sifted) : d.placeTrivia.apart.Flush := by
  intro t ht
  rw [trees_apart, List.reverse_nil, Tree.tokensAll_nil, List.nil_append] at ht
  cases hrest : d.rest with
  | nil =>
      rw [placeTrivia_nil hrest] at ht
      simp [left, apart, place, hrest] at ht
  | cons l ls =>
      rw [placeTrivia_cons hrest] at ht
      obtain rfl : l.token = t := by simpa [left, apart, place] using ht
      exact h.of_cons hrest

theorem Sifted.later (h : d.Sifted) (he : Later d e) : e.Sifted :=
  fun t ht => h t (he.ahead.subset ht)

/-- A node that starts where trivia has been placed. -/
theorem Every.starts_node (hd : d.Every (Tree.All Tree.Starts)) (hsifted : d.Sifted)
    (he : e.Every (Tree.All Tree.Starts)) {k : NodeKind}
    (hreads : Reads (d.placeTrivia.apart.log (.start k)) e) :
    (((e.wrap k).log .finish).rejoin d.placeTrivia).Every (Tree.All Tree.Starts) :=
  (he.all_wrap ((hsifted.flush_opened.reads hreads).starts k)).rejoin (hd.placeTrivia .leaf)

theorem Every.starts_single (hd : d.Every (Tree.All Tree.Starts)) (hsifted : d.Sifted)
    (k : NodeKind) : (d.single k).Every (Tree.All Tree.Starts) :=
  hd.starts_node hsifted ((every_started d.placeTrivia _).take .leaf) (reads_take _)

theorem Every.starts_skip (hd : d.Every (Tree.All Tree.Starts)) (hsifted : d.Sifted)
    (c : Cause) : (d.skip c).Every (Tree.All Tree.Starts) := by
  unfold skip
  dsimp only
  split
  · exact hd
  · exact Every.starts_single (d := d.report c) hd hsifted .error

theorem Every.starts_advance {step : Draft → Draft}
    (hstep : (step d).Every (Tree.All Tree.Starts)) (hsifted : (step d).Sifted) :
    (d.advance step).Every (Tree.All Tree.Starts) := by
  unfold advance
  dsimp only
  split
  · exact hstep.starts_skip hsifted _
  · exact hstep

theorem Every.starts_items {close : TokenKind} {item : Draft → Draft}
    (hlater : ∀ d, Later d (item d))
    (hitem : ∀ d : Draft, d.Sifted → d.Every (Tree.All Tree.Starts) →
      (item d).Every (Tree.All Tree.Starts))
    (bound : Nat) (hd : d.Every (Tree.All Tree.Starts)) (hsifted : d.Sifted) :
    (d.items close item bound).Every (Tree.All Tree.Starts) := by
  induction bound generalizing d with
  | zero => exact hd
  | succ bound ih =>
      rw [items]
      split
      · exact hd
      · have hdone := hitem d hsifted hd
        unfold nextItem
        split
        · exact hdone
        · split
          · exact ih (hdone.take .leaf)
              (hsifted.later (steady_later.trans (hlater d) (steady_later.take _)))
          · exact hdone

end Draft

namespace Script

/-- A script makes nodes around trees that are there only where a group or node has been
started, and calls there the productions that do. -/
@[simp] def rooted (inside : Bool) : Script → Bool
  | done | take | report _ | single _ => true
  | seq a b => a.rooted inside && b.rooted inside
  | choose _ a b => a.rooted inside && b.rooted inside
  | look f => TokenKind.every.all fun k => (f k).rooted inside
  | ask _ f => (f true).rooted inside && (f false).rooted inside
  | group a | node _ a => a.rooted true
  | enclose _ a => inside && a.rooted inside
  | call p _ => inside || !p.continues
  | advance a => a.rooted inside
  | list _ item => item.rooted false

/-- What the productions have to do for nodes to start right. -/
structure Leads (call : Call) : Prop where
  later (p : Production) (ctx : Context) (d : Draft) : Later d (call p ctx d)
  reads (p : Production) (ctx : Context) (d : Draft) : Draft.Reads d (call p ctx d)
  starts (p : Production) (ctx : Context) (d : Draft) : d.Sifted →
    (p.continues = true → d.Flush) → d.Every (Tree.All Tree.Starts) →
    (call p ctx d).Every (Tree.All Tree.Starts)

theorem starts_run {call : Call} (hcall : Leads call) (ctx : Context) {inside : Bool}
    {s : Script} (hs : s.rooted inside = true) {d : Draft} (hsifted : d.Sifted)
    (hflush : inside = true → d.Flush) (hd : d.Every (Tree.All Tree.Starts)) :
    (s.run call ctx d).Every (Tree.All Tree.Starts) := by
  have hlater (s : Script) (d : Draft) := steady_later.run hcall.later ctx s d
  have hreads (s : Script) (d : Draft) := Draft.steady_reads.run hcall.reads ctx s d
  induction s generalizing inside d with
  | done => exact hd
  | take => exact hd.take .leaf
  | report c => exact hd
  | single k => exact hd.starts_single hsifted k
  | seq a b iha ihb =>
      obtain ⟨ha, hb⟩ := (Bool.and_eq_true ..).mp hs
      exact ihb hb (hsifted.later (hlater a d)) (fun hi => (hflush hi).reads (hreads a d))
        (iha ha hsifted hflush hd)
  | choose t a b iha ihb =>
      obtain ⟨ha, hb⟩ := (Bool.and_eq_true ..).mp hs
      rw [run]
      split
      · exact iha ha hsifted hflush hd
      · exact ihb hb hsifted hflush hd
  | look f ih => exact ih _ (List.all_eq_true.mp hs _ d.kind.mem_every) hsifted hflush hd
  | ask t f ih =>
      obtain ⟨htrue, hfalse⟩ := (Bool.and_eq_true ..).mp hs
      rw [run]
      cases t.holds ctx d with
      | true => exact ih _ htrue hsifted hflush hd
      | false => exact ih _ hfalse hsifted hflush hd
  | group a ih =>
      exact (ih hs (hsifted.alike d.alike_opened) (fun _ => hsifted.flush_opened)
        (Draft.every_apart _)).rejoin (hd.placeTrivia .leaf)
  | enclose k a ih =>
      obtain ⟨rfl, ha⟩ := (Bool.and_eq_true ..).mp hs
      have hstarted : (d.log (.startAt d.base k)).Flush := hflush rfl
      have hbody := ih ha (hsifted.alike (d.alike_restarted k)) (fun _ => hstarted) hd
      exact hbody.all_wrap ((hstarted.reads (hreads a _)).starts k)
  | node k a ih =>
      have hbody := ih hs (hsifted.alike (d.alike_started k)) (fun _ => hsifted.flush_opened)
        (Draft.every_started _ _)
      exact hd.starts_node hsifted hbody (hreads a _)
  | call p place =>
      refine hcall.starts p _ d hsifted (fun hp => hflush ?_) hd
      simpa [hp] using hs
  | advance a ih =>
      exact Draft.Every.starts_advance (ih hs hsifted hflush hd) (hsifted.later (hlater a d))
  | list close item ih =>
      exact (hd.take .leaf).starts_items (hlater item)
        (fun e he hall => ih hs he (by simp) hall) _ (hsifted.later (steady_later.take d))

end Script

theorem Production.rooted_script (p : Production) : p.script.rooted p.continues = true := by
  cases p with
  | binary least => rfl
  | binaryTail least => rfl
  | suffixes calls => cases calls <;> decide +kernel
  | _ => decide +kernel

theorem leads_derive (bound : Nat) : Script.Leads (derive bound) where
  later := steady_later.derive bound
  reads := Draft.steady_reads.derive bound
  starts := by
    induction bound with
    | zero => exact fun _ _ _ _ _ hd => hd
    | succ bound ih =>
        intro p ctx d hsifted hflush hd
        rw [FreeNames.derive, p.rule_eq_run]
        exact Script.starts_run
          ⟨steady_later.derive bound, Draft.steady_reads.derive bound, ih⟩ ctx p.rooted_script
          hsifted hflush hd

theorem starts_programItems {call : Call} (hcall : Script.Leads call) (source : SourceType)
    (bound : Nat) {d : Draft} (hsifted : d.Sifted) (hd : d.Every (Tree.All Tree.Starts)) :
    (programItems call source bound d).Every (Tree.All Tree.Starts) := by
  induction bound generalizing d with
  | zero => exact hd
  | succ bound ih =>
      rw [programItems]
      split
      · exact hd
      · have hrooted : (Script.moduleItem source).rooted false = true := by
          cases source <;> decide +kernel
        dsimp only
        have hlater := steady_later.moduleItem hcall.later source
          { awaits := source = .module } d
        refine ih (hsifted.later (steady_later.advance hlater))
          (Draft.Every.starts_advance ?_ (hsifted.later hlater))
        rw [← Script.run_moduleItem]
        exact Script.starts_run hcall _ hrooted hsifted (by simp) hd

/-- No node below the root starts with trivia. -/
theorem starts_root (source : SourceType) (text : Text) :
    ∀ p ∈ (parse source text).parts, p.All Tree.Starts := by
  intro p hp
  refine Draft.Every.placeTrivia .leaf (starts_programItems (leads_derive _) source _ ?_ ?_) p
    (List.mem_reverse.mp hp)
  · exact Draft.sifted_ofTokens _
  · simp [Draft.Every, Draft.ofTokens]

/-! ## where nodes end -/

/-- What is known about the end of the trees of the open group or node. -/
structure Margin where
  /-- There is a leaf, and the last one is not trivia. -/
  solid : Bool
  /-- All nodes end so. -/
  sound : Bool
deriving DecidableEq

namespace Margin

/-- What is known is true of a draft. -/
structure Fits (_ : List Tree) (g : Margin) (d : Draft) : Prop where
  solid (k : NodeKind) : g.solid = true → Tree.Ends k d.trees.reverse
  sound : g.sound = true → d.Every (Tree.All Tree.Ends)

/-- One of two things says at least as much as the other. -/
def le (g h : Margin) : Bool := (!h.solid || g.solid) && (!h.sound || g.sound)

theorem Fits.mono {base : List Tree} {g h : Margin} {d : Draft} (hg : g.Fits base d)
    (hle : g.le h = true) : h.Fits base d := by
  simp only [le, Bool.and_eq_true, Bool.or_eq_true, Bool.not_eq_true'] at hle
  exact ⟨fun k hs => hg.solid k (hle.1.resolve_left (by simp [hs])),
    fun hs => hg.sound (hle.2.resolve_left (by simp [hs]))⟩

end Margin

/-- Productions that may take no token. -/
def Production.isLazy : Production → Bool
  | .statements | .clauses | .clauseBody | .commaTail | .binaryTail _ | .suffixes _ | .arguments
  | .arrayItems | .objectItems | .patternFields | .patternItems | .parameters | .members => true
  | _ => false

/-- Following where the trees end.  A production that may take no token needs to come
after one. -/
def marginReading : Reading Margin where
  join g h := ⟨g.solid && h.solid, g.sound && h.sound⟩
  le := Margin.le
  seen _ g := g
  take σ g := ⟨σ.left, g.sound⟩
  opened := ⟨false, true⟩
  group g h := ⟨h.solid, g.sound && h.sound⟩
  enclose _ _ h := ⟨h.solid, h.solid && h.sound⟩
  node _ g h := ⟨h.solid, g.sound && (h.solid && h.sound)⟩
  needs p := ⟨p.isLazy, true⟩
  gives _ := ⟨true, true⟩
  called p g := if g.le ⟨p.isLazy, true⟩ then ⟨true, true⟩ else ⟨false, false⟩
  widen g := g
  lost := ⟨false, false⟩

theorem Tree.Ends.append {k : NodeKind} {after : List Tree} (h : Ends k after)
    (before : List Tree) : Ends k (before ++ after) := by
  obtain ⟨t, ht, htrivia⟩ := h
  refine ⟨t, ?_, htrivia⟩
  rw [tokensAll_append, List.getLast?_append, Option.mem_def.mp ht]
  rfl

namespace Draft

variable {d e : Draft}

/-- After the trees before them, trees end as they do alone. -/
theorem ends_rejoin {k : NodeKind} (h : Tree.Ends k e.trees.reverse) (d : Draft) :
    Tree.Ends k (e.rejoin d).trees.reverse := by
  rw [trees_rejoin, List.reverse_append]
  exact h.append _

theorem ends_wrap {k : NodeKind} (h : Tree.Ends k e.trees.reverse) (j : NodeKind) :
    Tree.Ends k ((e.wrap j).log .finish).trees.reverse := by
  simpa [Tree.Ends] using h

theorem Sifted.ends_take (h : d.Sifted) (hd : d.rest ≠ []) (k : NodeKind) :
    Tree.Ends k d.take.trees.reverse := by
  obtain ⟨l, ls, hrest⟩ := List.exists_cons_of_ne_nil hd
  refine ⟨l.token, ?_, h.of_cons hrest⟩
  rw [take_cons hrest]
  simp

end Draft

theorem Margin.fits_lost {base : List Tree} {d : Draft} : marginReading.lost.Fits base d :=
  ⟨nofun, nofun⟩

theorem sound_marginReading : marginReading.Sound Margin.Fits where
  join {base g h d} hgh := by
    refine ⟨fun k hs => ?_, fun hs => ?_⟩
    all_goals
      obtain ⟨hg, hh⟩ := (Bool.and_eq_true ..).mp hs
    · exact hgh.elim (fun f => f.solid k hg) fun f => f.solid k hh
    · exact hgh.elim (fun f => f.sound hg) fun f => f.sound hh
  mono hle hg := hg.mono hle
  lost _ _ := Margin.fits_lost
  log s hg := ⟨hg.solid, hg.sound⟩
  seen _ hg := hg
  take hsifted hσ hg :=
    ⟨fun k hs => hsifted.ends_take (hσ.left hs) k, fun hs => (hg.sound hs).take .leaf⟩
  opened h := ⟨nofun, fun _ => by simp [Draft.Every, h]⟩
  group hg hh := by
    refine ⟨fun k hs => Draft.ends_rejoin (hh.solid k hs) _, fun hs => ?_⟩
    obtain ⟨hsg, hsh⟩ := (Bool.and_eq_true ..).mp hs
    exact (hh.sound hsh).rejoin ((hg.sound hsg).placeTrivia .leaf)
  enclose k _ hh := by
    refine ⟨fun j hs => Draft.ends_wrap (hh.solid j hs) k, fun hs => ?_⟩
    obtain ⟨hsolid, hsound⟩ := (Bool.and_eq_true ..).mp hs
    exact (hh.sound hsound).all_wrap (hh.solid k hsolid)
  node k hg hh := by
    refine ⟨fun j hs => Draft.ends_rejoin (Draft.ends_wrap (hh.solid j hs) k) _, fun hs => ?_⟩
    obtain ⟨hsg, hbody⟩ := (Bool.and_eq_true ..).mp hs
    obtain ⟨hsolid, hsound⟩ := (Bool.and_eq_true ..).mp hbody
    exact ((hh.sound hsound).all_wrap (hh.solid k hsolid)).rejoin
      ((hg.sound hsg).placeTrivia .leaf)
  called {base g d e} p hp hg := by
    simp only [marginReading]
    split
    · next hle => exact hp base (hg.mono hle)
    · exact Margin.fits_lost

set_option maxRecDepth 10000 in
theorem Production.read_margins (p : Production) :
    ((p.script.read marginReading p.entry (marginReading.needs p)).all fun g =>
      marginReading.le g (marginReading.gives p)) = true := by
  cases p with
  | binary least => rfl
  | binaryTail least => rfl
  | suffixes calls => cases calls <;> decide +kernel
  | _ => decide +kernel

set_option maxRecDepth 10000 in
theorem read_margins_moduleItem (source : SourceType) :
    (((Script.moduleItemSpelt source).read marginReading {} ⟨false, true⟩).all fun g =>
      marginReading.le g ⟨false, true⟩) = true := by
  cases source <;> decide

/-- Where no problem is met, every node below the root ends with a token. -/
theorem ends_root {source : SourceType} {text : Text} (h : (parse source text).problems = []) :
    ∀ p ∈ (parse source text).parts, p.All Tree.Ends := by
  obtain ⟨d, hd, hfits⟩ :=
    sound_marginReading.ofText .plain
      (sound_marginReading.holds_grammar .plain Production.read_margins)
      (read_margins_moduleItem source) rfl h
  have hall := (hfits.sound rfl).placeTrivia .leaf
  rw [← hd] at hall
  exact fun p hp => hall p (List.mem_reverse.mp hp)

/-! ## nodes of a parse -/

/-- No token of a parse is empty. -/
theorem Site.Reaches.size_pos {source : SourceType} {text : Text} {s : Site} {t : Token}
    (hs : (parse source text).root.Reaches s) (ht : t ∈ Tree.tokensAll s.node.parts) :
    0 < t.size := by
  obtain ⟨before, after, htokens, -⟩ := hs.within.stands (.self _)
  rw [tokensAll_root] at htokens
  have hmem : t ∈ tokenize text := by simp [htokens, ht]
  exact Text.size_pos (text_ne_nil_of_mem_tokenize hmem)

/-- For every text and source type no node but the root starts with trivia.  In a text
without problems every node but the root covers some bytes, and none ends with trivia. -/
theorem trimmed_nodes (source : SourceType) (text : Text) :
    (∀ s ∈ (parse source text).root.descendants, s ≠ (parse source text).root →
      ∀ t ∈ (Tree.tokensAll s.node.parts).head?, t.isTrivia = false) ∧
    ((parse source text).problems = [] →
      ∀ s ∈ (parse source text).root.descendants, s ≠ (parse source text).root →
        s.node.span.start < s.node.span.stop ∧
          ∃ t ∈ (Tree.tokensAll s.node.parts).getLast?, t.isTrivia = false) := by
  refine ⟨fun s hs hne => ?_, fun h s hs hne => ?_⟩
  · have hreach := Site.mem_descendants_iff.mp hs
    exact (hreach.all (starts_root source text)).1.resolve_left hne
  · have hreach := Site.mem_descendants_iff.mp hs
    obtain ⟨t, ht, htrivia⟩ := (hreach.all (ends_root h)).1.resolve_left hne
    refine ⟨?_, t, ht, htrivia⟩
    have hmem : t ∈ Tree.tokensAll s.node.parts := List.mem_of_getLast? ht
    have hpos := hreach.size_pos hmem
    obtain ⟨first, last, hparts⟩ := List.append_of_mem hmem
    simp only [Node.span, Tree.sizeAll_eq, hparts, Token.sizeAll_append, Token.sizeAll_cons]
    omega

/-- A call between comments, with blanks around its arguments. -/
theorem trimmed_nodes_call :
    (parse .script " /* c */ f ( a , ) // d".toList).problems = [] ∧
      ∃ s ∈ (parse .script " /* c */ f ( a , ) // d".toList).root.descendants,
        s ≠ (parse .script " /* c */ f ( a , ) // d".toList).root ∧
          s.node.kind = .callExpr ∧ s.node.span = ⟨9, 18⟩ ∧
          (∀ t ∈ (Tree.tokensAll s.node.parts).head?, t.isTrivia = false) ∧
          s.node.span.start < s.node.span.stop ∧
          ∃ t ∈ (Tree.tokensAll s.node.parts).getLast?, t.isTrivia = false := by
  have hrun : (parse .script " /* c */ f ( a , ) // d".toList).problems = [] ∧
      ∃ s ∈ (parse .script " /* c */ f ( a , ) // d".toList).root.descendants,
        s ≠ (parse .script " /* c */ f ( a , ) // d".toList).root ∧
          s.node.kind = .callExpr ∧ s.node.span = ⟨9, 18⟩ := by
    decide +kernel
  obtain ⟨h, s, hs, hne, hk, hspan⟩ := hrun
  obtain ⟨hfirst, hlast⟩ := trimmed_nodes .script " /* c */ f ( a , ) // d".toList
  exact ⟨h, s, hs, hne, hk, hspan, hfirst s hs hne, hlast h s hs hne⟩

end FreeNames
