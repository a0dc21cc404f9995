import FreeNames.Proofs.Templates

/-!
# FreeNames.Proofs.Reading

Following what is known about the trees that a script gathers.  A `Reading` says
what becomes of some sort of knowledge with each thing that a script does, and
`Script.read` computes with it what is known after a script that reports no
problem.  `Reading.Sound` says when what a reading computes is true.

One reading is one claim about the trees of texts without problems: what has to be
known where a production is called, and what is known when it is done, is computed
from the scripts of the productions.

Main statements: `Script.covers_read`, for scripts; `Reading.Sound.ofText`, for whole
texts.
-/

namespace FreeNames

/-! ## what holds of every node -/

/-- Something holds of every node of a tree, given its kind and its parts. -/
inductive Tree.All (P : NodeKind → List Tree → Prop) : Tree → Prop
  | leaf (t : Token) : All P (.leaf t)
  | node {k : NodeKind} {parts : List Tree} (here : P k parts) (all : ∀ p ∈ parts, All P p) :
    All P (.node k parts)

/-- What holds of every node below the root holds of the sites inside it. -/
theorem Site.Reaches.all {P : NodeKind → List Tree → Prop} {root s : Site} (h : root.Reaches s)
    (hroot : ∀ p ∈ root.node.parts, p.All P) :
    (s = root ∨ P s.node.kind s.node.parts) ∧ ∀ p ∈ s.node.parts, p.All P := by
  induction h with
  | refl => exact ⟨Or.inl rfl, hroot⟩
  | child _ hc ih =>
      obtain ⟨n, hn, rfl⟩ := List.mem_map.mp hc
      obtain ⟨before, after, hparts, -⟩ := Node.mem_among hn
      have hnode := ih.2 (.node n.kind n.parts) (by simp [hparts])
      cases hnode with
      | node here all => exact ⟨Or.inr here, all⟩

/-- What holds of every node of a tree holds of all its sites. -/
theorem Tree.All.of_mem_descendants {P : NodeKind → List Tree → Prop} {root s : Site}
    (h : (Tree.node root.node.kind root.node.parts).All P) (hs : s ∈ root.descendants) :
    P s.node.kind s.node.parts ∧ ∀ p ∈ s.node.parts, p.All P := by
  cases h with
  | node here all =>
      obtain ⟨hs, hparts⟩ := (Site.mem_descendants_iff.mp hs).all all
      exact ⟨hs.elim (fun heq => heq ▸ here) id, hparts⟩

/-- A node of all the trees gathered. -/
theorem Draft.Every.all_wrap {P : NodeKind → List Tree → Prop} {d : Draft} {k : NodeKind}
    (h : d.Every (Tree.All P)) (here : P k d.trees.reverse) :
    ((d.wrap k).log .finish).Every (Tree.All P) := by
  intro t ht
  rw [trees_log, trees_wrap, List.mem_singleton] at ht
  exact ht ▸ .node here fun p hp => h p (List.mem_reverse.mp hp)

/-! ## tokens that are left -/

namespace Draft

/-- No token that is left is trivia. -/
def Sifted (d : Draft) : Prop := ∀ t ∈ d.ahead, t.isTrivia = false

theorem sifted_ofTokens (ts : List Token) : (ofTokens ts).Sifted := by
  have hfrom (g : Gap) : ∀ l ∈ (lexemesFrom g ts).1, l.token.isTrivia = false := by
    induction ts generalizing g with
    | nil => simp [lexemesFrom]
    | cons t ts ih =>
        rw [lexemesFrom]
        split
        · exact ih _
        · next ht => simpa [Bool.not_eq_true] using ⟨Bool.not_eq_true _ ▸ ht, ih _⟩
  intro t ht
  obtain ⟨l, hl, rfl⟩ := List.mem_map.mp ht
  exact hfrom _ l hl

theorem Sifted.of_cons {d : Draft} (h : d.Sifted) {l : Lexeme} {ls : List Lexeme}
    (hrest : d.rest = l :: ls) : l.token.isTrivia = false :=
  h l.token (by simp [ahead, hrest])

theorem Sifted.alike {d e : Draft} (h : d.Sifted) (he : e.Alike d) : e.Sifted := by
  rw [Sifted, he.ahead]
  exact h

end Draft

theorem Sight.Fits.sifted {start d : Draft} {σ : Sight} (h : σ.Fits true start d)
    (hstart : start.Sifted) : d.Sifted := fun t ht => hstart t (h.shrunk.subset ht)

/-- Nothing is known, but that the draft comes later. -/
theorem fits_later {start d : Draft} (h : d.ahead <:+ start.ahead) : Sight.Fits true start {} d :=
  { fits_start_strict d with shrunk := h, moved := nofun }

/-! ## readings -/

/-- How knowledge about the trees of the open group or node changes. -/
structure Reading (α : Type) where
  /-- What is known where two ways meet. -/
  join : α → α → α
  /-- The first says at least as much as the second. -/
  le : α → α → Bool
  /-- More has been seen of the tokens that come next. -/
  seen : Sight → α → α
  /-- The next token is taken. -/
  take : Sight → α → α
  /-- A group or node starts with no trees. -/
  opened : α
  /-- The trees of a group come after those before. -/
  group : α → α → α
  /-- All trees are enclosed in a node: what was known before its further parts, and
  what is known after them. -/
  enclose : NodeKind → α → α → α
  /-- A node comes after the trees before: what is known of these and of its parts. -/
  node : NodeKind → α → α → α
  /-- What has to be known when a production is called. -/
  needs : Production → α
  /-- What is known then when it is done. -/
  gives : Production → α
  /-- A production has been called. -/
  called : Production → α → α
  /-- What stays known through the items of a list. -/
  widen : α → α
  /-- Nothing is known. -/
  lost : α

/-- Productions that go on after an operand, and make nodes around it. -/
def Production.continues : Production → Bool
  | .suffixes _ | .binaryTail _ => true
  | _ => false

/-- `new` comes next where its production is called. -/
def Production.entry : Production → Sight
  | .newExpr => ({} : Sight).only (.keyword .newKw)
  | _ => {}

/-- A comma comes next. -/
def Sight.comma : Sight := ({} : Sight).only (.punct .comma)

/-- What is known about the trees after a script that reports no problem; nothing if
all runs report one. -/
@[simp] def Script.read {α : Type} (R : Reading α) : Script → Sight → α → Option α
  | done, _, g => some g
  | take, σ, g => some (R.take σ g)
  | report _, _, _ => none
  | single k, σ, g => some (R.node k g (R.take σ R.opened))
  | seq a b, σ, g => (a.read R σ g).bind fun h => (a.flow true σ).bind fun τ => b.read R τ h
  | choose t a b, σ, g =>
    Option.merge R.join ((t.tell true σ).bind fun τ => a.read R τ (R.seen τ g))
      ((t.tell false σ).bind fun τ => b.read R τ (R.seen τ g))
  | look f, σ, g =>
    ((Sight.kinds σ.first).map fun k =>
      (f k).read R (σ.only k) (R.seen (σ.only k) g)).foldr (Option.merge R.join) none
  | ask t f, σ, g =>
    Option.merge R.join ((t.tell true σ).bind fun τ => (f true).read R τ (R.seen τ g))
      ((t.tell false σ).bind fun τ => (f false).read R τ (R.seen τ g))
  | group a, σ, g => (a.read R σ R.opened).map (R.group g)
  | enclose k a, σ, g => (a.read R σ g).map (R.enclose k g)
  | node k a, σ, g => (a.read R σ R.opened).map (R.node k g)
  | .call p _, σ, g =>
    some (if p ≠ .newExpr || σ.rulesOut fun k => k ≠ .keyword .newKw then R.called p g else R.lost)
  | advance a, σ, g => a.read R σ g
  | list _ item, σ, g =>
    let w := R.widen (R.take σ g)
    some (if R.le (R.take σ g) w &&
      (item.read R {} w).all fun h => R.le h w && R.le (R.take .comma h) w then w else R.lost)

/-- What is known is true.  `Fits base g d` says that `g` is true of the draft `d`, whose
open group or node had the trees of `base` before. -/
structure Reading.Sound {α : Type} (R : Reading α) (Fits : List Tree → α → Draft → Prop) :
    Prop where
  join {base : List Tree} {g h : α} {d : Draft} :
    Fits base g d ∨ Fits base h d → Fits base (R.join g h) d
  mono {base : List Tree} {g h : α} {d : Draft} :
    R.le g h = true → Fits base g d → Fits base h d
  lost (base : List Tree) (d : Draft) : Fits base R.lost d
  log {base : List Tree} {g : α} {d : Draft} (s : Step) : Fits base g d → Fits base g (d.log s)
  seen {base : List Tree} {g : α} {start d : Draft} {σ : Sight} :
    σ.Fits true start d → Fits base g d → Fits base (R.seen σ g) d
  take {base : List Tree} {g : α} {start d : Draft} {σ : Sight} :
    d.Sifted → σ.Fits true start d → Fits base g d → Fits base (R.take σ g) d.take
  opened {d : Draft} : d.trees = [] → Fits [] R.opened d
  group {base : List Tree} {g h : α} {d e : Draft} :
    Fits base g d → Fits [] h e → Fits base (R.group g h) (e.rejoin d.placeTrivia)
  enclose {base : List Tree} {g h : α} {d e : Draft} (k : NodeKind) :
    Fits base g d → Fits base h e → Fits base (R.enclose k g h) ((e.wrap k).log .finish)
  node {base : List Tree} {g h : α} {d e : Draft} (k : NodeKind) :
    Fits base g d → Fits [] h e →
      Fits base (R.node k g h) (((e.wrap k).log .finish).rejoin d.placeTrivia)
  called {base : List Tree} {g : α} {d e : Draft} (p : Production) :
    (∀ base, Fits base (R.needs p) d → Fits base (R.gives p) e) →
      Fits base g d → Fits base (R.called p g) e

section

variable {α : Type} {R : Reading α} {Fits : List Tree → α → Draft → Prop} {start d : Draft}
  {σ : Sight} {base : List Tree} {g w : α} {call : Call} {ctx : Context}

theorem Production.fits_entry {p : Production} (h : p = .newExpr → d.kind = .keyword .newKw) :
    p.entry.Fits true d d := by
  cases p with
  | newExpr =>
      have hfits := (fits_start_strict d).only
      rwa [h rfl] at hfits
  | _ => exact fits_start_strict d

/-- The productions do what a reading says of them. -/
def Reading.Holds (R : Reading α) (Fits : List Tree → α → Draft → Prop) (call : Call) : Prop :=
  ∀ (p : Production) (ctx : Context) (d : Draft), d.Sifted → (call p ctx d).problems = [] →
    (p = .newExpr → d.kind = .keyword .newKw) →
    ∀ base, Fits base (R.needs p) d → Fits base (R.gives p) (call p ctx d)

/-- What is computed for a script is true of every run that reports no problem. -/
theorem Script.covers_read (hR : R.Sound Fits) (hobeys : Obeys true start call)
    (hstart : start.Sifted) (hcall : R.Holds Fits call) (s : Script) (hσ : σ.Fits true start d)
    (hg : Fits base g d) (hrun : (s.run call ctx d).problems = []) :
    ∃ h, s.read R σ g = some h ∧ Fits base h (s.run call ctx d) := by
  induction s generalizing σ g d base with
  | done => exact ⟨g, rfl, hg⟩
  | take => exact ⟨_, rfl, hR.take (hσ.sifted hstart) hσ hg⟩
  | report c => simp [run] at hrun
  | single k =>
      have halike := d.alike_started k
      have hopened : Fits [] R.opened (d.placeTrivia.apart.log (.start k)) := hR.opened rfl
      have htake := hR.take ((hσ.sifted hstart).alike halike) (hσ.alike halike) hopened
      exact ⟨_, rfl, hR.node k hg htake⟩
  | seq a b iha ihb =>
      have hmid : (a.run call ctx d).problems = [] := (hobeys.later_run ctx b _).problems hrun
      obtain ⟨h, ha, hh⟩ := iha hσ hg hmid
      obtain ⟨τ, hτ, hfits⟩ := fits_flow hobeys ctx a hσ fun _ => hmid
      rw [read, ha, hτ]
      exact ihb hfits hh hrun
  | choose t a b iha ihb =>
      refine exists_merge (fun _ _ => hR.join) ?_
      rw [run] at hrun ⊢
      split at hrun
      · next ht =>
          obtain ⟨τ, hτ, hfits⟩ := t.covers_tell ctx hσ ht
          rw [if_pos ht, hτ]
          exact Or.inl (iha hfits (hR.seen hfits hg) hrun)
      · next ht =>
          rw [Bool.not_eq_true] at ht
          obtain ⟨τ, hτ, hfits⟩ := t.covers_tell ctx hσ ht
          rw [if_neg (by simp [ht]), hτ]
          exact Or.inr (ihb hfits (hR.seen hfits hg) hrun)
  | look f ih =>
      exact exists_foldr_merge (fun _ _ => hR.join) (List.mem_map_of_mem hσ.first)
        (ih _ hσ.only (hR.seen hσ.only hg) hrun)
  | ask t f ih =>
      refine exists_merge (fun _ _ => hR.join) ?_
      rw [run] at hrun ⊢
      cases ht : t.holds ctx d with
      | true =>
          rw [ht] at hrun
          obtain ⟨τ, hτ, hfits⟩ := t.covers_tell ctx hσ ht
          rw [hτ]
          exact Or.inl (ih _ hfits (hR.seen hfits hg) hrun)
      | false =>
          rw [ht] at hrun
          obtain ⟨τ, hτ, hfits⟩ := t.covers_tell ctx hσ ht
          rw [hτ]
          exact Or.inr (ih _ hfits (hR.seen hfits hg) hrun)
  | group a ih =>
      obtain ⟨h, ha, hh⟩ := ih (hσ.alike d.alike_opened) (hR.opened rfl) hrun
      exact ⟨_, by rw [read, ha, Option.map_some], hR.group hg hh⟩
  | enclose k a ih =>
      obtain ⟨h, ha, hh⟩ := ih (hσ.alike (d.alike_restarted k)) (hR.log _ hg) hrun
      exact ⟨_, by rw [read, ha, Option.map_some], hR.enclose k hg hh⟩
  | node k a ih =>
      obtain ⟨h, ha, hh⟩ := ih (hσ.alike (d.alike_started k)) (hR.opened rfl) hrun
      exact ⟨_, by rw [read, ha, Option.map_some], hR.node k hg hh⟩
  | call p place =>
      refine ⟨_, rfl, ?_⟩
      split
      · next hnew =>
          refine hR.called p (hcall p _ d (hσ.sifted hstart) hrun fun heq => ?_) hg
          simp only [heq, ne_eq, not_true_eq_false, decide_false, Bool.false_or] at hnew
          simpa using hσ.of_rulesOut hnew
      · exact hR.lost base _
  | advance a ih =>
      have hstep := Draft.advance_eq hrun
      rw [run, hstep] at hrun ⊢
      exact ih hσ hg hrun
  | list close item ih =>
      refine ⟨_, rfl, ?_⟩
      split
      · next hcheck =>
          obtain ⟨hfirst, hitems⟩ := (Bool.and_eq_true ..).mp hcheck
          -- what is widened is kept by an item, and by the comma after it
          refine Draft.items_keep (P := Fits base _) (hobeys.later_run ctx item)
            (fun e he hok hfits => ?_) _ hσ.next.shrunk
            (hR.mono hfirst (hR.take (hσ.sifted hstart) hσ hg)) hrun
          obtain ⟨h, hh, hdone⟩ := ih (fits_later he) hfits hok
          rw [hh, Option.all_some] at hitems
          obtain ⟨hle, hcomma⟩ := (Bool.and_eq_true ..).mp hitems
          have hlater := (hobeys.later_run ctx item e).ahead.trans he
          refine ⟨hR.mono hle hdone, fun hsees => hR.mono hcomma ?_⟩
          have hfits := (fits_later hlater).only
          rw [Draft.kind_of_sees hsees] at hfits
          exact hR.take (hfits.sifted hstart) hfits hdone
      · exact hR.lost base _

end

/-! ## module items -/

namespace Script

/-- What a script does if a token of some kind comes next. -/
def branch : Script → TokenKind → Script
  | look f, k => f k
  | s, _ => s

theorem from_mem_contextualWords : "from".toList ∈ contextualWords := by decide

/-- The names of an export in braces, with the word `from` spelt out where it follows
them. -/
def namedExportsSpelt : Script :=
  ask .fromAfter fun again =>
    exportNames again ++
      choose (.given again) (expectWord "from" from_mem_contextualWords ++ fromModule) done ++
      endStatement

def exportedSpelt : Script :=
  look fun k => if k = .punct .lBrace then namedExportsSpelt else exported.branch k

/-- An item of a program, with the word `from` spelt out after the names of an export. -/
def moduleItemSpelt (source : SourceType) : Script :=
  look fun k =>
    if k = .keyword .exportKw then
      requireModule source ++ node .exportDecl (take ++ exportedSpelt)
    else (moduleItem source).branch k

variable {d : Draft} {ctx : Context} {source : SourceType}

theorem run_namedExportsSpelt (hk : d.kind = .punct .lBrace)
    (hrun : (namedExports.run grammar ctx d).problems = []) :
    namedExportsSpelt.run grammar ctx d = namedExports.run grammar ctx d := by
  have hlater (s : Script) (e : Draft) := (obeys_grammar_strict d).later_run ctx s e
  cases hfrom : Test.fromAfter.holds ctx d with
  | false =>
      rw [namedExportsSpelt, namedExports, run, run, hfrom]
      rfl
  | true =>
      rw [run_namedExports_of_from hfrom] at hrun ⊢
      have hok := (hlater .take _).problems ((hlater (fromModule ++ endStatement) _).problems hrun)
      have hword := seesWord_exportNames hk hfrom hok
      have hexpect : (expectWord "from").run grammar ctx ((exportNames true).run grammar ctx d) =
          ((exportNames true).run grammar ctx d).take := if_pos hword
      rw [← hexpect, namedExportsSpelt, run, hfrom]
      rfl

theorem run_exportedSpelt (hrun : (exported.run grammar ctx d).problems = []) :
    exportedSpelt.run grammar ctx d = exported.run grammar ctx d := by
  by_cases hk : d.kind = .punct .lBrace
  · have heq : exported.run grammar ctx d = namedExports.run grammar ctx d := by
      simp only [exported, run, hk]
    rw [heq] at hrun ⊢
    simp only [exportedSpelt, run, hk, if_true]
    exact run_namedExportsSpelt hk hrun
  · simp only [exportedSpelt, run, hk, if_false]
    rfl

theorem run_exportDecl (call : Call) (a : Script) :
    (requireModule source ++ node .exportDecl (take ++ a)).run call ctx d =
      ((requireModule source).run call ctx d).node .exportDecl fun e => a.run call ctx e.take :=
  rfl

/-- Spelling the word `from` out changes nothing: it was seen before the names were read. -/
theorem run_moduleItemSpelt (hrun : ((moduleItem source).run grammar ctx d).problems = []) :
    (moduleItemSpelt source).run grammar ctx d = (moduleItem source).run grammar ctx d := by
  by_cases hk : d.kind = .keyword .exportKw
  · have heq : (moduleItem source).run grammar ctx d =
        (exportDeclaration source).run grammar ctx d := by
      simp only [moduleItem, run, hk]
    rw [heq, exportDeclaration, run_exportDecl] at hrun ⊢
    simp only [moduleItemSpelt, run, hk, if_true, run_exportDecl]
    simp only [Draft.node, run_exportedSpelt hrun]
  · simp only [moduleItemSpelt, run, hk, if_false]
    rfl

end Script

/-- Scripts that do what those of the grammar do, where what they test may be spelt out
further. -/
structure Spelling where
  script : Production → Script
  item : SourceType → Script
  run_script (p : Production) (call : Call) (ctx : Context) (d : Draft) :
    (script p).run call ctx d = p.script.run call ctx d
  run_item {source : SourceType} {ctx : Context} {d : Draft} :
    ((Script.moduleItem source).run grammar ctx d).problems = [] →
      (item source).run grammar ctx d = (Script.moduleItem source).run grammar ctx d

/-- The scripts of the productions as they are. -/
def Spelling.plain : Spelling where
  script := Production.script
  item := Script.moduleItemSpelt
  run_script _ _ _ _ := rfl
  run_item := Script.run_moduleItemSpelt

/-! ## programs -/

section

variable {α : Type} {R : Reading α} {Fits : List Tree → α → Draft → Prop} {w : α}
  {source : SourceType} (S : Spelling)

/-- A reading that is right about the script of a production, and about the calls that
the script makes, is right about what the production does. -/
theorem Reading.Sound.run_script (hR : R.Sound Fits) {call : Call}
    (hobeys : ∀ start, Obeys true start call) (hcall : R.Holds Fits call) {p : Production}
    (hscript :
      (((S.script p).read R p.entry (R.needs p)).all fun g => R.le g (R.gives p)) = true)
    {ctx : Context} {d : Draft} (hsifted : d.Sifted)
    (hrun : (p.script.run call ctx d).problems = [])
    (hnew : p = .newExpr → d.kind = .keyword .newKw) {base : List Tree}
    (hneeds : Fits base (R.needs p) d) : Fits base (R.gives p) (p.script.run call ctx d) := by
  rw [← S.run_script] at hrun ⊢
  obtain ⟨g, hg, hfits⟩ := Script.covers_read hR (hobeys d) hsifted hcall (S.script p)
    (Production.fits_entry hnew) hneeds hrun
  rw [hg] at hscript
  exact hR.mono hscript hfits

/-- A reading that is right about the script of each production is right about the
grammar. -/
theorem Reading.Sound.holds_grammar (hR : R.Sound Fits)
    (hscripts : ∀ p : Production,
      (((S.script p).read R p.entry (R.needs p)).all fun g => R.le g (R.gives p)) = true) :
    R.Holds Fits grammar := by
  intro p ctx d hsifted hok hnew base hneeds
  refine grammar_induction
    (P := fun p _ d e => d.Sifted → (p = .newExpr → d.kind = .keyword .newKw) →
      ∀ base, Fits base (R.needs p) d → Fits base (R.gives p) e)
    (fun call hobeys hcall p ctx d hrun hsifted hnew base hneeds => ?_) p ctx d hok hsifted hnew
    base hneeds
  exact hR.run_script S hobeys (fun q ctx e he hq => (hcall q ctx e hq).2 he) (hscripts p) hsifted
    hrun hnew hneeds

theorem Reading.Sound.programItems (hR : R.Sound Fits) (hholds : R.Holds Fits grammar)
    (hitem : (((S.item source).read R {} w).all fun g => R.le g w) = true)
    (bound : Nat) {d : Draft} (hd : d.Sifted)
    (hrun : (programItems grammar source bound d).problems = []) (hfits : Fits [] w d) :
    Fits [] w (programItems grammar source bound d) := by
  induction bound generalizing d with
  | zero => exact hfits
  | succ bound ih =>
      rw [FreeNames.programItems] at hrun ⊢
      split at hrun
      · next hended =>
          rw [if_pos hended]
          exact hfits
      · next hended =>
          rw [if_neg hended]
          dsimp only at hrun ⊢
          have hok := (steady_later.programItems later_grammar source bound _).problems hrun
          have hstep := Draft.advance_eq hok
          rw [hstep, ← Script.run_moduleItem] at hok hrun ⊢
          have hlater := (obeys_grammar_strict d).later_run
            { awaits := source = .module } (Script.moduleItem source) d
          refine ih (fun t ht => hd t (hlater.ahead.subset ht)) hrun ?_
          have hspelt := S.run_item hok
          rw [← hspelt] at hok ⊢
          obtain ⟨g, hg, hdone⟩ := Script.covers_read hR (obeys_grammar_strict d) hd hholds
            (S.item source) (fits_start_strict d) hfits hok
          rw [hg] at hitem
          exact hR.mono hitem hdone

/-- What a reading says of the items of a program is true when all have been read. -/
theorem Reading.Sound.ofText (hR : R.Sound Fits) (hholds : R.Holds Fits grammar)
    (hitem : (((S.item source).read R {} w).all fun g => R.le g w) = true)
    (hopened : R.le R.opened w = true) {text : Text} (h : (parse source text).problems = []) :
    ∃ d, Draft.ofText source text = d.placeTrivia ∧ Fits [] w d := by
  have hproblems : (Draft.ofText source text).problems = [] := by simpa [parse] using h
  have hitems : Draft.ofText source text =
      (FreeNames.programItems grammar source (Draft.ofTokens (tokenize text)).rest.length
        (Draft.ofTokens (tokenize text))).placeTrivia := by
    rw [Draft.ofText,
      programItems_eq_grammar source (Nat.le_refl _) (Nat.le_refl _) (Nat.le_refl _)]
  rw [hitems, Draft.problems_placeTrivia] at hproblems
  refine ⟨_, hitems, hR.programItems S hholds hitem _ (Draft.sifted_ofTokens _) hproblems
    (hR.mono hopened (hR.opened rfl))⟩

end

end FreeNames
