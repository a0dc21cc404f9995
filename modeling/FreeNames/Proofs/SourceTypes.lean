import FreeNames.Analysis
import FreeNames.Proofs.Flow
import FreeNames.Proofs.Lossless
import FreeNames.Proofs.Twins

/-!
# FreeNames.Proofs.SourceTypes

Scripts and modules.  The two are read by the same rules in contexts that differ
in one thing, what the word `await` means, and in a script every import or export
is reported.  Rules ask for the meaning of `await` only where that word comes
next; that this is so is computed from their scripts (`Production.indifferent`).
So a text without the word has one tree, and the reports of imports and exports
are all that is wrong with it as a script but not as a module.

These reports stand exactly at the imports and exports of the tree, because no
production makes such a node or such a report (`Production.spares`); only the
items at the top level do, one report for one node.

Main statement: `script_module_agree`.
-/

namespace FreeNames

/-! ## contexts -/

/-- Contexts that differ at most in what `await` means. -/
structure Context.Alike (ctx ctx' : Context) : Prop where
  yields : ctx.yields = ctx'.yields
  noIn : ctx.noIn = ctx'.noIn

/-- What is read from a context does not depend on what `await` means there. -/
def indifferent {α : Type} [DecidableEq α] (f : Context → α) : Bool :=
  [true, false].all fun yields => [true, false].all fun noIn =>
    f ⟨true, yields, noIn⟩ = f ⟨false, yields, noIn⟩

theorem eq_of_indifferent {α : Type} [DecidableEq α] {f : Context → α}
    (h : indifferent f = true) {ctx ctx' : Context} (halike : ctx.Alike ctx') :
    f ctx = f ctx' := by
  obtain ⟨awaits, yields, noIn⟩ := ctx
  obtain ⟨awaits', yields', noIn'⟩ := ctx'
  obtain ⟨rfl, rfl⟩ := halike
  simp only [indifferent, List.all_cons, List.all_nil, Bool.and_true, Bool.and_eq_true,
    decide_eq_true_eq] at h
  obtain ⟨⟨htt, htf⟩, hft, hff⟩ := h
  cases awaits <;> cases awaits' <;> cases yields <;> cases noIn <;> simp_all

/-- The test looks for the word `await`. -/
def Test.wantsAwait : Test → Bool
  | wordAt _ w _ => w = "await"
  | _ => false

/-- The meaning of `await` is asked for only along with the word. -/
@[simp] def Test.indifferent : Test → Bool
  | context p => FreeNames.indifferent p
  | not t => t.indifferent
  | and s t => s.indifferent && t.indifferent || t.wantsAwait
  | or s t => s.indifferent && t.indifferent
  | _ => true

/-- A call is made in contexts that differ no more than those of the rule. -/
def indifferentPlace (f : Context → Context) : Bool :=
  indifferent fun ctx => ((f ctx).yields, (f ctx).noIn)

theorem Context.Alike.place {ctx ctx' : Context} (h : ctx.Alike ctx') {f : Context → Context}
    (hf : indifferentPlace f = true) : (f ctx).Alike (f ctx') := by
  have heq := eq_of_indifferent hf h
  obtain ⟨hyields, hnoIn⟩ := Prod.mk.inj heq
  exact ⟨hyields, hnoIn⟩

/-! ## drafts with other reports -/

/-- A report of an import or export that needs a module. -/
def Problem.isModuleOnly (p : Problem) : Bool := p.cause = .moduleOnly

namespace Draft

/-- A draft with other problems. -/
def withProblems (d : Draft) (problems : List Problem) : Draft := { d with problems := problems }

theorem placeTrivia_withProblems (d : Draft) (problems : List Problem) :
    (d.withProblems problems).placeTrivia = d.placeTrivia.withProblems problems := by
  obtain ⟨rest, last, trees, base, steps, _⟩ := d
  cases rest <;> rfl

theorem take_withProblems (d : Draft) (problems : List Problem) :
    (d.withProblems problems).take = d.take.withProblems problems := by
  obtain ⟨rest, last, trees, base, steps, _⟩ := d
  cases rest <;> rfl

/-- The word `await` is not among the tokens that are left. -/
def NoAwait (d : Draft) : Prop := ⟨.ident, "await".toList⟩ ∉ d.ahead

theorem NoAwait.wordAt {d : Draft} (h : d.NoAwait) (n : Nat) : d.wordAt n "await" = false := by
  rw [wordAt_eq, decide_eq_false_iff_not]
  intro hget
  exact h (List.mem_of_getElem? hget)

theorem NoAwait.take {d : Draft} (h : d.NoAwait) : d.take.NoAwait := by
  rw [NoAwait, ahead_take]
  exact fun hmem => h (List.mem_of_mem_tail hmem)

theorem NoAwait.placeTrivia {d : Draft} (h : d.NoAwait) : d.placeTrivia.NoAwait := by
  rwa [NoAwait, ahead_placeTrivia]

/-- Drafts that differ only in reports of imports and exports, when no `await` is
left. -/
structure Agree (d e : Draft) : Prop where
  eq : e = d.withProblems e.problems
  problems : e.problems.filter (!·.isModuleOnly) = d.problems.filter (!·.isModuleOnly)
  noAwait : d.NoAwait

/-- What agrees with a draft is the draft with other problems. -/
theorem Agree.elim {d e : Draft} (h : Agree d e) :
    ∃ ps, e = d.withProblems ps ∧
      ps.filter (!·.isModuleOnly) = d.problems.filter (!·.isModuleOnly) :=
  ⟨e.problems, h.eq, h.problems⟩

theorem Agree.trees {d e : Draft} (h : Agree d e) : e.trees = d.trees := by
  rw [h.eq]
  rfl

theorem Agree.steps {d e : Draft} (h : Agree d e) : e.steps = d.steps := by
  rw [h.eq]
  rfl

theorem likeness_agree : Likeness Agree where
  length h := by rw [h.eq]; rfl
  kind h := by rw [h.eq]; rfl
  placeTrivia {d e} h := by
    obtain ⟨ps, rfl, hps⟩ := h.elim
    rw [placeTrivia_withProblems]
    exact ⟨rfl, by simpa [withProblems] using hps, h.noAwait.placeTrivia⟩
  take {d e} h := by
    obtain ⟨ps, rfl, hps⟩ := h.elim
    rw [take_withProblems]
    exact ⟨rfl, by simpa [withProblems] using hps, h.noAwait.take⟩
  report {d e} c h := by
    obtain ⟨ps, rfl, hps⟩ := h.elim
    have hspan : (d.withProblems ps).spanHere = d.spanHere := rfl
    have hproblems : (d.withProblems ps).problems = ps := rfl
    exact ⟨rfl, by simp only [problems_report, List.filter_cons, hspan, hproblems, hps],
      h.noAwait⟩
  apart {d e} h := by
    obtain ⟨ps, rfl, hps⟩ := h.elim
    exact ⟨rfl, hps, h.noAwait⟩
  start {d e} k h := by
    obtain ⟨ps, rfl, hps⟩ := h.elim
    exact ⟨rfl, hps, h.noAwait⟩
  startAt {d e} k h := by
    obtain ⟨ps, rfl, hps⟩ := h.elim
    exact ⟨rfl, hps, h.noAwait⟩
  close {d e} k h := by
    obtain ⟨ps, rfl, hps⟩ := h.elim
    exact ⟨rfl, hps, h.noAwait⟩
  rejoin {d e d' e'} h h' := by
    obtain ⟨ps, rfl, hps⟩ := h.elim
    obtain ⟨ps', rfl, -⟩ := h'.elim
    exact ⟨rfl, hps, h.noAwait⟩

end Draft

/-- Drafts that agree answer tests alike, also in contexts that differ in what
`await` means. -/
theorem Test.holds_agree (t : Test) {ctx ctx' : Context} {d e : Draft}
    (ht : t.indifferent = true) (hctx : ctx.Alike ctx') (h : d.Agree e) :
    t.holds ctx d = t.holds ctx' e := by
  obtain ⟨ps, rfl, -⟩ := h.elim
  induction t with
  | context p => exact eq_of_indifferent ht hctx
  | not t ih => rw [holds, holds, ih ht]
  | and s t ihs iht =>
      rcases (Bool.or_eq_true ..).mp ht with ht | hawait
      · obtain ⟨hs, ht⟩ := (Bool.and_eq_true ..).mp ht
        rw [holds, holds, ihs hs, iht ht]
      · -- the word does not come
        cases t with
        | wordAt n w hw =>
            obtain rfl : w = "await" := of_decide_eq_true hawait
            have hword : d.wordAt n "await" = false := h.noAwait.wordAt n
            have hword' : (d.withProblems ps).wordAt n "await" = false := hword
            simp [hword, hword']
        | _ => cases hawait
  | or s t ihs iht =>
      obtain ⟨hs, ht⟩ := (Bool.and_eq_true ..).mp ht
      rw [holds, holds, ihs hs, iht ht]
  | _ => rfl

/-- Rules ask what `await` means only where the word comes next. -/
def indifference : Check := { test := Test.indifferent, place := indifferentPlace }

theorem Script.indifferent_binaryTail (least : Nat) :
    (binaryTail least).passes indifference = true := by
  refine List.all_eq_true.mpr fun k _ => ?_
  dsimp only
  split
  · rfl
  · have hcontext (p : Nat) : (Test.context fun ctx =>
        p < least || ctx.noIn && k = .keyword .inKw).indifferent = true := by
      simp [FreeNames.indifferent]
    simp only [passes, hcontext, indifference]
    rfl

theorem Production.indifferent (p : Production) : p.script.passes indifference = true := by
  cases p with
  | binary least => rfl
  | binaryTail least => exact Script.indifferent_binaryTail least
  | suffixes calls => cases calls <;> decide +kernel
  | _ => decide +kernel

/-! ## both parses of a text -/

section

variable {call call' : Call} {ctx ctx' : Context} {d e : Draft}
  (hcall : ∀ (p : Production) {ctx ctx' : Context} {d e : Draft}, ctx.Alike ctx' → d.Agree e →
    (call p ctx d).Agree (call' p ctx' e))

include hcall

theorem agree_run (hctx : ctx.Alike ctx') {s : Script} (hs : s.passes indifference = true)
    (h : d.Agree e) : (s.run call ctx d).Agree (s.run call' ctx' e) :=
  Draft.likeness_agree.run_of_passes (fun t _ _ _ _ => t.holds_agree)
    (fun _ _ _ hf hctx => hctx.place hf) hcall hctx hs h

/-- A declaration that a script reports is made all the same. -/
theorem agree_declaration (hctx : ctx.Alike ctx') {s : Script}
    (hs : s.passes indifference = true) (h : d.Agree e) :
    ((Script.requireModule .script ++ s).run call ctx d).Agree
      ((Script.requireModule .module ++ s).run call' ctx' e) := by
  refine agree_run hcall hctx hs ?_
  obtain ⟨ps, rfl, hps⟩ := h.elim
  refine ⟨rfl, ?_, h.noAwait⟩
  simpa [Script.requireModule, Problem.isModuleOnly, List.filter_cons, Draft.withProblems] using hps

theorem agree_moduleItem (hctx : ctx.Alike ctx') (h : d.Agree e) :
    (Grammar.moduleItem call .script ctx d).Agree (Grammar.moduleItem call' .module ctx' e) := by
  rw [← Script.run_moduleItem, ← Script.run_moduleItem, Script.moduleItem, Script.moduleItem,
    Script.run, Script.run, Draft.likeness_agree.kind h]
  cases e.kind with
  | keyword k =>
      cases k with
      | importKw =>
          have htest : Test.seesImportExpr.holds ctx d = Test.seesImportExpr.holds ctx' e :=
            Test.holds_agree _ (by decide) hctx h
          simp only [Script.run_choose, htest]
          split
          · exact hcall .statement hctx h
          · exact agree_declaration hcall hctx (by decide +kernel) h
      | exportKw => exact agree_declaration hcall hctx (by decide +kernel) h
      | _ => exact hcall .statement hctx h
  | _ => exact hcall .statement hctx h

end

theorem agree_derive (bound : Nat) (p : Production) {ctx ctx' : Context} {d e : Draft}
    (hctx : ctx.Alike ctx') (h : d.Agree e) :
    (derive bound p ctx d).Agree (derive bound p ctx' e) := by
  induction bound generalizing p ctx ctx' d e with
  | zero => exact h
  | succ bound ih =>
      rw [derive, derive, p.rule_eq_run, p.rule_eq_run]
      exact agree_run ih hctx p.indifferent h

theorem agree_programItems (depth bound : Nat) {d e : Draft} (h : d.Agree e) :
    (programItems (derive depth) .script bound d).Agree
      (programItems (derive depth) .module bound e) := by
  induction bound generalizing d e with
  | zero => exact h
  | succ bound ih =>
      rw [programItems, programItems, Draft.likeness_agree.ended h]
      split
      · exact h
      · exact ih (Draft.likeness_agree.advance h (agree_moduleItem (agree_derive depth) ⟨rfl, rfl⟩ h))

theorem Draft.noAwait_ofTokens {ts : List Token} (h : ⟨.ident, "await".toList⟩ ∉ ts) :
    (ofTokens ts).NoAwait := by
  intro hmem
  obtain ⟨l, hl, htoken⟩ := List.mem_map.mp hmem
  apply h
  rw [← left_ofTokens ts, ← htoken, left, List.mem_append, List.mem_flatMap]
  exact Or.inl ⟨l, hl, by simp⟩

theorem agree_ofText {text : Text} (h : ⟨.ident, "await".toList⟩ ∉ tokenize text) :
    (Draft.ofText .script text).Agree (Draft.ofText .module text) :=
  Draft.likeness_agree.placeTrivia
    (agree_programItems _ _ ⟨rfl, rfl, Draft.noAwait_ofTokens h⟩)

/-! ## imports and exports in a tree -/

/-- Imports and exports. -/
def NodeKind.isModuleItem : NodeKind → Bool
  | .importDecl | .exportDecl => true
  | _ => false

namespace Tree

mutual

/-- Where the imports and exports in a tree start, if the tree starts at `start`. -/
def moduleItems (start : Nat) : Tree → List Nat
  | .leaf _ => []
  | .node kind parts =>
    (if kind.isModuleItem then [start] else []) ++ moduleItemsAll start parts

/-- Where the imports and exports in trees in a row start. -/
def moduleItemsAll (start : Nat) : List Tree → List Nat
  | [] => []
  | t :: ts => t.moduleItems start ++ moduleItemsAll (start + t.size) ts

end

mutual

theorem map_start_within (above : List Node) (start : Nat) : (t : Tree) →
    ((Site.within above start t).filter fun s => s.node.kind.isModuleItem).map (·.node.start) =
      t.moduleItems start
  | .leaf _ => rfl
  | .node k ps => by
      rw [Site.within, moduleItems, ← map_start_withinAll (⟨start, k, ps⟩ :: above) start ps,
        List.filter_cons]
      split <;> rfl

theorem map_start_withinAll (above : List Node) (start : Nat) : (ts : List Tree) →
    ((Site.withinAll above start ts).filter fun s => s.node.kind.isModuleItem).map (·.node.start) =
      moduleItemsAll start ts
  | [] => rfl
  | t :: ts => by
      rw [Site.withinAll, moduleItemsAll, List.filter_append, List.map_append,
        map_start_within above start t, map_start_withinAll above _ ts]

end

theorem moduleItemsAll_append (start : Nat) (ss ts : List Tree) :
    moduleItemsAll start (ss ++ ts) =
      moduleItemsAll start ss ++ moduleItemsAll (start + sizeAll ss) ts := by
  induction ss generalizing start with
  | nil => simp [moduleItemsAll, sizeAll]
  | cons s ss ih => simp [moduleItemsAll, sizeAll, ih, Nat.add_assoc]

theorem moduleItemsAll_map_leaf (start : Nat) (ts : List Token) :
    moduleItemsAll start (ts.map leaf) = [] := by
  induction ts generalizing start with
  | nil => rfl
  | cons t ts ih => simp [moduleItemsAll, moduleItems, ih]

@[simp] theorem moduleItemsAll_nil (start : Nat) : moduleItemsAll start [] = [] := rfl

theorem moduleItemsAll_node (start : Nat) (k : NodeKind) (ps : List Tree) :
    moduleItemsAll start [.node k ps] =
      (if k.isModuleItem then [start] else []) ++ moduleItemsAll start ps := by
  simp [moduleItemsAll, moduleItems]

end Tree

namespace Draft

/-- No import or export is added to the trees. -/
def SparesTrees (d e : Draft) : Prop :=
  ∀ start, Tree.moduleItemsAll start e.trees.reverse = Tree.moduleItemsAll start d.trees.reverse

/-- No import or export is reported. -/
def SparesProblems (d e : Draft) : Prop :=
  e.problems.filter Problem.isModuleOnly = d.problems.filter Problem.isModuleOnly

theorem sparesTrees_place (d : Draft) (ts : List Token) : SparesTrees d (d.place ts) := by
  intro start
  rw [trees_place, List.reverse_append, List.reverse_reverse, Tree.moduleItemsAll_append,
    Tree.moduleItemsAll_map_leaf, List.append_nil]

theorem sparesTrees_placeTrivia (d : Draft) : SparesTrees d d.placeTrivia := by
  cases h : d.rest with
  | nil =>
      rw [placeTrivia_nil h]
      exact sparesTrees_place d _
  | cons l ls =>
      rw [placeTrivia_cons h]
      exact sparesTrees_place d _

theorem steady_sparesTrees : Steady SparesTrees fun k => !k.isModuleItem where
  refl _ _ := rfl
  trans hde hef start := (hef start).trans (hde start)
  placeTrivia := sparesTrees_placeTrivia
  take d := by
    cases h : d.rest with
    | nil =>
        rw [take, h]
        exact sparesTrees_placeTrivia d
    | cons l ls =>
        rw [take_cons h]
        exact sparesTrees_place d _
  report _ _ _ _ := rfl
  group {d e} h start := by
    have hnil := h (start + Tree.sizeAll d.trees.reverse)
    simpa [Tree.moduleItemsAll_append] using hnil
  enclose {d e k} hk h start := by
    have hkind : k.isModuleItem = false := by simpa using hk
    simpa [Tree.moduleItemsAll_node, hkind] using h start
  node {d e k} hk h start := by
    have hkind : k.isModuleItem = false := by simpa using hk
    have hnil := h (start + Tree.sizeAll d.trees.reverse)
    simpa [Tree.moduleItemsAll_append, Tree.moduleItemsAll_node, hkind] using hnil

theorem steady_sparesProblems :
    Steady SparesProblems (fun _ => true) fun c => c ≠ .moduleOnly where
  refl _ := rfl
  trans hde hef := hef.trans hde
  placeTrivia d := by simp [SparesProblems]
  take d := by simp [SparesProblems]
  report d c hc := by simpa [SparesProblems, List.filter_cons, Problem.isModuleOnly] using hc
  group h := h
  enclose _ h := h
  node _ h := h

/-! ## where problems are reported -/

/-- Tokens that are left after a lexeme. -/
def leftAfter (d : Draft) (ls : List Lexeme) : List Token :=
  ls.flatMap (fun l => l.gap.trivia ++ [l.token]) ++ d.last.trivia

/-- The gap before each token stops so many bytes before the end of the text as
the tokens that are left from there take. -/
def Timed (size : Nat) (d : Draft) : Prop :=
  ∀ before l after, d.rest = before ++ l :: after →
    l.gap.stop + l.token.size + Token.sizeAll (d.leftAfter after) = size

theorem Timed.placeTrivia {size : Nat} {d : Draft} (h : d.Timed size) :
    d.placeTrivia.Timed size := by
  cases hr : d.rest with
  | nil =>
      intro before l after hsplit
      rw [placeTrivia_nil hr] at hsplit
      simp [hr] at hsplit
  | cons m ms =>
      rw [placeTrivia_cons hr]
      intro before l after hsplit
      cases before with
      | nil =>
          obtain ⟨rfl, rfl⟩ := List.cons.inj hsplit
          exact h [] m ms hr
      | cons b before =>
          obtain ⟨-, rfl⟩ := List.cons.inj hsplit
          exact h (m :: before) l after hr

theorem Timed.take {size : Nat} {d : Draft} (h : d.Timed size) : d.take.Timed size := by
  cases hr : d.rest with
  | nil =>
      rw [Draft.take, hr]
      exact h.placeTrivia
  | cons m ms =>
      rw [take_cons hr]
      rintro before l after rfl
      exact h (m :: before) l after hr

theorem steady_timed (size : Nat) : Steady fun d e => d.Timed size → e.Timed size where
  refl _ h := h
  trans hde hef h := hef (hde h)
  placeTrivia _ h := h.placeTrivia
  take _ h := h.take
  report _ _ _ h := h
  group hbody h := hbody h
  enclose _ hbody h := hbody h
  node _ hbody h := hbody h

theorem timed_lexemesFrom (g : Gap) (ts : List Token) :
    ∀ before l after, (lexemesFrom g ts).1 = before ++ l :: after →
      l.gap.stop + l.token.size + Token.sizeAll
        (after.flatMap (fun l => l.gap.trivia ++ [l.token]) ++ (lexemesFrom g ts).2.trivia) =
        g.stop + Token.sizeAll ts := by
  induction ts generalizing g with
  | nil => simp [lexemesFrom]
  | cons t ts ih =>
      intro before l after hsplit
      by_cases ht : t.isTrivia = true
      · rw [lexemesFrom, dif_pos ht] at hsplit ⊢
        have heq := ih _ before l after hsplit
        simp only [Gap.push] at heq ⊢
        rw [heq, Token.sizeAll_cons]
        omega
      · rw [lexemesFrom, dif_neg ht] at hsplit ⊢
        cases before with
        | nil =>
            obtain ⟨rfl, rfl⟩ := List.cons.inj hsplit
            simp only [left_lexemesFrom, Gap.empty, List.nil_append, Token.sizeAll_cons]
            omega
        | cons b before =>
            obtain ⟨-, hsplit⟩ := List.cons.inj hsplit
            have heq := ih _ before l after hsplit
            simp only [Gap.empty] at heq ⊢
            rw [heq, Token.sizeAll_cons]
            omega

theorem timed_ofTokens (ts : List Token) : (ofTokens ts).Timed (Token.sizeAll ts) := by
  intro before l after hsplit
  exact (timed_lexemesFrom (.empty 0) ts before l after hsplit).trans (Nat.zero_add _)

/-- The trees and the tokens that are left make up the text, and gaps know where
they stop. -/
structure Placed (size : Nat) (d : Draft) : Prop where
  total : Token.sizeAll (Tree.tokensAll d.trees.reverse) + Token.sizeAll d.left = size
  timed : d.Timed size

/-- The next token starts where the trees and the trivia before it end. -/
theorem Placed.stop_eq {size : Nat} {d : Draft} (h : d.Placed size) {l : Lexeme}
    {ls : List Lexeme} (hr : d.rest = l :: ls) :
    l.gap.stop = Tree.sizeAll d.placeTrivia.trees.reverse := by
  have htotal := h.total
  have htimed := h.timed [] l ls hr
  rw [left, hr, List.flatMap_cons, List.append_assoc, List.append_assoc, ← leftAfter] at htotal
  simp only [Token.sizeAll_append, Token.sizeAll_cons, Token.sizeAll_nil] at htotal
  rw [placeTrivia_cons hr]
  simp only [trees_place, List.reverse_append, List.reverse_reverse]
  rw [Tree.sizeAll_eq, Tree.tokensAll_append, Tree.tokensAll_map_leaf, Token.sizeAll_append]
  omega

theorem Placed.next {size : Nat} {d e : Draft} (h : d.Placed size) (hreads : Reads d e)
    (htimed : d.Timed size → e.Timed size) : e.Placed size := by
  obtain ⟨new, htrees, -, hleft⟩ := hreads
  refine ⟨?_, htimed h.timed⟩
  have htotal := h.total
  rw [hleft, Token.sizeAll_append] at htotal
  rw [htrees, Token.sizeAll_append]
  omega

/-- Imports and exports are reported where they start. -/
def Noted (d : Draft) : Prop :=
  (d.problems.reverse.filter Problem.isModuleOnly).map (·.span.start) =
    Tree.moduleItemsAll 0 d.trees.reverse

theorem Noted.next {d e : Draft} (h : d.Noted) (htrees : SparesTrees d e)
    (hproblems : SparesProblems d e) : e.Noted := by
  rw [Noted, htrees, List.filter_reverse, hproblems, ← List.filter_reverse]
  exact h

/-- A declaration is reported where it starts, and holds no other. -/
theorem Noted.declaration {size : Nat} {d : Draft} (h : d.Noted) (hplaced : d.Placed size)
    (hd : d.rest ≠ []) {k : NodeKind} (hk : k.isModuleItem = true) {body : Draft → Draft}
    (htrees : ∀ e, SparesTrees e (body e)) (hproblems : ∀ e, SparesProblems e (body e)) :
    ((d.report .moduleOnly).node k body).Noted := by
  obtain ⟨l, ls, hr⟩ := List.exists_cons_of_ne_nil hd
  let e := (d.report .moduleOnly).placeTrivia
  have hstart : d.spanHere.start = Tree.sizeAll e.trees.reverse := by
    have hreport : e.trees = d.placeTrivia.trees := by
      simp [e, placeTrivia_cons hr, placeTrivia_cons (d := d.report .moduleOnly) hr]
    rw [hreport, ← hplaced.stop_eq hr]
    simp [spanHere, hr]
  have hreports : ((d.report .moduleOnly).node k body).problems.filter Problem.isModuleOnly =
      ⟨.moduleOnly, d.spanHere⟩ :: d.problems.filter Problem.isModuleOnly := by
    refine (hproblems (e.apart.log (.start k))).trans ?_
    have hproblems : (e.apart.log (.start k)).problems =
        ⟨.moduleOnly, d.spanHere⟩ :: d.problems := by simp [e]
    rw [hproblems]
    rfl
  have hitems : Tree.moduleItemsAll 0 ((d.report .moduleOnly).node k body).trees.reverse =
      Tree.moduleItemsAll 0 d.trees.reverse ++ [d.spanHere.start] := by
    have hbefore : Tree.moduleItemsAll 0 e.trees.reverse = Tree.moduleItemsAll 0 d.trees.reverse :=
      sparesTrees_placeTrivia (d.report .moduleOnly) 0
    have hinside := htrees (e.apart.log (.start k)) (Tree.sizeAll e.trees.reverse)
    have hparts : ((d.report .moduleOnly).node k body).trees.reverse =
        e.trees.reverse ++ [.node k (body (e.apart.log (.start k))).trees.reverse] := by
      simp [node, e]
    rw [hparts, Tree.moduleItemsAll_append, Tree.moduleItemsAll_node, hbefore, Nat.zero_add,
      hinside, if_pos hk, hstart]
    rfl
  rw [Noted, List.filter_reverse] at h ⊢
  rw [hreports, hitems, List.reverse_cons, List.map_append, h]
  rfl

end Draft

/-! ## the top level -/

/-- No nodes for imports and exports, and no reports of them. -/
def spares : Check := { kind := fun k => !k.isModuleItem, cause := fun c => c ≠ .moduleOnly }

theorem Production.spares (p : Production) : p.script.passes spares = true := by
  cases p with
  | binary least => rfl
  | binaryTail least => rfl
  | suffixes calls => cases calls <;> decide +kernel
  | _ => decide +kernel

theorem Script.sparesTrees_run (depth : Nat) (ctx : Context) {s : Script}
    (hs : s.passes spares = true) (d : Draft) : d.SparesTrees (s.run (derive depth) ctx d) := by
  have hkinds {s : Script} (hs : s.passes spares = true) :
      s.passes { kind := fun k => !k.isModuleItem } = true :=
    passes_of_imp hs rfl rfl (fun _ => id) fun _ _ => rfl
  exact Draft.steady_sparesTrees.run_of_passes
    (Draft.steady_sparesTrees.derive_of_passes (fun p => hkinds p.spares) depth) ctx (hkinds hs) d

theorem Production.reports (p : Production) :
    p.script.passes { cause := fun c => c ≠ .moduleOnly } = true :=
  Script.passes_of_imp p.spares rfl rfl (fun _ _ => rfl) fun _ => id

theorem Script.sparesProblems_run (depth : Nat) (ctx : Context) {s : Script}
    (hs : s.passes { cause := fun c => c ≠ .moduleOnly } = true) (d : Draft) :
    d.SparesProblems (s.run (derive depth) ctx d) :=
  Draft.steady_sparesProblems.run_of_passes
    (Draft.steady_sparesProblems.derive_of_passes Production.reports depth) ctx hs d

theorem Draft.Noted.run {d : Draft} (h : d.Noted) (depth : Nat) (ctx : Context) {s : Script}
    (hs : s.passes spares = true) : (s.run (derive depth) ctx d).Noted :=
  h.next (Script.sparesTrees_run depth ctx hs d)
    (Script.sparesProblems_run depth ctx
      (Script.passes_of_imp hs rfl rfl (fun _ _ => rfl) fun _ => id) d)

theorem Draft.Noted.run_declaration {size : Nat} {d : Draft} (h : d.Noted)
    (hplaced : d.Placed size) (hd : d.rest ≠ []) (depth : Nat) (ctx : Context) {k : NodeKind}
    (hk : k.isModuleItem = true) {s : Script} (hs : s.passes spares = true) :
    ((Script.requireModule .script ++ .node k s).run (derive depth) ctx d).Noted :=
  h.declaration hplaced hd hk (Script.sparesTrees_run depth ctx hs)
    (Script.sparesProblems_run depth ctx
      (Script.passes_of_imp hs rfl rfl (fun _ _ => rfl) fun _ => id))

theorem Draft.Noted.moduleItem {size : Nat} {d : Draft} (h : d.Noted) (hplaced : d.Placed size)
    (hd : d.rest ≠ []) (depth : Nat) (ctx : Context) :
    (Grammar.moduleItem (derive depth) .script ctx d).Noted := by
  have hstatement : (derive depth .statement ctx d).Noted :=
    h.run depth ctx (s := .call .statement) rfl
  rw [← Script.run_moduleItem, Script.moduleItem, Script.run]
  cases d.kind with
  | keyword k =>
      cases k with
      | importKw =>
          simp only [Script.run_choose]
          split
          · exact hstatement
          · exact h.run_declaration hplaced hd depth ctx rfl (by decide)
      | exportKw => exact h.run_declaration hplaced hd depth ctx rfl (by decide)
      | _ => exact hstatement
  | _ => exact hstatement

theorem Draft.Noted.programItems (depth bound size : Nat) {d : Draft} (h : d.Noted)
    (hplaced : d.Placed size) : (programItems (derive depth) .script bound d).Noted := by
  induction bound generalizing d with
  | zero => exact h
  | succ bound ih =>
      rw [FreeNames.programItems]
      split
      · exact h
      · next hended =>
          have hrest : d.rest ≠ [] := by simpa [Draft.ended] using hended
          let ctx : Context := { awaits := SourceType.script = .module }
          have hitem := h.moduleItem hplaced hrest depth ctx
          have hsteady {R : Draft → Draft → Prop} (hR : Steady R) :
              R d (d.advance (Grammar.moduleItem (derive depth) .script ctx)) :=
            hR.advance (hR.moduleItem (hR.derive depth) .script ctx d)
          refine ih ?_ (hplaced.next (hsteady steady_reads) (hsteady (steady_timed size)))
          unfold Draft.advance
          dsimp only
          split
          · exact hitem.next (steady_sparesTrees.skip _ rfl) (steady_sparesProblems.skip _ rfl)
          · exact hitem

/-- Imports and exports of a script are reported where they start, and nothing
else is reported for the lack of a module. -/
theorem noted_ofText (text : Text) : (Draft.ofText .script text).Noted := by
  have hplaced : (Draft.ofTokens (tokenize text)).Placed (Token.sizeAll (tokenize text)) :=
    ⟨by rw [Draft.left_ofTokens]; simp [Draft.ofTokens], Draft.timed_ofTokens _⟩
  have hnoted : (Draft.ofTokens (tokenize text)).Noted := rfl
  exact (hnoted.programItems _ _ _ hplaced).next (Draft.sparesTrees_placeTrivia _)
    (Draft.steady_sparesProblems.placeTrivia _)

/-- Nothing is reported in a module for the lack of one. -/
theorem filter_problems_module (text : Text) :
    (Draft.ofText .module text).problems.filter Problem.isModuleOnly = [] := by
  let d := Draft.ofTokens (tokenize text)
  have hR := Draft.steady_sparesProblems
  have hitem : (Script.moduleItem .module).passes { cause := fun c => c ≠ .moduleOnly } = true := by
    decide
  have hderive := hR.derive_of_passes Production.reports (chainBound * (d.rest.length + 1))
  exact hR.trans (hR.programItems_of_passes hderive hitem d.rest.length d) (hR.placeTrivia _)

/-! ## the two parses of a text -/

theorem Problem.filter_not_isModuleOnly (ps : List Problem) (h : ps.filter isModuleOnly = []) :
    ps.filter (!·.isModuleOnly) = ps := by
  rw [List.filter_eq_self]
  intro p hp
  have hnot := List.filter_eq_nil_iff.mp h p hp
  simpa using hnot

/-- As a module, a text without `await` is what it is as a script, less the reports
of its imports and exports. -/
theorem parse_module_eq {text : Text} (h : ⟨.ident, "await".toList⟩ ∉ tokenize text) :
    parse .module text =
      { parse .script text with
        problems := (parse .script text).problems.filter (!·.isModuleOnly) } := by
  have hagree := agree_ofText h
  have hnone := Problem.filter_not_isModuleOnly _ (filter_problems_module text)
  simp only [parse, Draft.steps_log, hagree.trees, hagree.steps, List.filter_reverse,
    ← hagree.problems, hnone]

theorem globals_script_eq {text : Text} (h : ⟨.ident, "await".toList⟩ ∉ tokenize text) :
    globals .script text = globals .module text := by
  have heither : parseEither .script text = parseEither .module text := by
    unfold parseEither
    cases hneeds : (parse .script text).needsModule with
    | true => simp [hneeds]
    | false =>
        have hnone : (parse .script text).problems.filter Problem.isModuleOnly = [] := by
          rw [List.filter_eq_nil_iff]
          exact List.any_eq_false.mp hneeds
        simp [hneeds, parse_module_eq h, Problem.filter_not_isModuleOnly _ hnone]
  rw [globals, globals, parseProgram, parseProgram, heither]

/-- The reports of imports and exports in a script stand where these start, one for
each. -/
theorem map_start_moduleOnly (text : Text) :
    ((parse .script text).problems.filter Problem.isModuleOnly).map (·.span.start) =
      ((parse .script text).root.descendants.filter fun s => s.node.kind.isModuleItem).map
        (·.node.start) := by
  have hroot : (parse .script text).root.descendants =
      Site.within [] 0 (parse .script text).tree := Site.descendants_eq_within _
  rw [hroot, Tree.map_start_within, Parse.tree, Tree.moduleItems]
  exact noted_ofText text

/-- A text without the word `await` has the same tree as a script and as a module.
What is wrong with the module is what is wrong with the script, less the reports of
imports and exports.  There is one such report for each import and each export,
where it starts; so a script needs to be taken for a module exactly if it has one.
The globals are the same, or the fault is. -/
theorem script_module_agree (text : Text) (h : ⟨.ident, "await".toList⟩ ∉ tokenize text) :
    (parse .module text).tree = (parse .script text).tree ∧
      (parse .module text).problems =
        (parse .script text).problems.filter (!·.isModuleOnly) ∧
      ((parse .script text).problems.filter Problem.isModuleOnly).map (·.span.start) =
        ((parse .script text).root.descendants.filter fun s => s.node.kind.isModuleItem).map
          (·.node.start) ∧
      ((parse .script text).needsModule = true ↔
        ∃ s ∈ (parse .script text).root.descendants, s.node.kind.isModuleItem = true) ∧
      globals .script text = globals .module text := by
  have hstarts := map_start_moduleOnly text
  have hnone : (parse .script text).problems.filter Problem.isModuleOnly = [] ↔
      ((parse .script text).root.descendants.filter fun s => s.node.kind.isModuleItem) = [] := by
    rw [← List.map_eq_nil_iff, hstarts, List.map_eq_nil_iff]
  have hneeds : (parse .script text).needsModule = true ↔
      (parse .script text).problems.filter Problem.isModuleOnly ≠ [] := by
    simp [Parse.needsModule, Problem.isModuleOnly]
  refine ⟨?_, ?_, hstarts, ?_, globals_script_eq h⟩
  · rw [parse_module_eq h]
    rfl
  · rw [parse_module_eq h]
  · rw [hneeds, Ne, hnone]
    simp

/-- An import, an import where none may stand, and an export. -/
theorem script_module_agree_nested_import :
    let text : Text :=
      "import f from \"m\";\nif (f) \x7b import \"n\" \x7d\nexport default async x => f(x, y);".toList
    ⟨.ident, "await".toList⟩ ∉ tokenize text ∧
      (parse .module text).tree = (parse .script text).tree ∧
      (parse .script text).problems.map Problem.cause = [.moduleOnly, .notTopLevel, .moduleOnly] ∧
      (parse .module text).problems.map Problem.cause = [.notTopLevel] ∧
      (∃ s ∈ (parse .script text).root.descendants, s.node.kind.isModuleItem = true) ∧
      globals .script text = globals .module text := by
  intro text
  have hrun : ⟨.ident, "await".toList⟩ ∉ tokenize text ∧
      (parse .script text).problems.map Problem.cause = [.moduleOnly, .notTopLevel, .moduleOnly] ∧
      ((parse .script text).problems.filter (!·.isModuleOnly)).map Problem.cause =
        [.notTopLevel] ∧ (parse .script text).needsModule = true := by decide +kernel
  obtain ⟨h, hcauses, hrest, hmodule⟩ := hrun
  obtain ⟨htree, hproblems, -, hneeds, hglobals⟩ := script_module_agree text h
  refine ⟨h, htree, hcauses, ?_, hneeds.mp hmodule, hglobals⟩
  rw [hproblems]
  exact hrest

end FreeNames
