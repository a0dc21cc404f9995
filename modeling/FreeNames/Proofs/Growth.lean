import FreeNames.Proofs.Progress
import FreeNames.Proofs.Undotted

/-!
# FreeNames.Proofs.Growth

What scripts gather.  A `Growth` tells what is known about the trees of the open
group or node: whether an expression has been added to those that were there
before, and what the last of them is if a backtick comes next.  `Script.grow`
computes it through a script that reports no problem.

A template after an operand is its suffix, so an expression that ends before a
backtick ends with something else: a postfix operator, a `yield` without operand
or the body of an arrow function (`Tree.Shut`).

Main statements: `grammar_induction`, what a rule keeps if all calls keep it holds
of the grammar; `grows_grammar`, each production for an expression adds one node
for it, and a backtick follows only if the node is shut.
-/

namespace FreeNames

/-! ## induction along the calls of the grammar -/

theorem obeys_grammar_strict (start : Draft) : Obeys true start grammar where
  later := later_grammar
  template _ _ hs := by cases hs
  calm p ctx d := (obeys_derive_strict _ start).calm p ctx d

/-- What holds of the result of each production is proved from its script.  Calls
that the script makes do what the grammar does, unless they report a problem. -/
theorem grammar_induction {P : Production → Context → Draft → Draft → Prop}
    (hstep : ∀ call : Call, (∀ start, Obeys true start call) →
      (∀ p ctx d, (call p ctx d).problems = [] →
        call p ctx d = grammar p ctx d ∧ P p ctx d (call p ctx d)) →
      ∀ p ctx d, (p.script.run call ctx d).problems = [] → P p ctx d (p.script.run call ctx d))
    (p : Production) (ctx : Context) (d : Draft) (h : (grammar p ctx d).problems = []) :
    P p ctx d (grammar p ctx d) := by
  classical
  -- by the depth of calls; those that are not deeper count as problems
  induction hn : p.depth d using Nat.strongRecOn generalizing p ctx d with
  | ind n ih =>
      let call : Call := fun q ctx e =>
        if Nearer (p.rankAt d) d q e then grammar q ctx e else e.report .unexpected
      have hnear {q : Production} {ctx : Context} {e : Draft}
          (hok : (call q ctx e).problems = []) :
          Nearer (p.rankAt d) d q e ∧ call q ctx e = grammar q ctx e := by
        by_cases hq : Nearer (p.rankAt d) d q e
        · exact ⟨hq, if_pos hq⟩
        · simp [call, hq] at hok
      have hobeys (start : Draft) : Obeys true start call := by
        refine ⟨fun q ctx e => ?_, nofun, fun q ctx e hs hcalm hdot hok => ?_⟩
        · by_cases hq : Nearer (p.rankAt d) d q e
          · simpa only [call, if_pos hq] using later_grammar q ctx e
          · simp only [call, if_neg hq]
            exact ⟨List.suffix_refl _, by simp⟩
        · have heq := (hnear hok).2
          rw [heq] at hok ⊢
          exact (obeys_grammar_strict start).calm q ctx e hs hcalm hdot hok
      have hrun : grammar p ctx d = p.script.run call ctx d := by
        rw [grammar_eq_rule, ← p.rule_eq_run]
        exact p.rule_congr ctx (obeys_grammar d) fun q ctx e hq => (if_pos hq).symm
      rw [hrun] at h ⊢
      refine hstep call hobeys (fun q ctx e hok => ?_) p ctx d h
      obtain ⟨hq, heq⟩ := hnear hok
      rw [heq] at hok ⊢
      exact ⟨rfl, ih _ (hn ▸ hq.depth_lt) q ctx e hok rfl⟩

/-! ## trees that are not trivia -/

namespace Tree

/-- Anything but trivia. -/
def isSolid : Tree → Bool
  | .leaf t => !t.isTrivia
  | .node _ _ => true

/-- The trees in a row that are not trivia. -/
def solids (ts : List Tree) : List Tree := ts.filter isSolid

@[simp] theorem solids_nil : solids [] = [] := rfl

theorem solids_append (ts us : List Tree) : solids (ts ++ us) = solids ts ++ solids us :=
  List.filter_append ..

theorem solids_reverse (ts : List Tree) : solids ts.reverse = (solids ts).reverse :=
  List.filter_reverse ..

@[simp] theorem solids_node (k : NodeKind) (parts ts : List Tree) :
    solids (.node k parts :: ts) = .node k parts :: solids ts := rfl

theorem solids_leaf {t : Token} (h : t.isTrivia = false) (ts : List Tree) :
    solids (.leaf t :: ts) = .leaf t :: solids ts := by
  simp [solids, isSolid, h]

theorem solids_trivia {ts : List Token} (h : ∀ t ∈ ts, t.isTrivia = true) :
    solids (ts.map Tree.leaf) = [] := by
  simpa [solids, isSolid] using h

/-- A node that ends with a postfix operator, with a `yield` that has no operand or
with the body of an arrow function in braces: in its last part, or at the end of
that. -/
inductive Shut : Tree → Prop
  | token {k : NodeKind} {parts : List Tree} {t : Token}
    (kind : k = .updateExpr ∨ k = .yieldExpr)
    (last : (solids parts).getLast? = some (.leaf t)) : Shut (.node k parts)
  | body {parts inner : List Tree}
    (last : (solids parts).getLast? = some (.node .blockStmt inner)) :
    Shut (.node .arrowFunction parts)
  | inner {k : NodeKind} {parts : List Tree} {t : Tree}
    (last : (solids parts).getLast? = some t) (shut : Shut t) : Shut (.node k parts)

end Tree

/-- Nodes that are expressions. -/
def NodeKind.isExpression : NodeKind → Bool
  | .functionExpr | .arrowFunction | .classExpr | .nameRef | .thisExpr | .superExpr | .literal
  | .templateLiteral | .taggedTemplate | .arrayExpr | .objectExpr | .parenExpr | .memberExpr
  | .indexExpr | .callExpr | .newExpr | .metaProperty | .importCall | .unaryExpr | .updateExpr
  | .awaitExpr | .yieldExpr | .binaryExpr | .conditionalExpr | .assignExpr | .sequenceExpr => true
  | _ => false

namespace Draft

variable {d e : Draft}

/-- The trees of the open node or group that are not trivia, latest first. -/
def row (d : Draft) : List Tree := Tree.solids d.trees

/-- A template starts with the next token. -/
structure Ticked (d : Draft) : Prop where
  kind : d.kind.isTemplate = true
  tick : (d.textAt 0).head? = some '\x60'

theorem Ticked.alike (h : d.Ticked) (he : e.Alike d) : e.Ticked :=
  ⟨by rw [Draft.kind, he.kindAt]; exact h.kind,
    by rw [textAt_eq, he.ahead, ← textAt_eq]; exact h.tick⟩

theorem Alike.symm (h : e.Alike d) : d.Alike e :=
  ⟨h.ahead.symm, h.newline.symm, h.lastKind?.symm, h.problems.symm⟩

theorem Ticked.rest_ne_nil (h : d.Ticked) : d.rest ≠ [] :=
  rest_ne_nil_of_kind_ne fun heq => by
    have hkind := h.kind
    simp [TokenKind.isTemplate, heq] at hkind

@[simp] theorem row_log (d : Draft) (s : Step) : (d.log s).row = d.row := rfl
@[simp] theorem row_apart (d : Draft) : d.apart.row = [] := rfl

@[simp] theorem row_placeTrivia (d : Draft) : d.placeTrivia.row = d.row := by
  cases h : d.rest with
  | nil =>
      rw [placeTrivia_nil h, row, trees_place, Tree.solids_append, Tree.solids_reverse,
        Tree.solids_trivia d.last.onlyTrivia]
      rfl
  | cons l ls =>
      rw [placeTrivia_cons h, row, trees_place, Tree.solids_append, Tree.solids_reverse,
        Tree.solids_trivia l.gap.onlyTrivia]
      rfl

theorem row_take {l : Lexeme} {ls : List Lexeme} (h : d.rest = l :: ls)
    (ht : l.token.isTrivia = false) : d.take.row = .leaf l.token :: d.row := by
  have hgap : Tree.solids (l.gap.trivia.map Tree.leaf).reverse = [] := by
    rw [Tree.solids_reverse, Tree.solids_trivia l.gap.onlyTrivia, List.reverse_nil]
  rw [take_cons h, row, trees_place, List.map_append, List.reverse_append, List.append_assoc,
    List.map_singleton, List.reverse_singleton, List.singleton_append, Tree.solids_leaf ht,
    Tree.solids_append, hgap, List.nil_append]
  rfl

@[simp] theorem row_rejoin (d e : Draft) : (d.rejoin e).row = d.row ++ e.row :=
  Tree.solids_append ..

@[simp] theorem row_wrap (d : Draft) (k : NodeKind) :
    (d.wrap k).row = [.node k d.trees.reverse] := rfl

theorem getLast?_reverse_trees (d : Draft) :
    (Tree.solids d.trees.reverse).getLast? = d.row.head? := by
  rw [Tree.solids_reverse, List.getLast?_reverse]
  rfl

end Draft

/-! ## what is known about the trees -/

/-- How many trees have been added to those before. -/
inductive Row where
  | nothing
  /-- One node, for an expression. -/
  | one
  | any
deriving DecidableEq

/-- What the last tree is if a backtick comes next. -/
inductive Edge where
  /-- A node that is shut. -/
  | shut
  /-- A node that is shut or a token. -/
  | leaf
  /-- A node that is shut or a block. -/
  | block
  | any
deriving DecidableEq

namespace Row

/-- One more node is added. -/
def push (k : NodeKind) (r : Row) : Row := if r = .nothing && k.isExpression then .one else .any

/-- What a group has gathered is added. -/
def add : Row → Row → Row
  | r, .nothing => r
  | .nothing, .one => .one
  | _, _ => .any

def join (r s : Row) : Row := if r = s then r else .any

/-- What is known is true of trees that come after those of `base`. -/
def Fits (base : List Tree) : Row → List Tree → Prop
  | nothing, ts => ts = base
  | one, ts => ∃ k parts, ts = .node k parts :: base ∧ k.isExpression = true
  | any, _ => True

variable {base ts : List Tree} {r s : Row}

theorem Fits.push (h : r.Fits base ts) (k : NodeKind) (parts : List Tree) :
    (r.push k).Fits base (.node k parts :: ts) := by
  unfold Row.push
  split
  · next hk =>
      obtain ⟨hr, hk⟩ := (Bool.and_eq_true ..).mp hk
      obtain rfl := of_decide_eq_true hr
      exact ⟨k, parts, by rw [h], hk⟩
  · trivial

theorem Fits.add {us : List Tree} (h : r.Fits base ts) (hs : s.Fits [] us) :
    (r.add s).Fits base (us ++ ts) := by
  cases s with
  | nothing =>
      obtain rfl : us = [] := hs
      exact h
  | one =>
      obtain ⟨k, parts, rfl, hk⟩ := hs
      cases r with
      | nothing =>
          obtain rfl : ts = base := h
          exact ⟨k, parts, rfl, hk⟩
      | one | any => trivial
  | any => cases r <;> trivial

theorem fits_join (h : r.Fits base ts ∨ s.Fits base ts) : (r.join s).Fits base ts := by
  unfold join
  split
  · next heq =>
      subst heq
      exact h.elim id id
  · trivial

end Row

namespace Edge

def join (e f : Edge) : Edge :=
  if e = f then e else if e = .shut then f else if f = .shut then e else .any

/-- A node of a kind is shut if its last part is as said. -/
def closes (k : NodeKind) : Edge → Bool
  | .shut => true
  | .leaf => k = .updateExpr || k = .yieldExpr
  | .block => k = .arrowFunction
  | .any => false

/-- What is known of a node when something is known of its last part. -/
def close (k : NodeKind) (e : Edge) : Edge :=
  if e.closes k then .shut else if k = .blockStmt then .block else .any

/-- The trees that may come last beside nodes that are shut. -/
def Allows : Edge → Tree → Prop
  | .leaf, t => ∃ u, t = .leaf u
  | .block, t => ∃ parts, t = .node .blockStmt parts
  | _, _ => False

/-- What is known is true of the last tree. -/
def Fits (e : Edge) (last : Option Tree) : Prop := e = .any ∨ ∃ t ∈ last, t.Shut ∨ e.Allows t

/-- One of two things is known at least as well as the other. -/
def le (e f : Edge) : Bool := f = .any || e = f || e = .shut

variable {e f : Edge} {last : Option Tree}

theorem Fits.mono (h : e.Fits last) (hle : e.le f = true) : f.Fits last := by
  simp only [le, Bool.or_eq_true, decide_eq_true_eq] at hle
  rcases hle with (rfl | rfl) | rfl
  · exact Or.inl rfl
  · exact h
  · obtain ⟨t, ht, hshut⟩ := h.resolve_left (by simp)
    exact Or.inr ⟨t, ht, Or.inl (hshut.resolve_right id)⟩

theorem le_join_left (e f : Edge) : e.le (e.join f) = true := by
  cases e <;> cases f <;> rfl

theorem le_join_right (e f : Edge) : f.le (e.join f) = true := by
  cases e <;> cases f <;> rfl

/-- A node whose last part is known. -/
theorem Fits.close {k : NodeKind} {parts : List Tree}
    (h : e.Fits (Tree.solids parts).getLast?) : (e.close k).Fits (some (.node k parts)) := by
  unfold Edge.close
  split
  · next hk =>
      refine Or.inr ⟨_, rfl, Or.inl ?_⟩
      obtain ⟨t, ht, hshut | hlast⟩ := h.resolve_left (by rintro rfl; simp [closes] at hk)
      · exact .inner ht hshut
      · cases e with
        | leaf =>
            obtain ⟨u, rfl⟩ := hlast
            exact .token (by simpa [closes] using hk) ht
        | block =>
            obtain ⟨inner, rfl⟩ := hlast
            obtain rfl : k = .arrowFunction := by simpa [closes] using hk
            exact .body ht
        | shut | any => cases hlast
  · split
    · next hk =>
        subst hk
        exact Or.inr ⟨_, rfl, Or.inr ⟨parts, rfl⟩⟩
    · exact Or.inl rfl

end Edge

/-- What is known about the trees of the open group or node. -/
structure Growth where
  /-- There were none before. -/
  bare : Bool := false
  row : Row := .any
  edge : Edge := .any
deriving DecidableEq

namespace Growth

def join (g h : Growth) : Growth := ⟨g.bare && h.bare, g.row.join h.row, g.edge.join h.edge⟩

/-- One of two things is known at least as well as the other. -/
def le (g h : Growth) : Bool :=
  (!h.bare || g.bare) && (h.row = .any || g.row = h.row) && g.edge.le h.edge

/-- No backtick comes next. -/
def calm (g : Growth) : Growth := { g with edge := .shut }

/-- What is known when a test has been answered. -/
def told (g : Growth) (t : Test) (answer : Bool) (σ : Sight) : Growth :=
  match t, answer with
  | .backtick, false => g.calm
  | _, _ => if σ.rulesOut TokenKind.isTemplate then g.calm else g

/-- What is known is true of a draft, whose open group or node had the trees of
`base` before. -/
structure Fits (base : List Tree) (g : Growth) (d : Draft) : Prop where
  bare : g.bare = true → base = []
  row : g.row.Fits base d.row
  edge : d.Ticked → g.edge.Fits d.row.head?

/-- Something is known, and it is true of a draft. -/
def Covers (base : List Tree) (r : Option Growth) (d : Draft) : Prop :=
  ∃ g, r = some g ∧ g.Fits base d

variable {base : List Tree} {d : Draft} {g h : Growth}

theorem Fits.mono (hg : g.Fits base d) (hle : g.le h = true) : h.Fits base d := by
  simp only [le, Bool.and_eq_true, Bool.or_eq_true, Bool.not_eq_true', decide_eq_true_eq] at hle
  obtain ⟨⟨hbare, hrow⟩, hedge⟩ := hle
  refine ⟨fun hh => hg.bare (hbare.resolve_left (by simp [hh])), ?_,
    fun ht => (hg.edge ht).mono hedge⟩
  rcases hrow with hrow | hrow
  · rw [hrow]
    trivial
  · exact hrow ▸ hg.row

theorem Fits.calm (hg : g.Fits base d) (ht : ¬d.Ticked) : g.calm.Fits base d :=
  { hg with edge := fun h => (ht h).elim }

theorem fits_join (hgh : g.Fits base d ∨ h.Fits base d) : (g.join h).Fits base d where
  bare hb := by
    obtain ⟨hg, hh⟩ := (Bool.and_eq_true ..).mp hb
    exact hgh.elim (fun h => h.bare hg) fun h => h.bare hh
  row := Row.fits_join (hgh.imp (·.row) (·.row))
  edge ht := hgh.elim (fun h => (h.edge ht).mono (Edge.le_join_left ..))
    fun h => (h.edge ht).mono (Edge.le_join_right ..)

theorem not_ticked_of_rulesOut {start : Draft} {σ : Sight} (hσ : σ.Fits true start d)
    (h : σ.rulesOut TokenKind.isTemplate = true) : ¬d.Ticked := fun ht => by
  have hkind := hσ.of_rulesOut h
  rw [ht.kind] at hkind
  cases hkind

theorem Fits.told {start : Draft} {σ : Sight} {t : Test} {answer : Bool} {ctx : Context}
    (hg : g.Fits base d) (hσ : σ.Fits true start d) (ht : t.holds ctx d = answer) :
    (g.told t answer σ).Fits base d := by
  unfold Growth.told
  split
  · refine hg.calm fun htick => ?_
    have hkind := htick.kind
    have hident : d.kind ≠ .ident := fun heq => by simp [heq, TokenKind.isTemplate] at hkind
    simp [hident, htick.tick] at ht
  · split
    · next hout => exact hg.calm (not_ticked_of_rulesOut hσ hout)
    · exact hg

end Growth

/-! ## productions -/

namespace Production

/-- What has to be known when a production is called. -/
def needs : Production → Growth
  | .suffixes _ => ⟨true, .one, .any⟩
  | .binaryTail _ => ⟨true, .one, .shut⟩
  | .commaTail => ⟨false, .any, .shut⟩
  | _ => ⟨false, .nothing, .any⟩

/-- What is known then when it is done. -/
def gives : Production → Growth
  | .expression | .assignment | .conditional | .binary _ | .unary | .operand => ⟨false, .one, .shut⟩
  | .newExpr => ⟨false, .one, .any⟩
  | .suffixes _ | .binaryTail _ => ⟨true, .one, .shut⟩
  | .commaTail => ⟨false, .any, .shut⟩
  | .block => ⟨false, .any, .block⟩
  | _ => {}

end Production

/-- What is known when a production has been called.  One that needs nothing to be
known of the trees before does not look at them. -/
def Growth.called (g : Growth) (p : Production) : Growth :=
  if g.le p.needs then { p.gives with bare := g.bare }
  else if p.needs = ⟨false, .nothing, .any⟩ then ⟨g.bare, .any, p.gives.edge⟩
  else ⟨g.bare, .any, .any⟩

/-- The productions gather what they are said to. -/
def Grows (call : Call) : Prop :=
  ∀ (p : Production) (ctx : Context) (d : Draft) (base : List Tree),
    (call p ctx d).problems = [] → p.needs.Fits base d → p.gives.Fits base (call p ctx d)

theorem Growth.Fits.called {base : List Tree} {d : Draft} {g : Growth} {call : Call}
    (hcall : Grows call) (p : Production) (ctx : Context) (hg : g.Fits base d)
    (hrun : (call p ctx d).problems = []) : (g.called p).Fits base (call p ctx d) := by
  unfold Growth.called
  split
  · next hle => exact { hcall p ctx d base hrun (hg.mono hle) with bare := hg.bare }
  · split
    · next hneeds =>
        -- all trees that are there count as those before
        have hfits : p.needs.Fits d.row d := by
          rw [hneeds]
          exact ⟨nofun, rfl, fun _ => Or.inl rfl⟩
        exact ⟨hg.bare, trivial, (hcall p ctx d d.row hrun hfits).edge⟩
    · exact ⟨hg.bare, trivial, fun _ => Or.inl rfl⟩

/-! ## scripts -/

/-- What is known about the trees after a script that reports no problem; nothing if
all runs report one. -/
@[simp] def Script.grow : Script → Sight → Growth → Option Growth
  | done, _, g => some g
  | take, σ, g =>
    some ⟨g.bare, .any,
      if σ.next.rulesOut TokenKind.isTemplate then .shut
      else if σ.rulesOut TokenKind.isTrivia then .leaf else .any⟩
  | report _, _, _ => none
  | single k, σ, g =>
    some ⟨g.bare, g.row.push k, if σ.next.rulesOut TokenKind.isTemplate then .shut else .any⟩
  | seq a b, σ, g => (a.grow σ g).bind fun h => (a.flow true σ).bind fun τ => b.grow τ h
  | choose t a b, σ, g =>
    Option.merge Growth.join ((t.tell true σ).bind fun τ => a.grow τ (g.told t true τ))
      ((t.tell false σ).bind fun τ => b.grow τ (g.told t false τ))
  | look f, σ, g =>
    ((Sight.kinds σ.first).map fun k =>
      (f k).grow (σ.only k) (if k.isTemplate then g else g.calm)).foldr
        (Option.merge Growth.join) none
  | ask t f, σ, g =>
    Option.merge Growth.join ((t.tell true σ).bind fun τ => (f true).grow τ (g.told t true τ))
      ((t.tell false σ).bind fun τ => (f false).grow τ (g.told t false τ))
  | group a, σ, g =>
    (a.grow σ ⟨true, .nothing, .any⟩).map fun h => ⟨g.bare, g.row.add h.row, h.edge⟩
  | enclose k a, σ, g =>
    (a.grow σ g).map fun h =>
      ⟨g.bare, if g.bare && k.isExpression then .one else .any, h.edge.close k⟩
  | node k a, σ, g =>
    (a.grow σ ⟨true, .nothing, .any⟩).map fun h => ⟨g.bare, g.row.push k, h.edge.close k⟩
  | .call p _, _, g => some (g.called p)
  | advance _, _, g => some ⟨g.bare, .any, .any⟩
  | list _ _, _, g => some ⟨g.bare, .any, .any⟩

section

variable {start d e : Draft} {σ : Sight} {g h : Growth} {base : List Tree}

/-- A group or node starts with no trees. -/
theorem fits_empty (he : e.row = []) : Growth.Fits [] ⟨true, .nothing, .any⟩ e :=
  ⟨fun _ => rfl, he, fun _ => Or.inl rfl⟩

theorem Growth.Fits.take (hg : g.Fits base d) (hσ : σ.Fits true start d) :
    Growth.Fits base ⟨g.bare, .any,
      if σ.next.rulesOut TokenKind.isTemplate then .shut
      else if σ.rulesOut TokenKind.isTrivia then .leaf else .any⟩ d.take where
  bare := hg.bare
  row := trivial
  edge ht := by
    split
    · next hout => exact absurd ht (Growth.not_ticked_of_rulesOut hσ.next hout)
    · split
      · next hout =>
          cases hrest : d.rest with
          | nil =>
              refine absurd ?_ ht.rest_ne_nil
              rw [← List.length_eq_zero_iff, Draft.take, hrest,
                Draft.length_rest_placeTrivia, hrest]
              rfl
          | cons l ls =>
              have htrivia := hσ.of_rulesOut hout
              simp only [Draft.kind, Draft.kindAt, hrest, List.getElem?_cons_zero] at htrivia
              exact Or.inr ⟨.leaf l.token, by rw [Draft.row_take hrest htrivia]; rfl,
                Or.inr ⟨l.token, rfl⟩⟩
      · exact Or.inl rfl

/-- The trees of a node are those before it and the node. -/
theorem row_node (d : Draft) (k : NodeKind) (body : Draft → Draft) :
    (d.node k body).row =
      .node k (body (d.placeTrivia.apart.log (.start k))).trees.reverse :: d.row := by
  simp [Draft.node]

theorem row_enclose (d : Draft) (k : NodeKind) (body : Draft → Draft) :
    (d.enclose k body).row = [.node k (body (d.log (.startAt d.base k))).trees.reverse] := rfl

theorem row_group (d : Draft) (body : Draft → Draft) :
    (d.group body).row = (body d.placeTrivia.apart).row ++ d.row := by
  simp [Draft.group]

theorem Growth.Fits.single (hg : g.Fits base d) (hσ : σ.Fits true start d) (k : NodeKind) :
    Growth.Fits base
      ⟨g.bare, g.row.push k, if σ.next.rulesOut TokenKind.isTemplate then .shut else .any⟩
      (d.single k) where
  bare := hg.bare
  row := by
    rw [Draft.single, row_node]
    exact hg.row.push k _
  edge ht := by
    split
    · next hout =>
        have hσ' := ((hσ.alike (d.alike_started k)).next.alike (Draft.alike_closed _ k)).alike
          (Draft.alike_rejoin _ d.placeTrivia)
        exact absurd ht (Growth.not_ticked_of_rulesOut hσ' hout)
    · exact Or.inl rfl

theorem Growth.Fits.group {body : Draft → Draft} (hg : g.Fits base d)
    (hh : h.Fits [] (body d.placeTrivia.apart)) :
    Growth.Fits base ⟨g.bare, g.row.add h.row, h.edge⟩ (d.group body) where
  bare := hg.bare
  row := by
    rw [row_group]
    exact hg.row.add hh.row
  edge ht := by
    rw [row_group, List.head?_append]
    have hedge := hh.edge (ht.alike (Draft.alike_rejoin _ d.placeTrivia).symm)
    rcases hedge with hany | ⟨t, hlast, hshut⟩
    · exact Or.inl hany
    · rw [Option.mem_def.mp hlast]
      exact Or.inr ⟨t, rfl, hshut⟩

theorem Growth.Fits.enclose {body : Draft → Draft} {k : NodeKind} (hg : g.Fits base d)
    (hh : h.Fits base (body (d.log (.startAt d.base k)))) :
    Growth.Fits base
      ⟨g.bare, if g.bare && k.isExpression then .one else .any, h.edge.close k⟩
      (d.enclose k body) where
  bare := hg.bare
  row := by
    rw [row_enclose]
    split
    · next hk =>
        obtain ⟨hbare, hk⟩ := (Bool.and_eq_true ..).mp hk
        rw [hg.bare hbare]
        exact ⟨k, _, rfl, hk⟩
    · trivial
  edge ht := by
    rw [row_enclose]
    refine Edge.Fits.close ?_
    rw [Draft.getLast?_reverse_trees]
    exact hh.edge (ht.alike (Draft.alike_closed _ k).symm)

theorem Growth.Fits.node {body : Draft → Draft} {k : NodeKind} (hg : g.Fits base d)
    (hh : h.Fits [] (body (d.placeTrivia.apart.log (.start k)))) :
    Growth.Fits base ⟨g.bare, g.row.push k, h.edge.close k⟩ (d.node k body) where
  bare := hg.bare
  row := by
    rw [row_node]
    exact hg.row.push k _
  edge ht := by
    rw [row_node]
    refine Edge.Fits.close ?_
    rw [Draft.getLast?_reverse_trees]
    exact hh.edge ((ht.alike (Draft.alike_rejoin _ d.placeTrivia).symm).alike
      (Draft.alike_closed _ k).symm)

/-- What is computed for a script is true of every run that reports no problem. -/
theorem Script.covers_grow {call : Call} (hobeys : Obeys true start call) (hcall : Grows call)
    (ctx : Context) (s : Script) (hσ : σ.Fits true start d) (hg : g.Fits base d)
    (hrun : (s.run call ctx d).problems = []) :
    Growth.Covers base (s.grow σ g) (s.run call ctx d) := by
  induction s generalizing σ g d base with
  | done => exact ⟨g, rfl, hg⟩
  | take => exact ⟨_, rfl, hg.take hσ⟩
  | report c => simp [run] at hrun
  | single k => exact ⟨_, rfl, hg.single hσ k⟩
  | seq a b iha ihb =>
      have hmid : (a.run call ctx d).problems = [] := (hobeys.later_run ctx b _).problems hrun
      obtain ⟨h, ha, hh⟩ := iha hσ hg hmid
      obtain ⟨τ, hτ, hfits⟩ := fits_flow hobeys ctx a hσ fun _ => hmid
      rw [grow, ha, hτ]
      exact ihb hfits hh hrun
  | choose t a b iha ihb =>
      refine exists_merge (fun _ _ => Growth.fits_join) ?_
      rw [run] at hrun ⊢
      split at hrun
      · next ht =>
          obtain ⟨τ, hτ, hfits⟩ := t.covers_tell ctx hσ ht
          rw [if_pos ht, hτ]
          exact Or.inl (iha hfits (hg.told hfits ht) hrun)
      · next ht =>
          rw [Bool.not_eq_true] at ht
          obtain ⟨τ, hτ, hfits⟩ := t.covers_tell ctx hσ ht
          rw [if_neg (by simp [ht]), hτ]
          exact Or.inr (ihb hfits (hg.told hfits ht) hrun)
  | look f ih =>
      refine exists_foldr_merge (fun _ _ => Growth.fits_join) (List.mem_map_of_mem hσ.first)
        (ih _ hσ.only ?_ hrun)
      split
      · exact hg
      · next hk => exact hg.calm fun ht => hk ht.kind
  | ask t f ih =>
      refine exists_merge (fun _ _ => Growth.fits_join) ?_
      rw [run] at hrun ⊢
      cases ht : t.holds ctx d with
      | true =>
          rw [ht] at hrun
          obtain ⟨τ, hτ, hfits⟩ := t.covers_tell ctx hσ ht
          rw [hτ]
          exact Or.inl (ih _ hfits (hg.told hfits ht) hrun)
      | false =>
          rw [ht] at hrun
          obtain ⟨τ, hτ, hfits⟩ := t.covers_tell ctx hσ ht
          rw [hτ]
          exact Or.inr (ih _ hfits (hg.told hfits ht) hrun)
  | group a ih =>
      obtain ⟨h, ha, hh⟩ := ih (hσ.alike d.alike_opened) (fits_empty rfl) hrun
      exact ⟨_, by rw [grow, ha, Option.map_some], hg.group hh⟩
  | enclose k a ih =>
      have hstarted : g.Fits base (d.log (.startAt d.base k)) :=
        ⟨hg.bare, hg.row, fun ht => hg.edge (ht.alike (d.alike_restarted k).symm)⟩
      obtain ⟨h, ha, hh⟩ := ih (hσ.alike (d.alike_restarted k)) hstarted hrun
      exact ⟨_, by rw [grow, ha, Option.map_some], hg.enclose hh⟩
  | node k a ih =>
      obtain ⟨h, ha, hh⟩ := ih (hσ.alike (d.alike_started k)) (fits_empty rfl) hrun
      exact ⟨_, by rw [grow, ha, Option.map_some], hg.node hh⟩
  | call p place => exact ⟨_, rfl, hg.called hcall p _ hrun⟩
  | advance a ih => exact ⟨_, rfl, hg.bare, trivial, fun _ => Or.inl rfl⟩
  | list close item ih => exact ⟨_, rfl, hg.bare, trivial, fun _ => Or.inl rfl⟩

end

/-! ## the grammar -/

set_option maxRecDepth 10000 in
/-- From what has to be known when a production is called, its script gets to what is
said to be known then. -/
theorem Production.grow_script (p : Production) :
    ((p.script.grow {} p.needs).all fun g => g.le p.gives) = true := by
  cases p with
  | binary least => rfl
  | binaryTail least => rfl
  | suffixes calls => cases calls <;> decide +kernel
  | _ => decide +kernel

theorem fits_start_strict (d : Draft) : Sight.Fits true d {} d :=
  { fits_start d with moved := nofun, calm := fun _ hc => by cases hc }

theorem grows_grammar : Grows grammar := by
  intro p ctx d base h hneeds
  refine grammar_induction (P := fun p _ d e => ∀ base, p.needs.Fits base d → p.gives.Fits base e)
    (fun call hobeys hcall p ctx d hrun base hneeds => ?_) p ctx d h base hneeds
  have hgrows : Grows call := fun q ctx e base hok => (hcall q ctx e hok).2 base
  obtain ⟨g, hg, hfits⟩ :=
    Script.covers_grow (hobeys d) hgrows ctx p.script (fits_start_strict d) hneeds hrun
  have hle := p.grow_script
  rw [hg] at hle
  exact hfits.mono hle

end FreeNames
