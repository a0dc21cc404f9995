import FreeNames.Proofs.Flow
import FreeNames.Proofs.Lossless
import Mathlib.Logic.Relation

/-!
# FreeNames.Proofs.Progress

The parse comes to an end whatever the tokens are.  Rules that meet an error
often take nothing, so a chain of calls can stay at one token; but each call in
such a chain is to a production of lower rank (`Production.rank`).  That this is
so is computed from the scripts of the productions (`Script.under`).

Hence the number of tokens left and the rank bound the depth of calls, and the
bound that `derive` counts down is never reached: `grammar`, which knows no
bound, is the only thing that does what the rules say, and a parse does what it
does.

Main statement: `parse_terminates`.
-/

namespace FreeNames

/-! ## ranks -/

/-- Productions that can be called before a token is taken have lower rank.  A
block takes one at once if it starts with its brace. -/
def Production.rank : Production → (atBrace : Bool) → Nat
  | .block, atBrace => if atBrace then 0 else 25
  | .arguments, _ | .arrayItems, _ | .objectItems, _ | .members, _ => 26
  | .statements, _ | .clauseBody, _ => 24
  | .statement, _ => 22
  | .expression, _ => 20
  | .assignment, _ => 18
  | .conditional, _ => 16
  | .binary _, _ => 14
  | .unary, _ => 12
  | .operand, _ => 10
  | .newExpr, _ => 8
  | .suffixes _, _ => 6
  | .patternFields, _ | .patternItems, _ | .parameters, _ => 5
  | .bindingElement, _ | .declarators, _ => 3
  | .bindingTarget, _ => 1
  | .commaTail, _ | .binaryTail _, _ | .templateParts, _ | .clauses, _ => 0

theorem Production.rank_lt (p : Production) (atBrace : Bool) : p.rank atBrace < chainBound := by
  unfold rank
  cases p <;> cases atBrace <;> exact of_decide_eq_true rfl

/-- Calls that a script makes before it takes a token are to productions below a
rank. -/
@[simp] def Script.under (r : Nat) : Script → Sight → Bool
  | seq a b, σ => a.under r σ && (a.flow false σ).all (b.under r)
  | choose t a b, σ => (t.tell true σ).all (a.under r) && (t.tell false σ).all (b.under r)
  | look f, σ => (Sight.kinds σ.first).all fun k => (f k).under r (σ.only k)
  | ask t f, σ =>
    (t.tell true σ).all ((f true).under r) && (t.tell false σ).all ((f false).under r)
  | group a, σ => a.under r σ
  | enclose _ a, σ => a.under r σ
  | node _ a, σ => a.under r σ
  | .call p _, σ =>
    σ.moved ||
      match σ.first with
      | none => p.rank true < r && p.rank false < r
      | some ks => ks.all fun k => p.rank (k = .punct .lBrace) < r
  | advance a, σ => a.under r σ
  | list _ item, σ => item.under r { moved := σ.next.moved }
  | _, _ => true

/-- Before it takes a token a script calls productions of lower rank only,
whatever comes next. -/
def Script.descends (s : Script) (rank : (atBrace : Bool) → Nat) : Bool :=
  s.under (rank true) { first := some [.punct .lBrace], left := true } &&
    s.under (rank false)
      { first := some (TokenKind.every.filter fun k => k ≠ .punct .lBrace), left := true } &&
    s.under (rank false) { first := some [.error], second := some [.error] }

theorem Production.descends_script (p : Production) : p.script.descends p.rank = true := by
  cases p with
  | binary least => rfl
  | binaryTail least => rfl
  | suffixes calls => cases calls <;> decide +kernel
  | _ => decide +kernel

/-- How far a production is from taking a token of a draft. -/
def Production.rankAt (p : Production) (d : Draft) : Nat := p.rank (d.kind = .punct .lBrace)

/-! ## calls that count -/

/-- A production is called with tokens of `start`, and with fewer of them unless
its rank is low. -/
structure Nearer (r : Nat) (start : Draft) (p : Production) (d : Draft) : Prop where
  ahead : d.ahead <:+ start.ahead
  descends : d.rest.length < start.rest.length ∨ p.rankAt d < r

/-- The next token of a draft makes a production low if all that it can be do. -/
theorem Sight.Fits.nearer {start d : Draft} {σ : Sight} {r : Nat} {p : Production}
    {place : Context → Context} (h : σ.Fits false start d)
    (hunder : (Script.call p place).under r σ = true) : Nearer r start p d where
  ahead := h.shrunk
  descends := by
    rcases (Bool.or_eq_true ..).mp hunder with hmoved | hrank
    · exact Or.inl (h.moved rfl hmoved)
    · refine Or.inr ?_
      have hfirst := h.first
      unfold Production.rankAt
      split at hrank
      · obtain ⟨hbrace, hother⟩ := (Bool.and_eq_true ..).mp hrank
        cases decide (d.kind = .punct .lBrace) with
        | true => exact of_decide_eq_true hbrace
        | false => exact of_decide_eq_true hother
      · next ks hks =>
          rw [hks] at hfirst
          exact of_decide_eq_true (List.all_eq_true.mp hrank _ hfirst)

theorem Draft.items_congr {close : TokenKind} {item item' : Draft → Draft} (start : Draft)
    {d : Draft} (hlater : ∀ d, Later d (item d))
    (hitem : ∀ d : Draft, d.ahead <:+ start.ahead → item d = item' d) (bound : Nat)
    (hd : d.ahead <:+ start.ahead) : d.items close item bound = d.items close item' bound := by
  induction bound generalizing d with
  | zero => rfl
  | succ bound ih =>
      simp only [items, nextItem, ← hitem d hd]
      rw [ih ((steady_later.trans (hlater d) (steady_later.take _)).ahead.trans hd)]

/-- What a script does depends on calls with fewer tokens, or of low rank. -/
theorem Script.run_congr {start d : Draft} {call call' : Call} {r : Nat} {σ : Sight}
    (hcall : Obeys false start call)
    (hagree : ∀ p ctx d, Nearer r start p d → call p ctx d = call' p ctx d)
    (ctx : Context) (s : Script) (h : σ.Fits false start d) (hunder : s.under r σ = true) :
    s.run call ctx d = s.run call' ctx d := by
  induction s generalizing σ d with
  | done | take | report c | single k => rfl
  | seq a b iha ihb =>
      obtain ⟨ha, hb⟩ := (Bool.and_eq_true ..).mp hunder
      obtain ⟨τ, hfits, hτ⟩ := (fits_flow hcall ctx a h (by simp)).all hb
      rw [run, run, ← iha h ha]
      exact ihb hfits hτ
  | choose t a b iha ihb =>
      obtain ⟨ha, hb⟩ := (Bool.and_eq_true ..).mp hunder
      rw [run, run]
      split
      · next ht =>
          obtain ⟨τ, hfits, hτ⟩ := (t.covers_tell ctx h ht).all ha
          exact iha hfits hτ
      · next ht =>
          obtain ⟨τ, hfits, hτ⟩ := (t.covers_tell ctx h (Bool.not_eq_true _ ▸ ht)).all hb
          exact ihb hfits hτ
  | look f ih => exact ih _ h.only (List.all_eq_true.mp hunder _ h.first)
  | ask t f ih =>
      obtain ⟨ha, hb⟩ := (Bool.and_eq_true ..).mp hunder
      rw [run, run]
      cases ht : t.holds ctx d with
      | true =>
          obtain ⟨τ, hfits, hτ⟩ := (t.covers_tell ctx h ht).all ha
          exact ih _ hfits hτ
      | false =>
          obtain ⟨τ, hfits, hτ⟩ := (t.covers_tell ctx h ht).all hb
          exact ih _ hfits hτ
  | group a ih =>
      rw [run, run, Draft.group, Draft.group, ih (h.alike d.alike_opened) hunder]
  | enclose k a ih =>
      rw [run, run, Draft.enclose, Draft.enclose, ih (h.alike (d.alike_restarted k)) hunder]
  | node k a ih =>
      rw [run, run, Draft.node, Draft.node, ih (h.alike (d.alike_started k)) hunder]
  | call p place => exact hagree p _ d (h.nearer hunder)
  | advance a ih => rw [run, run, Draft.advance, Draft.advance, ih h hunder]
  | list close item ih =>
      refine Draft.items_congr d.take (hcall.later_run ctx item) (fun e he => ?_) _
        (List.suffix_refl _)
      refine ih ⟨Sight.mem_kinds_none _, Sight.mem_kinds_none _, by simp, by simp,
        he.trans h.next.shrunk, fun hs hm => ?_, by simp⟩ hunder
      have hlt := h.next.moved hs hm
      have hle := he.length_le
      simp only [Draft.length_ahead] at hle
      omega

/-- Nothing has to be known when a script starts. -/
theorem fits_start (d : Draft) : Sight.Fits false d {} d where
  first := Sight.mem_kinds_none _
  second := Sight.mem_kinds_none _
  word w hw := by cases hw
  left hl := by cases hl
  shrunk := List.suffix_refl _
  moved _ hm := by cases hm
  calm hs _ := by cases hs

/-- What a rule does depends on calls with fewer tokens, or of lower rank. -/
theorem Production.rule_congr {d : Draft} {call call' : Call} (p : Production) (ctx : Context)
    (hcall : Obeys false d call)
    (hagree : ∀ q ctx e, Nearer (p.rankAt d) d q e → call q ctx e = call' q ctx e) :
    p.rule call ctx d = p.rule call' ctx d := by
  have hdescends := p.descends_script
  simp only [Script.descends, Bool.and_eq_true] at hdescends
  obtain ⟨⟨hbrace, hother⟩, hended⟩ := hdescends
  rw [p.rule_eq_run, p.rule_eq_run]
  by_cases hkind : d.kind = .punct .lBrace
  · refine Script.run_congr hcall hagree ctx _ ?_ (by simpa [rankAt, hkind] using hbrace)
    exact { fits_start d with
      first := by simp [Sight.kinds, hkind]
      left := fun _ => Draft.rest_ne_nil_of_kind hkind (by simp) }
  · cases hrest : d.rest with
    | nil =>
        refine Script.run_congr hcall hagree ctx _ ?_ (by simpa [rankAt, hkind] using hended)
        exact { fits_start d with
          first := by simp [Sight.kinds, Draft.kind, Draft.kindAt, hrest]
          second := by simp [Sight.kinds, Draft.kindAt, hrest] }
    | cons l ls =>
        refine Script.run_congr hcall hagree ctx _ ?_ (by simpa [rankAt, hkind] using hother)
        exact { fits_start d with
          first := List.mem_filter.mpr ⟨d.kind.mem_every, by simpa using hkind⟩
          left := fun _ => by simp [hrest] }

/-! ## the depth of calls -/

/-- More than the number of nested calls that a production can make. -/
def Production.depth (p : Production) (d : Draft) : Nat :=
  chainBound * d.rest.length + p.rankAt d

theorem Production.depth_lt (p : Production) (d : Draft) :
    p.depth d < chainBound * (d.rest.length + 1) := by
  have hlt : p.rankAt d < chainBound := p.rank_lt _
  rw [depth, Nat.mul_succ]
  omega

theorem Nearer.length_le {r : Nat} {d e : Draft} {q : Production} (h : Nearer r d q e) :
    e.rest.length ≤ d.rest.length := by
  simpa only [Draft.length_ahead] using h.ahead.length_le

theorem Nearer.depth_lt {p q : Production} {d e : Draft} (h : Nearer (p.rankAt d) d q e) :
    q.depth e < p.depth d := by
  have hle := Nat.mul_le_mul_left chainBound h.length_le
  rcases h.descends with hlt | hlt
  · have hstep := Nat.mul_le_mul_left chainBound (Nat.succ_le_of_lt hlt)
    exact Nat.lt_of_lt_of_le (q.depth_lt e) (Nat.le_trans hstep (Nat.le_add_right _ _))
  · unfold Production.depth
    omega

/-- A call back to the same production has fewer tokens: its rank at one place is
the same. -/
theorem length_lt_of_nearer {p : Production} {d e : Draft} (h : Nearer (p.rankAt d) d p e) :
    e.rest.length < d.rest.length := by
  rcases h.descends with hlt | hlt
  · exact hlt
  · refine Nat.lt_of_le_of_ne h.length_le fun heq => ?_
    have hahead : e.ahead = d.ahead :=
      h.ahead.eq_of_length (by rw [Draft.length_ahead, Draft.length_ahead, heq])
    have hkind : e.kind = d.kind := by
      rw [Draft.kind, Draft.kind, Draft.kindAt_eq, Draft.kindAt_eq, hahead]
    rw [Production.rankAt, Production.rankAt, hkind] at hlt
    exact Nat.lt_irrefl _ hlt

/-- A template that comes next is taken. -/
theorem Grammar.length_templateParts {call : Call} (hcall : ∀ p ctx d, Later d (call p ctx d))
    (ctx : Context) {d : Draft} (h : d.kind.isTemplate = true) :
    (templateParts call ctx d).rest.length < d.rest.length := by
  have hrest : d.rest ≠ [] :=
    Draft.rest_ne_nil_of_kind_ne fun hk => by simp [hk, TokenKind.isTemplate] at h
  have htake := d.length_rest_take
  have hpos := List.length_pos_iff.mpr hrest
  have hended : d.ended = false := by simpa [Draft.ended] using hrest
  unfold templateParts
  split
  · omega
  · next htail =>
      have hhead : d.sees .templateHead = true := by
        simp only [Draft.sees, hended, Bool.not_false, Bool.true_and, decide_eq_true_eq] at htail ⊢
        unfold TokenKind.isTemplate at h
        split at h
        · assumption
        · contradiction
        · cases h
      rw [if_pos hhead]
      have hle := (steady_later.trans (hcall .expression ctx.withIn d.take)
        (hcall .templateParts ctx _)).ahead.length_le
      simp only [Draft.length_ahead] at hle
      omega

theorem obeys_derive {bound : Nat} {d : Draft} (h : chainBound * d.rest.length ≤ bound) :
    Obeys false d (derive bound) where
  later p ctx e := steady_later.derive bound p ctx e
  template ctx e _ he hkind := by
    have hpos : 0 < d.rest.length := by
      have hne : e.rest ≠ [] :=
        Draft.rest_ne_nil_of_kind_ne fun hk => by simp [hk, TokenKind.isTemplate] at hkind
      have hle := he.length_le
      simp only [Draft.length_ahead] at hle
      exact Nat.lt_of_lt_of_le (List.length_pos_iff.mpr hne) hle
    cases bound with
    | zero =>
        have hzero := Nat.mul_pos (show 0 < chainBound by decide) hpos
        omega
    | succ bound => exact Grammar.length_templateParts (steady_later.derive bound) ctx hkind
  calm p ctx e hs := by cases hs

/-- What a production does does not depend on the bound, if it is large enough. -/
theorem derive_eq_derive {bound bound' : Nat} {p : Production} {ctx : Context} {d : Draft}
    (h : p.depth d < bound) (h' : p.depth d < bound') :
    derive bound p ctx d = derive bound' p ctx d := by
  induction bound generalizing bound' p ctx d with
  | zero => omega
  | succ bound ih =>
      cases bound' with
      | zero => omega
      | succ bound' =>
          refine p.rule_congr ctx (obeys_derive (by unfold Production.depth at h; omega)) ?_
          intro q ctx e hnear
          have hlt := hnear.depth_lt
          exact ih (by omega) (by omega)

/-! ## what the rules say without a bound -/

/-- What each production does, however many tokens are left. -/
def grammar : Call := fun p ctx d => deriveFor d.rest.length p ctx d

theorem derive_eq_grammar {bound : Nat} {p : Production} {d : Draft} (h : p.depth d < bound)
    (ctx : Context) : derive bound p ctx d = grammar p ctx d :=
  derive_eq_derive h (p.depth_lt d)

theorem deriveFor_eq_grammar {n : Nat} {d : Draft} (h : d.rest.length ≤ n) (p : Production)
    (ctx : Context) : deriveFor n p ctx d = grammar p ctx d := by
  refine derive_eq_grammar (Nat.lt_of_lt_of_le (p.depth_lt d) ?_) ctx
  exact Nat.mul_le_mul_left _ (by omega)

/-- The grammar does what its rules say. -/
theorem grammar_eq_rule (p : Production) (ctx : Context) (d : Draft) :
    grammar p ctx d = p.rule grammar ctx d := by
  have hdepth := p.depth_lt d
  obtain ⟨bound, hbound⟩ := Nat.exists_eq_succ_of_ne_zero (Nat.ne_of_gt (Nat.zero_lt_of_lt hdepth))
  rw [grammar, deriveFor, hbound]
  refine p.rule_congr ctx (obeys_derive (by unfold Production.depth at hdepth; omega)) ?_
  intro q ctx e hnear
  have hlt := hnear.depth_lt
  exact derive_eq_grammar (by omega) ctx

theorem later_grammar (p : Production) (ctx : Context) (d : Draft) : Later d (grammar p ctx d) :=
  steady_later.derive _ p ctx d

theorem obeys_grammar (d : Draft) : Obeys false d grammar where
  later := later_grammar
  template ctx e _ _ hkind := by
    rw [grammar_eq_rule]
    exact Grammar.length_templateParts later_grammar ctx hkind
  calm p ctx e hs := by cases hs

/-- Only the grammar does what its rules say. -/
theorem eq_grammar_of_rule {call : Call} (h : ∀ p ctx d, call p ctx d = p.rule call ctx d) :
    call = grammar := by
  have hdepth : ∀ n p ctx d, Production.depth p d < n → call p ctx d = grammar p ctx d := by
    intro n
    induction n with
    | zero => omega
    | succ n ih =>
        intro p ctx d hlt
        rw [h, grammar_eq_rule]
        refine (p.rule_congr ctx (obeys_grammar d) fun q ctx e hnear => ?_).symm
        have hq := hnear.depth_lt
        exact (ih q ctx e (by omega)).symm
  funext p ctx d
  exact hdepth _ p ctx d (Nat.lt_succ_self _)

/-! ## nested calls -/

/-- A production at a place of a parse. -/
structure Visit where
  production : Production
  context : Context
  draft : Draft

/-- What some productions do at a visit. -/
def Call.at (call : Call) (v : Visit) : Draft := call v.production v.context v.draft

/-- At `v`, a rule of the grammar calls for `w`: what it does changes with what is
done there. -/
def Visit.Asks (v w : Visit) : Prop :=
  ∃ call : Call, (∀ u, u ≠ w → call.at u = grammar.at u) ∧
    v.production.rule call v.context v.draft ≠ v.production.rule grammar v.context v.draft

namespace Visit

def depth (v : Visit) : Nat := v.production.depth v.draft

theorem Asks.nearer {v w : Visit} (h : v.Asks w) :
    Nearer (v.production.rankAt v.draft) v.draft w.production w.draft := by
  obtain ⟨call, hothers, hrule⟩ := h
  refine Classical.byContradiction fun hfar => ?_
  refine hrule (v.production.rule_congr v.context (obeys_grammar v.draft) ?_).symm
  intro q ctx e hnear
  refine (hothers ⟨q, ctx, e⟩ ?_).symm
  rintro rfl
  exact hfar hnear

theorem wellFounded_asks : WellFounded fun w v : Visit => v.Asks w :=
  Subrelation.wf (fun h => h.nearer.depth_lt) (measure depth).wf

/-- Nested calls go on with the tokens that are left, and come back to a
production with fewer of them only. -/
theorem nearer_of_transGen {v w : Visit} (h : Relation.TransGen Asks v w) :
    Nearer (v.production.rankAt v.draft) v.draft w.production w.draft := by
  induction h with
  | single h => exact h.nearer
  | @tail w u _ hasks ih =>
      have hnear := hasks.nearer
      refine ⟨hnear.ahead.trans ih.ahead, ?_⟩
      have hle := hnear.length_le
      have hle' := ih.length_le
      have hdescends := ih.descends
      rcases hnear.descends with hlt | hlt <;> omega

end Visit

/-! ## loops -/

/-- A list goes on only after a comma, so its bound does not matter if there is
one for each token. -/
theorem Draft.items_eq_items {close : TokenKind} {item : Draft → Draft}
    (hlater : ∀ d, Later d (item d)) {bound bound' : Nat} {d : Draft}
    (h : d.rest.length ≤ bound) (h' : d.rest.length ≤ bound') :
    d.items close item bound = d.items close item bound' := by
  induction bound generalizing bound' d with
  | zero =>
      have hended : d.ended = true := by simpa [ended] using h
      cases bound' with
      | zero => rfl
      | succ bound' => simp [items, hended]
  | succ bound ih =>
      cases bound' with
      | zero =>
          have hended : d.ended = true := by simpa [ended] using h'
          simp [items, hended]
      | succ bound' =>
          rw [items, items, nextItem, nextItem]
          split
          · rfl
          · split
            · rfl
            · split
              · next hcomma =>
                  have hpos := List.length_pos_iff.mpr (rest_ne_nil_of_sees hcomma)
                  have hle := (hlater d).ahead.length_le
                  have htake := (item d).length_rest_take
                  simp only [length_ahead] at hle
                  exact ih (by omega) (by omega)
              · rfl

theorem Grammar.importSpecifiers_eq_importSpecifiers {bound : Nat} {d : Draft}
    (h : d.rest.length ≤ bound) : importSpecifiers bound d = importSpecifiers d.rest.length d := by
  rw [Script.importSpecifiers_eq, Script.importSpecifiers_eq]
  refine Draft.items_eq_items (fun e => ?_) h (Nat.le_refl _)
  rw [← Script.run_importSpecifier grammar {}]
  exact steady_later.run later_grammar _ _ e

theorem Grammar.exportSpecifiers_eq_exportSpecifiers (again : Bool) {bound : Nat} {d : Draft}
    (h : d.rest.length ≤ bound) :
    exportSpecifiers again bound d = exportSpecifiers again d.rest.length d := by
  rw [Script.exportSpecifiers_eq, Script.exportSpecifiers_eq]
  refine Draft.items_eq_items (fun e => ?_) h (Nat.le_refl _)
  exact steady_later.run later_grammar {} (Script.exportSpecifier again) e

/-- Each item of a program takes a token. -/
theorem length_rest_moduleItem (source : SourceType) (ctx : Context) {d : Draft}
    (h : d.ended = false) :
    (d.advance (Grammar.moduleItem grammar source ctx)).rest.length < d.rest.length := by
  refine Draft.length_rest_advance ?_ h
  have hle := (steady_later.moduleItem later_grammar source ctx d).ahead.length_le
  simpa only [Draft.length_ahead] using hle

theorem Script.under_moduleItem (source : SourceType) :
    (moduleItem source).under chainBound {} = true := by
  cases source <;> decide +kernel

theorem moduleItem_eq_grammar (source : SourceType) (ctx : Context) {n : Nat} {d : Draft}
    (h : d.rest.length ≤ n) :
    Grammar.moduleItem (deriveFor n) source ctx d = Grammar.moduleItem grammar source ctx d := by
  rw [← Script.run_moduleItem, ← Script.run_moduleItem]
  refine (Script.run_congr (obeys_grammar d) (fun p ctx e hnear => ?_) ctx _ (fits_start d)
    (Script.under_moduleItem source)).symm
  exact (deriveFor_eq_grammar (Nat.le_trans hnear.length_le h) p ctx).symm

/-- The bounds of a parse do not matter. -/
theorem programItems_eq_grammar (source : SourceType) {n bound bound' : Nat} {d : Draft}
    (hn : d.rest.length ≤ n) (h : d.rest.length ≤ bound) (h' : d.rest.length ≤ bound') :
    programItems (deriveFor n) source bound d = programItems grammar source bound' d := by
  induction bound generalizing bound' d with
  | zero =>
      have hended : d.ended = true := by simpa [Draft.ended] using h
      cases bound' <;> simp [programItems, hended]
  | succ bound ih =>
      cases bound' with
      | zero =>
          have hended : d.ended = true := by simpa [Draft.ended] using h'
          simp [programItems, hended]
      | succ bound' =>
          rw [programItems, programItems]
          split
          · rfl
          · next hended =>
              have hlt := length_rest_moduleItem source { awaits := source = .module }
                (Bool.not_eq_true _ ▸ hended)
              simp only [Draft.advance, moduleItem_eq_grammar source _ hn] at hlt ⊢
              exact ih (by omega) (by omega) (by omega)

/-- A parse comes to its end.  There is one thing that the rules of the grammar
can mean, without any bound on calls.  Nested calls are well founded: they go on
with the tokens that are left, and come back to a production with fewer of them
only.  Lists, operators and templates go on by calling their production again, so
each round takes a token.  Whatever the tokens are, the program is what the rules
say and takes all of them; each of its items takes one, and so does each name of
an import or export after which the list goes on, so that counting them has no
effect. -/
theorem parse_terminates :
    (∀ p ctx d, grammar p ctx d = p.rule grammar ctx d) ∧
      (∀ call : Call, (∀ p ctx d, call p ctx d = p.rule call ctx d) → call = grammar) ∧
      (WellFounded fun w v : Visit => v.Asks w) ∧
      (∀ v w : Visit, Relation.TransGen Visit.Asks v w →
        w.draft.ahead <:+ v.draft.ahead ∧
          (w.production = v.production → w.draft.rest.length < v.draft.rest.length)) ∧
      (∀ (source : SourceType) (tokens : List Token) (bound : Nat),
        let d := Draft.ofTokens tokens
        d.rest.length ≤ bound →
          programItems (deriveFor d.rest.length) source d.rest.length d =
              programItems grammar source bound d ∧
            (programItems grammar source bound d).rest = []) ∧
      (∀ (source : SourceType) (ctx : Context) (d : Draft), d.ended = false →
        (d.advance (Grammar.moduleItem grammar source ctx)).rest.length < d.rest.length) ∧
      ∀ (bound : Nat) (d : Draft), d.rest.length ≤ bound →
        Grammar.importSpecifiers bound d = Grammar.importSpecifiers d.rest.length d ∧
          ∀ again, Grammar.exportSpecifiers again bound d =
            Grammar.exportSpecifiers again d.rest.length d := by
  refine ⟨grammar_eq_rule, fun _ => eq_grammar_of_rule, Visit.wellFounded_asks,
    fun v w hcalls => ?_, fun source tokens bound => ?_, fun source ctx d => ?_,
    fun bound d hbound => ?_⟩
  · have hnear := Visit.nearer_of_transGen hcalls
    refine ⟨hnear.ahead, fun hsame => ?_⟩
    rw [hsame] at hnear
    exact length_lt_of_nearer hnear
  · intro d hbound
    have heq : programItems (deriveFor d.rest.length) source d.rest.length d =
        programItems grammar source bound d :=
      programItems_eq_grammar source (Nat.le_refl _) (Nat.le_refl _) hbound
    refine ⟨heq, heq ▸ ?_⟩
    exact Draft.rest_programItems (lawful_derive _) (Draft.clear_of_lastKind? rfl) (Nat.le_refl _)
  · exact length_rest_moduleItem source ctx
  · exact ⟨Grammar.importSpecifiers_eq_importSpecifiers hbound,
      fun again => Grammar.exportSpecifiers_eq_exportSpecifiers again hbound⟩

end FreeNames
