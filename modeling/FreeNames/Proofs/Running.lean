import FreeNames.Grammar.Parse
import FreeNames.Proofs.Script

/-!
# FreeNames.Proofs.Running

What scripts do is what the rules of the grammar do (`Production.rule_eq_run`,
`Script.run_moduleItem`), so what all scripts keep, the rules keep:

* `Steady.run` — a relation from before a step to after it;
* `Likeness.run` — a relation between two parses that go the same way.

Both have a form for scripts that pass a check, which asks less of the relation.
-/

namespace FreeNames

theorem Draft.sees_eq (d : Draft) {k : TokenKind} (hk : k ≠ .error) :
    d.sees k = decide (d.kind = k) := by
  cases h : d.rest with
  | nil => simp [sees, ended, kind, kindAt, h, hk.symm]
  | cons l ls => simp [sees, ended, h]

namespace Script

variable (call : Call) (ctx : Context)

/-! ## scripts and rules

Most scripts do what their rules do by definition.  Where a rule chooses by the
kind of a token, this is seen kind by kind. -/

theorem run_append (a b : Script) :
    (a ++ b).run call ctx = fun d => b.run call ctx (a.run call ctx d) := rfl

theorem run_choose (t : Test) (a b : Script) :
    (choose t a b).run call ctx =
      fun d => if t.holds ctx d then a.run call ctx d else b.run call ctx d := rfl

theorem run_group (a : Script) : (group a).run call ctx = fun d => d.group (a.run call ctx) := rfl

theorem run_node (k : NodeKind) (a : Script) :
    (node k a).run call ctx = fun d => d.node k (a.run call ctx) := rfl

theorem run_choose_andThen (k : TokenKind) (a b : Script) :
    (choose (.andThen k) a b).run call ctx =
      fun d => if d.kindAt 1 = k then a.run call ctx d else b.run call ctx d := by
  funext d
  simp [run, Test.andThen, Test.holds]

theorem run_importExpr : importExpr.run call ctx = Grammar.importExpr call ctx :=
  run_choose_andThen call ctx _ _ _

theorem run_primary : primary.run call ctx = Grammar.primary call ctx := by
  funext d
  simp only [primary, run, Grammar.primary]
  cases d.kind with
  | punct p => cases p <;> rfl
  | keyword k =>
      cases k with
      | importKw => simp only [run_choose, run_importExpr]; rfl
      | _ => rfl
  | _ => rfl

theorem run_newOrPrimary :
    newOrPrimary.run call ctx = fun d =>
      if d.sees (.keyword .newKw) then call .newExpr ctx d else Grammar.primary call ctx d := by
  rw [newOrPrimary, run_choose, run_primary]
  rfl

theorem run_newExpr : newExpr.run call ctx = Grammar.newExpr call ctx := by
  simp only [newExpr, run_choose_andThen, run_node, run_append, run_group, run_newOrPrimary]
  rfl

theorem run_operand : operand.run call ctx = Grammar.operand call ctx := by
  simp only [operand, run_group, run_append, run_newOrPrimary]
  rfl

theorem run_unary : unary.run call ctx = Grammar.unary call ctx := by
  funext d
  simp only [unary, run, Grammar.unary]
  cases d.kind with
  | punct p => cases p <;> rfl
  | keyword k => cases k <;> rfl
  | _ => rfl

theorem run_forLoop (d : Draft) :
    forLoop.run call ctx d =
      d.enclose (Grammar.forKind d) fun e =>
        call .statement ctx
          ((Grammar.forRest call (Grammar.forKind d) ctx e).expect (.punct .rParen)) := by
  simp only [forLoop, run, Grammar.forKind, Test.seesWord, Test.holds, Draft.seesWord]
  by_cases hin : d.sees (.keyword .inKw) = true
  · simp only [hin, if_true]
    rfl
  · by_cases hof : d.wordAt 0 "of" = true
    · simp only [hin, hof, if_true]
      rfl
    · simp only [hin, hof]
      rfl

theorem run_forStatement : forStatement.run call ctx = Grammar.forStatement call ctx := by
  rw [forStatement, run_group, run_append, funext (run_forLoop call ctx)]
  rfl

theorem run_wordStatement : wordStatement.run call ctx = Grammar.wordStatement call ctx := by
  rw [wordStatement, run_choose, run_choose, run_choose_andThen]
  rfl

theorem run_statement : statement.run call ctx = Grammar.statement call ctx := by
  funext d
  simp only [statement, run, Grammar.statement]
  cases d.kind with
  | punct p => cases p <;> rfl
  | keyword k =>
      cases k with
      | forKw => rw [run_forStatement]
      | _ => rfl
  | ident => rw [run_wordStatement]
  | _ => rfl

theorem run_suffixes (calls : Bool) :
    (suffixes calls).run call ctx = Grammar.suffixes call calls ctx := by
  funext d
  simp only [suffixes, run, Grammar.suffixes, Grammar.suffix?]
  cases hk : d.kind with
  | punct p =>
      cases p with
      | questionDot =>
          simp only [run_choose_andThen]
          cases d.kindAt 1 with
          | punct p => cases p <;> rfl
          | _ => rfl
      | lParen => cases calls <;> rfl
      | _ => rfl
  | templateHead | templateTail =>
      by_cases h : (d.textAt 0).head? = some '\x60'
      · simp only [run, Test.holds, hk, h]
        rfl
      · simp [run, Test.holds, h]
  | _ => rfl

theorem precedence?_eq (k : TokenKind) :
    Grammar.precedence? ctx k =
      if ctx.noIn && k = .keyword .inKw then none else Grammar.precedence? {} k := by
  cases k with
  | punct p => cases p <;> simp [Grammar.precedence?]
  | keyword k =>
      cases k with
      | inKw => cases h : ctx.noIn <;> simp [Grammar.precedence?, h]
      | _ => simp [Grammar.precedence?]
  | _ => simp [Grammar.precedence?]

theorem run_binaryTail (least : Nat) :
    (binaryTail least).run call ctx = Grammar.binaryTail call least ctx := by
  funext d
  simp only [binaryTail, run, Grammar.binaryTail, precedence?_eq ctx d.kind]
  cases hp : Grammar.precedence? {} d.kind with
  | none => simp
  | some p =>
      have hstar : d.sees (.punct .starStar) = decide (d.kind = .punct .starStar) :=
        d.sees_eq (by simp)
      by_cases hin : (ctx.noIn && decide (d.kind = .keyword .inKw)) = true
      · simp [hin]
      · by_cases hlt : p < least
        · simp [hin, hlt]
        · simp [run_append, hin, hlt, hstar]

theorem importSpecifiers_eq (bound : Nat) :
    Grammar.importSpecifiers bound =
      Draft.items (.punct .rBrace) Grammar.importSpecifier bound := by
  induction bound with
  | zero => rfl
  | succ bound ih =>
      funext d
      rw [Grammar.importSpecifiers, Draft.items, ih]

theorem exportSpecifiers_eq (again : Bool) (bound : Nat) :
    Grammar.exportSpecifiers again bound =
      Draft.items (.punct .rBrace) (Grammar.exportSpecifier again) bound := by
  induction bound with
  | zero => rfl
  | succ bound ih =>
      funext d
      rw [Grammar.exportSpecifiers, Draft.items, ih]

theorem run_importSpecifier : importSpecifier.run call ctx = Grammar.importSpecifier := by
  funext d
  refine congrArg (d.node .importSpecifier) (funext fun d => ?_)
  exact (apply_ite Grammar.bindingName _ _ _).symm

theorem run_importedNames : importedNames.run call ctx = Grammar.importedNames := by
  funext d
  simp only [importedNames, run, Grammar.importedNames, Grammar.namedImports, importSpecifiers_eq,
    ← run_importSpecifier call ctx]
  cases d.kind with
  | punct p => cases p <;> rfl
  | _ => rfl

theorem run_importClause : importClause.run call ctx = Grammar.importClause := by
  simp only [importClause, run_choose, run_append, run_importedNames]
  rfl

theorem run_importDeclaration (source : SourceType) :
    (importDeclaration source).run call ctx = Grammar.importDeclaration call source ctx := by
  simp only [importDeclaration, run_choose, run_append, run_node, run_importClause]
  cases source <;> rfl

theorem run_namedExports : namedExports.run call ctx = Grammar.namedExports call ctx := by
  funext d
  simp only [Grammar.namedExports, exportSpecifiers_eq]
  rfl

theorem run_exported : exported.run call ctx = Grammar.exported call ctx := by
  funext d
  simp only [exported, run, Grammar.exported]
  cases d.kind with
  | punct p =>
      cases p with
      | lBrace => rw [run_namedExports]
      | _ => rfl
  | keyword k => cases k <;> rfl
  | _ => rfl

theorem run_exportDeclaration (source : SourceType) :
    (exportDeclaration source).run call ctx = Grammar.exportDeclaration call source ctx := by
  simp only [exportDeclaration, run_append, run_node, run_exported]
  cases source <;> rfl

theorem run_moduleItem (source : SourceType) :
    (moduleItem source).run call ctx = Grammar.moduleItem call source ctx := by
  funext d
  simp only [moduleItem, run, Grammar.moduleItem]
  cases d.kind with
  | keyword k =>
      cases k with
      | importKw => simp only [run_choose, run_importDeclaration]; rfl
      | exportKw => rw [run_exportDeclaration]
      | _ => rfl
  | _ => rfl

end Script

/-- The script of a production does what its rule does. -/
theorem Production.rule_eq_run (p : Production) (call : Call) (ctx : Context) (d : Draft) :
    p.rule call ctx d = p.script.run call ctx d := by
  cases p with
  | statement => exact congrFun (Script.run_statement call ctx).symm d
  | unary => exact congrFun (Script.run_unary call ctx).symm d
  | operand => exact congrFun (Script.run_operand call ctx).symm d
  | newExpr => exact congrFun (Script.run_newExpr call ctx).symm d
  | suffixes calls => exact congrFun (Script.run_suffixes call ctx calls).symm d
  | binaryTail least => exact congrFun (Script.run_binaryTail call ctx least).symm d
  | _ => rfl

/-! ## relations that scripts keep -/

namespace Steady

variable {R : Draft → Draft → Prop} {kinds : NodeKind → Bool} {causes : Cause → Bool}

theorem single (hR : Steady R kinds causes) (d : Draft) {k : NodeKind} (hk : kinds k = true) :
    R d (d.single k) :=
  hR.trans (hR.placeTrivia d) (hR.node hk (hR.take _))

theorem skip (hR : Steady R kinds causes) (d : Draft) {c : Cause} (hc : causes c = true) :
    R d (d.skip c) := by
  unfold Draft.skip
  dsimp only
  split
  · exact hR.report d hc
  · exact hR.trans (hR.report d hc) (hR.single _ hR.error)

theorem advance (hR : Steady R kinds causes) {d : Draft} {step : Draft → Draft}
    (h : R d (step d)) : R d (d.advance step) := by
  unfold Draft.advance
  dsimp only
  split
  · exact hR.trans h (hR.skip _ hR.unexpected)
  · exact h

theorem nextItem (hR : Steady R kinds causes) (close : TokenKind) {more : Draft → Draft}
    (hmore : ∀ d, R d (more d)) (d : Draft) : R d (d.nextItem close more) := by
  unfold Draft.nextItem
  split
  · exact hR.refl d
  · split
    · exact hR.trans (hR.take d) (hmore _)
    · exact hR.report d hR.comma

theorem items (hR : Steady R kinds causes) (close : TokenKind) {item : Draft → Draft}
    (hitem : ∀ d, R d (item d)) (bound : Nat) (d : Draft) : R d (d.items close item bound) := by
  induction bound generalizing d with
  | zero => exact hR.refl d
  | succ bound ih =>
      rw [Draft.items]
      split
      · exact hR.refl d
      · exact hR.trans (hitem d) (hR.nextItem close ih _)

/-- What each step keeps, a script of such steps keeps. -/
theorem run_of_passes (hR : Steady R kinds causes) {call : Call}
    (hcall : ∀ p ctx d, R d (call p ctx d)) (ctx : Context) {s : Script}
    (hs : s.passes { kind := kinds, cause := causes } = true) (d : Draft) :
    R d (s.run call ctx d) := by
  induction s generalizing d with
  | done => exact hR.refl d
  | take => exact hR.take d
  | report c => exact hR.report d hs
  | single k => exact hR.single d hs
  | seq a b iha ihb =>
      obtain ⟨ha, hb⟩ := (Bool.and_eq_true ..).mp hs
      exact hR.trans (iha ha d) (ihb hb _)
  | choose t a b iha ihb =>
      obtain ⟨ha, hb⟩ := (Bool.and_eq_true ..).mp hs
      rw [Script.run]
      split
      · exact iha ha d
      · exact ihb hb d
  | look f ih => exact ih _ (List.all_eq_true.mp hs _ d.kind.mem_every) d
  | ask t f ih =>
      obtain ⟨htrue, hfalse⟩ := (Bool.and_eq_true ..).mp hs
      rw [Script.run]
      cases t.holds ctx d with
      | true => exact ih _ htrue d
      | false => exact ih _ hfalse d
  | group a ih => exact hR.trans (hR.placeTrivia d) (hR.group (ih hs _))
  | enclose k a ih =>
      obtain ⟨hk, ha⟩ := (Bool.and_eq_true ..).mp hs
      exact hR.enclose hk (ih ha _)
  | node k a ih =>
      obtain ⟨hk, ha⟩ := (Bool.and_eq_true ..).mp hs
      exact hR.trans (hR.placeTrivia d) (hR.node hk (ih ha _))
  | call p place => exact hcall p _ d
  | advance a ih => exact hR.advance (ih hs d)
  | list close item ih => exact hR.trans (hR.take d) (hR.items close (ih hs) _ _)

/-- What each step keeps, a script keeps. -/
theorem run (hR : Steady R) {call : Call} (hcall : ∀ p ctx d, R d (call p ctx d))
    (ctx : Context) (s : Script) (d : Draft) : R d (s.run call ctx d) :=
  hR.run_of_passes hcall ctx s.passes_all d

theorem derive_of_passes (hR : Steady R kinds causes)
    (hscript : ∀ p : Production, p.script.passes { kind := kinds, cause := causes } = true)
    (bound : Nat) (p : Production) (ctx : Context) (d : Draft) : R d (derive bound p ctx d) := by
  induction bound generalizing p ctx d with
  | zero => exact hR.refl d
  | succ bound ih =>
      rw [FreeNames.derive, p.rule_eq_run]
      exact hR.run_of_passes ih ctx (hscript p) d

theorem derive (hR : Steady R) (bound : Nat) (p : Production) (ctx : Context) (d : Draft) :
    R d (derive bound p ctx d) := hR.derive_of_passes (fun p => p.script.passes_all) bound p ctx d

theorem moduleItem (hR : Steady R) {call : Call} (hcall : ∀ p ctx d, R d (call p ctx d))
    (source : SourceType) (ctx : Context) (d : Draft) :
    R d (Grammar.moduleItem call source ctx d) := by
  rw [← Script.run_moduleItem]
  exact hR.run hcall ctx _ d

theorem programItems_of_passes (hR : Steady R kinds causes) {call : Call}
    (hcall : ∀ p ctx d, R d (call p ctx d)) {source : SourceType}
    (hs : (Script.moduleItem source).passes { kind := kinds, cause := causes } = true)
    (bound : Nat) (d : Draft) : R d (programItems call source bound d) := by
  induction bound generalizing d with
  | zero => exact hR.refl d
  | succ bound ih =>
      rw [FreeNames.programItems]
      split
      · exact hR.refl d
      · refine hR.trans (hR.advance ?_) (ih _)
        rw [← Script.run_moduleItem]
        exact hR.run_of_passes hcall _ hs d

theorem programItems (hR : Steady R) {call : Call} (hcall : ∀ p ctx d, R d (call p ctx d))
    (source : SourceType) (bound : Nat) (d : Draft) : R d (programItems call source bound d) :=
  hR.programItems_of_passes hcall (Script.moduleItem source).passes_all bound d

end Steady

/-- A relation between drafts with the same kinds of tokens ahead, kept when the
same is done to both. -/
structure Likeness (R : Draft → Draft → Prop) : Prop where
  length {d e : Draft} : R d e → d.rest.length = e.rest.length
  kind {d e : Draft} : R d e → d.kind = e.kind
  placeTrivia {d e : Draft} : R d e → R d.placeTrivia e.placeTrivia
  take {d e : Draft} : R d e → R d.take e.take
  report {d e : Draft} (c : Cause) : R d e → R (d.report c) (e.report c)
  apart {d e : Draft} : R d e → R d.apart e.apart
  start {d e : Draft} (k : NodeKind) : R d e → R (d.log (.start k)) (e.log (.start k))
  startAt {d e : Draft} (k : NodeKind) :
    R d e → R (d.log (.startAt d.base k)) (e.log (.startAt e.base k))
  close {d e : Draft} (k : NodeKind) :
    R d e → R ((d.wrap k).log .finish) ((e.wrap k).log .finish)
  rejoin {d e d' e' : Draft} : R d e → R d' e' → R (d.rejoin d') (e.rejoin e')

namespace Likeness

variable {R : Draft → Draft → Prop} {d e : Draft}

theorem ended (hR : Likeness R) (h : R d e) : d.ended = e.ended := by
  rw [Bool.eq_iff_iff]
  simp only [Draft.ended, List.isEmpty_iff, ← List.length_eq_zero_iff, hR.length h]

theorem sees (hR : Likeness R) (h : R d e) (k : TokenKind) : d.sees k = e.sees k := by
  rw [Draft.sees, Draft.sees, hR.ended h, hR.kind h]

theorem opened (hR : Likeness R) (h : R d e) : R d.placeTrivia.apart e.placeTrivia.apart :=
  hR.apart (hR.placeTrivia h)

theorem single (hR : Likeness R) (h : R d e) (k : NodeKind) : R (d.single k) (e.single k) :=
  hR.rejoin (hR.close k (hR.take (hR.start k (hR.opened h)))) (hR.placeTrivia h)

theorem skip (hR : Likeness R) (h : R d e) (c : Cause) : R (d.skip c) (e.skip c) := by
  unfold Draft.skip
  simp only [hR.ended (hR.report c h)]
  split
  · exact hR.report c h
  · exact hR.single (hR.report c h) .error

theorem advance (hR : Likeness R) {step step' : Draft → Draft} (h : R d e)
    (hstep : R (step d) (step' e)) : R (d.advance step) (e.advance step') := by
  unfold Draft.advance
  simp only [hR.length h, hR.length hstep]
  split
  · exact hR.skip hstep _
  · exact hstep

theorem items (hR : Likeness R) {close : TokenKind} {item item' : Draft → Draft}
    (hitem : ∀ {d e}, R d e → R (item d) (item' e)) (bound : Nat) (h : R d e) :
    R (d.items close item bound) (e.items close item' bound) := by
  induction bound generalizing d e with
  | zero => exact h
  | succ bound ih =>
      simp only [Draft.items, Draft.nextItem, hR.ended h, hR.sees h, hR.sees (hitem h)]
      split
      · exact h
      · split
        · exact hitem h
        · split
          · exact ih (hR.take (hitem h))
          · exact hR.report _ (hitem h)

/-- Two runs of a script, in contexts that need not be the same, stay alike if its
tests have the same answers and its calls are made in contexts that differ no more. -/
theorem run_of_passes (hR : Likeness R) {C : Context → Context → Prop} {test : Test → Bool}
    {place : (Context → Context) → Bool} {call call' : Call}
    (htest : ∀ (t : Test) {ctx ctx' : Context} {d e : Draft}, test t = true → C ctx ctx' →
      R d e → t.holds ctx d = t.holds ctx' e)
    (hplace : ∀ (f : Context → Context) {ctx ctx' : Context}, place f = true → C ctx ctx' →
      C (f ctx) (f ctx'))
    (hcall : ∀ (p : Production) {ctx ctx' : Context} {d e : Draft}, C ctx ctx' → R d e →
      R (call p ctx d) (call' p ctx' e))
    {ctx ctx' : Context} (hctx : C ctx ctx') {s : Script}
    (hs : s.passes { test := test, place := place } = true) (h : R d e) :
    R (s.run call ctx d) (s.run call' ctx' e) := by
  induction s generalizing d e with
  | done => exact h
  | take => exact hR.take h
  | report c => exact hR.report c h
  | single k => exact hR.single h k
  | seq a b iha ihb =>
      obtain ⟨ha, hb⟩ := (Bool.and_eq_true ..).mp hs
      exact ihb hb (iha ha h)
  | choose t a b iha ihb =>
      obtain ⟨hta, hb⟩ := (Bool.and_eq_true ..).mp hs
      obtain ⟨ht, ha⟩ := (Bool.and_eq_true ..).mp hta
      simp only [Script.run, htest t ht hctx h]
      split
      · exact iha ha h
      · exact ihb hb h
  | look f ih =>
      rw [Script.run, Script.run, hR.kind h]
      exact ih _ (List.all_eq_true.mp hs _ e.kind.mem_every) h
  | ask t f ih =>
      obtain ⟨hta, hfalse⟩ := (Bool.and_eq_true ..).mp hs
      obtain ⟨ht, htrue⟩ := (Bool.and_eq_true ..).mp hta
      rw [Script.run, Script.run, htest t ht hctx h]
      cases t.holds ctx' e with
      | true => exact ih _ htrue h
      | false => exact ih _ hfalse h
  | group a ih => exact hR.rejoin (ih hs (hR.opened h)) (hR.placeTrivia h)
  | enclose k a ih => exact hR.close k (ih hs (hR.startAt k h))
  | node k a ih =>
      exact hR.rejoin (hR.close k (ih hs (hR.start k (hR.opened h)))) (hR.placeTrivia h)
  | call p f => exact hcall p (hplace f hs hctx) h
  | advance a ih => exact hR.advance h (ih hs h)
  | list close item ih =>
      rw [Script.run, Script.run, hR.length h]
      exact hR.items (fun h => ih hs h) _ (hR.take h)

/-- Two runs of a script whose tests have the same answers stay alike. -/
theorem run (hR : Likeness R) {call : Call}
    (htest : ∀ (t : Test) (ctx : Context) {d e : Draft}, R d e → t.holds ctx d = t.holds ctx e)
    (hcall : ∀ (p : Production) (ctx : Context) {d e : Draft},
      R d e → R (call p ctx d) (call p ctx e))
    (ctx : Context) (s : Script) (h : R d e) : R (s.run call ctx d) (s.run call ctx e) := by
  refine hR.run_of_passes (C := Eq) ?_ ?_ ?_ rfl s.passes_all h
  · rintro t ctx _ d e - rfl h
    exact htest t ctx h
  · rintro f ctx _ - rfl
    rfl
  · rintro p ctx _ d e rfl h
    exact hcall p ctx h

variable (hR : Likeness R)
  (htest : ∀ (t : Test) (ctx : Context) {d e : Draft}, R d e → t.holds ctx d = t.holds ctx e)

include hR htest

theorem derive (bound : Nat) (p : Production) (ctx : Context) (h : R d e) :
    R (derive bound p ctx d) (derive bound p ctx e) := by
  induction bound generalizing p ctx d e with
  | zero => exact h
  | succ bound ih =>
      rw [FreeNames.derive, FreeNames.derive, p.rule_eq_run, p.rule_eq_run]
      exact hR.run htest (fun p ctx _ _ h => ih p ctx h) ctx p.script h

theorem programItems (depth : Nat) (source : SourceType) (bound : Nat) (h : R d e) :
    R (programItems (FreeNames.derive depth) source bound d)
      (programItems (FreeNames.derive depth) source bound e) := by
  induction bound generalizing d e with
  | zero => exact h
  | succ bound ih =>
      simp only [FreeNames.programItems, hR.ended h]
      split
      · exact h
      · refine ih (hR.advance h ?_)
        rw [← Script.run_moduleItem]
        exact hR.run htest (fun p ctx _ _ h => hR.derive htest depth p ctx h) _ _ h

/-- Texts whose drafts are alike at the start have drafts that are alike at the end. -/
theorem ofText (source : SourceType) {text text' : Text}
    (h : R (Draft.ofTokens (tokenize text)) (Draft.ofTokens (tokenize text'))) :
    R (Draft.ofText source text) (Draft.ofText source text') := by
  rw [Draft.ofText, Draft.ofText]
  simp only [hR.length h]
  exact hR.placeTrivia (hR.programItems htest _ source _ h)

end Likeness

end FreeNames
