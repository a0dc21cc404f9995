import FreeNames.Proofs.Flow
import FreeNames.Proofs.Reparsing

/-!
# FreeNames.Proofs.Undotted

After a dot any name will do, also one that means something of its own in other
places.  Rules look for such words only where no dot comes before, or where they
report a problem in any case; that this is so is computed from the scripts of the
productions (`Script.safe`).

Main statement: `twin_ofText_of_ok`, a text without problems and one that differs
from it in how names are spelt, such words after dots included, are parsed alike.
-/

namespace FreeNames

/-! ## words that are looked for -/

/-- The words that a test looks for are known not to come after a dot. -/
@[simp] def Test.steady (σ : Sight) : Test → Bool
  | wordAt 0 _ _ => σ.calm
  | wordAt 1 _ _ => σ.rulesOut TokenKind.isDot
  | wordAt _ _ _ => false
  | arrow => σ.calm
  | not t => t.steady σ
  | and s t => s.steady σ && t.steady σ
  | or s t => s.steady σ && t.steady σ
  | _ => true

theorem Test.undotted_of_steady {start d : Draft} {σ : Sight} {t : Test}
    (h : σ.Fits true start d) (hsteady : t.steady σ = true) : t.Undotted d := by
  induction t with
  | wordAt n w hw =>
      match n with
      | 0 => exact h.calm rfl hsteady
      | 1 =>
          intro t ht
          have hdot := h.of_rulesOut hsteady
          rwa [Draft.kind, Draft.kindAt_eq, ht] at hdot
      | n + 2 => cases hsteady
  | arrow => exact h.calm rfl hsteady
  | not t ih => exact ih hsteady
  | and s t ihs iht =>
      obtain ⟨hs, ht⟩ := (Bool.and_eq_true ..).mp hsteady
      exact ⟨ihs hs, iht ht⟩
  | or s t ihs iht =>
      obtain ⟨hs, ht⟩ := (Bool.and_eq_true ..).mp hsteady
      exact ⟨ihs hs, iht ht⟩
  | ended | sees _ | seesAny _ | kindAt _ _ | newlineAt _ | backtick | fromAfter | context _
  | given _ => trivial

/-- A script calls productions after no dot, and looks for words there only.
Where a dot may come before such a word, all ways have to end with a problem. -/
@[simp] def Script.safe : Script → Sight → Bool
  | seq a b, σ => a.safe σ && (a.flow true σ).all b.safe
  | choose t a b, σ =>
    (t.steady σ && (t.tell true σ).all a.safe && (t.tell false σ).all b.safe) ||
      ((σ.narrow TokenKind.isDot).all (fun τ => (a.flow true τ).isNone && (b.flow true τ).isNone) &&
        (σ.narrow fun k => !k.isDot).all fun τ =>
          t.steady τ && (t.tell true τ).all a.safe && (t.tell false τ).all b.safe)
  | look f, σ => (Sight.kinds σ.first).all fun k => (f k).safe (σ.only k)
  | ask t f, σ =>
    t.steady σ && (t.tell true σ).all (f true).safe && (t.tell false σ).all (f false).safe
  | group a, σ => a.safe σ
  | enclose _ a, σ => a.safe σ
  | node _ a, σ => a.safe σ
  | .call p _, σ => σ.calm && (p ≠ .newExpr || σ.rulesOut TokenKind.isDot)
  | advance a, σ => a.safe σ
  | list _ item, σ =>
    σ.next.calm && item.safe { calm := true } &&
      (item.flow true { calm := true }).all fun τ => τ.calm
  | _, _ => true

/-- What productions have to do for safe scripts to make twins of twins. -/
def KeepsTwins (call : Call) : Prop :=
  ∀ (p : Production) (ctx : Context) (d e : Draft), d.Calm →
    (p = .newExpr → d.kind.isDot = false) → (call p ctx d).problems = [] → d.Twin true e →
      (call p ctx d).Twin true (call p ctx e)

/-- Runs of a safe script make twins of twins, if the one reports no problem. -/
theorem Script.twin_run_of_safe {start d e : Draft} {call : Call} {σ : Sight}
    (hobeys : Obeys true start call) (hcall : KeepsTwins call) (ctx : Context) (s : Script)
    (h : σ.Fits true start d) (hsafe : s.safe σ = true) (hrun : (s.run call ctx d).problems = [])
    (htwin : d.Twin true e) : (s.run call ctx d).Twin true (s.run call ctx e) := by
  have hR := likeness_twin true
  induction s generalizing σ d e with
  | done => exact htwin
  | take => exact htwin.take
  | report c => exact htwin.report c
  | single k => exact hR.single htwin k
  | seq a b iha ihb =>
      obtain ⟨ha, hb⟩ := (Bool.and_eq_true ..).mp hsafe
      have hmid : (a.run call ctx d).problems = [] := (hobeys.later_run ctx b _).problems hrun
      obtain ⟨τ, hfits, hτ⟩ := (fits_flow hobeys ctx a h fun _ => hmid).all hb
      exact ihb hfits hτ hrun (iha h ha hmid htwin)
  | choose t a b iha ihb =>
      have hsteady : ∃ τ : Sight, τ.Fits true start d ∧
          (t.steady τ && (t.tell true τ).all a.safe && (t.tell false τ).all b.safe) = true := by
        rcases (Bool.or_eq_true ..).mp hsafe with hsafe | hsafe
        · exact ⟨σ, h, hsafe⟩
        · obtain ⟨hdots, hothers⟩ := (Bool.and_eq_true ..).mp hsafe
          cases hdot : d.kind.isDot with
          | false => exact (h.narrow (by simp [hdot])).all hothers
          | true =>
              -- both ways end with a problem
              obtain ⟨τ, hfits, hnone⟩ := (h.narrow hdot).all hdots
              obtain ⟨ha, hb⟩ := (Bool.and_eq_true ..).mp hnone
              rw [Option.isNone_iff_eq_none] at ha hb
              rw [run] at hrun
              split at hrun
              · obtain ⟨_, hsome, -⟩ := fits_flow hobeys ctx a hfits fun _ => hrun
                simp [ha] at hsome
              · obtain ⟨_, hsome, -⟩ := fits_flow hobeys ctx b hfits fun _ => hrun
                simp [hb] at hsome
      obtain ⟨τ, hfits, hτ⟩ := hsteady
      obtain ⟨hta, hb⟩ := (Bool.and_eq_true ..).mp hτ
      obtain ⟨ht, ha⟩ := (Bool.and_eq_true ..).mp hta
      rw [run] at hrun ⊢
      rw [run, ← t.holds_twin ctx htwin fun _ => t.undotted_of_steady hfits ht]
      split at hrun
      · next hholds =>
          rw [if_pos hholds, if_pos hholds]
          obtain ⟨τ, hfits, hτ⟩ := (t.covers_tell ctx hfits hholds).all ha
          exact iha hfits hτ hrun htwin
      · next hholds =>
          rw [if_neg hholds, if_neg hholds]
          obtain ⟨τ, hfits, hτ⟩ :=
            (t.covers_tell ctx hfits (Bool.not_eq_true _ ▸ hholds)).all hb
          exact ihb hfits hτ hrun htwin
  | look f ih =>
      rw [run, run, ← htwin.kind]
      exact ih _ h.only (List.all_eq_true.mp hsafe _ h.first) hrun htwin
  | ask t f ih =>
      obtain ⟨hta, hb⟩ := (Bool.and_eq_true ..).mp hsafe
      obtain ⟨ht, ha⟩ := (Bool.and_eq_true ..).mp hta
      rw [run] at hrun ⊢
      rw [run, ← t.holds_twin ctx htwin fun _ => t.undotted_of_steady h ht]
      cases hholds : t.holds ctx d with
      | true =>
          rw [hholds] at hrun
          obtain ⟨τ, hfits, hτ⟩ := (t.covers_tell ctx h hholds).all ha
          exact ih _ hfits hτ hrun htwin
      | false =>
          rw [hholds] at hrun
          obtain ⟨τ, hfits, hτ⟩ := (t.covers_tell ctx h hholds).all hb
          exact ih _ hfits hτ hrun htwin
  | group a ih =>
      exact hR.rejoin (ih (h.alike d.alike_opened) hsafe hrun (hR.opened htwin)) htwin.placeTrivia
  | enclose k a ih =>
      exact hR.close k (ih (h.alike (d.alike_restarted k)) hsafe hrun (hR.startAt k htwin))
  | node k a ih =>
      have hbody := ih (h.alike (d.alike_started k)) hsafe hrun (hR.start k (hR.opened htwin))
      exact hR.rejoin (hR.close k hbody) htwin.placeTrivia
  | call p place =>
      obtain ⟨hcalm, hnew⟩ := (Bool.and_eq_true ..).mp hsafe
      refine hcall p _ d e (h.calm rfl hcalm) (fun hp => ?_) hrun htwin
      simp only [hp, Bool.or_eq_true, decide_eq_true_eq] at hnew
      exact h.of_rulesOut (hnew.resolve_left fun hne => hne rfl)
  | advance a ih =>
      have hstep : (a.run call ctx d).problems = [] := by
        rw [← Draft.advance_eq hrun]
        exact hrun
      exact hR.advance htwin (ih h hsafe hstep htwin)
  | list close item ih =>
      obtain ⟨hsafe, hends⟩ := (Bool.and_eq_true ..).mp hsafe
      obtain ⟨hcalm, hitem⟩ := (Bool.and_eq_true ..).mp hsafe
      rw [run, run, ← htwin.length]
      -- a list goes on where no dot comes before
      refine (Draft.items_rel (R := fun d e => d.Calm ∧ d.Twin true e) (hobeys.later_run ctx item)
        (fun h => ⟨h.2.ended, h.2.sees⟩) (fun d e hd hrun h => ?_) _ h.next.shrunk
        ⟨h.next.calm rfl hcalm, htwin.take⟩ hrun).2
      obtain ⟨hcalm, htwin⟩ := h
      have hdone := ih (fits_calm hd hcalm) hitem hrun htwin
      obtain ⟨τ, hτ, hends⟩ :=
        (fits_flow hobeys ctx item (fits_calm hd hcalm) fun _ => hrun).all hends
      exact ⟨⟨hτ.calm rfl hends, hdone⟩, fun hcomma =>
        ⟨Draft.calm_take hcomma rfl rfl, hdone.take⟩⟩

/-! ## the productions -/

/-- What is known when a production is called: no dot comes before, and `new` does
not start with one. -/
def Production.sight (p : Production) : Sight where
  calm := true
  first := if p = .newExpr then some (TokenKind.every.filter fun k => !k.isDot) else none

theorem Production.fits_sight {start d : Draft} (p : Production) (hd : d.ahead <:+ start.ahead)
    (hcalm : d.Calm) (hdot : p = .newExpr → d.kind.isDot = false) : p.sight.Fits true start d :=
  { fits_calm hd hcalm with
    first := by
      unfold sight
      split
      · next hp => exact List.mem_filter.mpr ⟨d.kind.mem_every, by simp [hdot hp]⟩
      · exact Sight.mem_kinds_none _ }

/-- A script is safe, and does not end with a dot unless it reports a problem. -/
def Script.sound (s : Script) (σ : Sight) : Bool :=
  s.safe σ && (s.flow true σ).all fun τ => τ.calm

set_option maxRecDepth 10000 in
theorem Production.sound_script (p : Production) : p.script.sound p.sight = true := by
  cases p with
  | binary least => rfl
  | binaryTail least => rfl
  | suffixes calls => cases calls <;> decide +kernel
  | _ => decide +kernel

set_option maxRecDepth 10000 in
theorem Script.sound_moduleItem (source : SourceType) :
    (moduleItem source).sound { calm := true } = true := by
  cases source <;> decide

theorem Script.calm_run {start d : Draft} {call : Call} {σ : Sight}
    (hobeys : Obeys true start call) (ctx : Context) {s : Script} (h : σ.Fits true start d)
    (hsound : s.sound σ = true) (hrun : (s.run call ctx d).problems = []) :
    (s.run call ctx d).Calm := by
  obtain ⟨-, hcalm⟩ := (Bool.and_eq_true ..).mp hsound
  obtain ⟨τ, hfits, hτ⟩ := (fits_flow hobeys ctx s h fun _ => hrun).all hcalm
  exact hfits.calm rfl hτ

theorem obeys_derive_strict (bound : Nat) (start : Draft) : Obeys true start (derive bound) := by
  induction bound generalizing start with
  | zero => exact ⟨fun _ _ d => steady_later.refl d, nofun, fun _ _ _ _ hcalm _ _ => hcalm⟩
  | succ bound ih =>
      refine ⟨steady_later.derive _, nofun, fun p ctx d _ hcalm hdot hrun => ?_⟩
      rw [derive, p.rule_eq_run] at hrun ⊢
      exact Script.calm_run (ih d) ctx (p.fits_sight (List.suffix_refl _) hcalm hdot)
        p.sound_script hrun

theorem keepsTwins_derive (bound : Nat) : KeepsTwins (derive bound) := by
  induction bound with
  | zero => exact fun _ _ _ _ _ _ _ htwin => htwin
  | succ bound ih =>
      intro p ctx d e hcalm hdot hrun htwin
      obtain ⟨hsafe, -⟩ := (Bool.and_eq_true ..).mp p.sound_script
      rw [derive, p.rule_eq_run] at hrun ⊢
      rw [derive, p.rule_eq_run]
      exact Script.twin_run_of_safe (obeys_derive_strict bound d) ih ctx p.script
        (p.fits_sight (List.suffix_refl _) hcalm hdot) hsafe hrun htwin

/-! ## whole texts -/

theorem twin_programItems_of_ok (depth : Nat) (source : SourceType) (bound : Nat) {d e : Draft}
    (hcalm : d.Calm) (hrun : (programItems (derive depth) source bound d).problems = [])
    (h : d.Twin true e) :
    (programItems (derive depth) source bound d).Twin true
      (programItems (derive depth) source bound e) := by
  induction bound generalizing d e with
  | zero => exact h
  | succ bound ih =>
      rw [programItems] at hrun ⊢
      rw [programItems, ← h.ended]
      split at hrun
      · next hended =>
          rw [if_pos hended, if_pos hended]
          exact h
      · next hended =>
          rw [if_neg hended, if_neg hended]
          have hobeys := obeys_derive_strict depth d
          have hitem := (steady_later.programItems hobeys.later source bound _).problems hrun
          have hstep := Draft.advance_eq hitem
          have hsound := Script.sound_moduleItem source
          obtain ⟨hsafe, -⟩ := (Bool.and_eq_true ..).mp hsound
          have hfits : Sight.Fits true d { calm := true } d := fits_calm (List.suffix_refl _) hcalm
          rw [hstep, ← Script.run_moduleItem] at hitem
          refine ih ?_ hrun ((likeness_twin true).advance h ?_)
          · rw [hstep, ← Script.run_moduleItem]
            exact Script.calm_run hobeys _ hfits hsound hitem
          · rw [← Script.run_moduleItem]
            exact Script.twin_run_of_safe hobeys (keepsTwins_derive depth) _ _ hfits hsafe hitem h

/-- A text without problems and one that differs from it in how names are spelt
are parsed alike. -/
theorem twin_ofText_of_ok {source : SourceType} {text text' : Text}
    (hok : (parse source text).problems = [])
    (h : Respelt true none (tokenize text) (tokenize text')) :
    (Draft.ofText source text).Twin true (Draft.ofText source text') := by
  have hstart := twin_ofTokens h
  have hcalm : (Draft.ofTokens (tokenize text)).Calm := rfl
  have hproblems : (Draft.ofText source text).problems = [] := by simpa [parse] using hok
  rw [Draft.ofText] at hproblems ⊢
  rw [Draft.ofText]
  simp only [← hstart.length, Draft.problems_placeTrivia] at hproblems ⊢
  exact (twin_programItems_of_ok _ source _ hcalm hproblems hstart).placeTrivia

end FreeNames
