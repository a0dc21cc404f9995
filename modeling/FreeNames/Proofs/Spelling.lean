import FreeNames.Proofs.Reading

/-!
# FreeNames.Proofs.Spelling

Scripts with what they test spelt out.  What is known at a point of a script does not
hold everything that its tests have told: which of two tests held is lost where the
ways meet, a kind that was ruled out is forgotten where all kinds were possible, and
nothing is known of how the token after the next is spelt.  `Script.spelt` writes such
tests once more where they help, and does the same as before.

Main statement: `Script.run_spelt`.
-/

namespace FreeNames

/-! ## alternatives of a test -/

namespace Test

/-- Tests of which one holds if and only if the test does. -/
def cases : Test → List Test
  | .or s t => s.cases ++ t.cases
  | .and s t => s.cases.map (.and · t)
  | t => [t]

theorem any_cases (ctx : Context) (d : Draft) (t : Test) :
    (t.cases.any fun c => c.holds ctx d) = t.holds ctx d := by
  induction t with
  | or s t ihs iht => simp [cases, ihs, iht]
  | and s t ihs _ =>
      rw [holds, ← ihs, cases, List.any_map]
      cases ht : t.holds ctx d <;> simp [Function.comp_def, ht]
  | _ => simp [cases]

end Test

namespace Script

/-! ## what is known beside a test -/

/-- A choice by the kind of the next token, which is not of some kind. -/
def unlike (k : TokenKind) : Script → Script
  | choose (.kindAt 0 p) a b => choose (.kindAt 0 fun k' => p k' && k' ≠ k) a b
  | s => s

/-- A script, the token after it and what follows, if the token after the next is spelt
as a word. -/
def before (w : String) (hw : w.toList ∈ contextualWords) (rest : Script) : Script → Script
  | single k => single k ++ expectWord w hw ++ rest
  | choose t a b => choose t (before w hw rest a) (before w hw rest b)
  | s => s ++ take ++ rest

/-- A script in which the token after the next is taken, which is spelt as a word. -/
def foretold (w : String) (hw : w.toList ∈ contextualWords) : Script → Script
  | seq (seq a take) b => before w hw b a
  | s => s

/-- A choice, with its test noted in the ways that it leads to. -/
def pick : Test → Script → Script → Script
  | .sees k, a, b => choose (.sees k) a (if k = .error then b else b.unlike k)
  | .wordAt 1 w hw, a, b => choose (.wordAt 1 w hw) (a.foretold w hw) b
  | t, a, b => choose t a b

/-- A script with its tests spelt out. -/
def spelt : Script → Script
  | seq a b => seq a.spelt b.spelt
  | choose t a b => t.cases.foldr (fun c rest => pick c a.spelt rest) b.spelt
  | look f => look fun k => (f k).spelt
  | ask t f => ask t fun b => (f b).spelt
  | group a => group a.spelt
  | enclose k a => enclose k a.spelt
  | node k a => node k a.spelt
  | advance a => advance a.spelt
  | list close item => list close item.spelt
  | s => s

variable {call : Call} {ctx : Context} {d : Draft}

theorem run_unlike {k : TokenKind} (h : d.kind ≠ k) (s : Script) :
    (s.unlike k).run call ctx d = s.run call ctx d := by
  unfold unlike
  split
  · have hkind : decide (d.kindAt 0 ≠ k) = true := decide_eq_true h
    rw [run, run, Test.holds, Test.holds, hkind, Bool.and_true]
  · rfl

theorem run_before {w : String} (hw : w.toList ∈ contextualWords) (hd : d.wordAt 1 w = true)
    (rest s : Script) :
    (before w hw rest s).run call ctx d = rest.run call ctx (s.run call ctx d).take := by
  induction s with
  | single k =>
      have hword : (d.single k).seesWord w = true := by
        simp only [Draft.wordAt, Bool.and_eq_true, decide_eq_true_eq] at hd
        have hrest : d.rest ≠ [] := Draft.rest_ne_nil_of_kindAt hd.1 (by simp)
        rw [Draft.seesWord, Draft.wordAt, Draft.kindAt_single hrest, Draft.textAt_single hrest,
          hd.1, hd.2]
        simp
      have hexpect : (expectWord w hw).run call ctx (d.single k) = (d.single k).take :=
        if_pos hword
      change rest.run call ctx ((expectWord w hw).run call ctx (d.single k)) = _
      rw [hexpect]
      rfl
  | choose t a b iha ihb =>
      simp only [before, run, iha, ihb]
      split <;> rfl
  | _ => rfl

theorem run_foretold {w : String} (hw : w.toList ∈ contextualWords) (hd : d.wordAt 1 w = true)
    (s : Script) : (s.foretold w hw).run call ctx d = s.run call ctx d := by
  unfold foretold
  split
  · exact run_before hw hd _ _
  · rfl

theorem run_pick (t : Test) (a b : Script) :
    (pick t a b).run call ctx d = (choose t a b).run call ctx d := by
  unfold pick
  split
  · next k =>
      simp only [run]
      split
      · rfl
      · next hsees =>
          split
          · rfl
          · next hk =>
              refine run_unlike (fun hkind => hsees ?_) b
              have hleft := Draft.rest_ne_nil_of_kind_ne (hkind ▸ hk : d.kind ≠ .error)
              simpa [Draft.sees, Draft.ended, hkind] using hleft
  · simp only [run]
    split
    · next hword => exact run_foretold _ hword a
    · rfl
  · rfl

theorem run_foldr_pick (cs : List Test) (a b : Script) :
    (cs.foldr (fun c rest => pick c a rest) b).run call ctx d =
      if (cs.any fun c => c.holds ctx d) then a.run call ctx d else b.run call ctx d := by
  induction cs with
  | nil => rfl
  | cons c cs ih =>
      rw [List.foldr_cons, run_pick, run, ih, List.any_cons]
      cases c.holds ctx d <;> rfl

/-- Spelling tests out changes nothing. -/
theorem run_spelt (s : Script) (call : Call) (ctx : Context) :
    s.spelt.run call ctx = s.run call ctx := by
  funext d
  induction s generalizing d with
  | seq a b iha ihb => rw [spelt, run, run, iha, ihb]
  | choose t a b iha ihb => rw [spelt, run_foldr_pick, t.any_cases, iha, ihb, run]
  | look f ih => rw [spelt, run, run, ih]
  | ask t f ih => rw [spelt, run, run, ih]
  | group a ih => rw [spelt, run, run, funext ih]
  | enclose k a ih => rw [spelt, run, run, funext ih]
  | node k a ih => rw [spelt, run, run, funext ih]
  | advance a ih => rw [spelt, run, run, funext ih]
  | list close item ih => rw [spelt, run, run, funext ih]
  | done | take | report | single | call => rfl

end Script

/-- The scripts of the productions with their tests spelt out. -/
def Spelling.full : Spelling where
  script p := p.script.spelt
  item source := (Script.moduleItemSpelt source).spelt
  run_script p call ctx d := by rw [p.script.run_spelt]
  run_item h := by rw [Script.run_spelt, Script.run_moduleItemSpelt h]

end FreeNames
