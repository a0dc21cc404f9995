import FreeNames.Proofs.Running

/-!
# FreeNames.Proofs.Flow

What is known at each point of a script.  A `Sight` tells which kinds the next
two tokens can have, whether a token has been taken since the script started,
and whether the last token taken was no dot.  `Script.flow` computes what is
known after a script from what is known before it: tests narrow a sight, tokens
that are taken move it on, and where two ways meet only what both know stays.

Main statement: `Script.fits_flow`, what is computed is true of every run.  With
`strict` only runs that report no problem count, and more is known.
-/

namespace FreeNames

/-! ## sights -/

/-- What is known at a point of a script. -/
structure Sight where
  /-- Kinds that the next token can have, if they are known. -/
  first : Option (List TokenKind) := none
  /-- Kinds that the token after it can have. -/
  second : Option (List TokenKind) := none
  /-- How the next token is spelt. -/
  word : Option String := none
  /-- A token is left. -/
  left : Bool := false
  /-- A token has been taken. -/
  moved : Bool := false
  /-- The last token is no dot. -/
  calm : Bool := false

namespace Sight

/-- Kinds that a token can have. -/
def kinds (ks : Option (List TokenKind)) : List TokenKind := ks.getD TokenKind.every

/-- The next token is known not to be of some kinds. -/
def rulesOut (σ : Sight) (p : TokenKind → Bool) : Bool := (kinds σ.first).all fun k => !p k

/-- The next token is of some kinds. -/
def narrow (σ : Sight) (p : TokenKind → Bool) : Option Sight :=
  match (kinds σ.first).filter p with
  | [] => none
  | ks => some { σ with first := some ks, left := σ.left || !ks.contains .error }

/-- The next token is of one kind. -/
def only (σ : Sight) (k : TokenKind) : Sight :=
  { σ with first := some [k], left := σ.left || k ≠ .error }

/-- The next token is not of some kinds; nothing is noted if all were possible. -/
def ruleOut (σ : Sight) (p : TokenKind → Bool) : Option Sight :=
  match σ.first with
  | none => some σ
  | some _ => σ.narrow fun k => !p k

/-- The token after the next is of some kinds. -/
def narrowSecond (σ : Sight) (p : TokenKind → Bool) : Option Sight :=
  match (kinds σ.second).filter p with
  | [] => none
  | ks => some { σ with second := some ks }

/-- The next token is taken. -/
def next (σ : Sight) : Sight where
  first := σ.second
  left := !(kinds σ.second).contains .error
  moved := σ.moved || σ.left
  calm := σ.rulesOut TokenKind.isDot &&
    (σ.calm || σ.rulesOut fun k => k.isTrivia || k = .error)

/-- What either of two sights allows. -/
def join (σ τ : Sight) : Sight where
  first := do return (← σ.first) ++ (← τ.first)
  second := do return (← σ.second) ++ (← τ.second)
  word := if σ.word = τ.word then σ.word else none
  left := σ.left && τ.left
  moved := σ.moved && τ.moved
  calm := σ.calm && τ.calm

/-- What two ways that meet know; a way that cannot be gone counts for nothing. -/
def meet : Option Sight → Option Sight → Option Sight
  | none, τ => τ
  | σ, none => σ
  | some σ, some τ => some (σ.join τ)

end Sight

/-- What the answer to a test tells. -/
@[simp] def Test.tell (answer : Bool) : Test → Sight → Option Sight
  | ended, σ =>
    if answer then (if σ.left then none else σ.narrow fun k => k = .error)
    else some { σ with left := true }
  | sees k, σ =>
    if answer then (σ.narrow fun k' => k' = k).map fun τ => { τ with left := true }
    else if k = .error then some σ else σ.ruleOut fun k' => k' = k
  | seesAny ks, σ =>
    if answer then (σ.narrow ks.contains).map fun τ => { τ with left := true }
    else if ks.contains .error then some σ else σ.ruleOut ks.contains
  | kindAt 0 p, σ => if answer then σ.narrow p else σ.ruleOut p
  | kindAt 1 p, σ => if answer then σ.narrowSecond p else some σ
  | wordAt 0 w _, σ =>
    if answer then
      if σ.word.any (· ≠ w) then none
      else (σ.narrow fun k => k = .ident).map fun τ => { τ with word := some w }
    else if σ.word = some w then none else some σ
  | wordAt 1 _ _, σ => if answer then σ.narrowSecond fun k => k = .ident else some σ
  | arrow, σ => if answer then σ.narrow fun k => k = .ident || k = .punct .lParen else some σ
  | given b, σ => if answer = b then some σ else none
  | not t, σ => t.tell (!answer) σ
  | and s t, σ =>
    if answer then (s.tell true σ).bind (t.tell true)
    else Sight.meet (s.tell false σ) ((s.tell true σ).bind (t.tell false))
  | or s t, σ =>
    if answer then Sight.meet (s.tell true σ) ((s.tell false σ).bind (t.tell true))
    else (s.tell false σ).bind (t.tell false)
  | _, σ => some σ

/-- Chunks of a template. -/
def TokenKind.isTemplate : TokenKind → Bool
  | .templateHead | .templateTail => true
  | _ => false

/-- What is known when a production has been called: it takes a token if it is a
template that comes next, and does not end with a dot if it did not start after
one.  Only `new` may take any token that comes first. -/
def Sight.after (σ : Sight) (p : Production) : Sight where
  moved := σ.moved || p = .templateParts && σ.rulesOut fun k => !k.isTemplate
  calm := σ.calm && (p ≠ .newExpr || σ.rulesOut TokenKind.isDot)

/-- What is known after a script; nothing if no run gets there. -/
@[simp] def Script.flow (strict : Bool) : Script → Sight → Option Sight
  | done, σ => some σ
  | take, σ => some σ.next
  | report _, σ => if strict then none else some σ
  | single _, σ => some σ.next
  | seq a b, σ => (a.flow strict σ).bind (b.flow strict)
  | choose t a b, σ =>
    Sight.meet ((t.tell true σ).bind (a.flow strict)) ((t.tell false σ).bind (b.flow strict))
  | look f, σ =>
    ((Sight.kinds σ.first).map fun k => (f k).flow strict (σ.only k)).foldr Sight.meet none
  | ask t f, σ =>
    Sight.meet ((t.tell true σ).bind ((f true).flow strict))
      ((t.tell false σ).bind ((f false).flow strict))
  | group a, σ => a.flow strict σ
  | enclose _ a, σ => a.flow strict σ
  | node _ a, σ => a.flow strict σ
  | .call p _, σ => some (σ.after p)
  | advance a, σ =>
    (a.flow strict σ).map fun τ => { moved := σ.moved || σ.left, calm := τ.calm }
  | list _ item, σ =>
    some { moved := σ.next.moved
           calm := σ.next.calm && (item.flow strict { calm := true }).all fun τ => τ.calm }

/-! ## what is known is true -/

section

variable {α : Type} {P : α → Prop} {join : α → α → α}
  (hjoin : ∀ a b, P a ∨ P b → P (join a b))

include hjoin

/-- Where two ways meet, what is known after one of them is known. -/
theorem exists_merge {r r' : Option α}
    (h : (∃ a, r = some a ∧ P a) ∨ ∃ a, r' = some a ∧ P a) :
    ∃ a, r.merge join r' = some a ∧ P a := by
  rcases h with ⟨a, rfl, ha⟩ | ⟨a, rfl, ha⟩
  · cases r' with
    | none => exact ⟨a, rfl, ha⟩
    | some b => exact ⟨join a b, rfl, hjoin a b (Or.inl ha)⟩
  · cases r with
    | none => exact ⟨a, rfl, ha⟩
    | some b => exact ⟨join b a, rfl, hjoin b a (Or.inr ha)⟩

theorem exists_foldr_merge {rs : List (Option α)} {r : Option α} (hr : r ∈ rs)
    (h : ∃ a, r = some a ∧ P a) : ∃ a, rs.foldr (Option.merge join) none = some a ∧ P a := by
  induction rs with
  | nil => simp at hr
  | cons r' rs ih =>
      rw [List.foldr_cons]
      rcases List.mem_cons.mp hr with rfl | hr
      · exact exists_merge hjoin (Or.inl h)
      · exact exists_merge hjoin (Or.inr (ih hr))

end

namespace Draft

theorem ahead_take (d : Draft) : d.take.ahead = d.ahead.tail := by
  cases h : d.rest with
  | nil =>
      rw [take, h, ahead_placeTrivia]
      simp [ahead, h]
  | cons l ls =>
      rw [take_cons h]
      simp [ahead, h]

theorem kindAt_take_succ (d : Draft) (n : Nat) : d.take.kindAt n = d.kindAt (n + 1) := by
  rw [kindAt_eq, kindAt_eq, ahead_take, List.getElem?_tail]

theorem rest_ne_nil_of_kind_ne {d : Draft} (h : d.kind ≠ .error) : d.rest ≠ [] :=
  rest_ne_nil_of_kind rfl h

theorem length_ahead (d : Draft) : d.ahead.length = d.rest.length := by simp [ahead]

/-- What the last token is when one more is taken. -/
theorem lastKind?_take (d : Draft) :
    d.take.lastKind? = some d.kind ∨
      d.take.lastKind? = d.lastKind? ∧ (d.kind.isTrivia = true ∨ d.kind = .error) := by
  cases h : d.rest with
  | nil =>
      refine Or.inr ⟨?_, Or.inr (by simp [kind, kindAt, h])⟩
      rw [take, h]
      exact lastKind?_placeTrivia d
  | cons l ls =>
      have hkind : d.kind = l.token.kind := by simp [kind, kindAt, h]
      rw [lastKind?_take_cons h, hkind, Token.seen]
      split
      · next htrivia => exact Or.inr ⟨rfl, Or.inl htrivia⟩
      · exact Or.inl rfl

/-- The last token taken is no dot. -/
def Calm (d : Draft) : Prop := d.lastKind?.any TokenKind.isDot = false

end Draft

/-- What a sight tells is true of a draft; `start` is the draft that the script
started with. -/
structure Sight.Fits (strict : Bool) (start : Draft) (σ : Sight) (d : Draft) : Prop where
  first : d.kind ∈ kinds σ.first
  second : d.kindAt 1 ∈ kinds σ.second
  word (w : String) : σ.word = some w → d.seesWord w = true
  left : σ.left = true → d.rest ≠ []
  shrunk : d.ahead <:+ start.ahead
  moved : strict = false → σ.moved = true → d.rest.length < start.rest.length
  calm : strict = true → σ.calm = true → d.Calm

namespace Sight

variable {strict : Bool} {start d e : Draft} {σ τ : Sight} {p : TokenKind → Bool}

theorem mem_kinds_none (k : TokenKind) : k ∈ kinds none := k.mem_every

theorem Fits.length_le (h : σ.Fits strict start d) : d.rest.length ≤ start.rest.length := by
  have hle := h.shrunk.length_le
  rwa [d.length_ahead, start.length_ahead] at hle

/-- Only the tokens that are left and the last token taken count. -/
theorem Fits.congr (h : σ.Fits strict start d) (hahead : e.ahead = d.ahead)
    (hlast : e.lastKind? = d.lastKind?) : σ.Fits strict start e where
  first := by
    rw [Draft.kind, Draft.kindAt_eq, hahead, ← Draft.kindAt_eq]
    exact h.first
  second := by
    rw [Draft.kindAt_eq, hahead, ← Draft.kindAt_eq]
    exact h.second
  word w hw := by
    have hd := h.word w hw
    rw [Draft.seesWord, Draft.wordAt, Draft.kindAt_eq, Draft.textAt_eq] at hd ⊢
    rwa [hahead]
  left hl := by
    have hne := h.left hl
    rwa [Ne, ← List.length_eq_zero_iff, ← Draft.length_ahead, ← hahead, Draft.length_ahead,
      List.length_eq_zero_iff] at hne
  shrunk := hahead ▸ h.shrunk
  moved hs hm := by
    rw [← Draft.length_ahead, hahead, Draft.length_ahead]
    exact h.moved hs hm
  calm hs hc := by
    rw [Draft.Calm, hlast]
    exact h.calm hs hc

theorem Fits.alike (h : σ.Fits strict start d) (he : e.Alike d) : σ.Fits strict start e :=
  h.congr he.ahead he.lastKind?

/-- Something is known, and it is true of a draft. -/
def Covers (strict : Bool) (start : Draft) (r : Option Sight) (d : Draft) : Prop :=
  ∃ σ, r = some σ ∧ σ.Fits strict start d

theorem rulesOut_iff : σ.rulesOut p = true ↔ ∀ k ∈ kinds σ.first, p k = false := by
  simp [rulesOut]

theorem Fits.of_rulesOut (h : σ.Fits strict start d) (hp : σ.rulesOut p = true) :
    p d.kind = false := rulesOut_iff.mp hp _ h.first

theorem Fits.narrow (h : σ.Fits strict start d) (hp : p d.kind = true) :
    Covers strict start (σ.narrow p) d := by
  have hmem : d.kind ∈ (kinds σ.first).filter p := List.mem_filter.mpr ⟨h.first, hp⟩
  unfold Sight.narrow
  split
  · next hnil => simp [hnil] at hmem
  · next ks hks =>
      refine ⟨_, rfl, { h with first := hmem, left := fun hl => ?_ }⟩
      rcases (Bool.or_eq_true ..).mp hl with hl | herror
      · exact h.left hl
      · refine Draft.rest_ne_nil_of_kind_ne fun hkind => ?_
        rw [hkind] at hmem
        simp [hmem] at herror

theorem Fits.only (h : σ.Fits strict start d) : (σ.only d.kind).Fits strict start d :=
  { h with
    first := List.mem_singleton_self _
    left := fun hl => by
      rcases (Bool.or_eq_true ..).mp hl with hl | hne
      · exact h.left hl
      · exact Draft.rest_ne_nil_of_kind_ne (of_decide_eq_true hne) }

theorem Fits.ruleOut (h : σ.Fits strict start d) (hp : p d.kind = false) :
    Covers strict start (σ.ruleOut p) d := by
  unfold Sight.ruleOut
  split
  · exact ⟨σ, rfl, h⟩
  · exact h.narrow (by simp [hp])

theorem Fits.narrowSecond (h : σ.Fits strict start d) (hp : p (d.kindAt 1) = true) :
    Covers strict start (σ.narrowSecond p) d := by
  have hmem : d.kindAt 1 ∈ (kinds σ.second).filter p := List.mem_filter.mpr ⟨h.second, hp⟩
  unfold Sight.narrowSecond
  split
  · next hnil => simp [hnil] at hmem
  · exact ⟨_, rfl, { h with second := hmem }⟩

theorem Covers.andLeft {r : Option Sight} (h : Covers strict start r d) (hd : d.rest ≠ []) :
    Covers strict start (r.map fun τ => { τ with left := true }) d := by
  obtain ⟨σ, rfl, hσ⟩ := h
  exact ⟨_, rfl, { hσ with left := fun _ => hd }⟩

theorem Covers.bind {r : Option Sight} {f : Sight → Option Sight} (h : Covers strict start r d)
    (hf : ∀ σ : Sight, σ.Fits strict start d → Covers strict start (f σ) e) :
    Covers strict start (r.bind f) e := by
  obtain ⟨σ, rfl, hσ⟩ := h
  exact hf σ hσ

theorem Covers.all {r : Option Sight} {f : Sight → Bool} (h : Covers strict start r d)
    (hall : r.all f = true) : ∃ σ : Sight, σ.Fits strict start d ∧ f σ = true := by
  obtain ⟨σ, rfl, hσ⟩ := h
  exact ⟨σ, hσ, hall⟩

theorem mem_kinds_join {a b : Option (List TokenKind)} {k : TokenKind}
    (h : k ∈ kinds a ∨ k ∈ kinds b) : k ∈ kinds (do return (← a) ++ (← b)) := by
  cases a with
  | none => exact mem_kinds_none k
  | some ks =>
      cases b with
      | none => exact mem_kinds_none k
      | some ks' => exact List.mem_append.mpr h

theorem fits_join (h : σ.Fits strict start d ∨ τ.Fits strict start d) :
    (σ.join τ).Fits strict start d where
  first := mem_kinds_join (h.imp (·.first) (·.first))
  second := mem_kinds_join (h.imp (·.second) (·.second))
  word w hw := by
    simp only [join, Option.ite_none_right_eq_some] at hw
    exact h.elim (fun h => h.word w hw.2) fun h => h.word w (hw.1 ▸ hw.2)
  left hl := by
    obtain ⟨hσ, hτ⟩ := (Bool.and_eq_true ..).mp hl
    exact h.elim (fun h => h.left hσ) fun h => h.left hτ
  shrunk := h.elim (·.shrunk) (·.shrunk)
  moved hs hm := by
    obtain ⟨hσ, hτ⟩ := (Bool.and_eq_true ..).mp hm
    exact h.elim (fun h => h.moved hs hσ) fun h => h.moved hs hτ
  calm hs hc := by
    obtain ⟨hσ, hτ⟩ := (Bool.and_eq_true ..).mp hc
    exact h.elim (fun h => h.calm hs hσ) fun h => h.calm hs hτ

theorem meet_eq_merge (r r' : Option Sight) : meet r r' = r.merge join r' := by
  cases r <;> cases r' <;> rfl

theorem covers_meet {r r' : Option Sight}
    (h : Covers strict start r d ∨ Covers strict start r' d) :
    Covers strict start (meet r r') d := by
  rw [meet_eq_merge]
  exact exists_merge (fun _ _ => fits_join) h

theorem covers_foldr_meet {rs : List (Option Sight)} {r : Option Sight} (hr : r ∈ rs)
    (h : Covers strict start r d) : Covers strict start (rs.foldr meet none) d := by
  rw [funext fun r => funext (meet_eq_merge r)]
  exact exists_foldr_merge (fun _ _ => fits_join) hr h

theorem Fits.next (h : σ.Fits strict start d) : σ.next.Fits strict start d.take where
  first := by
    rw [Draft.kind, Draft.kindAt_take_succ]
    exact h.second
  second := mem_kinds_none _
  word w hw := by cases hw
  left hl := by
    refine Draft.rest_ne_nil_of_kind_ne fun hkind => ?_
    rw [Draft.kind, Draft.kindAt_take_succ] at hkind
    have hmem := hkind ▸ h.second
    simp [Sight.next, hmem] at hl
  shrunk := by
    rw [Draft.ahead_take]
    exact (List.tail_suffix _).trans h.shrunk
  moved hs hm := by
    have htail := congrArg List.length d.ahead_take
    rw [List.length_tail, Draft.length_ahead, Draft.length_ahead] at htail
    rcases (Bool.or_eq_true ..).mp hm with hm | hl
    · have hlt := h.moved hs hm
      omega
    · have hpos := List.length_pos_iff.mpr (h.left hl)
      have hle := h.length_le
      omega
  calm hs hc := by
    obtain ⟨hdot, hor⟩ := (Bool.and_eq_true ..).mp hc
    rcases d.lastKind?_take with htake | ⟨htake, hkind⟩
    · rw [Draft.Calm, htake]
      exact h.of_rulesOut hdot
    · rcases (Bool.or_eq_true ..).mp hor with hcalm | hruledOut
      · rw [Draft.Calm, htake]
        exact h.calm hs hcalm
      · have hnot := h.of_rulesOut hruledOut
        simp only [Bool.or_eq_false_iff, decide_eq_false_iff_not] at hnot
        rcases hkind with hkind | hkind
        · rw [hkind] at hnot
          cases hnot.1
        · exact absurd hkind hnot.2

end Sight

theorem Draft.kind_eq_error_of_ended {d : Draft} (h : d.ended = true) : d.kind = .error := by
  have hnil : d.rest = [] := List.isEmpty_iff.mp h
  simp [kind, kindAt, hnil]

theorem Draft.rest_ne_nil_of_ended {d : Draft} (h : d.ended = false) : d.rest ≠ [] := by
  rintro hnil
  simp [ended, hnil] at h

theorem Draft.rest_ne_nil_of_sees {d : Draft} {k : TokenKind} (h : d.sees k = true) :
    d.rest ≠ [] := by
  obtain ⟨l, ls, hrest, -⟩ := exists_cons_of_sees h
  simp [hrest]

theorem Draft.contains_kind_of_seesAny {d : Draft} {ks : List TokenKind}
    (h : d.seesAny ks = false) (herror : ¬ks.contains .error = true) :
    ks.contains d.kind = false := by
  by_cases hmem : d.kind ∈ ks
  · have hne : d.kind ≠ .error := fun he => herror (by simpa [he] using hmem)
    have hsees : d.sees d.kind = true := by simp [d.sees_eq hne]
    rw [seesAny, List.any_eq_false] at h
    exact absurd hsees (h _ hmem)
  · simpa using hmem

theorem Draft.eq_of_seesWord {d : Draft} {v w : String} (hv : d.seesWord v = true)
    (hw : d.seesWord w = true) : v = w := by
  simp only [seesWord, wordAt, Bool.and_eq_true, decide_eq_true_eq] at hv hw
  exact String.toList_injective (hv.2.symm.trans hw.2)

/-- An arrow function starts with a name or a parenthesis. -/
theorem Grammar.kind_of_seesArrow {d : Draft} (h : seesArrow d = true) :
    d.kind = .ident ∨ d.kind = .punct .lParen := by
  unfold seesArrow at h
  by_cases hasync : d.seesWord "async" = true
  · exact Or.inl (Draft.kind_of_seesWord hasync)
  · simp only [hasync, Bool.false_and, Bool.false_eq_true, if_false] at h
    split at h
    · next hk => exact Or.inl hk
    · next hk => exact Or.inr hk
    · cases h

/-- The answer to a test tells what is true. -/
theorem Test.covers_tell {strict : Bool} {start d : Draft} {σ : Sight} (t : Test) (ctx : Context)
    {answer : Bool} (h : σ.Fits strict start d) (ht : t.holds ctx d = answer) :
    Sight.Covers strict start (t.tell answer σ) d := by
  induction t generalizing answer σ with
  | ended =>
      cases answer with
      | true =>
          have hleft : σ.left ≠ true := fun hl => h.left hl (List.isEmpty_iff.mp ht)
          simp only [tell, if_true, hleft]
          exact h.narrow (by simp [Draft.kind_eq_error_of_ended ht])
      | false => exact ⟨_, rfl, { h with left := fun _ => Draft.rest_ne_nil_of_ended ht }⟩
  | sees k =>
      cases answer with
      | true =>
          have hk : d.kind = k := Draft.kind_of_sees ht
          exact (h.narrow (by simp [hk])).andLeft (Draft.rest_ne_nil_of_sees ht)
      | false =>
          simp only [tell, Bool.false_eq_true, if_false]
          split
          · exact ⟨σ, rfl, h⟩
          · next hk =>
              rw [holds, d.sees_eq hk] at ht
              exact h.ruleOut ht
  | seesAny ks =>
      cases answer with
      | true =>
          obtain ⟨k, hk, hsees⟩ := List.any_eq_true.mp ht
          have hmem : ks.contains d.kind = true := by simpa [Draft.kind_of_sees hsees] using hk
          exact (h.narrow hmem).andLeft (Draft.rest_ne_nil_of_sees hsees)
      | false =>
          simp only [tell, Bool.false_eq_true, if_false]
          split
          · exact ⟨σ, rfl, h⟩
          · next herror => exact h.ruleOut (Draft.contains_kind_of_seesAny ht herror)
  | kindAt n p =>
      match n, answer with
      | 0, true => exact h.narrow ht
      | 0, false => exact h.ruleOut ht
      | 1, true => exact h.narrowSecond ht
      | 1, false => exact ⟨σ, rfl, h⟩
      | n + 2, _ => exact ⟨σ, rfl, h⟩
  | wordAt n w hw =>
      match n, answer with
      | 0, true =>
          have hword : σ.word.any (· ≠ w) = false := by
            cases hσ : σ.word with
            | none => rfl
            | some v => simp [Draft.eq_of_seesWord (h.word v hσ) ht]
          obtain ⟨τ, hτ, hfits⟩ := h.narrow (p := fun k => k = .ident)
            (by simp [Draft.kind_of_seesWord ht])
          simp only [tell, if_true, hword, hτ]
          refine ⟨_, rfl, { hfits with word := fun v hv => ?_ }⟩
          rwa [← Option.some.inj hv]
      | 0, false =>
          have hword : σ.word ≠ some w := fun hσ => by
            have hsees := h.word w hσ
            rw [Draft.seesWord] at hsees
            rw [holds, hsees] at ht
            cases ht
          simp only [tell, Bool.false_eq_true, if_false, hword]
          exact ⟨σ, rfl, h⟩
      | 1, true =>
          simp only [holds, Draft.wordAt, Bool.and_eq_true] at ht
          exact h.narrowSecond ht.1
      | 1, false => exact ⟨σ, rfl, h⟩
      | n + 2, _ => exact ⟨σ, rfl, h⟩
  | arrow =>
      cases answer with
      | true =>
          refine h.narrow ?_
          rcases Grammar.kind_of_seesArrow ht with hk | hk <;> simp [hk]
      | false => exact ⟨σ, rfl, h⟩
  | given b =>
      simp only [holds] at ht
      simp only [tell, ht, if_true]
      exact ⟨σ, rfl, h⟩
  | not t ih =>
      simp only [holds] at ht
      exact ih h (by simpa using congrArg (!·) ht)
  | and s t ihs iht =>
      simp only [holds] at ht
      cases answer with
      | true =>
          obtain ⟨hs, ht⟩ := (Bool.and_eq_true ..).mp ht
          exact (ihs h hs).bind fun τ hτ => iht hτ ht
      | false =>
          refine Sight.covers_meet ?_
          cases hs : s.holds ctx d with
          | false => exact Or.inl (ihs h hs)
          | true =>
              rw [hs, Bool.true_and] at ht
              exact Or.inr ((ihs h hs).bind fun τ hτ => iht hτ ht)
  | or s t ihs iht =>
      simp only [holds] at ht
      cases answer with
      | true =>
          refine Sight.covers_meet ?_
          cases hs : s.holds ctx d with
          | true => exact Or.inl (ihs h hs)
          | false =>
              rw [hs, Bool.false_or] at ht
              exact Or.inr ((ihs h hs).bind fun τ hτ => iht hτ ht)
      | false =>
          obtain ⟨hs, ht⟩ := (Bool.or_eq_false_iff ..).mp ht
          exact (ihs h hs).bind fun τ hτ => iht hτ ht
  | newlineAt _ | backtick | fromAfter | context _ => exact ⟨σ, rfl, h⟩

/-- Tokens are only taken, and problems stay. -/
structure Later (d e : Draft) : Prop where
  ahead : e.ahead <:+ d.ahead
  problems : e.problems = [] → d.problems = []

theorem steady_later : Steady Later where
  refl d := ⟨List.suffix_refl _, id⟩
  trans hde hef := ⟨hef.ahead.trans hde.ahead, hde.problems ∘ hef.problems⟩
  placeTrivia d := ⟨by simp, by simp⟩
  take d := ⟨by rw [d.ahead_take]; exact List.tail_suffix _, by simp⟩
  report d c _ := ⟨List.suffix_refl _, by simp⟩
  group h := ⟨h.ahead, h.problems⟩
  enclose _ h := ⟨h.ahead, h.problems⟩
  node _ h := ⟨h.ahead, h.problems⟩

/-- What the productions have to do for the flow through scripts to be right. -/
structure Obeys (strict : Bool) (start : Draft) (call : Call) : Prop where
  later (p : Production) (ctx : Context) (d : Draft) : Later d (call p ctx d)
  template (ctx : Context) (d : Draft) : strict = false → d.ahead <:+ start.ahead →
    d.kind.isTemplate = true → (call .templateParts ctx d).rest.length < d.rest.length
  calm (p : Production) (ctx : Context) (d : Draft) : strict = true → d.Calm →
    (p = .newExpr → d.kind.isDot = false) → (call p ctx d).problems = [] → (call p ctx d).Calm

theorem Obeys.later_run {strict : Bool} {start : Draft} {call : Call}
    (hcall : Obeys strict start call) (ctx : Context) (s : Script) (d : Draft) :
    Later d (s.run call ctx d) := steady_later.run hcall.later ctx s d

/-- What is known when a production has been called is true. -/
theorem Sight.Fits.after {strict : Bool} {start d : Draft} {call : Call} {σ : Sight}
    (hcall : Obeys strict start call) (p : Production) (ctx : Context)
    (h : σ.Fits strict start d) (hrun : strict = true → (call p ctx d).problems = []) :
    (σ.after p).Fits strict start (call p ctx d) where
  first := mem_kinds_none _
  second := mem_kinds_none _
  word w hw := by cases hw
  left hl := by cases hl
  shrunk := (hcall.later p ctx d).ahead.trans h.shrunk
  moved hs hm := by
    have hle := (hcall.later p ctx d).ahead.length_le
    rw [Draft.length_ahead, Draft.length_ahead] at hle
    rcases (Bool.or_eq_true ..).mp hm with hm | htemplate
    · have hlt := h.moved hs hm
      omega
    · obtain ⟨hp, hkind⟩ := (Bool.and_eq_true ..).mp htemplate
      obtain rfl := of_decide_eq_true hp
      have hlt := hcall.template ctx d hs h.shrunk (by simpa using h.of_rulesOut hkind)
      have hd := h.length_le
      omega
  calm hs hc := by
    obtain ⟨hcalm, hnew⟩ := (Bool.and_eq_true ..).mp hc
    refine hcall.calm p ctx d hs (h.calm hs hcalm) (fun hp => ?_) (hrun hs)
    simp only [hp, Bool.or_eq_true, decide_eq_true_eq] at hnew
    exact h.of_rulesOut (hnew.resolve_left fun hne => hne rfl)

/-- A step that reports nothing has taken the token that it had to take. -/
theorem Draft.advance_eq {d : Draft} {step : Draft → Draft}
    (h : (d.advance step).problems = []) : d.advance step = step d := by
  unfold advance at h ⊢
  dsimp only at h ⊢
  split at h
  · exact absurd h (problems_skip_ne_nil _ _)
  · next hne => rw [if_neg hne]

theorem Sight.Fits.advance {strict : Bool} {start d : Draft} {step : Draft → Draft} {σ τ : Sight}
    (h : σ.Fits strict start d) (hτ : τ.Fits strict start (step d)) (hlater : Later d (step d))
    (hrun : strict = true → (d.advance step).problems = []) :
    Fits strict start { moved := σ.moved || σ.left, calm := τ.calm } (d.advance step) where
  first := mem_kinds_none _
  second := mem_kinds_none _
  word w hw := by cases hw
  left hl := by cases hl
  shrunk := (steady_later.advance hlater).ahead.trans h.shrunk
  moved hs hm := by
    have hle := (steady_later.advance hlater).ahead.length_le
    have hstep := hlater.ahead.length_le
    simp only [Draft.length_ahead] at hle hstep
    rcases (Bool.or_eq_true ..).mp hm with hm | hl
    · have hlt := h.moved hs hm
      omega
    · have hlt := Draft.length_rest_advance hstep (by simpa [Draft.ended] using h.left hl)
      have hd := h.length_le
      omega
  calm hs hc := by
    rw [Draft.advance_eq (hrun hs)]
    exact hτ.calm hs hc

theorem Draft.calm_take {d : Draft} {k : TokenKind} (h : d.sees k = true) (hk : k.isDot = false)
    (hplain : k.isPlain = true) : d.take.Calm := by
  rw [Calm, (plain_of_sees h hplain).lastKind?_take, kind_of_sees h]
  exact hk

/-- What an item and the comma after it keep of two runs, two lists keep. -/
theorem Draft.items_rel {R : Draft → Draft → Prop} {close : TokenKind}
    {item item' : Draft → Draft} {start : Draft} (hlater : ∀ d, Later d (item d))
    (hsees : ∀ {d e}, R d e → d.ended = e.ended ∧ ∀ k, d.sees k = e.sees k)
    (hitem : ∀ d e : Draft, d.ahead <:+ start.ahead → (item d).problems = [] → R d e →
      R (item d) (item' e) ∧
        ((item d).sees (.punct .comma) = true → R (item d).take (item' e).take))
    (bound : Nat) {d e : Draft} (hd : d.ahead <:+ start.ahead) (h : R d e)
    (hrun : (d.items close item bound).problems = []) :
    R (d.items close item bound) (e.items close item' bound) := by
  induction bound generalizing d e with
  | zero => exact h
  | succ bound ih =>
      rw [items] at hrun ⊢
      rw [items, ← (hsees h).1, ← (hsees h).2]
      split at hrun
      · next hend =>
          rw [if_pos hend, if_pos hend]
          exact h
      · next hend =>
          rw [if_neg hend, if_neg hend]
          have hnext := steady_later.nextItem close (steady_later.items close hlater bound) (item d)
          obtain ⟨hdone, hgoes⟩ := hitem d e hd (hnext.problems hrun) h
          unfold nextItem at hrun ⊢
          rw [← (hsees hdone).2, ← (hsees hdone).2]
          split at hrun
          · next hclose =>
              rw [if_pos hclose, if_pos hclose]
              exact hdone
          · next hclose =>
              rw [if_neg hclose, if_neg hclose]
              split at hrun
              · next hcomma =>
                  rw [if_pos hcomma, if_pos hcomma]
                  have htake := (steady_later.trans (hlater d) (steady_later.take _)).ahead
                  exact ih (htake.trans hd) (hgoes hcomma) hrun
              · simp at hrun

/-- What an item and the comma after it keep, a list keeps. -/
theorem Draft.items_keep {P : Draft → Prop} {close : TokenKind} {item : Draft → Draft}
    {start : Draft} (hlater : ∀ d, Later d (item d))
    (hitem : ∀ d : Draft, d.ahead <:+ start.ahead → (item d).problems = [] → P d →
      P (item d) ∧ ((item d).sees (.punct .comma) = true → P (item d).take))
    (bound : Nat) {d : Draft} (hd : d.ahead <:+ start.ahead) (hP : P d)
    (hrun : (d.items close item bound).problems = []) : P (d.items close item bound) := by
  refine (items_rel (R := fun d e => d = e ∧ P e) hlater ?_ ?_ bound hd ⟨rfl, hP⟩ hrun).2
  · rintro d _ ⟨rfl, -⟩
    exact ⟨rfl, fun _ => rfl⟩
  · rintro d _ hd hrun ⟨rfl, hP⟩
    obtain ⟨hdone, hgoes⟩ := hitem d hd hrun hP
    exact ⟨⟨rfl, hdone⟩, fun hcomma => ⟨rfl, hgoes hcomma⟩⟩

theorem fits_calm {strict : Bool} {start d : Draft} (hd : d.ahead <:+ start.ahead)
    (hcalm : d.Calm) : Sight.Fits strict start { calm := true } d where
  first := Sight.mem_kinds_none _
  second := Sight.mem_kinds_none _
  word w hw := by cases hw
  left hl := by cases hl
  shrunk := hd
  moved _ hm := by cases hm
  calm _ _ := hcalm

theorem Sight.Fits.list {strict : Bool} {start d : Draft} {close : TokenKind}
    {item : Draft → Draft} {σ : Sight} {ends : Bool} (h : σ.Fits strict start d)
    (hlater : ∀ d, Later d (item d))
    (hitem : strict = true → ends = true → ∀ d : Draft, d.ahead <:+ start.ahead → d.Calm →
      (item d).problems = [] → (item d).Calm)
    (hrun : strict = true → (d.take.items close item d.rest.length).problems = []) :
    Fits strict start { moved := σ.next.moved, calm := σ.next.calm && ends }
      (d.take.items close item d.rest.length) where
  first := mem_kinds_none _
  second := mem_kinds_none _
  word w hw := by cases hw
  left hl := by cases hl
  shrunk := (steady_later.items close hlater _ _).ahead.trans h.next.shrunk
  moved hs hm := by
    have hle := (steady_later.items close hlater d.rest.length d.take).ahead.length_le
    have hlt := h.next.moved hs hm
    simp only [Draft.length_ahead] at hle
    omega
  calm hs hc := by
    obtain ⟨hcalm, hends⟩ := (Bool.and_eq_true ..).mp hc
    exact Draft.items_keep hlater
      (fun d hd hrun hcalm => ⟨hitem hs hends d hd hcalm hrun, fun hcomma =>
        Draft.calm_take hcomma rfl rfl⟩) _ h.next.shrunk (h.next.calm hs hcalm) (hrun hs)

/-- What is computed for a script is true of every run of it. -/
theorem Script.fits_flow {strict : Bool} {start d : Draft} {call : Call} {σ : Sight}
    (hcall : Obeys strict start call) (ctx : Context) (s : Script)
    (h : σ.Fits strict start d) (hrun : strict = true → (s.run call ctx d).problems = []) :
    Sight.Covers strict start (s.flow strict σ) (s.run call ctx d) := by
  induction s generalizing σ d with
  | done => exact ⟨σ, rfl, h⟩
  | take => exact ⟨_, rfl, h.next⟩
  | report c =>
      cases strict with
      | true => simp [run] at hrun
      | false => exact ⟨σ, rfl, h.congr rfl rfl⟩
  | single k =>
      exact ⟨_, rfl, ((h.alike (d.alike_started k)).next.alike (Draft.alike_closed _ k)).alike
        (Draft.alike_rejoin _ _)⟩
  | seq a b iha ihb =>
      have hmid : strict = true → (a.run call ctx d).problems = [] :=
        fun hs => (hcall.later_run ctx b _).problems (hrun hs)
      exact (iha h hmid).bind fun τ hτ => ihb hτ hrun
  | choose t a b iha ihb =>
      refine Sight.covers_meet ?_
      rw [run] at hrun ⊢
      split at hrun
      · next ht =>
          rw [if_pos ht]
          exact Or.inl ((t.covers_tell ctx h ht).bind fun τ hτ => iha hτ hrun)
      · next ht =>
          rw [if_neg ht]
          exact Or.inr ((t.covers_tell ctx h (by simpa using ht)).bind fun τ hτ => ihb hτ hrun)
  | look f ih =>
      exact Sight.covers_foldr_meet (List.mem_map_of_mem h.first) (ih _ h.only hrun)
  | ask t f ih =>
      refine Sight.covers_meet ?_
      rw [run] at hrun ⊢
      cases ht : t.holds ctx d with
      | true =>
          rw [ht] at hrun
          exact Or.inl ((t.covers_tell ctx h ht).bind fun τ hτ => ih _ hτ hrun)
      | false =>
          rw [ht] at hrun
          exact Or.inr ((t.covers_tell ctx h ht).bind fun τ hτ => ih _ hτ hrun)
  | group a ih =>
      obtain ⟨τ, hτ, hfits⟩ := ih (h.alike d.alike_opened) hrun
      exact ⟨τ, hτ, hfits.alike (Draft.alike_rejoin _ _)⟩
  | enclose k a ih =>
      obtain ⟨τ, hτ, hfits⟩ := ih (h.alike (d.alike_restarted k)) hrun
      exact ⟨τ, hτ, hfits.alike (Draft.alike_closed _ k)⟩
  | node k a ih =>
      obtain ⟨τ, hτ, hfits⟩ := ih (h.alike (d.alike_started k)) hrun
      exact ⟨τ, hτ, (hfits.alike (Draft.alike_closed _ k)).alike (Draft.alike_rejoin _ _)⟩
  | call p place => exact ⟨_, rfl, h.after hcall p _ hrun⟩
  | advance a ih =>
      obtain ⟨τ, hτ, hfits⟩ := ih h fun hs => by
        rw [← Draft.advance_eq (hrun hs)]
        exact hrun hs
      refine ⟨_, by rw [flow, hτ, Option.map_some], ?_⟩
      exact h.advance hfits (hcall.later_run ctx a d) hrun
  | list close item ih =>
      refine ⟨_, rfl, h.list (hcall.later_run ctx item) (fun hs hall d hd hcalm hitem => ?_) hrun⟩
      obtain ⟨τ, hτ, hfits⟩ := ih (fits_calm hd hcalm) fun _ => hitem
      rw [hτ] at hall
      exact hfits.calm hs hall

end FreeNames
