import FreeNames.Proofs.Drafting

/-!
# FreeNames.Proofs.Built

What the rules of the grammar can do to a draft.  `Built d e` says that `e` comes
from `d` by the few steps that all rules are made of, and under which conditions
they make them:

* a token outside a node of one token is punctuation, a reserved word, a chunk
  of a template or one of the `contextualWords`, unless a problem was reported;
* a node of one token holds a token that fits it (`NodeKind.fits`);
* a token gets into an error node only after a problem was reported;
* a name is not taken where it would follow a number or a regular expression on
  the same line (`Draft.Clear`), unless a problem was reported;
* a property name follows a dot.

What holds of every parse is then proved by induction on `Built`.
-/

namespace FreeNames

/-- Words that mean something of their own in some places only. -/
def contextualWords : List Text :=
  ["let", "of", "async", "await", "yield", "get", "set", "static", "as", "from"].map String.toList

/-- Tokens that rules take outside nodes of one token. -/
def TokenKind.isPlain : TokenKind → Bool
  | .punct _ | .keyword _ | .templateHead | .templateTail => true
  | _ => false

/-- Tokens that a name directly after them could become part of. -/
def TokenKind.absorbs : TokenKind → Bool
  | .number | .regex | .error => true
  | _ => false

/-- The marks that a property name follows. -/
def TokenKind.isDot : TokenKind → Bool
  | .punct .dot | .punct .questionDot => true
  | _ => false

/-- Which token a node of one token holds; nodes of other kinds hold none in
this way. -/
def NodeKind.fits : NodeKind → TokenKind → Bool
  | .name, k | .nameRef, k | .label, k => k = .ident
  | .thisExpr, k => k = .keyword .thisKw
  | .superExpr, k => k = .keyword .superKw
  | .propertyName, k => k.isIdentifierName || k = .privateName
  | .propertyKey, k => k.isIdentifierName || k = .string || k = .number || k = .privateName
  | .moduleExportName, k => k.isIdentifierName || k = .string
  | .literal, k =>
    k = .number || k = .string || k = .regex || k = .privateName || k = .keyword .nullKw
      || k = .keyword .trueKw || k = .keyword .falseKw
  | _, _ => false

/-- Nodes of exactly one token. -/
def NodeKind.isUnit : NodeKind → Bool
  | .name | .nameRef | .label | .thisExpr | .superExpr | .propertyName | .propertyKey
  | .moduleExportName | .literal => true
  | _ => false

/-- Nodes of any number of parts. -/
def NodeKind.isLarge : NodeKind → Bool
  | .error => false
  | k => !k.isUnit

/-- Trivia fits no node of one token. -/
theorem NodeKind.not_isTrivia_of_fits {k : NodeKind} {t : TokenKind} (h : k.fits t = true) :
    t.isTrivia = false := by
  cases t with
  | trivia u => cases k <;> simp [fits, TokenKind.isIdentifierName] at h
  | _ => rfl

theorem NodeKind.ne_error_of_fits {k : NodeKind} {t : TokenKind} (h : k.fits t = true) :
    t ≠ .error := by
  rintro rfl
  cases k <;> simp [fits, TokenKind.isIdentifierName] at h

/-- The last token that is not trivia, after one more token. -/
def Token.seen (last : Option TokenKind) (t : Token) : Option TokenKind :=
  if t.isTrivia then last else some t.kind

namespace Draft

/-- The last token placed that is not trivia. -/
def lastKind? (d : Draft) : Option TokenKind :=
  d.steps.findSome? fun
    | .token t => if t.isTrivia then none else some t.kind
    | _ => none

/-- A name comes next, on the line of a token that could absorb it. -/
structure Stuck (d : Draft) : Prop where
  ident : d.kind = .ident
  unreserved : d.textAt 0 ∉ contextualWords
  sameLine : d.newline = false
  absorbed : d.lastKind?.any TokenKind.absorbs = true

/-- The next token may be taken as a name, or something is wrong already. -/
def Clear (d : Draft) : Prop := d.problems = [] → ¬d.Stuck

/-- The next token is one that rules take outside nodes of one token. -/
def Plain (d : Draft) : Prop :=
  d.kind.isPlain = true ∨ (d.kind = .ident ∧ d.textAt 0 ∈ contextualWords)

end Draft

/-- What rules can do to a draft. -/
inductive Built : Draft → Draft → Prop
  | refl (d : Draft) : Built d d
  | trans {d e f : Draft} (left : Built d e) (right : Built e f) : Built d f
  | placeTrivia (d : Draft) : Built d d.placeTrivia
  | take {d : Draft} (plain : d.problems = [] → d.Plain) : Built d d.take
  | report (d : Draft) (c : Cause) : Built d (d.report c)
  /-- A token that does not belong is put away. -/
  | skip {d : Draft} (reported : d.problems ≠ []) (left : d.rest ≠ []) :
    Built d (d.single .error)
  | single {d : Draft} {k : NodeKind} (fits : k.fits d.kind = true) (clear : d.Clear)
    (dotted : k = .propertyName → d.lastKind?.any TokenKind.isDot = true := by nofun) :
    Built d (d.single k)
  | group {d e : Draft} (body : Built d.placeTrivia.apart e) :
    Built d (e.rejoin d.placeTrivia)
  | enclose {d e : Draft} {k : NodeKind} (large : k.isLarge = true)
    (body : Built (d.log (.startAt d.base k)) e) : Built d ((e.wrap k).log .finish)
  | node {d e : Draft} {k : NodeKind} (large : k.isLarge = true)
    (body : Built (d.placeTrivia.apart.log (.start k)) e) :
    Built d (((e.wrap k).log .finish).rejoin d.placeTrivia)

/-! ## where a name may come next -/

namespace Draft

theorem clear_of_problems {d : Draft} (h : d.problems ≠ []) : d.Clear := fun hnil => (h hnil).elim

theorem clear_of_kind {d : Draft} (h : d.kind ≠ .ident) : d.Clear := fun _ hs => h hs.ident

theorem clear_of_newline {d : Draft} (h : d.newline = true) : d.Clear := fun _ hs => by
  simp [hs.sameLine] at h

theorem clear_of_lastKind? {d : Draft} (h : d.lastKind?.any TokenKind.absorbs = false) :
    d.Clear := fun _ hs => by
  simp [hs.absorbed] at h

theorem clear_of_ended {d : Draft} (h : d.ended = true) : d.Clear := by
  apply clear_of_kind
  have hnil : d.rest = [] := List.isEmpty_iff.mp h
  simp [kind, kindAt, hnil]

theorem clear_report (d : Draft) (c : Cause) : (d.report c).Clear :=
  clear_of_problems (by simp)

/-- Trivia does not count as the last token. -/
theorem foldl_seen_trivia {ts : List Token} (h : ∀ t ∈ ts, t.isTrivia = true)
    (last : Option TokenKind) : ts.foldl Token.seen last = last := by
  induction ts with
  | nil => rfl
  | cons t ts ih =>
      rw [List.forall_mem_cons] at h
      rw [List.foldl_cons, Token.seen, if_pos h.1, ih h.2]

theorem lastKind?_place (d : Draft) (ts : List Token) :
    (d.place ts).lastKind? = ts.foldl Token.seen d.lastKind? := by
  induction ts generalizing d with
  | nil => rfl
  | cons t ts ih =>
      have hcons : d.place (t :: ts) = (d.place [t]).place ts := by simp [place]
      have hone : (d.place [t]).lastKind? = t.seen d.lastKind? := by
        simp only [lastKind?, steps_place, List.map_cons, List.map_nil, List.reverse_singleton,
          List.singleton_append, List.findSome?_cons, Token.seen]
        split <;> simp_all
      rw [hcons, ih, hone, List.foldl_cons]

@[simp] theorem lastKind?_placeTrivia (d : Draft) : d.placeTrivia.lastKind? = d.lastKind? := by
  cases h : d.rest with
  | nil =>
      rw [placeTrivia_nil h, lastKind?_place]
      exact foldl_seen_trivia d.last.onlyTrivia _
  | cons l ls =>
      rw [placeTrivia_cons h, lastKind?_place]
      exact foldl_seen_trivia l.gap.onlyTrivia _

theorem lastKind?_take_cons {d : Draft} {l : Lexeme} {ls : List Lexeme} (h : d.rest = l :: ls) :
    d.take.lastKind? = l.token.seen d.lastKind? := by
  rw [take_cons h, lastKind?_place, List.foldl_append, foldl_seen_trivia l.gap.onlyTrivia]
  rfl

@[simp] theorem lastKind?_apart (d : Draft) : d.apart.lastKind? = d.lastKind? := rfl
@[simp] theorem lastKind?_wrap (d : Draft) (k : NodeKind) :
    (d.wrap k).lastKind? = d.lastKind? := rfl
@[simp] theorem lastKind?_rejoin (d e : Draft) : (d.rejoin e).lastKind? = d.lastKind? := rfl
@[simp] theorem lastKind?_start (d : Draft) (k : NodeKind) :
    (d.log (.start k)).lastKind? = d.lastKind? := rfl
@[simp] theorem lastKind?_startAt (d : Draft) (n : Nat) (k : NodeKind) :
    (d.log (.startAt n k)).lastKind? = d.lastKind? := rfl
@[simp] theorem lastKind?_finish (d : Draft) : (d.log .finish).lastKind? = d.lastKind? := rfl

/-- The tokens that are left and no trivia. -/
def ahead (d : Draft) : List Token := d.rest.map Lexeme.token

theorem kindAt_eq (d : Draft) (n : Nat) :
    d.kindAt n = match d.ahead[n]? with
      | some t => t.kind
      | none => .error := by
  simp only [kindAt, ahead, List.getElem?_map]
  cases d.rest[n]? <;> rfl

theorem textAt_eq (d : Draft) (n : Nat) :
    d.textAt n = match d.ahead[n]? with
      | some t => t.text
      | none => [] := by
  simp only [textAt, ahead, List.getElem?_map]
  cases d.rest[n]? <;> rfl

@[simp] theorem ahead_placeTrivia (d : Draft) : d.placeTrivia.ahead = d.ahead := by
  cases h : d.rest with
  | nil => rw [placeTrivia_nil h]; rfl
  | cons l ls => rw [placeTrivia_cons h]; simp [ahead, h]

/-- How long a group is depends on the kinds of tokens only. -/
theorem groupLength_congr {ls ms : List Lexeme}
    (h : (ls.map Lexeme.token).map Token.kind = (ms.map Lexeme.token).map Token.kind)
    (depth : Nat) : groupLength depth ls = groupLength depth ms := by
  induction ls generalizing ms depth with
  | nil =>
      rw [List.map_nil, List.map_nil, eq_comm, List.map_eq_nil_iff, List.map_eq_nil_iff] at h
      rw [h]
  | cons l ls ih =>
      cases ms with
      | nil => simp at h
      | cons m ms =>
          simp only [List.map_cons, List.cons.injEq] at h
          simp only [groupLength, h.1, ih h.2]

/-- The same tokens come next, after the same token and the same problems. -/
structure Alike (e d : Draft) : Prop where
  ahead : e.ahead = d.ahead
  newline : e.newline = d.newline
  lastKind? : e.lastKind? = d.lastKind?
  problems : e.problems = d.problems

theorem alike_opened (d : Draft) : d.placeTrivia.apart.Alike d :=
  ⟨d.ahead_placeTrivia, by simp [newline], by simp, by simp⟩

theorem alike_started (d : Draft) (k : NodeKind) :
    (d.placeTrivia.apart.log (.start k)).Alike d :=
  ⟨d.ahead_placeTrivia, by simp [newline], by simp, by simp⟩

theorem alike_restarted (d : Draft) (k : NodeKind) : (d.log (.startAt d.base k)).Alike d :=
  ⟨rfl, rfl, rfl, rfl⟩

theorem alike_closed (d : Draft) (k : NodeKind) : ((d.wrap k).log .finish).Alike d :=
  ⟨rfl, rfl, rfl, rfl⟩

theorem alike_rejoin (d e : Draft) : (d.rejoin e).Alike d := ⟨rfl, rfl, rfl, rfl⟩

namespace Alike

variable {d e : Draft}

theorem kindAt (h : e.Alike d) (n : Nat) : e.kindAt n = d.kindAt n := by
  rw [kindAt_eq, kindAt_eq, h.ahead]

theorem textAt (h : e.Alike d) (n : Nat) : e.textAt n = d.textAt n := by
  rw [textAt_eq, textAt_eq, h.ahead]

theorem kind (h : e.Alike d) : e.kind = d.kind := h.kindAt 0

theorem clear (h : e.Alike d) (hd : d.Clear) : e.Clear := by
  intro hnil hs
  refine hd (h.problems ▸ hnil) ⟨?_, ?_, ?_, ?_⟩
  · rw [← h.kind]; exact hs.ident
  · rw [← h.textAt]; exact hs.unreserved
  · rw [← h.newline]; exact hs.sameLine
  · rw [← h.lastKind?]; exact hs.absorbed

end Alike

theorem clear_group {d : Draft} {body : Draft → Draft}
    (h : ∀ e : Draft, e.Alike d → (body e).Clear) : (d.group body).Clear :=
  (alike_rejoin _ _).clear (h _ (alike_opened d))

theorem clear_enclose {d : Draft} {k : NodeKind} {body : Draft → Draft}
    (h : ∀ e : Draft, e.Alike d → (body e).Clear) : (d.enclose k body).Clear :=
  (alike_closed _ k).clear (h _ (alike_restarted d k))

theorem clear_node {d : Draft} {k : NodeKind} {body : Draft → Draft}
    (h : ∀ e : Draft, e.Alike d → (body e).Clear) : (d.node k body).Clear :=
  (alike_rejoin _ _).clear ((alike_closed _ k).clear (h _ (alike_started d k)))

/-! ## taking tokens -/

@[simp] theorem problems_take (d : Draft) : d.take.problems = d.problems := by
  unfold take
  split <;> simp

@[simp] theorem problems_single (d : Draft) (k : NodeKind) :
    (d.single k).problems = d.problems := by
  simp [single, node]

/-- After a token is taken, what was further ahead is seen. -/
theorem kindAt_take {d : Draft} (h : d.rest ≠ []) (n : Nat) :
    d.take.kindAt n = d.kindAt (n + 1) := by
  obtain ⟨l, ls, hrest⟩ := List.exists_cons_of_ne_nil h
  rw [take_cons hrest]
  simp [kindAt, hrest]

theorem textAt_take {d : Draft} (h : d.rest ≠ []) (n : Nat) :
    d.take.textAt n = d.textAt (n + 1) := by
  obtain ⟨l, ls, hrest⟩ := List.exists_cons_of_ne_nil h
  rw [take_cons hrest]
  simp [textAt, hrest]

theorem kindAt_single {d : Draft} (h : d.rest ≠ []) (k : NodeKind) (n : Nat) :
    (d.single k).kindAt n = d.kindAt (n + 1) := by
  have hplaced : (d.placeTrivia.apart.log (.start k)).rest ≠ [] := by
    simpa [← List.length_eq_zero_iff] using h
  simp only [single, node]
  exact (kindAt_take hplaced n).trans (by simp)

theorem textAt_single {d : Draft} (h : d.rest ≠ []) (k : NodeKind) (n : Nat) :
    (d.single k).textAt n = d.textAt (n + 1) := by
  have hplaced : (d.placeTrivia.apart.log (.start k)).rest ≠ [] := by
    simpa [← List.length_eq_zero_iff] using h
  simp only [single, node]
  exact (textAt_take hplaced n).trans (by simp)

theorem rest_ne_nil_of_kind {d : Draft} {k : TokenKind} (h : d.kind = k) (hk : k ≠ .error) :
    d.rest ≠ [] := by
  obtain ⟨l, ls, hrest, -⟩ := exists_cons_of_kind h hk
  simp [hrest]

theorem rest_ne_nil_of_kindAt {d : Draft} {n : Nat} {k : TokenKind} (h : d.kindAt n = k)
    (hk : k ≠ .error) : d.rest ≠ [] := by
  intro hnil
  simp [kindAt, hnil, hk.symm] at h

theorem plain_of_kind {d : Draft} {k : TokenKind} (h : d.kind = k) (hk : k.isPlain = true) :
    d.Plain := Or.inl (h ▸ hk)

theorem plain_of_sees {d : Draft} {k : TokenKind} (h : d.sees k = true) (hk : k.isPlain = true) :
    d.Plain := plain_of_kind (kind_of_sees h) hk

theorem fits_of_kind {d : Draft} {j : NodeKind} {k : TokenKind} (h : d.kind = k)
    (hk : j.fits k = true) : j.fits d.kind = true := h ▸ hk

theorem fits_of_sees {d : Draft} {j : NodeKind} {k : TokenKind} (h : d.sees k = true)
    (hk : j.fits k = true) : j.fits d.kind = true := fits_of_kind (kind_of_sees h) hk

theorem kind_of_seesWord {d : Draft} {w : String} (h : d.seesWord w = true) : d.kind = .ident := by
  simp only [seesWord, wordAt, Bool.and_eq_true, decide_eq_true_eq] at h
  exact h.1

theorem plain_of_seesWord {d : Draft} {w : String} (h : d.seesWord w = true)
    (hw : w.toList ∈ contextualWords) : d.Plain := by
  simp only [seesWord, wordAt, Bool.and_eq_true, decide_eq_true_eq] at h
  exact Or.inr ⟨h.1, h.2 ▸ hw⟩

theorem Alike.plain {d e : Draft} (h : e.Alike d) (hd : d.Plain) : e.Plain := by
  rcases hd with hd | ⟨hd, hw⟩
  · exact Or.inl (h.kind ▸ hd)
  · exact Or.inr ⟨h.kind ▸ hd, h.textAt 0 ▸ hw⟩

theorem Plain.kind_ne_error {d : Draft} (h : d.Plain) : d.kind ≠ .error := by
  intro he
  rcases h with h | ⟨h, -⟩ <;> simp [he, TokenKind.isPlain] at h

/-- After a token that rules take by itself, any name may come. -/
theorem Plain.lastKind?_take {d : Draft} (h : d.Plain) : d.take.lastKind? = some d.kind := by
  obtain ⟨l, ls, hrest, hk⟩ := exists_cons_of_kind rfl h.kind_ne_error
  have htrivia : l.token.isTrivia = false := by
    rw [Token.isTrivia, hk]
    rcases h with h | ⟨h, -⟩
    · generalize d.kind = k at h
      cases k <;> simp_all [TokenKind.isPlain, TokenKind.isTrivia]
    · simp [h, TokenKind.isTrivia]
  rw [lastKind?_take_cons hrest, Token.seen, htrivia, hk]
  rfl

theorem Plain.clear_take {d : Draft} (h : d.Plain) : d.take.Clear := by
  apply clear_of_lastKind?
  rw [h.lastKind?_take]
  rcases h with h | ⟨h, -⟩
  · generalize d.kind = k at h
    cases k <;> simp_all [TokenKind.isPlain, TokenKind.absorbs]
  · simp [h, TokenKind.absorbs]

theorem clear_expect {d : Draft} {k : TokenKind} (hk : k.isPlain = true) : (d.expect k).Clear := by
  unfold expect
  split
  · next h => exact (plain_of_sees h hk).clear_take
  · exact clear_report d _

theorem clear_expectWord {d : Draft} {w : String} (hw : w.toList ∈ contextualWords) :
    (d.expectWord w).Clear := by
  unfold expectWord
  split
  · next h => exact (plain_of_seesWord h hw).clear_take
  · exact clear_report d _

theorem Clear.takeIf {d : Draft} {k : TokenKind} (h : d.Clear) (hk : k.isPlain = true) :
    (d.takeIf k).Clear := by
  unfold Draft.takeIf
  split
  · next hs => exact (plain_of_sees hs hk).clear_take
  · exact h

/-- A statement that has ended lets any name follow: it ended with a semicolon,
or nothing more stands on its line but a closing brace. -/
theorem clear_endStatement (d : Draft) : d.endStatement.Clear := by
  unfold endStatement
  split
  · next h => exact (plain_of_sees h rfl).clear_take
  · split
    · next h =>
        simp only [Bool.or_eq_true] at h
        rcases h with (h | h) | h
        · exact clear_of_kind (by simp [kind_of_sees h])
        · exact clear_of_ended h
        · exact clear_of_newline h
    · exact clear_report d _

theorem problems_skip_ne_nil (d : Draft) (c : Cause) : (d.skip c).problems ≠ [] := by
  unfold skip
  simp only []
  split <;> simp

theorem problems_refuse_ne_nil (d : Draft) (c : Cause) : (d.refuse c).problems ≠ [] := by
  unfold refuse
  split
  · simp
  · exact problems_skip_ne_nil d c

theorem clear_skip (d : Draft) (c : Cause) : (d.skip c).Clear :=
  clear_of_problems (problems_skip_ne_nil d c)

theorem clear_advance {d : Draft} {step : Draft → Draft} (h : (step d).Clear) :
    (d.advance step).Clear := by
  unfold advance
  simp only []
  split
  · exact clear_skip _ _
  · exact h

end Draft

/-! ## the small steps -/

namespace Built

variable {d e : Draft}

/-- Problems stay: a draft without any came from one without any. -/
theorem problems_eq_nil (h : Built d e) (he : e.problems = []) : d.problems = [] := by
  induction h with
  | refl _ => exact he
  | trans _ _ ihl ihr => exact ihl (ihr he)
  | placeTrivia d => simpa using he
  | take _ => simpa using he
  | report _ _ => simp at he
  | skip hreported _ => exact absurd (by simpa using he) hreported
  | single _ _ _ => simpa using he
  | group _ ih => simpa using ih he
  | enclose _ _ ih => exact ih he
  | node _ _ ih => simpa using ih he

theorem andTake (h : Built d e) (hp : e.Plain) : Built d e.take := h.trans (.take fun _ => hp)

theorem andReport (h : Built d e) (c : Cause) : Built d (e.report c) := h.trans (.report e c)

theorem andSingle {k : NodeKind} (h : Built d e) (hfits : k.fits e.kind = true)
    (hclear : e.Clear) (hk : k ≠ .propertyName) : Built d (e.single k) :=
  h.trans (.single hfits hclear fun he => (hk he).elim)

theorem andGroup {body : Draft → Draft} (h : Built d e)
    (hbody : ∀ f : Draft, f.Alike e → Built f (body f)) : Built d (e.group body) :=
  h.trans (.group (hbody _ e.alike_opened))

theorem andEnclose {k : NodeKind} {body : Draft → Draft} (h : Built d e)
    (hk : k.isLarge = true)
    (hbody : ∀ f : Draft, f.Alike e → Built f (body f)) : Built d (e.enclose k body) :=
  h.trans (.enclose hk (hbody _ (e.alike_restarted k)))

theorem andNode {k : NodeKind} {body : Draft → Draft} (h : Built d e)
    (hk : k.isLarge = true)
    (hbody : ∀ f : Draft, f.Alike e → Built f (body f)) : Built d (e.node k body) :=
  h.trans (.node hk (hbody _ (e.alike_started k)))

theorem andExpect {k : TokenKind} (h : Built d e) (hk : k.isPlain = true) :
    Built d (e.expect k) := by
  unfold Draft.expect
  split
  · next hs => exact h.andTake (Draft.plain_of_sees hs hk)
  · exact h.andReport _

theorem andExpectWord {w : String} (h : Built d e) (hw : w.toList ∈ contextualWords) :
    Built d (e.expectWord w) := by
  unfold Draft.expectWord
  split
  · next hs => exact h.andTake (Draft.plain_of_seesWord hs hw)
  · exact h.andReport _

theorem andTakeIf {k : TokenKind} (h : Built d e) (hk : k.isPlain = true) :
    Built d (e.takeIf k) := by
  unfold Draft.takeIf
  split
  · next hs => exact h.andTake (Draft.plain_of_sees hs hk)
  · exact h

theorem andTakeIfWord {w : String} (h : Built d e) (hw : w.toList ∈ contextualWords) :
    Built d (e.takeIfWord w) := by
  unfold Draft.takeIfWord
  split
  · next hs => exact h.andTake (Draft.plain_of_seesWord hs hw)
  · exact h

theorem andEndStatement (h : Built d e) : Built d e.endStatement := by
  unfold Draft.endStatement
  split
  · next hs => exact h.andTake (Draft.plain_of_sees hs rfl)
  · split
    · exact h
    · exact h.andReport _

theorem andSkip (h : Built d e) (c : Cause) : Built d (e.skip c) := by
  unfold Draft.skip
  simp only []
  split
  · exact h.andReport c
  · next hne =>
      refine (h.andReport c).trans (.skip (by simp) ?_)
      simpa [Draft.ended] using hne

theorem andRefuse (h : Built d e) (c : Cause) : Built d (e.refuse c) := by
  unfold Draft.refuse
  split
  · exact h.andReport c
  · exact h.andSkip c

theorem andNextItem {close : TokenKind} {more : Draft → Draft} (h : Built d e)
    (hmore : ∀ f : Draft, f.Clear → Built f (more f)) : Built d (e.nextItem close more) := by
  unfold Draft.nextItem
  split
  · exact h
  · split
    · next hs =>
        have hp := Draft.plain_of_sees hs rfl
        exact (h.andTake hp).trans (hmore _ hp.clear_take)
    · exact h.andReport _

theorem andAdvance {step : Draft → Draft} (h : Built d e) (hstep : Built e (step e)) :
    Built d (e.advance step) := by
  unfold Draft.advance
  simp only []
  split
  · exact (h.trans hstep).andSkip _
  · exact h.trans hstep

end Built

/-! ## relations that steps keep -/

/-- A relation that holds from before a step to after it, whatever the step.  The
nodes and reports that steps may make can be limited, but not those for a token
that is skipped and for a comma that is missing. -/
structure Steady (R : Draft → Draft → Prop) (kinds : NodeKind → Bool := fun _ => true)
    (causes : Cause → Bool := fun _ => true) : Prop where
  refl (d : Draft) : R d d
  trans {d e f : Draft} : R d e → R e f → R d f
  placeTrivia (d : Draft) : R d d.placeTrivia
  take (d : Draft) : R d d.take
  report (d : Draft) {c : Cause} : causes c = true → R d (d.report c)
  group {d e : Draft} : R d.apart e → R d (e.rejoin d)
  enclose {d e : Draft} {k : NodeKind} :
    kinds k = true → R (d.log (.startAt d.base k)) e → R d ((e.wrap k).log .finish)
  node {d e : Draft} {k : NodeKind} :
    kinds k = true → R (d.apart.log (.start k)) e → R d (((e.wrap k).log .finish).rejoin d)
  error : kinds .error = true := by rfl
  unexpected : causes .unexpected = true := by rfl
  comma : causes (.expected (.punct .comma)) = true := by rfl

/-- What each step keeps, all steps together keep. -/
theorem Steady.of_built {R : Draft → Draft → Prop} {d e : Draft} (hR : Steady R)
    (h : Built d e) : R d e := by
  induction h with
  | refl d => exact hR.refl d
  | trans _ _ ihl ihr => exact hR.trans ihl ihr
  | placeTrivia d => exact hR.placeTrivia d
  | take _ => exact hR.take _
  | report d c => exact hR.report d rfl
  | skip _ _ => exact hR.trans (hR.placeTrivia _) (hR.node rfl (hR.take _))
  | single _ _ _ => exact hR.trans (hR.placeTrivia _) (hR.node rfl (hR.take _))
  | group _ ih => exact hR.trans (hR.placeTrivia _) (hR.group ih)
  | enclose _ _ ih => exact hR.enclose rfl ih
  | node _ _ ih => exact hR.trans (hR.placeTrivia _) (hR.node rfl ih)

/-! ## tokens that are left -/

namespace Draft

theorem length_rest_take (d : Draft) : d.take.rest.length = d.rest.length - 1 := by
  cases h : d.rest with
  | nil => rw [take, h]; simp [h]
  | cons l ls => rw [take_cons h]; simp

theorem length_rest_single (d : Draft) (k : NodeKind) :
    (d.single k).rest.length = d.rest.length - 1 := by
  simp only [single, node, rest_rejoin, rest_log, rest_wrap]
  rw [length_rest_take]
  simp

theorem steady_length : Steady fun d e => e.rest.length ≤ d.rest.length where
  refl _ := Nat.le_refl _
  trans hl hr := Nat.le_trans hr hl
  placeTrivia d := by simp
  take d := by rw [length_rest_take]; omega
  report _ _ _ := Nat.le_refl _
  group h := h
  enclose _ h := h
  node _ h := h

theorem length_rest_skip (d : Draft) (c : Cause) (h : d.ended = false) :
    (d.skip c).rest.length = d.rest.length - 1 := by
  unfold skip
  simp only [ended_report, h]
  exact length_rest_single _ _

/-- A step that has to take a token takes one. -/
theorem length_rest_advance {d : Draft} {step : Draft → Draft}
    (hle : (step d).rest.length ≤ d.rest.length) (hd : d.ended = false) :
    (d.advance step).rest.length < d.rest.length := by
  have hpos : 0 < d.rest.length := by
    rw [List.length_pos_iff]
    simpa [ended] using hd
  unfold advance
  simp only []
  split
  · next heq =>
      rw [length_rest_skip _ _ (by simpa [ended, ← List.length_eq_zero_iff, heq] using hd)]
      omega
  · omega

end Draft

end FreeNames
