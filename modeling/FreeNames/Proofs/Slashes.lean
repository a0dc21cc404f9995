import FreeNames.Proofs.Nesting
import FreeNames.Proofs.ReservedProperties

/-!
# FreeNames.Proofs.Slashes

Which slashes start regular expressions.  The lexer decides by what it remembers of the
tokens it has read: the last one, a flag for each open parenthesis, and whether the
last parenthesis closed the head of a statement.  `Mode.Recalls` says what these are in
terms of the tokens themselves, and holds after every token (`Mode.Recalls.after`).

What a regular expression reaches over is given by its grammar (`RegexBody`), and the
scanner finds exactly that (`Delimited.regexBody_eq_some_iff`).

Main statement: `tokenize_slash`.
-/

namespace FreeNames

/-! ## parentheses and the tokens before them -/

/-- Whether a token opens or closes a parenthesis. -/
def TokenKind.parenTurn? : TokenKind → Option (Turn Unit)
  | .punct .lParen => some (.enter ())
  | .punct .rParen => some .leave
  | _ => none

/-- The parentheses among tokens. -/
def parens (ts : List Token) : List (Turn Unit) := ts.filterMap fun t => t.kind.parenTurn?

namespace Turn

variable {α β : Type}

/-- A turn with another name for what it opens. -/
def map (f : α → β) : Turn α → Turn β
  | enter a => enter (f a)
  | leave => leave

theorem Even.map {ts : List (Turn α)} (h : Even ts) (f : α → β) : Even (ts.map (Turn.map f)) := by
  induction h with
  | nil => exact .nil
  | pair a _ _ ihinner ihrest =>
      rw [List.map_append, List.map_cons, List.map_cons]
      exact .pair (f a) ihinner ihrest

/-- Whether turns are even does not depend on what they open. -/
theorem even_map_iff {ts : List (Turn α)} {f : α → β} : Even (ts.map (Turn.map f)) ↔ Even ts := by
  refine ⟨fun h => ?_, fun h => h.map f⟩
  generalize hus : ts.map (Turn.map f) = us at h
  induction h generalizing ts with
  | nil => exact List.map_eq_nil_iff.mp hus ▸ .nil
  | pair b _ _ ihinner ihrest =>
      obtain ⟨front, back, rfl, hfront, hback⟩ := List.map_eq_append_iff.mp hus
      obtain ⟨t, inner, rfl, ht, hinner⟩ := List.map_eq_cons_iff.mp hfront
      obtain ⟨u, rest, rfl, hu, hrest⟩ := List.map_eq_cons_iff.mp hback
      cases t with
      | leave => cases ht
      | enter a =>
          cases u with
          | enter a => cases hu
          | leave => exact .pair a (ihinner hinner) (ihrest hrest)

end Turn

/-- The turns of parentheses, where each that is opened is known by the tokens before
it. -/
def parenTurns (seen : List Token) : List Token → List (Turn (List Token))
  | [] => []
  | t :: ts =>
    (t.kind.parenTurn?.map (Turn.map fun _ => seen)).toList ++ parenTurns (seen ++ [t]) ts

section

variable {seen ts us outer : List Token}

theorem parenTurns_append :
    parenTurns seen (ts ++ us) = parenTurns seen ts ++ parenTurns (seen ++ ts) us := by
  induction ts generalizing seen with
  | nil => simp [parenTurns]
  | cons t ts ih => simp [parenTurns, ih]

theorem map_parenTurns : (parenTurns seen ts).map (Turn.map fun _ => ()) = parens ts := by
  induction ts generalizing seen with
  | nil => rfl
  | cons t ts ih =>
      rw [parenTurns, List.map_append, ih, parens, parens, List.filterMap_cons]
      rcases t.kind.parenTurn? with _ | (_ | _) <;> rfl

theorem even_parenTurns_iff : Turn.Even (parenTurns seen ts) ↔ Turn.Even (parens ts) := by
  rw [← map_parenTurns, Turn.even_map_iff]

/-- A turn that opens is that of a parenthesis. -/
theorem exists_of_parenTurns {front back : List (Turn (List Token))}
    (h : parenTurns seen ts = front ++ .enter outer :: back) :
    ∃ before opening inner, ts = before ++ opening :: inner ∧ outer = seen ++ before ∧
      opening.kind = .punct .lParen ∧ back = parenTurns (outer ++ [opening]) inner := by
  induction ts generalizing seen front with
  | nil => simp [parenTurns] at h
  | cons t ts ih =>
      rw [parenTurns] at h
      -- the turn is that of the first token, or one of a later token
      have hlater {front : List (Turn (List Token))}
          (h : parenTurns (seen ++ [t]) ts = front ++ .enter outer :: back) :
          ∃ before opening inner, t :: ts = before ++ opening :: inner ∧ outer = seen ++ before ∧
            opening.kind = .punct .lParen ∧ back = parenTurns (outer ++ [opening]) inner := by
        obtain ⟨before, opening, inner, rfl, rfl, hk, hback⟩ := ih h
        exact ⟨t :: before, opening, inner, rfl, by simp, hk, hback⟩
      cases hk : t.kind.parenTurn? with
      | none =>
          rw [hk] at h
          exact hlater h
      | some turn =>
          rw [hk, Option.map_some, Option.toList_some, List.singleton_append] at h
          cases front with
          | cons u front => exact hlater (List.cons.inj h).2
          | nil =>
              obtain ⟨hturn, hback⟩ := List.cons.inj h
              cases turn with
              | leave => cases hturn
              | enter u =>
                  obtain rfl : seen = outer := by simpa [Turn.map] using hturn
                  refine ⟨[], t, ts, rfl, by simp, ?_, hback.symm⟩
                  unfold TokenKind.parenTurn? at hk
                  split at hk
                  · assumption
                  · cases hk
                  · cases hk

/-- The innermost open parenthesis: the parentheses after it match. -/
theorem innermost_parenTurns_iff :
    Turn.Innermost outer (parenTurns [] ts) ↔
      ∃ opening inner, ts = outer ++ opening :: inner ∧ opening.kind = .punct .lParen ∧
        Turn.Even (parens inner) := by
  constructor
  · rintro ⟨front, back, h, heven⟩
    obtain ⟨before, opening, inner, rfl, rfl, hk, rfl⟩ := exists_of_parenTurns h
    exact ⟨opening, inner, rfl, hk, even_parenTurns_iff.mp heven⟩
  · rintro ⟨opening, inner, rfl, hk, heven⟩
    refine ⟨parenTurns [] outer, parenTurns (outer ++ [opening]) inner, ?_,
      even_parenTurns_iff.mpr heven⟩
    rw [parenTurns_append, parenTurns, hk]
    rfl

end

/-! ## where a regular expression may stand -/

/-- Tokens that end an operand. -/
def operandEnds : List TokenKind :=
  [.ident, .privateName, .number, .string, .regex, .templateTail, .punct .rParen,
    .punct .rBracket, .punct .plusPlus, .punct .minusMinus, .keyword .thisKw, .keyword .superKw,
    .keyword .nullKw, .keyword .trueKw, .keyword .falseKw]

/-- Words that the head of a statement follows. -/
def headWords : List TokenKind :=
  [.keyword .ifKw, .keyword .forKw, .keyword .whileKw, .keyword .withKw]

theorem Mode.endsOperand_iff (k : TokenKind) : endsOperand k = true ↔ k ∈ operandEnds := by
  cases k with
  | punct p => cases p <;> decide
  | keyword k => cases k <;> decide
  | trivia t => cases t <;> decide
  | _ => decide

theorem Mode.opensHead_iff (k : TokenKind) : opensHead k = true ↔ k ∈ headWords := by
  cases k with
  | punct p => cases p <;> decide
  | keyword k => cases k <;> decide
  | trivia t => cases t <;> decide
  | _ => decide

/-- The last two tokens are `for await`. -/
def EndsForAwait (ts : List Token) : Prop :=
  ∃ front s t, ts = front ++ [s, t] ∧ s.kind = .keyword .forKw ∧ t.kind = .ident ∧
    t.text = "await".toList

/-- The head of a statement may come next. -/
def BeforeHead (ts : List Token) : Prop :=
  (∃ t ∈ ts.getLast?, t.kind ∈ headWords) ∨ EndsForAwait ts

/-- The last token closes the head of a statement. -/
def ClosesHead (ts : List Token) : Prop :=
  ∃ outer opening inner closing, ts = outer ++ opening :: inner ++ [closing] ∧
    opening.kind = .punct .lParen ∧ closing.kind = .punct .rParen ∧
    Turn.Even (parens inner) ∧ BeforeHead outer

/-- A regular expression may come next: no operand ends, or the head of a statement
does. -/
def RegexPlace (ts : List Token) : Prop :=
  (∀ t ∈ ts.getLast?, t.kind ∉ operandEnds) ∨ ClosesHead ts

/-- A mode holds what some tokens, none of which is trivia, leave to remember. -/
structure Mode.Recalls (m : Mode) (ts : List Token) : Prop where
  previous : m.previous = ts.getLast?.map Token.kind
  forAwait : m.forAwait = true ↔ EndsForAwait ts
  heads : List.Forall₂ (fun b outer => b = true ↔ BeforeHead outer) m.heads
    ((parenTurns [] ts).foldl Turn.step [])
  afterHead : m.afterHead = true ↔ ClosesHead ts

namespace Mode

variable {m : Mode} {ts : List Token} {t : Token}

theorem recalls_initial : initial.Recalls [] where
  previous := rfl
  forAwait := by simp [initial, EndsForAwait]
  heads := .nil
  afterHead := by simp [initial, ClosesHead]

theorem Recalls.beforeHead_iff (h : m.Recalls ts) :
    (m.forAwait || m.previous.any opensHead) = true ↔ BeforeHead ts := by
  rw [Bool.or_eq_true, h.forAwait, h.previous, BeforeHead, or_comm]
  refine or_congr ?_ Iff.rfl
  cases ts.getLast? with
  | none => simp
  | some t => simp [opensHead_iff]

/-- The flag of the innermost open parenthesis. -/
theorem Recalls.headD_iff (h : m.Recalls ts) :
    m.heads.headD false = true ↔
      ∃ outer, Turn.Innermost outer (parenTurns [] ts) ∧ BeforeHead outer := by
  have hheads := h.heads
  simp only [← Turn.head?_foldl_step_iff]
  generalize m.heads = heads, (parenTurns [] ts).foldl Turn.step [] = stack at hheads
  cases hheads with
  | nil => simp
  | cons hb _ => simpa using hb

theorem Recalls.closesHead_iff (h : m.Recalls ts) :
    ClosesHead (ts ++ [t]) ↔ t.kind = .punct .rParen ∧ m.heads.headD false = true := by
  simp only [h.headD_iff, innermost_parenTurns_iff]
  constructor
  · rintro ⟨outer, opening, inner, closing, heq, hopening, hclosing, heven, hhead⟩
    obtain ⟨rfl, hlast⟩ := List.append_inj' heq rfl
    obtain rfl := List.singleton_inj.mp hlast
    exact ⟨hclosing, outer, ⟨opening, inner, rfl, hopening, heven⟩, hhead⟩
  · rintro ⟨hclosing, outer, ⟨opening, inner, rfl, hopening, heven⟩, hhead⟩
    exact ⟨outer, opening, inner, t, rfl, hopening, hclosing, heven, hhead⟩

theorem Recalls.endsForAwait_iff (h : m.Recalls ts) :
    EndsForAwait (ts ++ [t]) ↔ t.kind = .ident ∧ t.text = "await".toList ∧
      m.previous = some (.keyword .forKw) := by
  rw [h.previous]
  constructor
  · rintro ⟨front, s, u, heq, hs, hu, htext⟩
    rw [List.append_cons front s [u]] at heq
    obtain ⟨rfl, hlast⟩ := List.append_inj' heq rfl
    obtain rfl := List.singleton_inj.mp hlast
    exact ⟨hu, htext, by simp [hs]⟩
  · rintro ⟨hu, htext, hlast⟩
    obtain ⟨s, hs, hkind⟩ := Option.map_eq_some_iff.mp hlast
    obtain ⟨front, rfl⟩ := List.getLast?_eq_some_iff.mp hs
    exact ⟨front, s, t, by simp, hkind, hu, htext⟩

/-- One more token is remembered. -/
theorem Recalls.after (h : m.Recalls ts) (ht : t.isTrivia = false) :
    (m.after t).Recalls (ts ++ [t]) := by
  have hturns : parenTurns [] (ts ++ [t]) =
      parenTurns [] ts ++ (t.kind.parenTurn?.map (Turn.map fun _ => ts)).toList := by
    rw [parenTurns_append, parenTurns, parenTurns, List.append_nil, List.nil_append]
  refine ⟨?_, ?_, ?_, ?_⟩
  · simp [Mode.after, ht]
  · rw [h.endsForAwait_iff]
    simp [Mode.after, ht, and_assoc]
  · rw [hturns, List.foldl_append]
    by_cases hopen : t.kind = .punct .lParen
    · rw [after_open hopen, hopen]
      exact .cons h.beforeHead_iff h.heads
    by_cases hclose : t.kind = .punct .rParen
    · rw [after_close hclose, hclose]
      have hheads := h.heads
      generalize m.heads = heads, (parenTurns [] ts).foldl Turn.step [] = stack at hheads
      cases hheads with
      | nil => exact .nil
      | cons _ hrest => exact hrest
    · have hnone : t.kind.parenTurn? = none := by
        unfold TokenKind.parenTurn?
        split
        · contradiction
        · contradiction
        · rfl
      rw [after_other ht hopen hclose, hnone]
      exact h.heads
  · rw [h.closesHead_iff]
    simp [Mode.after, ht]

/-- What is remembered after tokens are read, trivia among them. -/
theorem Recalls.foldl_after {seen : List Token} (h : m.Recalls seen) (ts : List Token) :
    (ts.foldl Mode.after m).Recalls (seen ++ Token.solid ts) := by
  induction ts generalizing m seen with
  | nil => simpa [Token.solid] using h
  | cons t ts ih =>
      rw [List.foldl_cons, solid_cons]
      by_cases ht : t.isTrivia = true
      · rw [if_pos ht, after_trivia ht]
        exact ih h
      · rw [if_neg ht, List.append_cons]
        exact ih (h.after (Bool.eq_false_of_not_eq_true ht))

theorem Recalls.regexAllowed_iff (h : m.Recalls ts) :
    m.regexAllowed = true ↔ RegexPlace ts := by
  rw [regexAllowed, Bool.or_eq_true, h.afterHead, h.previous, RegexPlace, or_comm]
  refine or_congr ?_ Iff.rfl
  cases ts.getLast? with
  | none => simp
  | some t => simp [← endsOperand_iff]

end Mode

/-! ## how far a regular expression reaches -/

/-- What stands between the brackets of a class. -/
inductive ClassBody : Text → Prop
  | nil : ClassBody []
  | plain {c : Char} {cs : Text} (hc : c ≠ '\\' ∧ c ≠ ']') (hline : isLineTerminator c = false)
    (hcs : ClassBody cs) : ClassBody (c :: cs)
  | escape {c : Char} {cs : Text} (hline : isLineTerminator c = false) (hcs : ClassBody cs) :
    ClassBody ('\\' :: c :: cs)

/-- What stands between the slashes of a regular expression: on one line, with no slash
that is neither escaped nor inside a class. -/
inductive RegexBody : Text → Prop
  | nil : RegexBody []
  | plain {c : Char} {cs : Text} (hc : c ≠ '\\' ∧ c ≠ '/' ∧ c ≠ '[')
    (hline : isLineTerminator c = false) (hcs : RegexBody cs) : RegexBody (c :: cs)
  | escape {c : Char} {cs : Text} (hline : isLineTerminator c = false) (hcs : RegexBody cs) :
    RegexBody ('\\' :: c :: cs)
  | charClass {inside cs : Text} (hinside : ClassBody inside) (hcs : RegexBody cs) :
    RegexBody ('[' :: inside ++ ']' :: cs)

namespace Delimited

theorem regexBody_escape {c : Char} (hline : isLineTerminator c = false) (inClass : Bool)
    (cs : Text) : regexBody inClass ('\\' :: c :: cs) = (regexBody inClass cs).map (· + 2) := by
  rw [regexBody, hline]
  rfl

/-- A class is read over. -/
theorem regexBody_class {inside cs : Text} (h : ClassBody inside) :
    regexBody true (inside ++ ']' :: cs) =
      (regexBody false cs).map (· + (inside.length + 1)) := by
  induction h with
  | nil => rw [List.nil_append, regexBody_cons (by decide)]; rfl
  | plain hc hline _ ih =>
      rw [List.cons_append, regexBody_cons hc.1, if_neg (by simp [hline]), if_neg (by simp)]
      simp [hc.2, ih, Function.comp_def, Nat.add_assoc]
  | escape hline _ ih =>
      rw [List.cons_append, List.cons_append, regexBody_escape hline, ih]
      simp [Function.comp_def, Nat.add_assoc]

theorem regexBody_append {body : Text} (h : RegexBody body) (rest : Text) :
    regexBody false (body ++ '/' :: rest) = some (body.length + 1) := by
  induction h with
  | nil => rw [List.nil_append, regexBody_cons (by decide)]; rfl
  | plain hc hline _ ih =>
      obtain ⟨hback, hslash, hclass⟩ := hc
      rw [List.cons_append, regexBody_cons hback, if_neg (by simp [hline]),
        if_neg (by simp [hslash])]
      simp [hclass, ih]
  | escape hline _ ih =>
      rw [List.cons_append, List.cons_append, regexBody_escape hline, ih]
      simp
  | @charClass inside cs hinside _ ih =>
      have hopen : regexBody false ('[' :: (inside ++ ']' :: (cs ++ '/' :: rest))) =
          (regexBody true (inside ++ ']' :: (cs ++ '/' :: rest))).map (· + 1) := by
        rw [regexBody_cons (by decide)]
        rfl
      rw [List.append_assoc, List.cons_append, List.cons_append, hopen, regexBody_class hinside, ih]
      simp
      omega

/-- What is read inside and outside a class. -/
theorem exists_of_regexBody {inClass : Bool} {cs : Text} {n : Nat}
    (h : regexBody inClass cs = some n) :
    ∃ body rest, cs = body ++ '/' :: rest ∧ n = body.length + 1 ∧
      if inClass then
        ∃ inside tail, body = inside ++ ']' :: tail ∧ ClassBody inside ∧ RegexBody tail
      else RegexBody body := by
  fun_induction regexBody inClass cs generalizing n with
  | case1 => simp at h
  | case2 => simp at h
  | case3 inClass c cs hline ih =>
      obtain ⟨k, hk, rfl⟩ := Option.map_eq_some_iff.mp h
      obtain ⟨body, rest, rfl, rfl, hbody⟩ := ih hk
      refine ⟨'\\' :: c :: body, rest, rfl, by simp, ?_⟩
      have hline := Bool.eq_false_of_not_eq_true hline
      cases inClass with
      | false => exact .escape hline hbody
      | true =>
          obtain ⟨inside, tail, rfl, hinside, htail⟩ := hbody
          exact ⟨_, tail, rfl, .escape hline hinside, htail⟩
  | case4 => simp at h
  | case5 inClass c cs hback hline hclose =>
      obtain rfl : 1 = n := by simpa using h
      obtain ⟨rfl, hclass⟩ : c = '/' ∧ inClass = false := by simpa using hclose
      exact ⟨[], cs, rfl, rfl, by simpa [hclass] using RegexBody.nil⟩
  | case6 inClass =>
      rename_i c cs hback hline hclose _ ih
      obtain ⟨k, hk, rfl⟩ := Option.map_eq_some_iff.mp h
      have hc : c ≠ '\\' := by
        rintro rfl
        cases cs with
        | nil => simp [regexBody] at hk
        | cons d ds => exact hback d ds rfl rfl
      have hline := Bool.eq_false_of_not_eq_true hline
      obtain ⟨body, rest, rfl, rfl, hbody⟩ := ih hk
      refine ⟨c :: body, rest, rfl, by simp, ?_⟩
      cases inClass with
      | false =>
          have hslash : c ≠ '/' := by simpa using hclose
          by_cases hopen : c = '['
          · subst hopen
            obtain ⟨inside, tail, rfl, hinside, htail⟩ := hbody
            exact .charClass hinside htail
          · have hstays : (if c = '[' then true else if c = ']' then false else false) = false := by
              simp [hopen]
            change if (if c = '[' then true else if c = ']' then false else false) = true
              then _ else _ at hbody
            rw [hstays] at hbody
            exact .plain ⟨hc, hslash, hopen⟩ hline hbody
      | true =>
          by_cases hend : c = ']'
          · subst hend
            exact ⟨[], body, rfl, .nil, hbody⟩
          · have hstays : (if c = '[' then true else if c = ']' then false else true) = true := by
              simp [hend]
            change if (if c = '[' then true else if c = ']' then false else true) = true
              then _ else _ at hbody
            rw [hstays] at hbody
            obtain ⟨inside, tail, rfl, hinside, htail⟩ := hbody
            exact ⟨c :: inside, tail, rfl, .plain ⟨hc, hend⟩ hline hinside, htail⟩

/-- The scanner finds the slash that ends a regular expression, if there is one. -/
theorem regexBody_eq_some_iff {cs : Text} {n : Nat} :
    regexBody false cs = some n ↔
      ∃ body rest, RegexBody body ∧ cs = body ++ '/' :: rest ∧ n = body.length + 1 := by
  constructor
  · intro h
    obtain ⟨body, rest, hcs, hn, hbody⟩ := exists_of_regexBody h
    exact ⟨body, rest, hbody, hcs, hn⟩
  · rintro ⟨body, rest, hbody, rfl, rfl⟩
    exact regexBody_append hbody rest

/-- Only one slash can end a regular expression. -/
theorem eq_of_regexBody {body body' rest rest' : Text} (h : RegexBody body)
    (h' : RegexBody body') (heq : body ++ '/' :: rest = body' ++ '/' :: rest') :
    body = body' ∧ rest = rest' := by
  have hlen := regexBody_append h rest
  rw [heq, regexBody_append h' rest', Option.some.injEq, Nat.add_right_cancel_iff] at hlen
  obtain ⟨hbody, hrest⟩ := List.append_inj heq hlen.symm
  exact ⟨hbody, (List.cons.inj hrest).2⟩

/-- A regular expression with its flags. -/
theorem regex_append {body : Text} (h : RegexBody body) (rest : Text) :
    regex (body ++ '/' :: rest) = some (body ++ '/' :: rest.takeWhile isFlag).length := by
  have hdrop : (body ++ '/' :: rest).drop (body.length + 1) = rest := by
    rw [← List.drop_drop, List.drop_left]
    rfl
  rw [regex, regexBody_append h, Option.map_some, hdrop]
  simp
  omega

/-- What a regular expression ends with, its flags apart, is the first slash that may
end it. -/
theorem exists_of_regex {cs : Text} {n : Nat} (h : regex cs = some n) :
    ∃ body rest, RegexBody body ∧ cs = body ++ '/' :: rest ∧
      n = (body ++ '/' :: rest.takeWhile isFlag).length := by
  obtain ⟨k, hk, -⟩ := Option.map_eq_some_iff.mp h
  obtain ⟨body, rest, hbody, rfl, -⟩ := regexBody_eq_some_iff.mp hk
  rw [regex_append hbody, Option.some.injEq] at h
  exact ⟨body, rest, hbody, rfl, h.symm⟩

end Delimited

/-! ## slashes -/

/-- A comment, or an error that a comment without an end is. -/
def Token.IsComment (t : Token) : Prop :=
  t.kind = .trivia .lineComment ∨ t.kind = .trivia .blockComment ∨
    t.kind = .error ∧ "/*".toList <+: t.text

theorem Punct.at?_slash (cs : Text) :
    at? ('/' :: cs) = some (if cs.head? = some '=' then .slashEq else .slash) := by
  have hslashes : (all.filter fun p => p.spelling.head? = some '/') = [.slash, .slashEq] := rfl
  have hslash : spelling .slash = ['/'] := rfl
  have hslashEq : spelling .slashEq = ['/', '='] := rfl
  rw [at?, filter_all_cons, hslashes]
  cases cs with
  | nil => rfl
  | cons c cs =>
      by_cases hc : c = '='
      · simp [hslash, hslashEq, longer, hc]
      · simp [hslash, hslashEq, longer, hc, Ne.symm hc]

/-- A slash that is punctuation, alone or with an equals sign. -/
theorem Lexed.slash_punct {t : Token} {cs : Text} {after : List Token} (hcs : t.text = '/' :: cs)
    (hscan : Mode.scanPunct ('/' :: (cs ++ Token.concat after)) = (t.kind, t.text.length)) :
    t = ⟨.punct .slash, "/".toList⟩ ∨ t = ⟨.punct .slashEq, "/=".toList⟩ := by
  obtain ⟨kind, text⟩ := t
  obtain rfl := hcs
  rw [Mode.scanPunct, Punct.at?_slash, Prod.mk.injEq] at hscan
  obtain ⟨rfl, hlen⟩ := hscan
  by_cases heq : (cs ++ Token.concat after).head? = some '='
  · rw [if_pos heq] at hlen ⊢
    obtain ⟨c, rfl⟩ := List.length_eq_one_iff.mp (Nat.succ.inj hlen).symm
    obtain rfl : c = '=' := by simpa using heq
    exact Or.inr rfl
  · rw [if_neg heq] at hlen ⊢
    obtain rfl := List.length_eq_zero_iff.mp (Nat.succ.inj hlen).symm
    exact Or.inl rfl

/-- A comment starts with one of two marks. -/
theorem Lexed.isComment {m : Mode} {t : Token} {cs : Text} {after : List Token}
    (hcs : t.text = '/' :: cs)
    (hscan : m.scanSlash ('/' :: (cs ++ Token.concat after)) = (t.kind, t.text.length)) {c : Char}
    (hc : c ∈ (cs ++ Token.concat after).head?) (hmark : (c = '/' || c = '*') = true) :
    t.IsComment := by
  obtain ⟨rest, hrest⟩ := List.head?_eq_some_iff.mp hc
  rw [hrest] at hscan
  obtain rfl | rfl : c = '/' ∨ c = '*' := by simpa using hmark
  · exact Or.inl (congrArg Prod.fst hscan).symm
  · rw [Mode.scanSlash] at hscan
    cases hend : Delimited.comment rest with
    | some n =>
        rw [hend] at hscan
        exact Or.inr (Or.inl (congrArg Prod.fst hscan).symm)
    | none =>
        rw [hend] at hscan
        obtain ⟨hkind, hlen⟩ := Prod.mk.inj hscan
        refine Or.inr (Or.inr ⟨hkind.symm, ?_⟩)
        cases cs with
        | nil =>
            rw [hcs, List.length_singleton] at hlen
            omega
        | cons d ds =>
            obtain ⟨rfl, -⟩ := List.cons.inj hrest
            rw [hcs]
            exact ⟨ds, rfl⟩

/-- What a token that starts with a slash is. -/
theorem Lexed.slash {m : Mode} {first : Bool} {t : Token} {cs : Text} {after : List Token}
    (h : Lexed m first (t :: after)) (hcs : t.text = '/' :: cs) (hcomment : ¬t.IsComment) :
    (∃ body rest, m.regexAllowed = true ∧ RegexBody body ∧
      cs ++ Token.concat after = body ++ '/' :: rest ∧ t.kind = .regex ∧
      cs = body ++ '/' :: rest.takeWhile Delimited.isFlag) ∨
    (m.regexAllowed = true → ∀ body rest, RegexBody body →
      cs ++ Token.concat after ≠ body ++ '/' :: rest) ∧
    (t = ⟨.punct .slash, "/".toList⟩ ∨ t = ⟨.punct .slashEq, "/=".toList⟩) := by
  cases h with
  | cons _ hscan _ =>
      have hblank : Name.isBlank '/' = false := by decide
      rw [hcs, List.cons_append, Mode.scan, hblank, if_neg Bool.false_ne_true, if_pos rfl,
        ← hcs] at hscan
      have hunmarked (c : Char) (hc : c ∈ (cs ++ Token.concat after).head?) :
          (c = '/' || c = '*') = false :=
        Bool.eq_false_iff.mpr fun hmark => hcomment (Lexed.isComment hcs hscan hc hmark)
      rw [Mode.scanSlash_eq m hunmarked] at hscan
      cases hregex :
        if m.regexAllowed then Delimited.regex (cs ++ Token.concat after) else none with
      | none =>
          rw [hregex] at hscan
          refine Or.inr ⟨fun hallowed body rest hbody heq => ?_, Lexed.slash_punct hcs hscan⟩
          rw [if_pos hallowed, heq, Delimited.regex_append hbody] at hregex
          cases hregex
      | some n =>
          rw [hregex] at hscan
          obtain ⟨hkind, hlen⟩ := Prod.mk.inj hscan
          obtain ⟨hallowed, hregex⟩ := Option.ite_none_right_eq_some.mp hregex
          obtain ⟨body, rest, hbody, heq, rfl⟩ := Delimited.exists_of_regex hregex
          refine Or.inl ⟨body, rest, hallowed, hbody, heq, hkind.symm, ?_⟩
          have hfit : body ++ '/' :: rest.takeWhile Delimited.isFlag <+:
              cs ++ Token.concat after := by
            rw [heq, List.prefix_append_right_inj, List.cons_prefix_cons]
            exact ⟨rfl, List.takeWhile_prefix _⟩
          rw [hcs, List.length_cons, Nat.add_comm, Nat.add_right_cancel_iff] at hlen
          exact ((List.prefix_of_prefix_length_le hfit (List.prefix_append _ _)
            (by omega)).eq_of_length hlen).symm

/-- A token that starts with a slash and is no comment is a regular expression exactly
where one may come next and a slash that can end it follows on the line.  It then ends
with that slash and the flags after it; any other is a division sign, alone or with an
equals sign. -/
theorem tokenize_slash (text : Text) (before after : List Token) (t : Token)
    (h : tokenize text = before ++ t :: after) (hslash : t.text.head? = some '/')
    (hcomment : ¬t.IsComment) :
    (t.kind = .regex ↔ RegexPlace (Token.solid before) ∧
      ∃ body rest, RegexBody body ∧ t.text.tail ++ Token.concat after = body ++ '/' :: rest) ∧
    (t.kind = .regex → ∀ body rest, RegexBody body →
      t.text.tail ++ Token.concat after = body ++ '/' :: rest →
        t.text = '/' :: body ++ '/' :: rest.takeWhile Delimited.isFlag) ∧
    (t.kind ≠ .regex → t = ⟨.punct .slash, "/".toList⟩ ∨ t = ⟨.punct .slashEq, "/=".toList⟩) := by
  have hlexed := (lexed_append_iff.mp (h ▸ lexed_tokenize text)).2
  have hplace := (Mode.recalls_initial.foldl_after before).regexAllowed_iff
  rw [List.nil_append] at hplace
  obtain ⟨cs, hcs⟩ := List.head?_eq_some_iff.mp hslash
  rw [← hplace, hcs, List.tail_cons]
  rcases hlexed.slash hcs hcomment with
    ⟨body, rest, hallowed, hbody, heq, hkind, htext⟩ | ⟨hnone, hpunct⟩
  · refine ⟨iff_of_true hkind ⟨hallowed, body, rest, hbody, heq⟩,
      fun _ body' rest' hbody' heq' => ?_, fun hother => absurd hkind hother⟩
    obtain ⟨rfl, rfl⟩ := Delimited.eq_of_regexBody hbody hbody' (heq.symm.trans heq')
    rw [htext, List.cons_append]
  · have hkind : t.kind ≠ .regex := by rcases hpunct with rfl | rfl <;> simp
    refine ⟨iff_of_false hkind ?_, fun hregex => absurd hregex hkind, fun _ => hpunct⟩
    rintro ⟨hallowed, body, rest, hbody, heq⟩
    exact hnone hallowed body rest hbody heq

/-- A regular expression after the head of a loop in which a call stands; a slash in a
class and one that is escaped do not end it. -/
theorem tokenize_slash_after_head :
    let text : Text := "for await (x of f(y)) /[/]\\/=/gi.test(x) / 2".toList
    let before := (tokenize text).take 15
    let t : Token := ⟨.regex, "/[/]\\/=/gi".toList⟩
    tokenize text = before ++ t :: (tokenize text).drop 16 ∧ ¬t.IsComment ∧
      RegexPlace (Token.solid before) ∧
      ∃ body rest, RegexBody body ∧
        t.text.tail ++ Token.concat ((tokenize text).drop 16) = body ++ '/' :: rest ∧
        t.text = '/' :: body ++ '/' :: rest.takeWhile Delimited.isFlag := by
  intro text before t
  have h : tokenize text = before ++ t :: (tokenize text).drop 16 := by decide +kernel
  have hcomment : ¬t.IsComment := by simp [Token.IsComment, t]
  obtain ⟨hiff, hreach, -⟩ :=
    tokenize_slash text before ((tokenize text).drop 16) t h (by decide) hcomment
  obtain ⟨hplace, body, rest, hbody, heq⟩ := hiff.mp rfl
  exact ⟨h, hcomment, hplace, body, rest, hbody, heq, hreach rfl body rest hbody heq⟩

end FreeNames
