import FreeNames.Proofs.Foresight
import FreeNames.Proofs.Trivia

/-!
# FreeNames.Proofs.ReservedProperties

Reserved words as property names.  The lexer does not look at the dot in front of a word: after
`a.if` it takes a slash for the start of a regular expression, and the parentheses of `a.if(b)` for
the head of a statement, after which a slash is one again.  So tokens change when another name takes
the place of the word, exactly where such a slash is met:

* `Unambiguous` — the condition on the tokens after the word;
* `lexed_heads_iff`, `lexed_forAwait_iff`, `lexed_word_iff` — modes that differ in what the word has
  left behind read the same tokens under the condition.

Main statement: `tokenize_reserved_iff`.
-/

namespace FreeNames

/-! ## the condition -/

namespace Token

/-- What comes after the parenthesis that closes the innermost of those open before some tokens,
if `depth` more of them are open. -/
def pastParen : Nat → List Token → List Token
  | _, [] => []
  | depth, t :: ts =>
    match t.kind, depth with
    | .punct .lParen, depth => pastParen (depth + 1) ts
    | .punct .rParen, 0 => ts
    | .punct .rParen, depth + 1 => pastParen depth ts
    | _, depth => pastParen depth ts

section

variable {t : Token} {ts : List Token} {depth : Nat}

theorem pastParen_open (h : t.kind = .punct .lParen) :
    pastParen depth (t :: ts) = pastParen (depth + 1) ts := by
  simp [pastParen, h]

theorem pastParen_close (h : t.kind = .punct .rParen) : pastParen 0 (t :: ts) = ts := by
  simp [pastParen, h]

theorem pastParen_close_inner (h : t.kind = .punct .rParen) :
    pastParen (depth + 1) (t :: ts) = pastParen depth ts := by
  simp [pastParen, h]

theorem pastParen_other (hopen : t.kind ≠ .punct .lParen) (hclose : t.kind ≠ .punct .rParen) :
    pastParen depth (t :: ts) = pastParen depth ts := by
  conv_lhs => unfold pastParen
  split
  · next h => exact absurd h hopen
  · next h => exact absurd h hclose
  · next h => exact absurd h hclose
  · rfl

end

/-- What is inside the parentheses that are taken for the head of a statement, and after them. -/
def pastHead? (k : Keyword) : List Token → Option (List Token)
  | ⟨.punct .lParen, _⟩ :: ts => if Mode.opensHead (.keyword k) then some ts else none
  | ⟨.ident, word⟩ :: ⟨.punct .lParen, _⟩ :: ts =>
    if k = .forKw ∧ word = "await".toList then some ts else none
  | _ => none

/-- No regular expression comes first. -/
def NoRegex (ts : List Token) : Prop := ∀ t ∈ ts.head?, t.kind ≠ .regex

end Token

/-- No regular expression follows a reserved word, nor the parentheses after it if they are taken
for the head of a statement. -/
@[mk_iff]
structure Unambiguous (k : Keyword) (after : List Token) : Prop where
  next : Token.NoRegex (Token.solid after)
  past : ∀ ts ∈ Token.pastHead? k (Token.solid after), Token.NoRegex (Token.pastParen 0 ts)

/-! ## modes that read alike -/

namespace Mode

variable {m m' : Mode} {first : Bool} {cs : Text}

theorem scanSlash_ne_regex (h : m.regexAllowed = false) : (m.scanSlash cs).1 ≠ .regex := by
  unfold scanSlash scanPunct
  simp only [h, Bool.false_eq_true, if_false]
  repeat' split
  all_goals simp

/-- A regular expression is read only where one may stand. -/
theorem scan_ne_regex (h : m.regexAllowed = false) : (m.scan first cs).1 ≠ .regex := by
  cases cs with
  | nil => simp [scan]
  | cons c cs =>
      have hs := m.scan_spec first c cs
      generalize m.scan first (c :: cs) = r at hs ⊢
      cases hs with
      | blank _ => simp
      | slash _ => exact scanSlash_ne_regex h
      | hash _ => rcases scanHash_kind first (c :: cs) with h | h | h <;> simp [h]
      | quoted _ => rcases scanQuoted_kind c cs with h | h <;> simp [h]
      | template _ => rcases Delimited.template_kind cs with h | h | h <;> simp [scanTemplate, h]
      | number _ => simp
      | name _ _ => rcases Name.scan_kind (c :: cs) with h | h | ⟨k, h⟩ <;> simp [h]
      | punct _ => rcases scanPunct_kind (c :: cs) with h | ⟨p, h⟩ <;> simp [h]

theorem scanSlash_of_ne_regex (hk : (m.scanSlash cs).1 ≠ .regex) (h : m'.regexAllowed = false) :
    m'.scanSlash cs = m.scanSlash cs := by
  unfold scanSlash at hk ⊢
  split at hk
  · rfl
  · rfl
  · simp only [h, Bool.false_eq_true, if_false]
    split at hk
    · simp at hk
    · rfl

/-- Only a regular expression is read differently where none may stand. -/
theorem scan_eq_of_braces (hbraces : m'.braces = m.braces)
    (h : m'.regexAllowed = m.regexAllowed ∨
      m'.regexAllowed = false ∧ (m.scan first cs).1 ≠ .regex) :
    m'.scan first cs = m.scan first cs := by
  cases cs with
  | nil => rfl
  | cons c cs =>
      rw [scan] at h ⊢
      rw [scan, hbraces]
      by_cases hc : c = '/'
      · subst hc
        have hblank : Name.isBlank '/' = false := by decide
        simp only [hblank, Bool.false_eq_true, if_false, if_true] at h ⊢
        rcases h with h | ⟨h, hk⟩
        · unfold scanSlash
          rw [h]
        · exact scanSlash_of_ne_regex hk h
      · simp only [hc, if_false]

variable {t : Token}

theorem after_trivia (ht : t.isTrivia = true) : m.after t = m := by
  rw [after, if_pos ht]

theorem after_open (hk : t.kind = .punct .lParen) :
    m.after t = ⟨some t.kind, bracesAfter m.braces t,
      (m.forAwait || m.previous.any opensHead) :: m.heads, false, false⟩ := by
  simp [after, Token.isTrivia, TokenKind.isTrivia, hk]

theorem after_close (hk : t.kind = .punct .rParen) :
    m.after t =
      ⟨some t.kind, bracesAfter m.braces t, m.heads.tail, m.heads.headD false, false⟩ := by
  simp [after, Token.isTrivia, TokenKind.isTrivia, hk]

theorem after_other (ht : t.isTrivia = false) (hopen : t.kind ≠ .punct .lParen)
    (hclose : t.kind ≠ .punct .rParen) :
    m.after t = ⟨some t.kind, bracesAfter m.braces t, m.heads, false,
      t.kind = .ident && t.text = "await".toList && m.previous = some (.keyword .forKw)⟩ := by
  rw [after, if_neg (by simp [ht])]
  congr 1
  · split
    · next h => exact absurd h hopen
    · next h => exact absurd h hclose
    · rfl
  · simp [hclose]

end Mode

section

variable {m m' : Mode} {t : Token} {ts : List Token}

theorem Lexed.tail (h : Lexed m false (t :: ts)) : Lexed (m.after t) false ts := by
  cases h with
  | cons _ _ rest => exact rest

/-- A token that is read alike leaves the question to the tokens after it. -/
theorem lexed_cons_iff (h : Lexed m false (t :: ts)) (hbraces : m'.braces = m.braces)
    (hregex : m'.regexAllowed = m.regexAllowed ∨ m'.regexAllowed = false ∧ t.kind ≠ .regex) :
    Lexed m' false (t :: ts) ↔ Lexed (m'.after t) false ts := by
  cases h with
  | cons hne hscan _ =>
      refine ⟨Lexed.tail, fun hrest => .cons hne ?_ hrest⟩
      rw [Mode.scan_eq_of_braces hbraces (by rwa [hscan]), hscan]

theorem not_lexed_regex (h : m.regexAllowed = false) (hk : t.kind = .regex) :
    ¬Lexed m false (t :: ts) := by
  rintro (_ | ⟨hne, hscan, _⟩)
  have hkind := congrArg Prod.fst hscan
  exact Mode.scan_ne_regex h (hkind.trans hk)

theorem solid_cons (t : Token) (ts : List Token) :
    Token.solid (t :: ts) = if t.isTrivia then Token.solid ts else t :: Token.solid ts := by
  cases h : t.isTrivia <;> simp [Token.solid, h]

end

/-! ## what a reserved word leaves behind -/

section

variable {previous : Option TokenKind} {braces : List Brace} {heads inner : List Bool}
  {afterHead forAwait : Bool} {ts : List Token}

/-- Modes that differ only until the next token that is not trivia, in whether a regular expression
may come, read the same unless one does. -/
theorem lexed_until_solid_iff {m m' : Mode} (h : Lexed m false ts)
    (hbraces : m'.braces = m.braces) (hclosed : m'.regexAllowed = false)
    (hsame : ∀ t, t.isTrivia = false → m'.after t = m.after t) :
    Lexed m' false ts ↔ Token.NoRegex (Token.solid ts) := by
  induction ts with
  | nil => exact ⟨fun _ => by simp [Token.NoRegex, Token.solid], fun _ => .nil _ _⟩
  | cons t ts ih =>
      rw [solid_cons]
      by_cases ht : t.isTrivia = true
      · have hne : t.kind ≠ .regex := fun hk => by
          simp [Token.isTrivia, TokenKind.isTrivia, hk] at ht
        rw [lexed_cons_iff h hbraces (Or.inr ⟨hclosed, hne⟩), Mode.after_trivia ht, if_pos ht]
        have hrest := h.tail
        rw [Mode.after_trivia ht] at hrest
        exact ih hrest
      · rw [if_neg ht]
        by_cases hregex : t.kind = .regex
        · exact iff_of_false (not_lexed_regex hclosed hregex) (by simp [Token.NoRegex, hregex])
        · refine iff_of_true ?_ (by simp [Token.NoRegex, hregex])
          rw [lexed_cons_iff h hbraces (Or.inr ⟨hclosed, hregex⟩),
            hsame t (Bool.eq_false_of_not_eq_true ht)]
          exact h.tail

/-- Parentheses that are taken for the head of a statement matter only after they are closed. -/
theorem lexed_heads_iff
    (h : Lexed ⟨previous, braces, inner ++ true :: heads, afterHead, forAwait⟩ false ts) :
    Lexed ⟨previous, braces, inner ++ false :: heads, afterHead, forAwait⟩ false ts ↔
      Token.NoRegex (Token.pastParen inner.length (Token.solid ts)) := by
  induction ts generalizing previous braces inner afterHead forAwait with
  | nil => exact ⟨fun _ => by simp [Token.NoRegex, Token.solid, Token.pastParen], fun _ => .nil _ _⟩
  | cons t ts ih =>
      refine (lexed_cons_iff h (by rfl) (Or.inl (by rfl))).trans ?_
      have hrest := h.tail
      rw [solid_cons]
      by_cases ht : t.isTrivia = true
      · rw [Mode.after_trivia ht] at hrest ⊢
        rw [if_pos ht]
        exact ih hrest
      rw [if_neg ht]
      by_cases hopen : t.kind = .punct .lParen
      · rw [Mode.after_open hopen] at hrest ⊢
        rw [Token.pastParen_open hopen]
        exact @ih _ _ (_ :: inner) _ _ hrest
      by_cases hclose : t.kind = .punct .rParen
      · rw [Mode.after_close hclose] at hrest ⊢
        cases inner with
        | nil =>
            -- the head is closed here, and what comes next is read in modes that differ
            rw [List.length_nil, Token.pastParen_close hclose]
            refine lexed_until_solid_iff hrest (by rfl) ?_ fun u hu => ?_
            · simp [Mode.regexAllowed, hclose, Mode.endsOperand]
            · simp [Mode.after, hu]
        | cons b inner =>
            rw [List.length_cons, Token.pastParen_close_inner hclose]
            exact ih hrest
      · have hsolid := Bool.eq_false_of_not_eq_true ht
        rw [Mode.after_other hsolid hopen hclose] at hrest ⊢
        rw [Token.pastParen_other hopen hclose]
        exact ih hrest

/-- The same for the innermost parentheses. -/
theorem lexed_head_iff
    (h : Lexed ⟨previous, braces, true :: heads, afterHead, forAwait⟩ false ts) :
    Lexed ⟨previous, braces, false :: heads, afterHead, forAwait⟩ false ts ↔
      Token.NoRegex (Token.pastParen 0 (Token.solid ts)) :=
  @lexed_heads_iff previous braces heads [] afterHead forAwait ts h

/-- After `for await` the next parentheses are the head of a statement. -/
theorem lexed_forAwait_iff (h : Lexed ⟨some .ident, braces, heads, false, true⟩ false ts) :
    Lexed ⟨some .ident, braces, heads, false, false⟩ false ts ↔
      ∀ t us, Token.solid ts = t :: us → t.kind = .punct .lParen →
        Token.NoRegex (Token.pastParen 0 us) := by
  induction ts with
  | nil => exact ⟨fun _ => by simp [Token.solid], fun _ => .nil _ _⟩
  | cons t ts ih =>
      refine (lexed_cons_iff h (by rfl) (Or.inl (by rfl))).trans ?_
      have hrest := h.tail
      rw [solid_cons]
      by_cases ht : t.isTrivia = true
      · rw [Mode.after_trivia ht] at hrest ⊢
        rw [if_pos ht]
        exact ih hrest
      rw [if_neg ht]
      by_cases hopen : t.kind = .punct .lParen
      · rw [Mode.after_open hopen] at hrest ⊢
        refine (lexed_head_iff hrest).trans ?_
        simp [hopen]
      · refine iff_of_true ?_ fun u us heq hu => absurd ((List.cons.inj heq).1 ▸ hu) hopen
        have hsame : (Mode.mk (some .ident) braces heads false false).after t =
            (Mode.mk (some .ident) braces heads false true).after t := by
          by_cases hclose : t.kind = .punct .rParen
          · rw [Mode.after_close hclose, Mode.after_close hclose]
          · have hsolid := Bool.eq_false_of_not_eq_true ht
            rw [Mode.after_other hsolid hopen hclose, Mode.after_other hsolid hopen hclose]
        rw [hsame]
        exact hrest

theorem pastHead?_open {k : Keyword} {t : Token} (h : t.kind = .punct .lParen) (us : List Token) :
    Token.pastHead? k (t :: us) = if Mode.opensHead (.keyword k) then some us else none := by
  obtain ⟨kind, text⟩ := t
  obtain rfl : kind = .punct .lParen := h
  rfl

/-- The word `await` after `for`: the parentheses after it are the head of a statement. -/
def IsForAwait (k : Keyword) (t : Token) : Prop :=
  k = .forKw ∧ t.kind = .ident ∧ t.text = "await".toList

theorem mem_pastHead?_forAwait {k : Keyword} {t : Token} (h : IsForAwait k t) {us vs : List Token} :
    vs ∈ Token.pastHead? k (t :: us) ↔ ∃ u, us = u :: vs ∧ u.kind = .punct .lParen := by
  obtain ⟨kind, text⟩ := t
  obtain ⟨rfl, rfl, rfl⟩ : k = .forKw ∧ kind = .ident ∧ text = "await".toList := h
  rcases us with _ | ⟨⟨kind, text⟩, us⟩
  · simp [Token.pastHead?]
  · by_cases hopen : kind = .punct .lParen
    · simp [Token.pastHead?, hopen]
    · simp [Token.pastHead?, hopen]

theorem pastHead?_other {k : Keyword} {t : Token} (hopen : t.kind ≠ .punct .lParen)
    (hawait : ¬IsForAwait k t) (us : List Token) : Token.pastHead? k (t :: us) = none := by
  unfold Token.pastHead?
  split
  · next heq =>
      obtain ⟨rfl, -⟩ := List.cons.inj heq
      exact absurd rfl hopen
  · next heq =>
      obtain ⟨rfl, -⟩ := List.cons.inj heq
      exact if_neg fun h => hawait ⟨h.1, rfl, h.2⟩
  · rfl

/-- Any other token leaves nothing of the word behind. -/
theorem after_word_eq {k : Keyword} {t : Token} (ht : t.isTrivia = false)
    (hopen : t.kind ≠ .punct .lParen) (hawait : ¬IsForAwait k t) :
    (Mode.mk (some .ident) braces heads false false).after t =
      (Mode.mk (some (.keyword k)) braces heads false false).after t := by
  by_cases hclose : t.kind = .punct .rParen
  · rw [Mode.after_close hclose, Mode.after_close hclose]
  · rw [Mode.after_other ht hopen hclose, Mode.after_other ht hopen hclose]
    congr 1
    rw [Bool.eq_iff_iff]
    simp only [Bool.and_eq_true, decide_eq_true_eq]
    refine iff_of_false (fun h => by cases h.2) fun h => hawait ⟨?_, h.1.1, h.1.2⟩
    simpa using h.2

/-- After a token that is not trivia the tokens are the same if no regular expression comes after
the head that it may start. -/
theorem lexed_after_word_iff {k : Keyword} {t : Token} (ht : t.isTrivia = false)
    (h : Lexed ((Mode.mk (some (.keyword k)) braces heads false false).after t) false ts) :
    Lexed ((Mode.mk (some .ident) braces heads false false).after t) false ts ↔
      ∀ us ∈ Token.pastHead? k (t :: Token.solid ts), Token.NoRegex (Token.pastParen 0 us) := by
  by_cases hopen : t.kind = .punct .lParen
  · rw [Mode.after_open hopen] at h ⊢
    rw [pastHead?_open hopen]
    by_cases hhead : Mode.opensHead (.keyword k) = true
    · simp only [Option.any_some, hhead, Bool.or_true, if_true, Option.mem_some_iff,
        forall_eq'] at h ⊢
      exact lexed_head_iff h
    · rw [Bool.not_eq_true] at hhead
      simp only [Option.any_some, hhead, Bool.or_false] at h
      exact iff_of_true h (by simp [hhead])
  by_cases hawait : IsForAwait k t
  · obtain ⟨rfl, hident, htext⟩ := id hawait
    have hclose : t.kind ≠ .punct .rParen := by simp [hident]
    rw [Mode.after_other ht hopen hclose] at h ⊢
    rw [decide_eq_true hident, decide_eq_true htext, hident] at h ⊢
    refine (lexed_forAwait_iff h).trans ?_
    simp only [mem_pastHead?_forAwait hawait]
    exact ⟨fun hall us ⟨u, hu, hk⟩ => hall u us hu hk,
      fun hall u us hu hk => hall us ⟨u, hu, hk⟩⟩
  · rw [pastHead?_other hopen hawait, after_word_eq ht hopen hawait]
    exact iff_of_true h (by simp)

/-- After a word and after another name the tokens are the same under the condition. -/
theorem lexed_word_iff {k : Keyword}
    (h : Lexed ⟨some (.keyword k), braces, heads, false, false⟩ false ts) :
    Lexed ⟨some .ident, braces, heads, false, false⟩ false ts ↔ Unambiguous k ts := by
  have hclosed : (Mode.mk (some .ident) braces heads false false).regexAllowed = false := rfl
  rw [unambiguous_iff]
  induction ts with
  | nil =>
      have hnone : Token.solid [] = [] := rfl
      exact ⟨fun _ => by simp [hnone, Token.NoRegex, Token.pastHead?], fun _ => .nil _ _⟩
  | cons t ts ih =>
      have hrest := h.tail
      rw [solid_cons]
      by_cases ht : t.isTrivia = true
      · have hne : t.kind ≠ .regex := fun hk => by
          simp [Token.isTrivia, TokenKind.isTrivia, hk] at ht
        refine (lexed_cons_iff h (by rfl) (Or.inr ⟨hclosed, hne⟩)).trans ?_
        rw [Mode.after_trivia ht] at hrest ⊢
        rw [if_pos ht]
        exact ih hrest
      rw [if_neg ht]
      by_cases hregex : t.kind = .regex
      · exact iff_of_false (not_lexed_regex hclosed hregex) fun hu => hu.1 t rfl hregex
      refine (lexed_cons_iff h (by rfl) (Or.inr ⟨hclosed, hregex⟩)).trans ?_
      have hnext : Token.NoRegex (t :: Token.solid ts) := by simpa [Token.NoRegex] using hregex
      rw [lexed_after_word_iff (Bool.eq_false_of_not_eq_true ht) hrest]
      exact ⟨fun hpast => ⟨hnext, hpast⟩, And.right⟩

end

/-! ## the tokens in front of the word -/

namespace Mode

variable {m : Mode} {first : Bool} {x r : Text}

/-- A mark is spelt as it is read. -/
theorem text_eq_of_scan_punct {p : Punct} (hx : x ≠ [])
    (h : m.scan first (x ++ r) = (.punct p, x.length)) : x = p.spelling := by
  have hat {cs : Text} (hs : scanPunct cs = (.punct p, x.length)) (hcs : cs = x ++ r) :
      x = p.spelling := by
    unfold scanPunct at hs
    split at hs
    · next q hq =>
        obtain ⟨hk, hlen⟩ := Prod.mk.inj hs
        obtain rfl : q = p := by simpa using hk
        have hmem := (Punct.foldl_longer hq).resolve_right (by simp)
        have hprefix := List.isPrefixOf_iff_prefix.mp (List.mem_filter.mp hmem).2
        rw [hcs] at hprefix
        have htake := List.prefix_iff_eq_take.mp hprefix
        rw [hlen, List.take_left] at htake
        exact htake.symm
    · simp at hs
  obtain ⟨c, y, rfl⟩ := List.exists_cons_of_ne_nil hx
  have hs := m.scan_spec first c (y ++ r)
  rw [← List.cons_append, h] at hs
  generalize hresult : (TokenKind.punct p, (c :: y).length) = result at hs
  cases hs with
  | blank _ => simp at hresult
  | slash hc =>
      subst hc
      unfold scanSlash at hresult
      split at hresult
      · simp at hresult
      · split at hresult <;> simp at hresult
      · split at hresult
        · simp at hresult
        · exact hat hresult.symm rfl
  | hash _ =>
      have hk := congrArg Prod.fst hresult
      rcases scanHash_kind first (c :: (y ++ r)) with h | h | h <;> simp [h] at hk
  | quoted _ =>
      have hk := congrArg Prod.fst hresult
      rcases scanQuoted_kind c (y ++ r) with h | h <;> simp [h] at hk
  | template _ =>
      have hk := congrArg Prod.fst hresult
      rcases Delimited.template_kind (y ++ r) with h | h | h <;> simp [scanTemplate, h] at hk
  | number _ => simp at hresult
  | name _ _ =>
      have hk := congrArg Prod.fst hresult
      rcases Name.scan_kind (c :: (y ++ r)) with h | h | ⟨k, h⟩ <;> simp [h] at hk
  | punct _ => exact hat hresult.symm rfl

theorem mem_dot_of_scan {k : TokenKind} (hk : k.isDot = true) (hx : x ≠ [])
    (h : m.scan first (x ++ r) = (k, x.length)) : '.' ∈ x := by
  unfold TokenKind.isDot at hk
  split at hk
  · rw [text_eq_of_scan_punct hx h]
    decide
  · rw [text_eq_of_scan_punct hx h]
    decide
  · simp at hk

/-- What begins with a backslash is neither a dot nor trivia. -/
theorem head?_ne_backslash {k : TokenKind} (hk : k.isDot = true ∨ k.isTrivia = true) (hx : x ≠ [])
    (h : m.scan first (x ++ r) = (k, x.length)) : x.head? ≠ some '\\' := by
  obtain ⟨c, y, rfl⟩ := List.exists_cons_of_ne_nil hx
  rintro hc
  obtain rfl : c = '\\' := by simpa using hc
  rw [List.cons_append, scan_of_starts (Or.inr rfl)] at h
  have hkind := congrArg Prod.fst h
  rcases Name.scan_kind ('\\' :: (y ++ r)) with hs | hs | ⟨w, hs⟩
  all_goals
    rw [hs] at hkind
    subst hkind
    simp [TokenKind.isDot, TokenKind.isTrivia] at hk

/-- A reserved word is a whole name. -/
theorem isName_of_scan_keyword {k : Keyword} (hx : x ≠ [])
    (h : m.scan first (x ++ r) = (.keyword k, x.length)) : Name.IsName x ∧ Name.Ends r := by
  obtain ⟨c, y, rfl⟩ := List.exists_cons_of_ne_nil hx
  have hname : m.scan first (c :: (y ++ r)) = Name.scan (c :: (y ++ r)) :=
    scan_eq_of_isIdentifierName (by rw [← List.cons_append, h]; rfl)
  rw [List.cons_append, hname] at h
  obtain ⟨z, s, hsplit, hz, hpart, hscan⟩ := Name.exists_isName_of_scan (by rw [h]; simp)
  rw [h] at hscan
  obtain ⟨hkind, hlen⟩ := Prod.mk.inj hscan
  rw [← List.cons_append] at hsplit
  obtain ⟨rfl, rfl⟩ := List.append_inj hsplit hlen
  refine ⟨hz, fun d hd => ?_⟩
  -- a backslash would lead on, and the word would not be reserved
  have hleads : r.head?.any Name.leadsOn = false := by
    rw [Name.kindOf] at hkind
    split at hkind
    · next hword =>
        by_contra hcon
        simp [hcon] at hword
    · split at hkind <;> simp at hkind
  cases r with
  | nil => simp at hd
  | cons e r =>
      obtain rfl : e = d := by simpa using hd
      constructor
      · by_contra hcon
        simp [Name.part, Bool.eq_true_of_not_eq_false hcon] at hpart
      · rintro rfl
        simp [Name.leadsOn] at hleads

theorem after_keyword {k : Keyword} (hx : Name.IsName x) :
    m.after ⟨.keyword k, x⟩ = ⟨some (.keyword k), m.braces, m.heads, false, false⟩ := by
  obtain ⟨c, y, rfl, hc⟩ := hx.exists_cons
  have hbrace : c ≠ '\x7d' := hc.ne (by decide)
  simp [after, Token.isTrivia, TokenKind.isTrivia, bracesAfter, hbrace]

theorem after_property (hx : Name.IsName x) (hdot : m.previous.any TokenKind.isDot = true) :
    m.after ⟨.ident, x⟩ = ⟨some .ident, m.braces, m.heads, false, false⟩ := by
  obtain ⟨c, y, rfl, hc⟩ := hx.exists_cons
  have hbrace : c ≠ '\x7d' := hc.ne (by decide)
  have hfor : m.previous ≠ some (.keyword .forKw) := fun heq => by
    simp [heq, TokenKind.isDot] at hdot
  simp [after, Token.isTrivia, TokenKind.isTrivia, bracesAfter, hbrace, hfor]

theorem foldl_after_trivia {ts : List Token} (h : ∀ t ∈ ts, t.isTrivia = true) :
    ts.foldl Mode.after m = m := by
  induction ts with
  | nil => rfl
  | cons t ts ih =>
      rw [List.forall_mem_cons] at h
      rw [List.foldl_cons, after_trivia h.1, ih h.2]

end Mode

/-- Dots and trivia are read alike in front of two names. -/
theorem Reads.before_name {word name r : Text} (hword : Name.IsName word) (hname : Name.IsName name)
    {m : Mode} {first : Bool} {ts : List Token}
    (hts : ∀ t ∈ ts, t.kind.isDot = true ∨ t.kind.isTrivia = true)
    (h : Reads (word ++ r) m first ts) : Reads (name ++ r) m first ts := by
  have hswap : Swapped (word ++ r) (name ++ r) :=
    .swap hword hname (by simpa using Swapped.nil.append_left r)
  induction ts generalizing m first with
  | nil => exact trivial
  | cons t ts ih =>
      obtain ⟨hne, hscan, hrest⟩ := h
      rw [List.forall_mem_cons] at hts
      refine ⟨hne, ?_, ih hts.2 hrest⟩
      refine Mode.scan_swapped (hswap.append_left (Token.concat ts)) hne hscan ?_ ?_ ?_
      · rintro hk
        simp [hk, TokenKind.isDot, TokenKind.isTrivia] at hts
      · intro hk
        rcases hts.1 with h | h
        · cases hkind : t.kind <;> simp [hkind, TokenKind.isDot, TokenKind.absorbs] at h hk
        · cases hkind : t.kind <;> simp [hkind, TokenKind.isTrivia, TokenKind.absorbs] at h hk
      · intro hback
        cases ts with
        | nil =>
            obtain ⟨c, cs, rfl, -⟩ := hword.exists_cons
            obtain rfl : c = '\\' := by simpa [Token.concat] using hback
            exact Name.escape_ne_zero_of_parts hword.parts r
        | cons u us =>
            obtain ⟨hne', hscan', -⟩ := hrest
            have hhead := Mode.head?_ne_backslash (hts.2 u List.mem_cons_self) hne' hscan'
            obtain ⟨c, cs, hcons⟩ := List.exists_cons_of_ne_nil hne'
            simp [Token.concat_cons, hcons] at hback hhead
            exact absurd hback hhead

/-- Another name in the place of a word leaves the tokens before it as they are if the last of them
that is not trivia is a dot. -/
theorem lexed_word_property_iff {m : Mode} {first : Bool} {front gap after : List Token}
    {dot : Token} {k : Keyword} {word name : Text} (hname : IsIdentifier name)
    (hdot : dot.kind.isDot = true) (hgap : ∀ t ∈ gap, t.isTrivia = true)
    (h : Lexed m first (front ++ (dot :: gap ++ ⟨.keyword k, word⟩ :: after))) :
    Lexed m first (front ++ (dot :: gap ++ ⟨.ident, name⟩ :: after)) ↔ Unambiguous k after := by
  obtain ⟨hfront, hlexed⟩ := lexed_append_iff.mp h
  obtain ⟨hdots, hlexed⟩ := lexed_append_iff.mp hlexed
  have hprevious : ((dot :: gap).foldl Mode.after (front.foldl Mode.after m)).previous.any
      TokenKind.isDot = true := by
    have hsolid : dot.isTrivia = false := by
      unfold TokenKind.isDot at hdot
      split at hdot <;> simp_all [Token.isTrivia, TokenKind.isTrivia]
    rw [List.foldl_cons, Mode.foldl_after_trivia hgap, Mode.previous_after, Token.seen,
      if_neg (by simp [hsolid]), Option.any_some, hdot]
  rw [lexed_append_iff, lexed_append_iff]
  generalize (dot :: gap).foldl Mode.after (front.foldl Mode.after m) = n at hlexed hprevious ⊢
  obtain - | ⟨hne, hscan, hafter⟩ := hlexed
  obtain ⟨hword, hends⟩ := Mode.isName_of_scan_keyword hne hscan
  rw [Mode.after_keyword hword] at hafter
  rw [← lexed_word_iff hafter]
  have hswap : Swapped (word ++ Token.concat after) (name ++ Token.concat after) :=
    .swap hword hname.isName (by simpa using Swapped.nil.append_left (Token.concat after))
  constructor
  · rintro ⟨-, -, - | ⟨-, -, hafter'⟩⟩
    rwa [Mode.after_property hname.isName hprevious] at hafter'
  · intro hafter'
    refine ⟨?_, ?_, .cons hname.isName.ne_nil (scan_identifier hname hends) ?_⟩
    · obtain ⟨hne', hscan', -⟩ := hdots
      obtain ⟨u, v, huv⟩ := List.append_of_mem (Mode.mem_dot_of_scan hdot hne' hscan')
      have hread := Reads.before_dot (u := u) ((hswap.append_left (Token.concat gap)).append_left v)
        (by simpa [Token.concat_append, Token.concat_cons, huv] using hfront)
      simpa [Token.concat_append, Token.concat_cons, huv] using hread
    · refine Reads.before_name hword hname.isName ?_ hdots
      intro t ht
      rcases List.mem_cons.mp ht with rfl | ht
      · exact .inl hdot
      · exact .inr (hgap t ht)
    · rwa [Mode.after_property hname.isName hprevious]

/-- Another name in the place of a reserved word after a dot leaves the tokens around it as they are
exactly if no slash after the word is taken for the start of a regular expression because of it. -/
theorem tokenize_reserved_iff {text name word : Text} {front gap after : List Token} {dot : Token}
    {k : Keyword} (htext : tokenize text = front ++ dot :: (gap ++ ⟨.keyword k, word⟩ :: after))
    (hdot : dot.kind.isDot = true) (hgap : ∀ t ∈ gap, t.isTrivia = true)
    (hname : tokenize name = [⟨.ident, name⟩]) :
    tokenize (Token.concat (front ++ dot :: gap) ++ (name ++ Token.concat after)) =
        front ++ dot :: (gap ++ ⟨.ident, name⟩ :: after) ↔
      Unambiguous k after := by
  have hspelt : Token.concat (front ++ dot :: gap) ++ (name ++ Token.concat after) =
      Token.concat (front ++ (dot :: gap ++ ⟨.ident, name⟩ :: after)) := by
    simp [Token.concat_append, Token.concat_cons]
  have hlexed := lexed_tokenize text
  rw [htext] at hlexed
  rw [hspelt]
  exact tokenize_eq_iff_lexed.trans
    (lexed_word_property_iff (isIdentifier_of_tokenize hname) hdot hgap hlexed)

/-- In `a.if(x) + b / c` the slash is a division, and `f` may stand for the word. -/
theorem tokenize_reserved_iff_division :
    tokenize "a.if(x) + b / c".toList =
        [⟨.ident, "a".toList⟩] ++ ⟨.punct .dot, ".".toList⟩ ::
          ([] ++ ⟨.keyword .ifKw, "if".toList⟩ :: tokenize "(x) + b / c".toList) ∧
      (tokenize "a.f(x) + b / c".toList =
          [⟨.ident, "a".toList⟩] ++ ⟨.punct .dot, ".".toList⟩ ::
            ([] ++ ⟨.ident, "f".toList⟩ :: tokenize "(x) + b / c".toList) ↔
        Unambiguous .ifKw (tokenize "(x) + b / c".toList)) := by
  have hrun : tokenize "a.if(x) + b / c".toList =
        [⟨.ident, "a".toList⟩] ++ ⟨.punct .dot, ".".toList⟩ ::
          ([] ++ ⟨.keyword .ifKw, "if".toList⟩ :: tokenize "(x) + b / c".toList) ∧
      tokenize "f".toList = [⟨.ident, "f".toList⟩] := by
    decide
  obtain ⟨htext, hname⟩ := hrun
  refine ⟨htext, ?_⟩
  have h := tokenize_reserved_iff htext rfl (by simp) hname
  rwa [concat_tokenize] at h

/-- In `a.if(x) /b/ c` the slashes are read as a regular expression, and in `a.f(x) /b/ c` as
divisions. -/
theorem tokenize_reserved_regex :
    tokenize "a.if(x) /b/ c".toList =
        [⟨.ident, "a".toList⟩] ++ ⟨.punct .dot, ".".toList⟩ :: ([] ++
          ⟨.keyword .ifKw, "if".toList⟩ ::
            [⟨.punct .lParen, "(".toList⟩, ⟨.ident, "x".toList⟩, ⟨.punct .rParen, ")".toList⟩,
              ⟨.trivia .whitespace, " ".toList⟩, ⟨.regex, "/b/".toList⟩,
              ⟨.trivia .whitespace, " ".toList⟩, ⟨.ident, "c".toList⟩]) ∧
      tokenize "a.f(x) /b/ c".toList =
        [⟨.ident, "a".toList⟩, ⟨.punct .dot, ".".toList⟩, ⟨.ident, "f".toList⟩,
          ⟨.punct .lParen, "(".toList⟩, ⟨.ident, "x".toList⟩, ⟨.punct .rParen, ")".toList⟩,
          ⟨.trivia .whitespace, " ".toList⟩, ⟨.punct .slash, "/".toList⟩, ⟨.ident, "b".toList⟩,
          ⟨.punct .slash, "/".toList⟩, ⟨.trivia .whitespace, " ".toList⟩,
          ⟨.ident, "c".toList⟩] := by
  decide

end FreeNames
