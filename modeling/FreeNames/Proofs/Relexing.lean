import FreeNames.Proofs.Rescanning
import Mathlib.Data.List.Chain

/-!
# FreeNames.Proofs.Relexing

Putting identifiers in place of others in the text keeps all other tokens.
`Lexed` says that each of some tokens is read from the text that it and the later
ones spell; the tokens of a text are `Lexed`, and `Lexed` tokens are those of
their text (`tokenize_eq_iff_lexed`).  `Lexed.respelt` is then proved token by
token.
-/

namespace FreeNames

/-! ## tokens lie within the text -/

theorem Punct.foldl_longer {ps : List Punct} {acc : Option Punct} {p : Punct}
    (h : ps.foldl longer acc = some p) : p ∈ ps ∨ acc = some p := by
  induction ps generalizing acc with
  | nil => exact Or.inr h
  | cons q ps ih =>
      rcases ih h with hmem | hacc
      · exact Or.inl (List.mem_cons_of_mem q hmem)
      · cases acc with
        | none =>
            obtain rfl : q = p := by simpa [longer] using hacc
            exact Or.inl List.mem_cons_self
        | some o =>
            simp only [longer] at hacc
            split at hacc
            · obtain rfl : q = p := by simpa using hacc
              exact Or.inl List.mem_cons_self
            · exact Or.inr hacc

/-- Only punctuation that begins with the first character can be at the start of a text. -/
theorem Punct.filter_all_cons (c : Char) (cs : Text) :
    (all.filter fun p => p.spelling.isPrefixOf (c :: cs)) =
      (all.filter fun p => p.spelling.head? = some c).filter fun p =>
        p.spelling.isPrefixOf (c :: cs) := by
  rw [List.filter_filter]
  refine List.filter_congr fun p _ => ?_
  cases hp : p.spelling with
  | nil => exact absurd hp p.spelling_ne_nil
  | cons d ds => by_cases hd : d = c <;> simp [List.isPrefixOf, hd]

theorem Punct.length_le_of_at? {cs : Text} {p : Punct} (h : Punct.at? cs = some p) :
    p.spelling.length ≤ cs.length := by
  rcases Punct.foldl_longer h with hmem | hnone
  · have hprefix := (List.mem_filter.mp hmem).2
    exact (List.isPrefixOf_iff_prefix.mp hprefix).length_le
  · simp at hnone

theorem length_takeWhile_le (p : Char → Bool) (cs : Text) : (cs.takeWhile p).length ≤ cs.length :=
  (List.takeWhile_prefix p).length_le

namespace Delimited

theorem regex_le {cs : Text} {n : Nat} (h : regex cs = some n) : n ≤ cs.length := by
  obtain ⟨k, hk, rfl⟩ := Option.map_eq_some_iff.mp h
  have hbody := (closes_regexBody hk).le
  have hflags := length_takeWhile_le isFlag (cs.drop k)
  rw [List.length_drop] at hflags
  omega

/-- A string that is not closed lies within the text too. -/
theorem quoted_le (quote : Char) (cs : Text) : (quoted quote cs).length ≤ cs.length := by
  fun_induction quoted quote cs with
  | case1 | case2 => exact Nat.le_refl _
  | case3 cs ih =>
      simp only [Reach.after, List.length_cons]
      omega
  | case4 => simp
  | case5 cs _ r hr ih =>
      simp only [Reach.after, r, List.length_cons]
      omega
  | case6 c cs _ _ ih =>
      simp only [Reach.after, List.length_cons]
      omega
  | case7 | case8 => simp
  | case9 c cs _ _ _ _ _ _ ih =>
      simp only [Reach.after, List.length_cons]
      omega

theorem template_le (cs : Text) : (template cs).2 ≤ cs.length := by
  fun_induction template cs with
  | case1 => exact Nat.le_refl _
  | case2 c cs kind n hn ih =>
      rw [hn] at ih
      simp only [List.length_cons]
      omega
  | case3 | case4 => simp
  | case5 c cs _ _ _ kind n hn ih =>
      rw [hn] at ih
      simp only [List.length_cons]
      omega

end Delimited

namespace Name

theorem length_le (cs : Text) : length cs ≤ cs.length := by
  by_cases h : length cs = 0
  · omega
  · obtain ⟨x, r, rfl, hx, hr⟩ := exists_isName h
    rw [length_append hx hr, List.length_append]
    omega

theorem unclosedEscape_le (cs : Text) : unclosedEscape cs ≤ cs.length := by
  unfold unclosedEscape
  split
  · next cs =>
      have hrun : hexRun cs ≤ cs.length := length_takeWhile_le Number.isHexDigit cs
      have hlength (b : Bool) : (if b then 3 + hexRun cs else 0) ≤ cs.length + 3 := by
        split <;> omega
      exact hlength _
  · exact Nat.zero_le _

/-- A name with an escape that is not closed lies within the text. -/
theorem length_add_unclosedEscape_le (cs : Text) :
    length cs + unclosedEscape (cs.drop (length cs)) ≤ cs.length := by
  have hname := length_le cs
  have hescape := unclosedEscape_le (cs.drop (length cs))
  rw [List.length_drop] at hescape
  omega

theorem scan_le (c : Char) (cs : Text) : (scan (c :: cs)).2 ≤ (c :: cs).length := by
  have hle := length_add_unclosedEscape_le (c :: cs)
  rw [scan_eq]
  split
  · exact hle
  · split
    · simp
    · exact length_le (c :: cs)

theorem scanPrivate_le (cs : Text) : (scanPrivate ('#' :: cs)).2 ≤ ('#' :: cs).length := by
  have hname := length_le cs
  have hle := length_add_unclosedEscape_le cs
  rw [scanPrivate_eq]
  split
  · simp only [List.tail_cons, List.length_cons]
    omega
  · split <;> simp only [List.tail_cons, List.length_cons] <;> omega

end Name

namespace Mode

theorem scanPunct_le (c : Char) (cs : Text) : (scanPunct (c :: cs)).2 ≤ (c :: cs).length := by
  unfold scanPunct
  split
  · next p hp => exact Punct.length_le_of_at? hp
  · simp

theorem scanSlash_le (m : Mode) (cs : Text) :
    (m.scanSlash ('/' :: cs)).2 ≤ ('/' :: cs).length := by
  unfold scanSlash
  split
  · next ds heq =>
      have hlen := length_takeWhile_le (fun c => !isLineTerminator c) ds
      simp only [heq, List.length_cons]
      omega
  · next ds heq =>
      simp only [heq, List.length_cons]
      split
      · next n hn =>
          have hle := (Delimited.closes_comment hn).le
          simp only []
          omega
      · simp only []
        omega
  · split
    · next n hn =>
        split at hn
        · have hle := Delimited.regex_le hn
          simp only [List.tail_cons] at hle
          simp only [List.length_cons]
          omega
        · simp at hn
    · exact scanPunct_le _ _

theorem scanHash_le (first : Bool) (cs : Text) :
    (scanHash first ('#' :: cs)).2 ≤ ('#' :: cs).length := by
  unfold scanHash
  split
  · next ds heq =>
      have hlen := length_takeWhile_le (fun c => c ≠ '\n' && c ≠ '\r') ds
      simp only [heq, List.length_cons]
      omega
  · exact Name.scanPrivate_le cs

/-- A token does not reach past the end of the text. -/
theorem scan_le (m : Mode) (first : Bool) (c : Char) (cs : Text) :
    (m.scan first (c :: cs)).2 ≤ (c :: cs).length := by
  have hs := m.scan_spec first c cs
  generalize m.scan first (c :: cs) = r at hs ⊢
  cases hs with
  | blank _ =>
      have hlen := length_takeWhile_le Name.isBlank cs
      simp only [List.length_cons]
      omega
  | slash hc =>
      subst hc
      exact m.scanSlash_le cs
  | hash hc =>
      subst hc
      exact scanHash_le first cs
  | quoted _ =>
      have hle := Delimited.quoted_le c cs
      simp only [scanQuoted, List.length_cons]
      omega
  | template _ =>
      have hle := Delimited.template_le cs
      simp only [scanTemplate, List.length_cons]
      omega
  | number _ => exact Number.length_le _
  | name _ _ => exact Name.scan_le c cs
  | punct _ => exact scanPunct_le c cs

end Mode

/-! ## tokens and the text they are read from -/

/-- Tokens each of which is read from the text that it and the later ones spell. -/
inductive Lexed : Mode → Bool → List Token → Prop
  | nil (m : Mode) (first : Bool) : Lexed m first []
  | cons {m : Mode} {first : Bool} {t : Token} {ts : List Token} (hne : t.text ≠ [])
    (hscan : m.scan first (t.text ++ Token.concat ts) = (t.kind, t.text.length))
    (rest : Lexed (m.after t) false ts) : Lexed m first (t :: ts)

theorem tokensFrom_cons {bound n : Nat} {m : Mode} {first : Bool} {c : Char} {cs : Text}
    {k : TokenKind} (h : m.scan first (c :: cs) = (k, n)) :
    tokensFrom (bound + 1) m first (c :: cs) =
      ⟨k, (c :: cs).take n⟩ ::
        tokensFrom bound (m.after ⟨k, (c :: cs).take n⟩) false ((c :: cs).drop n) := by
  rw [tokensFrom, h]

theorem lexed_tokensFrom {bound : Nat} {m : Mode} {first : Bool} {text : Text}
    (hbound : text.length ≤ bound) : Lexed m first (tokensFrom bound m first text) := by
  induction bound generalizing m first text with
  | zero => exact .nil m first
  | succ bound ih =>
      cases text with
      | nil => exact .nil m first
      | cons c cs =>
          have hpos := m.scan_pos first c cs
          have hle := m.scan_le first c cs
          obtain ⟨k, n, hscan⟩ : ∃ k n, m.scan first (c :: cs) = (k, n) := ⟨_, _, rfl⟩
          rw [tokensFrom_cons hscan]
          rw [hscan] at hpos hle
          have hlen : ((c :: cs).take n).length = n := by
            rw [List.length_take, Nat.min_eq_left hle]
          have hrest : ((c :: cs).drop n).length ≤ bound := by
            rw [List.length_drop]
            omega
          refine .cons ?_ ?_ (ih hrest)
          · rw [← List.length_pos_iff, hlen]
            exact hpos
          · rw [concat_tokensFrom hrest, List.take_append_drop, hscan, hlen]

theorem Lexed.tokensFrom_eq {m : Mode} {first : Bool} {ts : List Token} (h : Lexed m first ts)
    {bound : Nat} (hbound : (Token.concat ts).length ≤ bound) :
    tokensFrom bound m first (Token.concat ts) = ts := by
  induction h generalizing bound with
  | nil m first => cases bound <;> rfl
  | @cons m first t ts hne hscan _ ih =>
      have hpos := List.length_pos_iff.mpr hne
      rw [Token.concat_cons, List.length_append] at hbound
      cases bound with
      | zero => omega
      | succ bound =>
          obtain ⟨c, cs, hcons⟩ : ∃ c cs, Token.concat (t :: ts) = c :: cs :=
            List.exists_cons_of_ne_nil (by simp [Token.concat_cons, hne])
          have htake : (c :: cs).take t.text.length = t.text := by
            rw [← hcons, Token.concat_cons, List.take_left]
          have hdrop : (c :: cs).drop t.text.length = Token.concat ts := by
            rw [← hcons, Token.concat_cons, List.drop_left]
          rw [← Token.concat_cons, hcons] at hscan
          rw [hcons, tokensFrom_cons hscan, htake, hdrop, ih (by omega)]

theorem lexed_tokenize (text : Text) : Lexed .initial true (tokenize text) :=
  lexed_tokensFrom (Nat.le_refl _)

/-- Tokens are those of a text exactly when each is read from what it and the
later ones spell. -/
theorem tokenize_eq_iff_lexed {ts : List Token} :
    tokenize (Token.concat ts) = ts ↔ Lexed .initial true ts := by
  constructor
  · intro heq
    rw [← heq]
    exact lexed_tokenize _
  · intro hlexed
    exact hlexed.tokensFrom_eq (Nat.le_refl _)

/-! ## identifiers in place of others -/

/-- An identifier stands directly after a token that could absorb it. -/
def Token.Joinable (s t : Token) : Prop :=
  s.kind.absorbs = true ∧ t.kind = .ident ∧ t.text ∉ contextualWords

/-- A text that is read as an identifier wherever it stands as a whole name. -/
structure IsIdentifier (b : Text) : Prop where
  isName : Name.IsName b
  allowed : Name.isAllowed b = true
  unreserved : Keyword.ofText? b = none

theorem IsIdentifier.kindOf {b : Text} (h : IsIdentifier b) (r : Text) :
    Name.kindOf b r = .ident := by
  have hnone : (if r.head?.any Name.leadsOn then none else Keyword.ofText? b) = none := by
    rw [h.unreserved, ite_self]
  rw [Name.kindOf, hnone]
  simp only [h.allowed, if_true]

/-- An identifier is read as a name that ends where it ends. -/
theorem isName_of_scan {m : Mode} {first : Bool} {a r : Text} (hne : a ≠ [])
    (h : m.scan first (a ++ r) = (.ident, a.length)) :
    Name.IsName a ∧ Name.part r = 0 ∧ Name.kindOf a r = .ident := by
  obtain ⟨c, cs, rfl⟩ := List.exists_cons_of_ne_nil hne
  have hname : m.scan first (c :: (cs ++ r)) = Name.scan (c :: (cs ++ r)) :=
    Mode.scan_eq_of_isIdentifierName (by rw [← List.cons_append, h]; rfl)
  rw [List.cons_append, hname] at h
  obtain ⟨x, s, hsplit, hx, hpart, hscan⟩ := Name.exists_isName_of_scan (by rw [h]; simp)
  rw [h] at hscan
  obtain ⟨hkind, hlen⟩ := Prod.mk.inj hscan
  rw [← List.cons_append] at hsplit
  obtain ⟨rfl, rfl⟩ := List.append_inj hsplit hlen
  exact ⟨hx, hpart, hkind.symm⟩

theorem isName_of_mem_tokenize {text a : Text} (h : ⟨.ident, a⟩ ∈ tokenize text) :
    Name.IsName a := by
  have hne : a ≠ [] := text_ne_nil_of_mem_tokenize h
  obtain ⟨m, first, c, cs, heq⟩ := exists_scan_of_mem_tokensFrom h
  obtain ⟨hkind, htake⟩ := Token.mk.inj heq
  have hle := m.scan_le first c cs
  have hlength : a.length = (m.scan first (c :: cs)).2 := by
    rw [htake, List.length_take]
    omega
  have hsplit : a ++ (c :: cs).drop a.length = c :: cs := by
    rw [hlength]
    generalize (m.scan first (c :: cs)).2 = n at htake
    rw [htake, List.take_append_drop]
  have hscan : m.scan first (a ++ (c :: cs).drop a.length) = (.ident, a.length) := by
    rw [hsplit]
    exact Prod.ext hkind.symm hlength.symm
  exact (isName_of_scan hne hscan).1

theorem isIdentifier_of_tokenize {b : Text} (h : tokenize b = [⟨.ident, b⟩]) : IsIdentifier b := by
  have hlexed : Lexed .initial true [⟨.ident, b⟩] := by
    rw [← tokenize_eq_iff_lexed]
    simpa [Token.concat] using h
  cases hlexed with
  | cons hne hscan _ =>
      obtain ⟨hname, -, hkind⟩ := isName_of_scan hne hscan
      simp only [Name.kindOf, Token.concat, List.flatMap_nil, List.head?_nil, Option.any_none,
        Bool.false_eq_true, if_false] at hkind
      split at hkind
      · simp at hkind
      · next hnone =>
          split at hkind
          · next hallowed => exact ⟨hname, hallowed, hnone⟩
          · simp at hkind

/-- What begins like a name is read as one in any mode. -/
theorem Mode.scan_of_starts {m : Mode} {first : Bool} {c : Char} (hc : Name.Starts c) (cs : Text) :
    m.scan first (c :: cs) = Name.scan (c :: cs) := by
  have hnumber : Number.length (c :: cs) = 0 := by
    rw [Number.length_eq_zero_iff]
    exact ⟨hc.not_digit, fun hdot => absurd hdot (hc.ne (by decide))⟩
  have hslash : c ≠ '/' := hc.ne (by decide)
  have hhash : c ≠ '#' := hc.ne (by decide)
  have hdouble : c ≠ '\x22' := hc.ne (by decide)
  have hsingle : c ≠ '\x27' := hc.ne (by decide)
  have htick : c ≠ '\x60' := hc.ne (by decide)
  have hbrace : c ≠ '\x7d' := hc.ne (by decide)
  rw [Mode.scan, if_neg (by simp [hc.not_blank]), if_neg hslash, if_neg hhash,
    if_neg (by simp [hdouble, hsingle]), if_neg (by simp [htick, hbrace]), hnumber]
  simp only []
  rw [if_pos (by simpa [Name.Starts] using hc)]

theorem scan_identifier {m : Mode} {first : Bool} {b r : Text} (hb : IsIdentifier b)
    (hr : Name.Ends r) : m.scan first (b ++ r) = (.ident, b.length) := by
  have hscan := Name.scan_append hb.isName hr
  rw [hb.kindOf] at hscan
  obtain ⟨c, cs, rfl, hc⟩ := hb.isName.exists_cons
  rw [List.cons_append] at hscan ⊢
  rw [Mode.scan_of_starts hc, hscan]

/-- Identifiers in place of others, in some places after a token.  Words that mean
something of their own are as good as any after a dot, if `dots` says so. -/
inductive Respelt (dots : Bool) : Option TokenKind → List Token → List Token → Prop
  | nil (last : Option TokenKind) : Respelt dots last [] []
  | keep {last : Option TokenKind} (t : Token) {ts us : List Token}
    (rest : Respelt dots (t.seen last) ts us) : Respelt dots last (t :: ts) (t :: us)
  | respell {last : Option TokenKind} {a b : Text} {ts us : List Token} (old : Name.IsName a)
    (new : IsIdentifier b)
    (free : dots = true ∧ last.any TokenKind.isDot = true ∨
      a ∉ contextualWords ∧ b ∉ contextualWords)
    (rest : Respelt dots (some .ident) ts us) :
    Respelt dots last (⟨.ident, a⟩ :: ts) (⟨.ident, b⟩ :: us)

theorem Respelt.swapped {dots : Bool} {last : Option TokenKind} {ts us : List Token}
    (h : Respelt dots last ts us) : Swapped (Token.concat ts) (Token.concat us) := by
  induction h with
  | nil => exact .nil
  | keep t _ ih => exact ih.append_left t.text
  | respell old new _ _ ih => exact .swap old new.isName ih

theorem Respelt.kinds_eq {dots : Bool} {last : Option TokenKind} {ts us : List Token}
    (h : Respelt dots last ts us) : ts.map Token.kind = us.map Token.kind := by
  induction h with
  | nil => rfl
  | keep t _ ih => rw [List.map_cons, List.map_cons, ih]
  | respell _ _ _ _ ih => rw [List.map_cons, List.map_cons, ih]

theorem Mode.previous_after (m : Mode) (t : Token) :
    (m.after t).previous = t.seen m.previous := by
  unfold after Token.seen
  split <;> rfl

/-- Only the word `await` after `for` changes how the text after an identifier is
read. -/
theorem Mode.after_ident {a b : Text} (ha : Name.IsName a) (hb : Name.IsName b) {m : Mode}
    (hfree : m.previous.any TokenKind.isDot = true ∨ a ∉ contextualWords ∧ b ∉ contextualWords) :
    m.after ⟨.ident, b⟩ = m.after ⟨.ident, a⟩ := by
  have hbraces {x : Text} (hx : Name.IsName x) : bracesAfter m.braces ⟨.ident, x⟩ = m.braces := by
    obtain ⟨c, cs, rfl, hc⟩ := hx.exists_cons
    have hbrace : c ≠ '\x7d' := hc.ne (by decide)
    simp [bracesAfter, hbrace]
  have hawait : "await".toList ∈ contextualWords := by decide
  have hfor : (decide (b = "await".toList) && decide (m.previous = some (.keyword .forKw))) =
      (decide (a = "await".toList) && decide (m.previous = some (.keyword .forKw))) := by
    rcases hfree with hdot | ⟨ha', hb'⟩
    · have hprevious : m.previous ≠ some (.keyword .forKw) := fun heq => by
        simp [heq, TokenKind.isDot] at hdot
      simp [hprevious]
    · have hawait_a : a ≠ "await".toList := fun heq => ha' (heq ▸ hawait)
      have hawait_b : b ≠ "await".toList := fun heq => hb' (heq ▸ hawait)
      rw [decide_eq_false hawait_a, decide_eq_false hawait_b]
  simp only [Mode.after, Token.isTrivia, TokenKind.isTrivia, hbraces ha, hbraces hb,
    decide_true, Bool.true_and, hfor]

theorem Keyword.ofText?_of_lowLine {x : Text} (h : x.head? = some '_') : ofText? x = none := by
  cases hk : ofText? x with
  | none => rfl
  | some k =>
      rw [← spelling_of_ofText? hk] at h
      cases k <;> exact absurd h (by decide)

/-- A token that starts with a low line is an identifier. -/
theorem Lexed.ident_of_lowLine {m : Mode} {first : Bool} {t : Token} {ts : List Token}
    (h : Lexed m first (t :: ts)) (ht : t.kind ≠ .error) (hlow : t.text.head? = some '_') :
    t.kind = .ident := by
  cases h with
  | cons hne hscan _ =>
      obtain ⟨c, cs, hcons⟩ := List.exists_cons_of_ne_nil hne
      obtain rfl : c = '_' := by simpa [hcons] using hlow
      rw [hcons, List.cons_append, Mode.scan_of_starts (Or.inl (by decide))] at hscan
      have hkind : (Name.scan ('_' :: (cs ++ Token.concat ts))).1 ≠ .error := by
        rw [hscan]
        exact ht
      obtain ⟨x, r, hsplit, hx, -, hread⟩ := Name.exists_isName_of_scan hkind
      rw [hread] at hscan hkind
      obtain ⟨d, x, rfl, -⟩ := hx.exists_cons
      obtain ⟨rfl, -⟩ := List.cons.inj hsplit
      rw [← (Prod.mk.inj hscan).1]
      rw [Name.kindOf, Keyword.ofText?_of_lowLine rfl, ite_self] at hkind ⊢
      simp only [] at hkind ⊢
      split at hkind
      · next hallowed => rw [if_pos hallowed]
      · simp at hkind

/-- A backslash at the start of a token that is no error begins an escape. -/
theorem Lexed.escape_ne_zero {m : Mode} {first : Bool} {ts : List Token} (h : Lexed m first ts)
    (ht : ∀ t ∈ ts, t.kind ≠ .error) (hback : (Token.concat ts).head? = some '\\') :
    Name.escape (Token.concat ts) ≠ 0 := by
  cases h with
  | nil => simp [Token.concat] at hback
  | @cons m first t ts hne hscan _ =>
      rw [Token.concat_cons] at hback ⊢
      obtain ⟨c, cs, hcons⟩ := List.exists_cons_of_ne_nil hne
      obtain rfl : c = '\\' := by simpa [hcons] using hback
      rw [hcons, List.cons_append] at hscan ⊢
      rw [Mode.scan_of_starts (Or.inr rfl)] at hscan
      have hkind : (Name.scan ('\\' :: (cs ++ Token.concat ts))).1 ≠ .error := by
        rw [hscan]
        exact ht t List.mem_cons_self
      obtain ⟨x, r, hsplit, hx, -, -⟩ := Name.exists_isName_of_scan hkind
      obtain ⟨d, x, rfl, -⟩ := hx.exists_cons
      obtain ⟨rfl, -⟩ := List.cons.inj hsplit
      rw [hsplit]
      exact Name.escape_ne_zero_of_parts hx.parts r

theorem not_contextual_of_lowLine {x : Text} (h : x.head? = some '_') : x ∉ contextualWords := by
  have hall : ∀ w ∈ contextualWords, w.head? ≠ some '_' := by decide
  exact fun hmem => hall x hmem h

/-- After a token that could absorb it no identifier changes. -/
theorem Lexed.head?_respelt {dots : Bool} {last : Option TokenKind} {m : Mode} {first : Bool}
    {t : Token} {ts us : List Token} (h : Lexed m first ts) (herr : ∀ u ∈ ts, u.kind ≠ .error)
    (hapart : (t :: ts).IsChain fun s t => ¬s.Joinable t)
    (hres : Respelt dots (t.seen last) ts us) (ht : t.kind.absorbs = true) :
    (Token.concat us).head? = (Token.concat ts).head? ∧ (Token.concat ts).head? ≠ some '_' := by
  generalize hlast : t.seen last = p at hres
  cases hres with
  | nil => exact ⟨rfl, by simp [Token.concat]⟩
  | respell _ _ hfree _ =>
      rcases hfree with ⟨-, hdot⟩ | ⟨ha, -⟩
      · -- a dot absorbs nothing
        subst hlast
        obtain ⟨k, x⟩ := t
        cases k <;> simp [TokenKind.absorbs] at ht <;>
          simp [Token.seen, Token.isTrivia, TokenKind.isTrivia, TokenKind.isDot] at hdot
      · exact absurd ⟨ht, rfl, ha⟩ (List.isChain_cons_cons.mp hapart).1
  | keep u _ =>
      have hne : u.text ≠ [] := by cases h; assumption
      obtain ⟨c, cs, hcons⟩ := List.exists_cons_of_ne_nil hne
      simp only [Token.concat_cons, hcons, List.cons_append, List.head?_cons, true_and]
      intro hlow
      have hhead : u.text.head? = some '_' := by rw [hcons]; exact hlow
      have hident := h.ident_of_lowLine (herr u List.mem_cons_self) hhead
      exact (List.isChain_cons_cons.mp hapart).1 ⟨ht, hident, not_contextual_of_lowLine hhead⟩

/-- Putting identifiers in place of others keeps all other tokens, if they do not
stand directly after a number or a regular expression. -/
theorem Lexed.respelt {dots : Bool} {m : Mode} {first : Bool} {ts us : List Token}
    (h : Lexed m first ts) (herr : ∀ t ∈ ts, t.kind ≠ .error)
    (hapart : ts.IsChain fun s t => ¬s.Joinable t) (hres : Respelt dots m.previous ts us) :
    Lexed m first us := by
  generalize hlast : m.previous = last at hres
  induction hres generalizing m first with
  | nil => exact h
  | @keep last t ts us hrest ih =>
      cases h with
      | cons hne hscan hlexed =>
          have herr' : ∀ u ∈ ts, u.kind ≠ .error := fun u hu => herr u (List.mem_cons_of_mem t hu)
          have habs := hlexed.head?_respelt herr' hapart hrest
          refine .cons hne ?_ (ih hlexed herr' hapart.of_cons (by rw [m.previous_after, hlast]))
          exact Mode.scan_swapped hrest.swapped hne hscan (herr t List.mem_cons_self) habs
            (hlexed.escape_ne_zero herr')
  | @respell last a b ts us old new hfree hrest ih =>
      cases h with
      | cons hne hscan hlexed =>
          have herr' : ∀ u ∈ ts, u.kind ≠ .error := fun u hu => herr u (List.mem_cons_of_mem _ hu)
          obtain ⟨-, hpart, -⟩ := isName_of_scan hne hscan
          obtain ⟨-, hends⟩ := Mode.ends_swapped hrest.swapped hpart (hlexed.escape_ne_zero herr')
          have hafter := Mode.after_ident old new.isName (hlast ▸ hfree.imp_left And.right)
          refine .cons ?_ (scan_identifier new hends) ?_
          · obtain ⟨c, cs, rfl, -⟩ := new.isName.exists_cons
            simp
          · rw [hafter]
            exact ih hlexed herr' hapart.of_cons (by rw [m.previous_after]; rfl)

end FreeNames
