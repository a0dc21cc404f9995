import FreeNames.Proofs.Built
import FreeNames.Proofs.Scanning

/-!
# FreeNames.Proofs.Rescanning

Putting names in place of others does not change how the text before them is
read.  A token is read the same when names further on change
(`Mode.scan_swapped`); a number or a regular expression directly before a name is
the exception, since the name could become part of it.
-/

namespace FreeNames

/-! ## the characters of names -/

namespace Name

theorem isAlpha_eq (c : Char) :
    c.isAlpha = (decide ('A'.val ≤ c.val ∧ c.val ≤ 'Z'.val) ||
      decide ('a'.val ≤ c.val) && decide (c.val ≤ 'z'.val)) := rfl

/-- Names begin with letters, `$`, the low line and what is above ASCII and no
white space. -/
theorem toNat_of_isStartChar {c : Char} (h : isStartChar c = true) :
    c.toNat = 36 ∨ 65 ≤ c.toNat ∧ c.toNat ≤ 90 ∨ c.toNat = 95 ∨
      97 ≤ c.toNat ∧ c.toNat ≤ 122 ∨ 128 ≤ c.toNat ∧ isBlank c = false := by
  simp only [isStartChar, isAlpha_eq, Bool.or_eq_true, Bool.and_eq_true, decide_eq_true_eq,
    UInt32.le_iff_toNat_le, Bool.not_eq_true'] at h
  rcases h with (((h | h) | rfl) | rfl) | h
  · exact Or.inr (Or.inl h)
  · exact Or.inr (Or.inr (Or.inr (Or.inl h)))
  · exact Or.inr (Or.inr (Or.inl rfl))
  · exact Or.inl rfl
  · exact Or.inr (Or.inr (Or.inr (Or.inr h)))

theorem toNat_of_isDigit {c : Char} (h : c.isDigit = true) : 48 ≤ c.toNat ∧ c.toNat ≤ 57 := by
  simp only [Char.isDigit, Bool.and_eq_true, decide_eq_true_eq, UInt32.le_iff_toNat_le,
    ge_iff_le] at h
  exact h

theorem isBlank_of_toNat {c : Char} (h : 33 ≤ c.toNat ∧ c.toNat ≤ 127) : isBlank c = false := by
  simp only [isBlank, Bool.or_eq_false_iff, Bool.and_eq_false_iff, decide_eq_false_iff_not]
  omega

theorem isPartChar_of_isHexDigit {c : Char} (h : Number.isHexDigit c = true) :
    isPartChar c = true := by
  simp only [Number.isHexDigit, Bool.or_eq_true, Bool.and_eq_true, decide_eq_true_eq,
    Char.le_def, UInt32.le_iff_toNat_le] at h
  simp only [isPartChar, isStartChar, isAlpha_eq, Bool.or_eq_true, Bool.and_eq_true,
    decide_eq_true_eq, UInt32.le_iff_toNat_le]
  rcases h with (h | h) | h
  · exact Or.inr h
  · have hlower : 'a'.val.toNat ≤ c.val.toNat ∧ c.val.toNat ≤ 'z'.val.toNat :=
      ⟨h.1, Nat.le_trans h.2 (by decide)⟩
    simp only [hlower, and_self, true_or, or_true]
  · have hupper : 'A'.val.toNat ≤ c.val.toNat ∧ c.val.toNat ≤ 'Z'.val.toNat :=
      ⟨h.1, Nat.le_trans h.2 (by decide)⟩
    simp only [hupper, and_self, true_or]

theorem isBlank_of_isPartChar {c : Char} (h : isPartChar c = true) : isBlank c = false := by
  simp only [isPartChar, Bool.or_eq_true] at h
  rcases h with h | h
  · rcases toNat_of_isStartChar h with h | h | h | h | h
    · exact isBlank_of_toNat (by omega)
    · exact isBlank_of_toNat (by omega)
    · exact isBlank_of_toNat (by omega)
    · exact isBlank_of_toNat (by omega)
    · exact h.2
  · have hdigit := toNat_of_isDigit h
    exact isBlank_of_toNat (by omega)

theorem isLineTerminator_of_isPartChar {c : Char} (h : isPartChar c = true) :
    isLineTerminator c = false := by
  have hblank := isBlank_of_isPartChar h
  simp only [isBlank, Bool.or_eq_false_iff, Bool.and_eq_false_iff,
    decide_eq_false_iff_not] at hblank
  simp only [isLineTerminator, Bool.or_eq_false_iff, decide_eq_false_iff_not]
  refine ⟨⟨⟨?_, ?_⟩, by omega⟩, by omega⟩
  · rintro rfl
    simp at hblank
  · rintro rfl
    simp at hblank

theorem isPartChar_of_isStartChar {c : Char} (h : isStartChar c = true) : isPartChar c = true := by
  simp [isPartChar, h]

theorem Starts.part {c : Char} (h : Starts c) : isPartChar c = true ∨ c = '\\' :=
  h.imp_left isPartChar_of_isStartChar

theorem Starts.not_blank {c : Char} (h : Starts c) : isBlank c = false := by
  rcases h with h | rfl
  · exact isBlank_of_isPartChar (isPartChar_of_isStartChar h)
  · decide

theorem Starts.not_lineTerminator {c : Char} (h : Starts c) : isLineTerminator c = false := by
  rcases h with h | rfl
  · exact isLineTerminator_of_isPartChar (isPartChar_of_isStartChar h)
  · decide

theorem Starts.ne {c d : Char} (h : Starts c) (hd : ¬(isPartChar d = true ∨ d = '\\')) : c ≠ d :=
  fun heq => hd (heq ▸ h.part)

theorem Starts.not_slash {c : Char} (h : Starts c) : (c = '/' || c = '*') = false := by
  have hslash : c ≠ '/' := h.ne (by decide)
  have hstar : c ≠ '*' := h.ne (by decide)
  simp [hslash, hstar]

theorem Starts.not_digit {c : Char} (h : Starts c) : c.isDigit = false := by
  rcases h with h | rfl
  · cases hd : c.isDigit with
    | false => rfl
    | true =>
        have hstart := toNat_of_isStartChar h
        have hdigit := toNat_of_isDigit hd
        omega
  · decide

theorem IsName.exists_cons {x : Text} (h : IsName x) : ∃ c cs, x = c :: cs ∧ Starts c := by
  obtain ⟨-, c, hc, hstart⟩ := h
  cases x with
  | nil => simp at hc
  | cons d x =>
      obtain rfl : d = c := by simpa using hc
      exact ⟨d, x, rfl, hstart⟩

theorem IsName.ne_nil {x : Text} (h : IsName x) : x ≠ [] := by
  obtain ⟨c, cs, rfl, -⟩ := h.exists_cons
  exact List.cons_ne_nil c cs

theorem Parts.ne_dot {cs : Text} (h : Parts cs) : ∀ c ∈ cs, c ≠ '.' := by
  have hhex : Number.isHexDigit '.' = false := by decide
  induction h with
  | nil => simp
  | char hc _ ih =>
      rw [List.forall_mem_cons]
      refine ⟨?_, ih⟩
      rintro rfl
      exact absurd hc (by decide)
  | escape he _ ih =>
      rw [List.forall_mem_append]
      refine ⟨?_, ih⟩
      rintro c hc rfl
      cases he with
      | @braced ds _ hds =>
          have hdot : '.' ∈ ds := by simpa using hc
          simp [hds '.' hdot] at hhex
      | plain hds => simp [hds '.' (by simpa using hc)] at hhex

end Name

/-! ## names in place of others -/

/-- Names in place of others, in some places. -/
inductive Swapped : Text → Text → Prop
  | nil : Swapped [] []
  | keep (c : Char) {r r' : Text} (rest : Swapped r r') : Swapped (c :: r) (c :: r')
  | swap {a b r r' : Text} (old : Name.IsName a) (new : Name.IsName b) (rest : Swapped r r') :
    Swapped (a ++ r) (b ++ r')

namespace Swapped

variable {r r' : Text}

theorem append_left (h : Swapped r r') (x : Text) : Swapped (x ++ r) (x ++ r') := by
  induction x with
  | nil => exact h
  | cons c x ih => exact .keep c ih

/-- What does not begin with a name has its first character in place. -/
theorem head?_eq (h : Swapped r r') (hr : ∀ c ∈ r.head?, ¬Name.Starts c) :
    r'.head? = r.head? := by
  cases h with
  | nil => rfl
  | keep c _ => rfl
  | swap old _ _ =>
      obtain ⟨c, a', rfl, hc⟩ := old.exists_cons
      exact absurd hc (hr c rfl)

/-- Where no character of a class comes first, none does when names change, if
no name begins with one. -/
theorem head?_not {p : Char → Bool} (hp : ∀ c, Name.Starts c → p c = false)
    (h : Swapped r r') (hr : ∀ c ∈ r.head?, p c = false) : ∀ c ∈ r'.head?, p c = false := by
  cases h with
  | nil => exact hr
  | keep c _ => exact hr
  | swap _ new _ =>
      obtain ⟨c, b', rfl, hc⟩ := new.exists_cons
      intro d hd
      obtain rfl : c = d := by simpa using hd
      exact hp c hc

end Swapped

/-! ### punctuation -/

/-- Punctuation has no character that a name may have. -/
theorem Punct.not_part {p : Punct} {c : Char} (h : c ∈ p.spelling) :
    ¬(Name.isPartChar c = true ∨ c = '\\') := by
  have hall : (p.spelling.all fun c => !(Name.isPartChar c || c = '\\')) = true := by
    cases p <;> decide
  simpa using List.all_eq_true.mp hall c h

theorem Swapped.isPrefixOf_eq {r r' : Text} (h : Swapped r r') {x : Text}
    (hx : ∀ c ∈ x, ¬(Name.isPartChar c = true ∨ c = '\\')) :
    x.isPrefixOf r' = x.isPrefixOf r := by
  induction h generalizing x with
  | nil => rfl
  | keep c _ ih =>
      cases x with
      | nil => rfl
      | cons d x =>
          rw [List.isPrefixOf, List.isPrefixOf, ih fun c hc => hx c (List.mem_cons_of_mem d hc)]
  | swap old new _ _ =>
      cases x with
      | nil => simp
      | cons d x =>
          have hd := hx d List.mem_cons_self
          obtain ⟨c, a', rfl, hc⟩ := old.exists_cons
          obtain ⟨e, b', rfl, he⟩ := new.exists_cons
          have hdc : d ≠ c := fun heq => hd (heq ▸ hc.part)
          have hde : d ≠ e := fun heq => hd (heq ▸ he.part)
          simp [List.isPrefixOf, beq_false_of_ne hdc, beq_false_of_ne hde]

theorem Swapped.scanPunct_eq {r r' : Text} (h : Swapped r r') :
    Mode.scanPunct r' = Mode.scanPunct r := by
  have hat : Punct.at? r' = Punct.at? r := by
    unfold Punct.at?
    rw [List.filter_congr fun p _ => h.isPrefixOf_eq fun c hc => p.not_part hc]
  rw [Mode.scanPunct, Mode.scanPunct, hat]

/-! ### regular expressions -/

namespace Delimited

/-- Characters that do not matter to where a regular expression ends. -/
def Neutral (x : Text) : Prop :=
  ∀ (inClass : Bool) (r : Text),
    regexBody inClass (x ++ r) = (regexBody inClass r).map (· + x.length)

theorem neutral_nil : Neutral [] := by
  intro inClass r
  simp

theorem Neutral.append {x y : Text} (hx : Neutral x) (hy : Neutral y) : Neutral (x ++ y) := by
  intro inClass r
  rw [List.append_assoc, hx, hy, Option.map_map, List.length_append]
  congr 1
  funext n
  simp only [Function.comp]
  omega

theorem neutral_char {c : Char} (h : Name.isPartChar c = true ∨ c = '\x7b' ∨ c = '\x7d') :
    Neutral [c] := by
  have hline : isLineTerminator c = false := by
    rcases h with h | rfl | rfl
    · exact Name.isLineTerminator_of_isPartChar h
    · decide
    · decide
  have hne (d : Char) (hd : ¬(Name.isPartChar d = true ∨ d = '\x7b' ∨ d = '\x7d')) : c ≠ d := by
    rintro rfl
    exact hd h
  intro inClass r
  rw [List.singleton_append, regexBody_cons (hne _ (by decide)), hline]
  simp [hne '/' (by decide), hne '[' (by decide), hne ']' (by decide)]

theorem neutral_of_forall {x : Text}
    (h : ∀ c ∈ x, Name.isPartChar c = true ∨ c = '\x7b' ∨ c = '\x7d') : Neutral x := by
  induction x with
  | nil => exact neutral_nil
  | cons c x ih =>
      have hc := neutral_char (h c List.mem_cons_self)
      exact hc.append (ih fun d hd => h d (List.mem_cons_of_mem c hd))

/-- After its backslash and `u`, an escape has only digits and braces. -/
theorem exists_of_isEscape {e : Text} (he : Name.IsEscape e) :
    ∃ x, e = '\\' :: 'u' :: x ∧ ∀ c ∈ x, Name.isPartChar c = true ∨ c = '\x7b' ∨ c = '\x7d' := by
  cases he with
  | @braced ds hne hds =>
      refine ⟨_, rfl, ?_⟩
      simp only [List.mem_cons, List.mem_append, List.not_mem_nil, or_false]
      rintro c (rfl | hc | rfl)
      · decide
      · exact Or.inl (Name.isPartChar_of_isHexDigit (hds c hc))
      · decide
  | plain hds => exact ⟨_, rfl, fun c hc => Or.inl (Name.isPartChar_of_isHexDigit (hds c hc))⟩

theorem neutral_tail_escape {e : Text} (he : Name.IsEscape e) : Neutral e.tail := by
  obtain ⟨x, rfl, hx⟩ := exists_of_isEscape he
  have hu : Neutral ['u'] := neutral_char (by decide)
  exact hu.append (neutral_of_forall hx)

theorem neutral_escape {e : Text} (he : Name.IsEscape e) : Neutral e := by
  obtain ⟨x, rfl, hx⟩ := exists_of_isEscape he
  intro inClass r
  have hu : isLineTerminator 'u' = false := by decide
  simp only [List.cons_append, regexBody, hu, neutral_of_forall hx inClass r, Option.map_map]
  rfl

theorem neutral_parts {x : Text} (hx : Name.Parts x) : Neutral x ∧ Neutral x.tail := by
  induction hx with
  | nil => exact ⟨neutral_nil, neutral_nil⟩
  | char hc _ ih => exact ⟨(neutral_char (Or.inl hc)).append ih.1, ih.1⟩
  | @escape e cs he _ ih =>
      refine ⟨(neutral_escape he).append ih.1, ?_⟩
      rw [List.tail_append_of_ne_nil (by cases he <;> simp)]
      exact (neutral_tail_escape he).append ih.1

theorem regexBody_cons_eq_none_iff {c : Char} (hc : c ≠ '\\') {inClass : Bool} {cs : Text} :
    regexBody inClass (c :: cs) = none ↔
      isLineTerminator c = true ∨ (c = '/' && !inClass) = false ∧
        regexBody (if c = '[' then true else if c = ']' then false else inClass) cs = none := by
  rw [regexBody_cons hc]
  split
  · simp [*]
  · split <;> simp [*]

theorem regexBody_escaped_eq_none_iff {c : Char} {inClass : Bool} {cs : Text} :
    regexBody inClass ('\\' :: c :: cs) = none ↔
      isLineTerminator c = true ∨ regexBody inClass cs = none := by
  rw [regexBody]
  split <;> simp [*]

/-- Whether a regular expression closes does not depend on names. -/
theorem regexBody_swapped {r r' : Text} (h : Swapped r r') (inClass : Bool) :
    (regexBody inClass r = none → regexBody inClass r' = none) ∧
      (regexBody inClass ('\\' :: r) = none → regexBody inClass ('\\' :: r') = none) := by
  -- a backslash skips the next character, be it the first one of a name
  induction h generalizing inClass with
  | nil => exact ⟨id, id⟩
  | @keep c r r' _ ih =>
      refine ⟨fun hnone => ?_, fun hnone => ?_⟩
      · by_cases hc : c = '\\'
        · subst hc
          exact (ih inClass).2 hnone
        · rw [regexBody_cons_eq_none_iff hc] at hnone ⊢
          exact hnone.imp_right fun hrest => ⟨hrest.1, (ih _).1 hrest.2⟩
      · rw [regexBody_escaped_eq_none_iff] at hnone ⊢
        exact hnone.imp_right (ih inClass).1
  | @swap a b r r' old new _ ih =>
      have hna := neutral_parts old.parts
      have hnb := neutral_parts new.parts
      refine ⟨fun hnone => ?_, fun hnone => ?_⟩
      · rw [hna.1, Option.map_eq_none_iff] at hnone
        rw [hnb.1, Option.map_eq_none_iff]
        exact (ih inClass).1 hnone
      · obtain ⟨c, a', rfl, hc⟩ := old.exists_cons
        obtain ⟨d, b', rfl, hd⟩ := new.exists_cons
        rw [List.cons_append, regexBody_escaped_eq_none_iff] at hnone ⊢
        right
        rw [List.tail_cons] at hna hnb
        rw [hnb.2, Option.map_eq_none_iff]
        apply (ih inClass).1
        rw [hna.2, Option.map_eq_none_iff] at hnone
        exact hnone.resolve_left (by simp [hc.not_lineTerminator])

theorem Closes.append {α : Type} {f : Text → α} {x r : Text} (h : Closes f (x ++ r) x.length)
    (r' : Text) : f (x ++ r') = f (x ++ r) := by
  have htake := h.take r'
  rwa [List.take_left] at htake

end Delimited

/-! ## each kind of token -/

theorem takeWhile_swapped {p : Char → Bool} {x r r' : Text}
    (hhead : (∀ c ∈ r.head?, p c = false) → ∀ c ∈ r'.head?, p c = false)
    (hx : ((x ++ r).takeWhile p).length = x.length) :
    ((x ++ r').takeWhile p).length = x.length := by
  rw [length_takeWhile_append_iff] at hx ⊢
  exact ⟨hx.1, hhead hx.2⟩

namespace Mode

variable {r r' : Text} (h : Swapped r r')

include h in
/-- Where a name ended, it ends. -/
theorem ends_swapped (hr : Name.part r = 0) (hwhole : r.head? = some '\\' → Name.escape r ≠ 0) :
    r'.head? = r.head? ∧ Name.Ends r' := by
  have hends : Name.Ends r := by
    intro c hc
    cases r with
    | nil => simp at hc
    | cons d r =>
        obtain rfl : d = c := by simpa using hc
        cases hpart : Name.isPartChar d with
        | true => simp [Name.part, hpart] at hr
        | false =>
            refine ⟨rfl, ?_⟩
            rintro rfl
            rw [Name.part, hpart] at hr
            exact hwhole rfl hr
  have hhead : r'.head? = r.head? := h.head?_eq fun c hc hstart => by
    obtain ⟨hpart, hback⟩ := hends c hc
    rcases hstart.part with hp | hb
    · simp [hpart] at hp
    · exact hback hb
  refine ⟨hhead, fun c hc => hends c (hhead ▸ hc)⟩

theorem scanSlash_eq (m : Mode) {cs : Text} (hcs : ∀ c ∈ cs.head?, (c = '/' || c = '*') = false) :
    m.scanSlash ('/' :: cs) =
      match if m.regexAllowed then Delimited.regex cs else none with
      | some n => (.regex, 1 + n)
      | none => scanPunct ('/' :: cs) := by
  unfold scanSlash
  split
  · next heq =>
      obtain rfl := (List.cons.inj heq).2
      simp at hcs
  · next heq =>
      obtain rfl := (List.cons.inj heq).2
      simp at hcs
  · rfl

theorem regex_swapped (hhead : r'.head? = r.head?) {y : Text}
    (hy : Delimited.regex (y ++ r) = some y.length) :
    Delimited.regex (y ++ r') = some y.length := by
  obtain ⟨n, hn, hlen⟩ := Option.map_eq_some_iff.mp hy
  obtain ⟨body, flags, rfl, rfl⟩ : ∃ body flags, y = body ++ flags ∧ n = body.length :=
    ⟨y.take n, y.drop n, (List.take_append_drop n y).symm, by rw [List.length_take]; omega⟩
  rw [List.append_assoc] at hn hlen ⊢
  rw [List.drop_left, List.length_append] at hlen
  have hbody := (Delimited.closes_regexBody hn).append (flags ++ r')
  have hflags : ((flags ++ r').takeWhile Delimited.isFlag).length = flags.length :=
    takeWhile_swapped (fun hr => hhead ▸ hr) (Nat.add_left_cancel hlen)
  rw [Delimited.regex, hbody, hn, Option.map_some, List.drop_left, hflags, List.length_append]

include h in
theorem regex_eq_none_swapped {y : Text} (hy : Delimited.regex (y ++ r) = none) :
    Delimited.regex (y ++ r') = none := by
  rw [Delimited.regex, Option.map_eq_none_iff] at hy ⊢
  exact (Delimited.regexBody_swapped (h.append_left y) false).1 hy

include h in
theorem lineComment_swapped {m : Mode} {y : Text} {k : TokenKind}
    (hs : m.scanSlash ('/' :: '/' :: (y ++ r)) = (k, y.length + 2)) :
    m.scanSlash ('/' :: '/' :: (y ++ r')) = (k, y.length + 2) := by
  simp only [scanSlash, Prod.mk.injEq] at hs ⊢
  refine ⟨hs.1, ?_⟩
  have hend : (∀ c ∈ r.head?, (!isLineTerminator c) = false) →
      ∀ c ∈ r'.head?, (!isLineTerminator c) = false := by
    intro hr
    rw [h.head?_eq fun c hc hstart => by simpa [hstart.not_lineTerminator] using hr c hc]
    exact hr
  have hlen := takeWhile_swapped (x := y) hend (by omega)
  omega

theorem blockComment_swapped {m : Mode} {y : Text} {k : TokenKind}
    (hs : m.scanSlash ('/' :: '*' :: (y ++ r)) = (k, y.length + 2)) (hk : k ≠ .error) :
    m.scanSlash ('/' :: '*' :: (y ++ r')) = (k, y.length + 2) := by
  simp only [scanSlash] at hs ⊢
  split at hs
  · next n hn =>
      obtain ⟨rfl, hlen⟩ := Prod.mk.inj hs
      obtain rfl : n = y.length := by omega
      rw [(Delimited.closes_comment hn).append r', hn]
      simp only []
      rw [hlen]
  · exact absurd (Prod.mk.inj hs).1.symm hk

include h in
/-- After a slash that opens no comment comes a regular expression, or the slash is a mark. -/
theorem scanSlash_unmarked_swapped {m : Mode} {y : Text} {k : TokenKind}
    (hmark : ∀ c ∈ (y ++ r).head?, (c = '/' || c = '*') = false)
    (hs : m.scanSlash ('/' :: (y ++ r)) = (k, y.length + 1))
    (habs : k.absorbs = true → r'.head? = r.head?) :
    m.scanSlash ('/' :: (y ++ r')) = (k, y.length + 1) := by
  have hmark' : ∀ c ∈ (y ++ r').head?, (c = '/' || c = '*') = false :=
    (h.append_left y).head?_not (fun c hc => hc.not_slash) hmark
  rw [scanSlash_eq m hmark] at hs
  rw [scanSlash_eq m hmark']
  have hpunct := (h.append_left ('/' :: y)).scanPunct_eq
  by_cases hallowed : m.regexAllowed = true
  · rw [if_pos hallowed] at hs ⊢
    cases hreg : Delimited.regex (y ++ r) with
    | none =>
        rw [hreg] at hs
        rw [regex_eq_none_swapped h hreg]
        exact hpunct.trans hs
    | some n =>
        rw [hreg] at hs
        obtain ⟨rfl, hlen⟩ := Prod.mk.inj hs
        obtain rfl : n = y.length := by omega
        rw [regex_swapped (habs rfl) hreg]
        exact hs
  · rw [if_neg hallowed] at hs ⊢
    exact hpunct.trans hs

include h in
theorem scanSlash_swapped {m : Mode} {y : Text} {k : TokenKind}
    (hs : m.scanSlash ('/' :: (y ++ r)) = (k, y.length + 1)) (hk : k ≠ .error)
    (habs : k.absorbs = true → r'.head? = r.head?) :
    m.scanSlash ('/' :: (y ++ r')) = (k, y.length + 1) := by
  by_cases hmark : ∀ c ∈ (y ++ r).head?, (c = '/' || c = '*') = false
  · exact scanSlash_unmarked_swapped h hmark hs habs
  · cases y with
    | nil =>
        -- a comment is longer than its first slash
        obtain ⟨c, cs, rfl⟩ : ∃ c cs, r = c :: cs :=
          List.exists_cons_of_ne_nil fun hnil => hmark (by simp [hnil])
        have hc : c = '/' ∨ c = '*' := Decidable.or_iff_not_imp_left.mpr (by simpa using hmark)
        rcases hc with rfl | rfl
        · simp [scanSlash] at hs
          omega
        · simp only [List.nil_append, scanSlash] at hs
          split at hs
          · simp at hs
            omega
          · exact absurd (Prod.mk.inj hs).1.symm hk
    | cons c y =>
        have hc : c = '/' ∨ c = '*' := Decidable.or_iff_not_imp_left.mpr (by simpa using hmark)
        rcases hc with rfl | rfl
        · exact lineComment_swapped h hs
        · exact blockComment_swapped hs hk

theorem scanHash_eq (first : Bool) {cs : Text} (hcs : ∀ c ∈ cs.head?, c ≠ '!') :
    scanHash first ('#' :: cs) = Name.scanPrivate ('#' :: cs) := by
  unfold scanHash
  split
  · next heq =>
      obtain rfl := (List.cons.inj heq).2
      simp at hcs
  · rfl

include h in
theorem scanPrivate_swapped {y : Text} {k : TokenKind}
    (hs : Name.scanPrivate ('#' :: (y ++ r)) = (k, y.length + 1)) (hk : k ≠ .error)
    (hwhole : r.head? = some '\\' → Name.escape r ≠ 0) :
    y ≠ [] ∧ Name.scanPrivate ('#' :: (y ++ r')) = (k, y.length + 1) := by
  have hkind : (Name.scanPrivate ('#' :: (y ++ r))).1 ≠ .error := by
    rw [hs]
    exact hk
  obtain ⟨x, s, hsplit, hx, hpart, hallowed, hscan⟩ := Name.exists_isName_of_scanPrivate hkind
  rw [hs] at hscan
  obtain ⟨rfl, hlen⟩ := Prod.mk.inj hscan
  obtain ⟨rfl, rfl⟩ := List.append_inj hsplit (by omega)
  obtain ⟨c, y, rfl, -⟩ := hx.exists_cons
  have hends := ends_swapped h hpart hwhole
  refine ⟨by simp, ?_⟩
  have hread := Name.scanPrivate_append hx hends.2
  rw [if_pos hallowed] at hread
  exact hread

include h in
theorem shebang_swapped {first : Bool} {y : Text} {k : TokenKind}
    (hs : scanHash first ('#' :: '!' :: (y ++ r)) = (k, y.length + 2)) :
    scanHash first ('#' :: '!' :: (y ++ r')) = (k, y.length + 2) := by
  simp only [scanHash, Prod.mk.injEq] at hs ⊢
  refine ⟨hs.1, ?_⟩
  have hend : (∀ c ∈ r.head?, (c ≠ '\n' && c ≠ '\r') = false) →
      ∀ c ∈ r'.head?, (c ≠ '\n' && c ≠ '\r') = false := by
    intro hr
    rw [h.head?_eq fun c hc hstart => ?_]
    · exact hr
    · have hline := hstart.not_lineTerminator
      have hrc := hr c hc
      simp only [isLineTerminator, Bool.or_eq_false_iff, decide_eq_false_iff_not] at hline
      simp [hline.1.1.1, hline.1.1.2] at hrc
  have hlen := takeWhile_swapped (x := y) hend (by omega)
  omega

include h in
theorem scanHash_swapped {first : Bool} {y : Text} {k : TokenKind}
    (hs : scanHash first ('#' :: (y ++ r)) = (k, y.length + 1)) (hk : k ≠ .error)
    (hwhole : r.head? = some '\\' → Name.escape r ≠ 0) :
    scanHash first ('#' :: (y ++ r')) = (k, y.length + 1) := by
  by_cases hmark : ∀ c ∈ (y ++ r).head?, c ≠ '!'
  · rw [scanHash_eq first hmark] at hs
    obtain ⟨hne, hs'⟩ := scanPrivate_swapped h hs hk hwhole
    obtain ⟨c, y, rfl⟩ := List.exists_cons_of_ne_nil hne
    have hmark' : ∀ d ∈ (c :: y ++ r').head?, d ≠ '!' := hmark
    rw [scanHash_eq first hmark']
    exact hs'
  · cases y with
    | nil =>
        obtain ⟨c, cs, rfl⟩ : ∃ c cs, r = c :: cs :=
          List.exists_cons_of_ne_nil fun hnil => hmark (by simp [hnil])
        obtain rfl : c = '!' := by simpa using hmark
        simp [scanHash] at hs
        omega
    | cons c y =>
        obtain rfl : c = '!' := by simpa using hmark
        exact shebang_swapped h hs

theorem scanQuoted_swapped {quote : Char} {y : Text} {k : TokenKind}
    (hs : scanQuoted quote (y ++ r) = (k, y.length + 1)) (hk : k ≠ .error) :
    scanQuoted quote (y ++ r') = (k, y.length + 1) := by
  simp only [scanQuoted] at hs ⊢
  obtain ⟨hkind, hlen⟩ := Prod.mk.inj hs
  split at hkind
  · next hclosed =>
      have hcloses := Delimited.closes_quoted hclosed
      rw [show (Delimited.quoted quote (y ++ r)).length = y.length by omega] at hcloses
      rw [hcloses.append r']
      exact hs
  · exact absurd hkind.symm hk

theorem scanTemplate_swapped {y : Text} {k : TokenKind}
    (hs : scanTemplate (y ++ r) = (k, y.length + 1)) (hk : k ≠ .error) :
    scanTemplate (y ++ r') = (k, y.length + 1) := by
  simp only [scanTemplate] at hs ⊢
  obtain ⟨hkind, hlen⟩ := Prod.mk.inj hs
  have hcloses := Delimited.closes_template (hkind ▸ hk)
  rw [show (Delimited.template (y ++ r)).2 = y.length by omega] at hcloses
  rw [hcloses.append r']
  exact hs

theorem number_swapped (hhead : r'.head? = r.head?) (hlow : r.head? ≠ some '_') {x : Text}
    (hx : x ≠ []) (hs : Number.length (x ++ r) = x.length) :
    Number.length (x ++ r') = x.length := by
  cases r with
  | nil =>
      have hnil : r' = [] := List.head?_eq_none_iff.mp hhead
      rw [hnil]
      exact hs
  | cons c r =>
      obtain ⟨s, rfl⟩ : ∃ s, r' = c :: s := Delimited.exists_cons_of_head?_eq hhead.symm
      have hpos := List.length_pos_iff.mpr hx
      rw [List.append_cons] at hs ⊢
      rw [Number.length_append (s := r) s ?_ ?_ ?_]
      · exact hs
      · simp; omega
      · rw [hs]; simp
      · simpa using hlow

include h in
theorem nameScan_swapped {x : Text} {k : TokenKind}
    (hs : Name.scan (x ++ r) = (k, x.length)) (hk : k ≠ .error)
    (hwhole : r.head? = some '\\' → Name.escape r ≠ 0) :
    Name.scan (x ++ r') = (k, x.length) := by
  have hkind : (Name.scan (x ++ r)).1 ≠ .error := by
    rw [hs]
    exact hk
  obtain ⟨y, s, hsplit, hy, hpart, hscan⟩ := Name.exists_isName_of_scan hkind
  rw [hs] at hscan
  obtain ⟨rfl, hlen⟩ := Prod.mk.inj hscan
  obtain ⟨rfl, rfl⟩ := List.append_inj hsplit hlen
  obtain ⟨hhead, hends⟩ := ends_swapped h hpart hwhole
  rw [Name.scan_append hy hends, Name.kindOf, Name.kindOf, hhead]

include h in
theorem number_none_swapped {c : Char} {y : Text} (hn : Number.length (c :: (y ++ r)) = 0) :
    Number.length (c :: (y ++ r')) = 0 := by
  rw [Number.length_eq_zero_iff] at hn ⊢
  refine ⟨hn.1, fun hc => ?_⟩
  exact (h.append_left y).head?_not (fun c hc => hc.not_digit) (hn.2 hc)

include h in
/-- A token is read the same when names further on change, if what its first
character asks for is read the same. -/
theorem scan_of_readers {m : Mode} {first : Bool} {x : Text} {k : TokenKind} (hx : x ≠ [])
    (hs : m.scan first (x ++ r) = (k, x.length))
    (hslash : ∀ {y}, m.scanSlash ('/' :: (y ++ r)) = (k, y.length + 1) →
      m.scanSlash ('/' :: (y ++ r')) = (k, y.length + 1))
    (hhash : ∀ {y}, scanHash first ('#' :: (y ++ r)) = (k, y.length + 1) →
      scanHash first ('#' :: (y ++ r')) = (k, y.length + 1))
    (hquoted : ∀ {quote y}, quote ≠ '.' → scanQuoted quote (y ++ r) = (k, y.length + 1) →
      scanQuoted quote (y ++ r') = (k, y.length + 1))
    (htemplate : ∀ {y}, scanTemplate (y ++ r) = (k, y.length + 1) →
      scanTemplate (y ++ r') = (k, y.length + 1))
    (hname : Name.scan (x ++ r) = (k, x.length) → Name.scan (x ++ r') = (k, x.length))
    (hnumber : k = .number → Number.length (x ++ r) = x.length →
      Number.length (x ++ r') = x.length) :
    m.scan first (x ++ r') = (k, x.length) := by
  obtain ⟨c, y, rfl⟩ := List.exists_cons_of_ne_nil hx
  rw [List.cons_append, scan] at hs ⊢
  by_cases hblank : Name.isBlank c = true
  · rw [if_pos hblank] at hs ⊢
    obtain ⟨rfl, hlen⟩ := Prod.mk.inj hs
    rw [List.length_cons] at hlen ⊢
    rw [takeWhile_swapped (h.head?_not fun c hc => hc.not_blank) (by omega), Nat.add_comm]
  rw [if_neg hblank] at hs ⊢
  by_cases hc : c = '/'
  · subst hc
    rw [if_pos rfl] at hs ⊢
    exact hslash hs
  rw [if_neg hc] at hs ⊢
  by_cases hc : c = '#'
  · subst hc
    rw [if_pos rfl] at hs ⊢
    exact hhash hs
  rw [if_neg hc] at hs ⊢
  by_cases hc : (c = '\x22' || c = '\x27') = true
  · rw [if_pos hc] at hs ⊢
    refine hquoted ?_ hs
    rintro rfl
    simp at hc
  rw [if_neg hc] at hs ⊢
  by_cases hc : (c = '\x60' || (c = '\x7d' && m.braces.head? = some .template)) = true
  · rw [if_pos hc] at hs ⊢
    exact htemplate hs
  rw [if_neg hc] at hs ⊢
  split at hs
  · next hn =>
      rw [number_none_swapped h hn]
      simp only []
      split at hs
      · next hstarts =>
          rw [if_pos hstarts]
          exact hname hs
      · next hstarts =>
          rw [if_neg hstarts]
          exact ((h.append_left (c :: y)).scanPunct_eq).trans hs
  · next hn =>
      obtain ⟨rfl, hlen⟩ := Prod.mk.inj hs
      have hlen' : Number.length (c :: (y ++ r')) = (c :: y).length := hnumber rfl hlen
      rw [hlen', List.length_cons]
      rfl

include h in
/-- A token is read the same when names further on change, unless the token is a
number or a regular expression and a name directly after it changes. -/
theorem scan_swapped {m : Mode} {first : Bool} {x : Text} {k : TokenKind} (hx : x ≠ [])
    (hs : m.scan first (x ++ r) = (k, x.length)) (hk : k ≠ .error)
    (habs : k.absorbs = true → r'.head? = r.head? ∧ r.head? ≠ some '_')
    (hwhole : r.head? = some '\\' → Name.escape r ≠ 0) :
    m.scan first (x ++ r') = (k, x.length) := by
  refine scan_of_readers h hx hs (fun hs => scanSlash_swapped h hs hk fun hk => (habs hk).1)
    (fun hs => scanHash_swapped h hs hk hwhole) (fun _ hs => scanQuoted_swapped hs hk)
    (fun hs => scanTemplate_swapped hs hk) (fun hs => nameScan_swapped h hs hk hwhole) ?_
  rintro rfl hlen
  obtain ⟨hhead, hlow⟩ := habs rfl
  exact number_swapped hhead hlow hx hlen

end Mode

end FreeNames
