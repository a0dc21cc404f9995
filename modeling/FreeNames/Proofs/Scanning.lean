import FreeNames.Proofs.Tokens

/-!
# FreeNames.Proofs.Scanning

How far the scanners look.  None takes more than there is.  A token that ends at
a closing mark is the same whatever follows (`Delimited`), a number looks one
character ahead at most (`Number.length_append`), and a name ends where no part
of a name follows (`Name.scan_append`).
-/

namespace FreeNames

/-! ## numbers -/

namespace Number

/-- A form takes no more than there is. -/
def Bounded (f : Text → Nat) : Prop := ∀ cs, f cs ≤ cs.length

/-- A form that ends before the last of some characters does not depend on what
follows them, unless the last one is a low line. -/
def Local (f : Text → Nat) : Prop :=
  ∀ cs s s' : Text, f (cs ++ s) < cs.length → cs.getLast? ≠ some '_' → f (cs ++ s') = f (cs ++ s)

theorem andThen_eq (f g : Text → Nat) (cs : Text) :
    andThen f g cs = if f cs = 0 then 0 else beside f g cs := by
  unfold andThen beside
  generalize f cs = n
  cases n <;> simp

theorem both_eq (f g : Text → Nat) (cs : Text) :
    both f g cs = if f cs = 0 ∨ g (cs.drop (f cs)) = 0 then 0 else beside f g cs := by
  unfold both beside
  generalize f cs = n
  cases n with
  | zero => simp
  | succ n =>
      simp only []
      generalize g (cs.drop (n + 1)) = m
      cases m <;> simp

theorem one_le_one (p : Char → Bool) (cs : Text) : one p cs ≤ 1 := by
  cases cs with
  | nil => exact Nat.zero_le _
  | cons c cs => rw [one]; split <;> omega

theorem bounded_one (p : Char → Bool) : Bounded (one p) := by
  intro cs
  cases cs with
  | nil => simp [one]
  | cons c cs => simp only [one, List.length_cons]; split <;> omega

theorem Bounded.beside {f g : Text → Nat} (hf : Bounded f) (hg : Bounded g) :
    Bounded (beside f g) := by
  intro cs
  have hfirst := hf cs
  have hsecond := hg (cs.drop (f cs))
  rw [List.length_drop] at hsecond
  simp only [Number.beside]
  omega

theorem Bounded.andThen {f g : Text → Nat} (hf : Bounded f) (hg : Bounded g) :
    Bounded (andThen f g) := by
  intro cs
  rw [andThen_eq]
  split
  · exact Nat.zero_le _
  · exact hf.beside hg cs

theorem Bounded.both {f g : Text → Nat} (hf : Bounded f) (hg : Bounded g) :
    Bounded (both f g) := by
  intro cs
  rw [both_eq]
  split
  · exact Nat.zero_le _
  · exact hf.beside hg cs

theorem bounded_moreDigits (isDigit : Char → Bool) : Bounded (moreDigits isDigit) := by
  intro cs
  fun_induction moreDigits isDigit cs <;> simp only [List.length_cons, List.length_nil] <;> omega

theorem bounded_digits (isDigit : Char → Bool) : Bounded (digits isDigit) :=
  (bounded_one _).andThen (bounded_moreDigits _)

theorem bounded_bareExponent : Bounded bareExponent := (bounded_one _).andThen (bounded_one _)

theorem bounded_digitsAndLowLine (isDigit : Char → Bool) : Bounded (digitsAndLowLine isDigit) :=
  (bounded_digits _).andThen (bounded_one _)

theorem bounded_exponent : Bounded exponent :=
  bounded_bareExponent.andThen (bounded_digitsAndLowLine _)

theorem bounded_doubledExponent : Bounded doubledExponent := by
  intro cs
  calc doubledExponent cs ≤ bareExponent cs * 1 := Nat.mul_le_mul_left _ (one_le_one _ _)
    _ = bareExponent cs := Nat.mul_one _
    _ ≤ cs.length := bounded_bareExponent cs

theorem bounded_whole : Bounded whole :=
  (bounded_digits _).andThen ((bounded_one _).beside bounded_exponent)

theorem bounded_fraction : Bounded fraction :=
  ((bounded_one _).both (bounded_digits _)).andThen
    (bounded_doubledExponent.beside bounded_exponent)

theorem fractional_eq (cs : Text) :
    fractional cs = if fraction (cs.drop (digits Char.isDigit cs)) = 0 then 0
      else beside (digits Char.isDigit) fraction cs := by
  simp only [fractional, beside]
  generalize fraction (cs.drop (digits Char.isDigit cs)) = m
  cases m <;> simp

theorem bounded_fractional : Bounded fractional := by
  intro cs
  rw [fractional_eq]
  split
  · exact Nat.zero_le _
  · exact (bounded_digits _).beside bounded_fraction cs

theorem bounded_radix : Bounded radix := by
  intro cs
  unfold radix
  split
  · split
    · exact Nat.zero_le _
    · next isDigit _ =>
        have hle := ((bounded_digitsAndLowLine isDigit).andThen (bounded_one (· = 'n'))) (by assumption)
        simp only [List.length_cons]
        omega
  · exact Nat.zero_le _

theorem length_le (cs : Text) : length cs ≤ cs.length := by
  have hwhole := bounded_whole cs
  have hfractional := bounded_fractional cs
  have hbig := (bounded_digits Char.isDigit).both (bounded_one (· = 'n')) cs
  have hradix := bounded_radix cs
  simp only [length, big]
  omega

/-! ### looking ahead -/

theorem local_one (p : Char → Bool) : Local (one p) := by
  intro cs s s' hlt _
  cases cs with
  | nil => simp at hlt
  | cons c cs => rfl

/-- The same after some of the characters. -/
theorem Local.drop {g : Text → Nat} (hg : Local g) {cs s s' : Text} {n : Nat}
    (hlt : n + g ((cs ++ s).drop n) < cs.length) (hlast : cs.getLast? ≠ some '_') :
    g ((cs ++ s').drop n) = g ((cs ++ s).drop n) := by
  have hle : n ≤ cs.length := by omega
  rw [List.drop_append_of_le_length hle] at hlt ⊢
  rw [List.drop_append_of_le_length hle]
  apply hg
  · rw [List.length_drop]
    omega
  · rw [List.getLast?_drop, if_neg (by omega)]
    exact hlast

theorem Local.beside {f g : Text → Nat} (hf : Local f) (hg : Local g) : Local (beside f g) := by
  intro cs s s' hlt hlast
  simp only [Number.beside] at hlt ⊢
  have hfirst : f (cs ++ s') = f (cs ++ s) := hf cs s s' (by omega) hlast
  rw [hfirst, hg.drop hlt hlast]

theorem le_andThen (f g : Text → Nat) (cs : Text) : f cs ≤ andThen f g cs := by
  rw [andThen_eq, beside]
  split <;> omega

theorem Local.andThen_append {f g : Text → Nat} (hg : Local g) {cs s s' : Text}
    (hsame : f (cs ++ s') = f (cs ++ s)) (hlt : andThen f g (cs ++ s) < cs.length)
    (hlast : cs.getLast? ≠ some '_') : andThen f g (cs ++ s') = andThen f g (cs ++ s) := by
  rw [andThen_eq, Number.beside] at hlt
  rw [andThen_eq, andThen_eq, Number.beside, Number.beside, hsame]
  by_cases hzero : f (cs ++ s) = 0
  · rw [if_pos hzero, if_pos hzero]
  · rw [if_neg hzero] at hlt
    rw [if_neg hzero, if_neg hzero, hg.drop hlt hlast]

theorem Local.andThen {f g : Text → Nat} (hf : Local f) (hg : Local g) : Local (andThen f g) := by
  intro cs s s' hlt hlast
  have hfirst := Nat.lt_of_le_of_lt (le_andThen f g (cs ++ s)) hlt
  exact hg.andThen_append (hf cs s s' hfirst hlast) hlt hlast

/-- When neither of two forms may be empty, what follows matters to the first
even if the second is missing. -/
theorem Local.both {f g : Text → Nat} (hf : Local f) (hg : Local g) {cs s : Text} (s' : Text)
    (hfirst : f (cs ++ s) < cs.length) (hlt : both f g (cs ++ s) < cs.length)
    (hlast : cs.getLast? ≠ some '_') : both f g (cs ++ s') = both f g (cs ++ s) := by
  have hsame : f (cs ++ s') = f (cs ++ s) := hf cs s s' hfirst hlast
  rw [both_eq] at hlt
  rw [both_eq, both_eq, Number.beside, Number.beside, hsame]
  by_cases hzero : f (cs ++ s) = 0
  · rw [if_pos (Or.inl hzero), if_pos (Or.inl hzero)]
  · have hsecond : f (cs ++ s) + g ((cs ++ s).drop (f (cs ++ s))) < cs.length := by
      by_cases hnone : g ((cs ++ s).drop (f (cs ++ s))) = 0
      · omega
      · rw [if_neg (by simp [hzero, hnone])] at hlt
        exact hlt
    rw [hg.drop hsecond hlast]

theorem moreDigits_cons {isDigit : Char → Bool} {c : Char} (hc : c ≠ '_') (cs : Text) :
    moreDigits isDigit (c :: cs) = if isDigit c then 1 + moreDigits isDigit cs else 0 := by
  rw [moreDigits]
  intro d ds hlow
  exact absurd hlow hc

theorem local_moreDigits (isDigit : Char → Bool) : Local (moreDigits isDigit) := by
  intro cs s s' hlt hlast
  fun_induction moreDigits isDigit cs with
  | case1 => simp at hlt
  | case2 c cs hc ih =>
      simp only [List.cons_append, moreDigits, hc, if_true, List.length_cons] at hlt ⊢
      have hne : cs ≠ [] := by
        rintro rfl
        simp at hlt
        omega
      rw [List.getLast?_cons_cons, List.getLast?_cons_of_ne_nil hne] at hlast
      rw [ih (by omega) hlast]
  | case3 c cs hc => simp [moreDigits, hc]
  | case4 c cs hlow hc ih =>
      have hc' : c ≠ '_' := by
        rintro rfl
        cases cs with
        | nil => simp at hlast
        | cons d ds => exact hlow d ds rfl rfl
      simp only [List.cons_append, moreDigits_cons hc', hc, if_true, List.length_cons] at hlt ⊢
      have hne : cs ≠ [] := by
        rintro rfl
        simp at hlt
      rw [List.getLast?_cons_of_ne_nil hne] at hlast
      rw [ih (by omega) hlast]
  | case5 c cs hlow hc =>
      have hc' : c ≠ '_' := by
        rintro rfl
        cases cs with
        | nil => simp at hlast
        | cons d ds => exact hlow d ds rfl rfl
      simp [moreDigits_cons hc', hc]

theorem local_digits (isDigit : Char → Bool) : Local (digits isDigit) :=
  (local_one _).andThen (local_moreDigits _)

theorem local_bareExponent : Local bareExponent := (local_one _).andThen (local_one _)

theorem local_digitsAndLowLine (isDigit : Char → Bool) : Local (digitsAndLowLine isDigit) :=
  (local_digits _).andThen (local_one _)

theorem local_exponent : Local exponent := local_bareExponent.andThen (local_digitsAndLowLine _)

theorem local_whole : Local whole := (local_digits _).andThen ((local_one _).beside local_exponent)

theorem bareExponent_le (cs : Text) : bareExponent cs ≤ beside doubledExponent exponent cs := by
  rw [beside, doubledExponent]
  have hone := one_le_one isExponentLetter (cs.drop (bareExponent cs))
  cases hn : one isExponentLetter (cs.drop (bareExponent cs)) with
  | zero =>
      rw [Nat.mul_zero, Nat.zero_add, List.drop_zero]
      exact le_andThen _ _ _
  | succ n =>
      obtain rfl : n = 0 := by omega
      omega

/-- Exponents reach at least as far as a bare one, so what decides whether it is
doubled lies among the characters at hand. -/
theorem local_exponents : Local (beside doubledExponent exponent) := by
  intro cs s s' hlt hlast
  have hbare : bareExponent (cs ++ s) < cs.length :=
    Nat.lt_of_le_of_lt (bareExponent_le _) hlt
  have hsame : doubledExponent (cs ++ s') = doubledExponent (cs ++ s) := by
    have hfirst := local_bareExponent cs s s' hbare hlast
    obtain ⟨c, cs', hdrop⟩ : ∃ c cs', cs.drop (bareExponent (cs ++ s)) = c :: cs' :=
      List.exists_cons_of_ne_nil (by simpa using hbare)
    rw [doubledExponent, doubledExponent, hfirst, List.drop_append_of_le_length (Nat.le_of_lt hbare),
      List.drop_append_of_le_length (Nat.le_of_lt hbare), hdrop]
    rfl
  rw [beside] at hlt
  rw [beside, beside, hsame, local_exponent.drop hlt hlast]

theorem digits_le_whole (cs : Text) : digits Char.isDigit cs ≤ whole cs := le_andThen _ _ _

/-- Of the forms that begin with a point only those matter that have a character
after it at hand. -/
theorem fraction_append {cs s : Text} (s' : Text) (hpoint : one (· = '.') (cs ++ s) < cs.length)
    (hlt : fraction (cs ++ s) < cs.length) (hlast : cs.getLast? ≠ some '_') :
    fraction (cs ++ s') = fraction (cs ++ s) := by
  have hle := le_andThen (both (one (· = '.')) (digits Char.isDigit))
    (beside doubledExponent exponent) (cs ++ s)
  have hfirst := (local_one (· = '.')).both (local_digits Char.isDigit) s' hpoint
    (Nat.lt_of_le_of_lt hle hlt) hlast
  exact local_exponents.andThen_append hfirst hlt hlast

theorem fractional_append {cs s : Text} (s' : Text) (htwo : 2 ≤ cs.length)
    (hwhole : whole (cs ++ s) < cs.length) (hlt : fractional (cs ++ s) < cs.length)
    (hlast : cs.getLast? ≠ some '_') : fractional (cs ++ s') = fractional (cs ++ s) := by
  have hdigits := Nat.lt_of_le_of_lt (digits_le_whole _) hwhole
  have hdigits' := Nat.le_of_lt hdigits
  have hsame := local_digits _ cs s s' hdigits hlast
  -- after digits a point belongs to a whole number, so it is not the last character
  have hpoint : one (· = '.') ((cs ++ s).drop (digits Char.isDigit (cs ++ s))) <
      cs.length - digits Char.isDigit (cs ++ s) := by
    have hone := one_le_one (· = '.') ((cs ++ s).drop (digits Char.isDigit (cs ++ s)))
    by_cases hzero : digits Char.isDigit (cs ++ s) = 0
    · omega
    · rw [whole, andThen_eq, if_neg hzero, beside, beside] at hwhole
      omega
  have hfraction : fraction ((cs ++ s').drop (digits Char.isDigit (cs ++ s))) =
      fraction ((cs ++ s).drop (digits Char.isDigit (cs ++ s))) := by
    rw [fractional_eq] at hlt
    rw [List.drop_append_of_le_length hdigits'] at hpoint hlt ⊢
    rw [List.drop_append_of_le_length hdigits']
    apply fraction_append
    · rw [List.length_drop]
      exact hpoint
    · rw [List.length_drop]
      split at hlt
      · omega
      · rw [beside, List.drop_append_of_le_length hdigits'] at hlt
        omega
    · rw [List.getLast?_drop, if_neg (by omega)]
      exact hlast
  rw [fractional_eq, fractional_eq, beside, beside, hsame, hfraction]

theorem radix_append {cs s : Text} (s' : Text) (htwo : 2 ≤ cs.length)
    (hlt : radix (cs ++ s) < cs.length) (hlast : cs.getLast? ≠ some '_') :
    radix (cs ++ s') = radix (cs ++ s) := by
  obtain ⟨c, d, cs, rfl⟩ : ∃ c d cs', cs = c :: d :: cs' := by
    match cs, htwo with
    | c :: d :: cs, _ => exact ⟨c, d, cs, rfl⟩
  by_cases hc : c = '0'
  · subst hc
    simp only [List.cons_append, radix] at hlt ⊢
    cases hr : radixDigit? d with
    | none => rfl
    | some isDigit =>
        simp only [hr, List.length_cons] at hlt ⊢
        have hne : cs ≠ [] := by
          rintro rfl
          simp at hlt
          omega
        rw [List.getLast?_cons_cons, List.getLast?_cons_of_ne_nil hne] at hlast
        rw [(local_digitsAndLowLine isDigit).andThen (local_one (· = 'n')) cs s s' (by omega) hlast]
  · simp [radix, hc]

/-- A number that ends before the last of at least two characters does not depend
on what follows them, unless the last one is a low line. -/
theorem length_append {cs s : Text} (s' : Text) (htwo : 2 ≤ cs.length)
    (hlt : length (cs ++ s) < cs.length) (hlast : cs.getLast? ≠ some '_') :
    length (cs ++ s') = length (cs ++ s) := by
  simp only [length, Nat.max_lt] at hlt
  obtain ⟨⟨hwhole, hfractional⟩, hbig, hradix⟩ := hlt
  have hdigits := Nat.lt_of_le_of_lt (digits_le_whole _) hwhole
  rw [length, length, local_whole cs s s' hwhole hlast,
    fractional_append s' htwo hwhole hfractional hlast,
    big, (local_digits _).both (local_one _) s' hdigits hbig hlast,
    radix_append s' htwo hradix hlast]

theorem andThen_eq_zero_iff {f g : Text → Nat} {cs : Text} : andThen f g cs = 0 ↔ f cs = 0 := by
  rw [andThen_eq, beside]
  split <;> omega

theorem both_eq_zero_iff {f g : Text → Nat} {cs : Text} :
    both f g cs = 0 ↔ f cs = 0 ∨ g (cs.drop (f cs)) = 0 := by
  rw [both_eq, beside]
  split
  · simpa
  · next h => simp only [not_or] at h; omega

theorem digits_eq_zero_iff {isDigit : Char → Bool} {cs : Text} :
    digits isDigit cs = 0 ↔ ∀ c ∈ cs.head?, isDigit c = false := by
  rw [digits, andThen_eq_zero_iff]
  cases cs with
  | nil => simp [one]
  | cons c cs => simp [one]

/-- A number starts with a digit, or with a point and a digit. -/
theorem length_eq_zero_iff {c : Char} {cs : Text} :
    length (c :: cs) = 0 ↔
      c.isDigit = false ∧ (c = '.' → ∀ d ∈ cs.head?, d.isDigit = false) := by
  have hdigits : digits Char.isDigit (c :: cs) = 0 ↔ c.isDigit = false := by
    simp [digits_eq_zero_iff]
  have hfraction : fraction (c :: cs) = 0 ↔ (c = '.' → ∀ d ∈ cs.head?, d.isDigit = false) := by
    rw [fraction, andThen_eq_zero_iff, both_eq_zero_iff, ← digits_eq_zero_iff]
    by_cases hc : c = '.' <;> simp [one, hc]
  constructor
  · intro h
    simp only [length, Nat.max_eq_zero_iff] at h
    have hfirst : digits Char.isDigit (c :: cs) = 0 := by
      have hle := digits_le_whole (c :: cs)
      omega
    refine ⟨hdigits.mp hfirst, hfraction.mp ?_⟩
    have hnone := h.1.2
    rw [fractional_eq, beside, hfirst, List.drop_zero] at hnone
    split at hnone
    · assumption
    · omega
  · rintro ⟨hc, hpoint⟩
    have hfirst := hdigits.mpr hc
    have hradix : radix (c :: cs) = 0 := by
      have hne : c ≠ '0' := by
        rintro rfl
        simp at hc
      simp [radix, hne]
    rw [length, whole, andThen_eq, if_pos hfirst, fractional_eq, hfirst, List.drop_zero,
      if_pos (hfraction.mpr hpoint), big, both_eq, if_pos (Or.inl hfirst), hradix]
    rfl

end Number

/-! ## names -/

namespace Name

theorem hexRun_append {ds : Text} (hds : ∀ c ∈ ds, Number.isHexDigit c = true) (cs : Text) :
    hexRun (ds ++ '\x7d' :: cs) = ds.length := by
  rw [hexRun, List.takeWhile_append_of_pos hds]
  have hbrace : Number.isHexDigit '\x7d' = false := by decide
  simp [hbrace]

theorem parts_skip {x : Text} (cs : Text) : parts x.length (x ++ cs) = x.length + parts 0 cs := by
  induction x with
  | nil => simp
  | cons c x ih =>
      rw [List.length_cons, List.cons_append, parts, ih]
      omega

/-- No part of a name follows, nor anything that is read as a broken part. -/
def Ends (r : Text) : Prop := ∀ c ∈ r.head?, isPartChar c = false ∧ c ≠ '\\'

theorem Ends.part_eq_zero {r : Text} (h : Ends r) : part r = 0 := by
  cases r with
  | nil => rfl
  | cons c r =>
      obtain ⟨hc, hback⟩ := h c rfl
      simp [part, hc, escape, hback]

theorem Ends.unclosedEscape_eq_zero {r : Text} (h : Ends r) : unclosedEscape r = 0 := by
  cases r with
  | nil => rfl
  | cons c r =>
      simp [unclosedEscape, (h c rfl).2]

/-- A character spelt by its code point. -/
inductive IsEscape : Text → Prop
  | braced {ds : Text} (hne : ds ≠ []) (hds : ∀ c ∈ ds, Number.isHexDigit c = true) :
    IsEscape ('\\' :: 'u' :: '\x7b' :: (ds ++ ['\x7d']))
  | plain {a b c d : Char} (hds : ∀ x ∈ [a, b, c, d], Number.isHexDigit x = true) :
    IsEscape ['\\', 'u', a, b, c, d]

/-- Characters and escapes that may go on a name. -/
inductive Parts : Text → Prop
  | nil : Parts []
  | char {c : Char} {cs : Text} (hc : isPartChar c = true) (rest : Parts cs) : Parts (c :: cs)
  | escape {e cs : Text} (he : IsEscape e) (rest : Parts cs) : Parts (e ++ cs)

/-- What a name begins with. -/
def Starts (c : Char) : Prop := isStartChar c = true ∨ c = '\\'

/-- A whole name. -/
structure IsName (cs : Text) : Prop where
  parts : Parts cs
  start : ∃ c ∈ cs.head?, Starts c

theorem escape_append {e : Text} (he : IsEscape e) (cs : Text) : escape (e ++ cs) = e.length := by
  cases he with
  | @braced ds hne hds =>
      have hpos := List.length_pos_iff.mpr hne
      simp [escape, hexRun_append hds, hpos]
      omega
  | @plain a b c d hds =>
      have hbrace : a ≠ '\x7b' := by
        rintro rfl
        exact absurd (hds '\x7b' (by simp)) (by decide)
      simp only [List.mem_cons, List.not_mem_nil, or_false, forall_eq_or_imp, forall_eq] at hds
      simp [escape, hds]

theorem exists_isEscape {cs : Text} (h : escape cs ≠ 0) :
    ∃ e r, IsEscape e ∧ cs = e ++ r := by
  unfold escape at h
  split at h
  · next cs =>
      simp only [] at h
      split at h
      · next hcond =>
          simp only [Bool.and_eq_true, decide_eq_true_eq] at hcond
          obtain ⟨hpos, hhead⟩ := hcond
          obtain ⟨r, hr⟩ : ∃ r, cs.drop (hexRun cs) = '\x7d' :: r := by
            cases hd : cs.drop (hexRun cs) with
            | nil => simp [hd] at hhead
            | cons c r => exact ⟨r, by simpa [hd] using hhead⟩
          have hrun : cs.takeWhile Number.isHexDigit = cs.take (hexRun cs) :=
            List.prefix_iff_eq_take.mp (List.takeWhile_prefix _)
          have hds : ∀ c ∈ cs.take (hexRun cs), Number.isHexDigit c = true := by
            rw [← hrun]
            exact List.all_eq_true.mp List.all_takeWhile
          have hne : cs.take (hexRun cs) ≠ [] := by
            rw [← hrun]
            exact List.length_pos_iff.mp hpos
          refine ⟨_, r, .braced hne hds, ?_⟩
          simp only [List.cons_append, List.append_assoc, List.nil_append, ← hr,
            List.take_append_drop]
      · exact absurd rfl h
  · next a b c d cs _ =>
      split at h
      · next hall => exact ⟨['\\', 'u', a, b, c, d], cs, .plain (by simpa using hall), rfl⟩
      · exact absurd rfl h
  · exact absurd rfl h

theorem part_append {e : Text} (he : IsEscape e) (cs : Text) : part (e ++ cs) = e.length := by
  rw [← escape_append he cs]
  have hpart : isPartChar '\\' = false := by decide
  cases he <;> simp [part, hpart]

/-- Parts in a row are read to the end when no part follows them. -/
theorem parts_append {x r : Text} (hx : Parts x) (hr : part r = 0) : parts 0 (x ++ r) = x.length := by
  induction hx with
  | nil =>
      cases r with
      | nil => rfl
      | cons c cs => simp [parts, hr]
  | char hc _ ih =>
      rw [List.cons_append, parts, part, if_pos hc]
      simp [ih, Nat.add_comm]
  | @escape e cs he _ ih =>
      obtain ⟨c, e', rfl⟩ : ∃ c e', e = c :: e' := by cases he <;> exact ⟨_, _, rfl⟩
      have hpart := part_append he (cs ++ r)
      rw [List.append_assoc, List.cons_append, parts]
      rw [List.cons_append, List.length_cons] at hpart
      rw [hpart]
      simp only []
      rw [parts_skip, ih, List.length_append, List.length_cons]
      omega

/-- The parts of a name that are read, and what follows them. -/
theorem exists_parts (cs : Text) :
    ∃ x r, cs = x ++ r ∧ Parts x ∧ part r = 0 := by
  induction hn : cs.length using Nat.strongRecOn generalizing cs with
  | ind n ih =>
      subst hn
      by_cases hzero : part cs = 0
      · exact ⟨[], cs, rfl, .nil, hzero⟩
      cases cs with
      | nil => exact absurd rfl hzero
      | cons c cs =>
          by_cases hc : isPartChar c = true
          · obtain ⟨x, r, rfl, hx, hr⟩ := ih cs.length (by simp) cs rfl
            exact ⟨c :: x, r, rfl, .char hc hx, hr⟩
          · rw [part, if_neg hc] at hzero
            obtain ⟨e, cs', he, hsplit⟩ := exists_isEscape hzero
            have hlt : cs'.length < (c :: cs).length := by
              rw [hsplit]
              cases he <;> simp <;> omega
            obtain ⟨x, r, rfl, hx, hr⟩ := ih cs'.length hlt cs' rfl
            exact ⟨e ++ x, r, by rw [hsplit, List.append_assoc], .escape he hx, hr⟩

theorem isPartChar_backslash : isPartChar '\\' = false := by decide

/-- A backslash among the parts of a name starts an escape. -/
theorem escape_ne_zero_of_parts {x : Text} (hx : Parts ('\\' :: x)) (r : Text) :
    escape ('\\' :: x ++ r) ≠ 0 := by
  generalize hy : '\\' :: x = y at hx ⊢
  cases hx with
  | nil => cases hy
  | char hc _ =>
      obtain ⟨rfl, -⟩ := List.cons.inj hy
      simp [isPartChar_backslash] at hc
  | escape he _ =>
      rw [List.append_assoc, escape_append he]
      cases he <;> simp

/-- A name is read to its end when no part follows it. -/
theorem length_append {x r : Text} (hx : IsName x) (hr : part r = 0) :
    length (x ++ r) = x.length := by
  obtain ⟨hparts, c, hc, hstart⟩ := hx
  obtain ⟨x, rfl⟩ : ∃ x', x = c :: x' := by
    cases x with
    | nil => simp at hc
    | cons d x => exact ⟨x, by simpa using hc⟩
  have hread : (isStartChar c || escape (c :: x ++ r) ≠ 0) = true := by
    rcases hstart with hstart | rfl
    · simp [hstart]
    · have hesc := escape_ne_zero_of_parts hparts r
      simp only [hesc, ne_eq, not_false_eq_true, decide_true, Bool.or_true]
  rw [List.cons_append] at hread ⊢
  rw [length, if_pos hread, ← List.cons_append, parts_append hparts hr]

/-- What is read as a name, and what follows it. -/
theorem exists_isName {cs : Text} (h : length cs ≠ 0) :
    ∃ x r, cs = x ++ r ∧ IsName x ∧ part r = 0 := by
  obtain ⟨x, r, rfl, hx, hr⟩ := exists_parts cs
  have hne : x ≠ [] := by
    rintro rfl
    apply h
    cases r with
    | nil => rfl
    | cons c r => simp [length, parts, hr]
  obtain ⟨c, x, rfl⟩ := List.exists_cons_of_ne_nil hne
  refine ⟨c :: x, r, rfl, ⟨hx, c, rfl, ?_⟩, hr⟩
  rw [List.cons_append, length] at h
  split at h
  · next hstart =>
      simp only [Bool.or_eq_true, decide_eq_true_eq] at hstart
      refine hstart.imp_right fun hesc => ?_
      obtain ⟨e, s, he, hsplit⟩ := exists_isEscape hesc
      cases he <;> exact (List.cons.inj hsplit).1
  · exact absurd rfl h

theorem scan_append {x r : Text} (hx : IsName x) (hr : Ends r) :
    scan (x ++ r) = (kindOf x r, x.length) := by
  have hpos : x.length ≠ 0 := by
    obtain ⟨-, c, hc, -⟩ := hx
    rintro hnil
    simp [List.length_eq_zero_iff.mp hnil] at hc
  rw [scan_eq, length_append hx hr.part_eq_zero, List.drop_left, List.take_left,
    if_neg (by simp [hr.unclosedEscape_eq_zero]), if_neg hpos]

/-- A name that is no error is a whole one. -/
theorem exists_isName_of_scan {cs : Text} (h : (scan cs).1 ≠ .error) :
    ∃ x r, cs = x ++ r ∧ IsName x ∧ part r = 0 ∧ scan cs = (kindOf x r, x.length) := by
  rw [scan_eq] at h ⊢
  split at h
  · exact absurd rfl h
  · next hclosed =>
      rw [if_neg hclosed]
      split at h
      · exact absurd rfl h
      · next hne =>
          obtain ⟨x, r, rfl, hx, hr⟩ := exists_isName hne
          refine ⟨x, r, rfl, hx, hr, ?_⟩
          rw [if_neg hne, length_append hx hr, List.drop_left, List.take_left]

theorem scanPrivate_append {x r : Text} (hx : IsName x) (hr : Ends r) :
    scanPrivate ('#' :: x ++ r) =
      (if isAllowed ('#' :: x) then .privateName else .error, x.length + 1) := by
  have hpos : x.length ≠ 0 := by
    obtain ⟨-, c, hc, -⟩ := hx
    rintro hnil
    simp [List.length_eq_zero_iff.mp hnil] at hc
  rw [scanPrivate_eq, List.cons_append, List.tail_cons, length_append hx hr.part_eq_zero,
    List.drop_left, if_neg (by simp [hr.unclosedEscape_eq_zero]), if_neg hpos,
    List.take_succ_cons, List.take_left]

theorem exists_isName_of_scanPrivate {cs : Text} (h : (scanPrivate ('#' :: cs)).1 ≠ .error) :
    ∃ x r, cs = x ++ r ∧ IsName x ∧ part r = 0 ∧ isAllowed ('#' :: x) = true ∧
      scanPrivate ('#' :: cs) = (.privateName, x.length + 1) := by
  rw [scanPrivate_eq, List.tail_cons] at h ⊢
  split at h
  · exact absurd rfl h
  · next hclosed =>
      rw [if_neg hclosed]
      split at h
      · exact absurd rfl h
      · next hne =>
          obtain ⟨x, r, rfl, hx, hr⟩ := exists_isName hne
          rw [if_neg hne]
          rw [length_append hx hr, List.take_succ_cons, List.take_left] at h ⊢
          split at h
          · next hallowed =>
              refine ⟨x, r, rfl, hx, hr, hallowed, ?_⟩
              rw [if_pos hallowed]
          · exact absurd rfl h

/-- White space above ASCII. -/
def blanks : List Nat :=
  [0xA0, 0xFEFF, 0x1680, 0x2000, 0x2001, 0x2002, 0x2003, 0x2004, 0x2005, 0x2006, 0x2007, 0x2008,
    0x2009, 0x200A, 0x2028, 0x2029, 0x202F, 0x205F, 0x3000]

/-- White space is no part of an identifier. -/
theorem not_isContinue_of_isBlank {c : Char} (h : isBlank c = true) (hc : 0x80 ≤ c.toNat) :
    Xid.isContinue c = false := by
  have hmem : c.toNat ∈ blanks := by
    simp only [isBlank, Bool.or_eq_true, Bool.and_eq_true, decide_eq_true_eq] at h
    simp only [blanks, List.mem_cons, List.not_mem_nil, or_false]
    omega
  have htable : ∀ n ∈ blanks,
      (Xid.inRanges Xid.startRanges n || Xid.inRanges Xid.extendRanges n) = false := by
    decide +kernel
  rw [Xid.isContinue, if_neg (Nat.not_lt.mpr hc)]
  exact htable _ hmem

end Name

/-! ## closing marks -/

namespace Delimited

/-- A reader that stops at a closing mark: what follows the mark does not matter. -/
structure Closes {α : Type} (f : Text → α) (cs : Text) (n : Nat) : Prop where
  pos : 0 < n
  le : n ≤ cs.length
  take : ∀ s, f (cs.take n ++ s) = f cs

/-- Characters in front of what is read to a closing mark.  Whether they join
what comes next may depend on its first character. -/
theorem Closes.prepend {α : Type} {f g : Text → α} {cs : Text} {n : Nat} (h : Closes f cs n)
    (x : Text)
    (hstep : ∀ cs', cs'.head? = cs.head? → f cs' = f cs → g (x ++ cs') = g (x ++ cs)) :
    Closes g (x ++ cs) (x.length + n) where
  pos := Nat.add_pos_right _ h.pos
  le := by
    rw [List.length_append]
    exact Nat.add_le_add_left h.le _
  take := by
    intro s
    rw [List.take_length_add_append, List.append_assoc]
    refine hstep _ ?_ (h.take s)
    have hpos := h.pos
    have hle := h.le
    cases cs with
    | nil => simp at hle; omega
    | cons c cs =>
        obtain ⟨k, rfl⟩ := Nat.exists_eq_succ_of_ne_zero (Nat.ne_of_gt hpos)
        rfl

theorem exists_cons_of_head?_eq {c : Char} {cs ds : Text} (h : (c :: ds).head? = cs.head?) :
    ∃ es, cs = c :: es := by
  cases cs with
  | nil => simp at h
  | cons e es => exact ⟨es, by simpa using h.symm⟩

theorem closes_comment {cs : Text} {n : Nat} (h : comment cs = some n) : Closes comment cs n := by
  fun_induction comment cs generalizing n with
  | case1 => simp at h
  | case2 cs =>
      obtain rfl : 2 = n := by simpa using h
      exact ⟨by decide, by simp, fun s => rfl⟩
  | case3 c cs hend ih =>
      obtain ⟨k, hk, rfl⟩ := Option.map_eq_some_iff.mp h
      rw [Nat.add_comm]
      refine (ih hk).prepend [c] fun cs' hhead hsame => ?_
      rw [List.singleton_append, List.singleton_append, comment, comment, hsame]
      · exact hend
      · rintro ds rfl rfl
        obtain ⟨es, rfl⟩ := exists_cons_of_head?_eq hhead
        exact hend es rfl rfl

theorem regexBody_cons {c : Char} (hc : c ≠ '\\') (inClass : Bool) (cs : Text) :
    regexBody inClass (c :: cs) =
      if isLineTerminator c then none
      else if c = '/' && !inClass then some 1
      else
        (regexBody (if c = '[' then true else if c = ']' then false else inClass) cs).map
          (· + 1) := by
  rw [regexBody]
  intro d ds hback
  exact absurd hback hc

theorem closes_regexBody {inClass : Bool} {cs : Text} {n : Nat}
    (h : regexBody inClass cs = some n) : Closes (regexBody inClass) cs n := by
  fun_induction regexBody inClass cs generalizing n with
  | case1 => simp at h
  | case2 => simp at h
  | case3 inClass c cs hline ih =>
      obtain ⟨k, hk, rfl⟩ := Option.map_eq_some_iff.mp h
      rw [Nat.add_comm]
      refine (ih hk).prepend ['\\', c] fun cs' _ hsame => ?_
      simp [regexBody, hline, hsame]
  | case4 => simp at h
  | case5 inClass c cs hback hline hclose =>
      obtain rfl : 1 = n := by simpa using h
      refine ⟨by decide, by simp, fun s => ?_⟩
      have hc : c ≠ '\\' := by
        rintro rfl
        simp at hclose
      rw [List.take_succ_cons, List.cons_append, regexBody_cons hc, regexBody_cons hc,
        if_neg hline, if_pos hclose, if_neg hline, if_pos hclose]
  | case6 inClass =>
      rename_i c cs hback _ _ _ ih
      obtain ⟨k, hk, rfl⟩ := Option.map_eq_some_iff.mp h
      have hc : c ≠ '\\' := by
        rintro rfl
        cases cs with
        | nil => simp [regexBody] at hk
        | cons d ds => exact hback d ds rfl rfl
      rw [Nat.add_comm]
      refine (ih hk).prepend [c] fun cs' hhead hsame => ?_
      rw [List.singleton_append, List.singleton_append, regexBody_cons hc, regexBody_cons hc, hsame]

theorem quoted_cons {quote c : Char} (hc : c ≠ '\\') (cs : Text) :
    quoted quote (c :: cs) =
      if c = quote then ⟨1, true⟩
      else if c = '\n' || c = '\r' then ⟨0, false⟩
      else (quoted quote cs).after 1 := by
  rw [quoted]
  all_goals
    intros
    contradiction

theorem closes_quoted {quote : Char} {cs : Text} (h : (quoted quote cs).closed = true) :
    Closes (quoted quote) cs (quoted quote cs).length := by
  fun_induction quoted quote cs with
  | case1 => simp at h
  | case2 => simp at h
  | case3 cs ih =>
      exact (ih h).prepend ['\\', '\r', '\n'] fun cs' _ hsame => by simp [quoted, hsame]
  | case4 => simp at h
  | case5 cs hend r hr ih =>
      refine (ih h).prepend ['\\', '\r'] fun cs' hhead hsame => ?_
      have hend' : ∀ ds, cs' = '\n' :: ds → False := by
        rintro ds rfl
        obtain ⟨es, rfl⟩ := exists_cons_of_head?_eq hhead
        exact hend es rfl
      simp [quoted, hsame]
  | case6 c cs _ hc ih =>
      refine (ih h).prepend ['\\', c] fun cs' _ hsame => ?_
      rw [List.cons_append, List.singleton_append, List.cons_append, List.singleton_append,
        quoted, quoted, hsame]
      all_goals
        intros
        contradiction
  | case7 cs h1 _ _ h2 =>
      have hc : quote ≠ '\\' := fun hq => by
        cases cs with
        | nil => exact h1 hq rfl
        | cons c cs => exact h2 c cs hq rfl
      refine ⟨by decide, by simp, fun s => ?_⟩
      simp [quoted_cons hc]
  | case8 => simp at h
  | case9 c cs h1 _ _ h2 hquote hline ih =>
      have hc : c ≠ '\\' := fun hq => by
        cases cs with
        | nil => exact h1 hq rfl
        | cons c cs => exact h2 c cs hq rfl
      refine (ih h).prepend [c] fun cs' _ hsame => ?_
      rw [List.singleton_append, List.singleton_append, quoted_cons hc, quoted_cons hc, hsame]

theorem closes_template {cs : Text} (h : (template cs).1 ≠ .error) :
    Closes template cs (template cs).2 := by
  fun_induction template cs with
  | case1 => simp at h
  | case2 c cs kind n hn ih =>
      rw [hn] at ih
      rw [Nat.add_comm]
      exact (ih h).prepend ['\\', c] fun cs' _ hsame => by simp [template, hsame]
  | case3 => exact ⟨by decide, by simp, fun s => rfl⟩
  | case4 => exact ⟨by decide, by simp, fun s => rfl⟩
  | case5 c cs hback htick hbrace kind n hn ih =>
      rw [hn] at ih
      rw [Nat.add_comm]
      refine (ih h).prepend [c] fun cs' hhead hsame => ?_
      rw [List.singleton_append, List.singleton_append, template, template, hsame]
      · exact hback
      · exact htick
      · exact hbrace
      · rintro d ds rfl rfl
        obtain ⟨es, rfl⟩ := exists_cons_of_head?_eq hhead
        exact hback d es rfl rfl
      · exact htick
      · rintro ds rfl rfl
        obtain ⟨es, rfl⟩ := exists_cons_of_head?_eq hhead
        exact hbrace es rfl rfl

end Delimited

/-- A stretch of characters of a class is read to its end exactly when something
else follows it. -/
theorem length_takeWhile_append_iff {p : Char → Bool} {x r : Text} :
    ((x ++ r).takeWhile p).length = x.length ↔
      (∀ c ∈ x, p c = true) ∧ ∀ c ∈ r.head?, p c = false := by
  induction x with
  | nil =>
      cases r with
      | nil => simp
      | cons c r => cases hc : p c <;> simp [hc]
  | cons c x ih => cases hc : p c <;> simp [hc, ih]

end FreeNames
