import FreeNames.Proofs.Relexing

/-!
# FreeNames.Proofs.Foresight

How far ahead a text is looked at when a token is read.  Nothing is looked for past a dot, but for
the slash that closes a regular expression, and names do not matter to that.  So a token in front of
a dot is read the same when names after the dot change, also if it is an error
(`Mode.scan_before_dot`).

* `Name.scan_before_dot`, `Name.scanPrivate_before_dot` — names and what is left of broken ones;
* `Delimited.quoted_before_dot` — strings that are not closed;
* `Reads` — tokens that are read before some text, whatever comes of the text itself.
-/

namespace FreeNames

/-- What has no dot and comes first lies in front of the dot. -/
theorem exists_append_of_no_dot {x r v s : Text} (h : x ++ r = v ++ '.' :: s)
    (hx : ∀ c ∈ x, c ≠ '.') : ∃ w, v = x ++ w ∧ r = w ++ '.' :: s := by
  rcases List.append_eq_append_iff.mp h with ⟨w, rfl, rfl⟩ | ⟨w, rfl, hw⟩
  · exact ⟨w, rfl, rfl⟩
  · cases w with
    | nil => exact ⟨[], by simp, by simpa using hw.symm⟩
    | cons c w =>
        obtain ⟨rfl, -⟩ := List.cons.inj hw
        exact absurd rfl (hx '.' (by simp))

/-- What comes first in front of a dot does not depend on what comes after it. -/
theorem head?_before_dot (v s s' : Text) : (v ++ '.' :: s').head? = (v ++ '.' :: s).head? := by
  cases v <;> rfl

/-! ## kinds of tokens by how they begin -/

theorem Name.scan_kind (cs : Text) :
    (scan cs).1 = .error ∨ (scan cs).1 = .ident ∨ ∃ k, (scan cs).1 = .keyword k := by
  rw [scan_eq, kindOf]
  repeat' split
  all_goals simp

theorem Delimited.template_kind (cs : Text) :
    (template cs).1 = .error ∨ (template cs).1 = .templateHead ∨
      (template cs).1 = .templateTail := by
  fun_induction template cs with
  | case1 => simp
  | case2 c cs kind n hn ih => rwa [hn] at ih
  | case3 => simp
  | case4 => simp
  | case5 c cs _ _ _ kind n hn ih => rwa [hn] at ih

namespace Mode

theorem scanHash_kind (first : Bool) (cs : Text) :
    (scanHash first cs).1 = .error ∨ (scanHash first cs).1 = .privateName ∨
      (scanHash first cs).1 = .trivia .shebang := by
  unfold scanHash
  split
  · simp only []
    split <;> simp
  · rw [Name.scanPrivate_eq]
    repeat' split
    all_goals simp

theorem scanQuoted_kind (quote : Char) (cs : Text) :
    (scanQuoted quote cs).1 = .error ∨ (scanQuoted quote cs).1 = .string := by
  unfold scanQuoted
  simp only []
  split <;> simp

theorem scanPunct_kind (cs : Text) :
    (scanPunct cs).1 = .error ∨ ∃ p, (scanPunct cs).1 = .punct p := by
  unfold scanPunct
  split <;> simp

end Mode

/-! ## names -/

namespace Name

theorem IsEscape.ne_dot {e : Text} (he : IsEscape e) : ∀ c ∈ e, c ≠ '.' := by
  simpa using (Parts.escape he .nil).ne_dot

theorem escape_before_dot (v s s' : Text) : escape (v ++ '.' :: s') = escape (v ++ '.' :: s) := by
  -- an escape after one rest is one after the other
  have himp {s s' : Text} (h : escape (v ++ '.' :: s) ≠ 0) :
      escape (v ++ '.' :: s') = escape (v ++ '.' :: s) := by
    obtain ⟨e, r, he, hsplit⟩ := exists_isEscape h
    obtain ⟨w, rfl, -⟩ := exists_append_of_no_dot hsplit.symm he.ne_dot
    rw [List.append_assoc, List.append_assoc, escape_append he, escape_append he]
  by_cases h : escape (v ++ '.' :: s) = 0
  · by_cases h' : escape (v ++ '.' :: s') = 0
    · rw [h, h']
    · exact (himp h').symm
  · exact himp h

theorem part_before_dot (v s s' : Text) : part (v ++ '.' :: s') = part (v ++ '.' :: s) := by
  have hescape := escape_before_dot v s s'
  cases v with
  | nil => rfl
  | cons c v =>
      rw [List.cons_append, List.cons_append] at hescape ⊢
      rw [part, part, hescape]

theorem length_before_dot (v s s' : Text) : length (v ++ '.' :: s') = length (v ++ '.' :: s) := by
  have himp {s s' : Text} (h : length (v ++ '.' :: s) ≠ 0) :
      length (v ++ '.' :: s') = length (v ++ '.' :: s) := by
    obtain ⟨x, r, hsplit, hx, hr⟩ := exists_isName h
    obtain ⟨w, rfl, rfl⟩ := exists_append_of_no_dot hsplit.symm hx.parts.ne_dot
    have hr' : part (w ++ '.' :: s') = 0 := by rw [part_before_dot w s s', hr]
    rw [List.append_assoc, List.append_assoc, length_append hx hr, length_append hx hr']
  by_cases h : length (v ++ '.' :: s) = 0
  · by_cases h' : length (v ++ '.' :: s') = 0
    · rw [h, h']
    · exact (himp h').symm
  · exact himp h

/-- A name in front of a dot does not reach past it. -/
theorem length_le_before_dot (v s : Text) : length (v ++ '.' :: s) ≤ v.length := by
  by_cases h : length (v ++ '.' :: s) = 0
  · omega
  · obtain ⟨x, r, hsplit, hx, hr⟩ := exists_isName h
    obtain ⟨w, rfl, rfl⟩ := exists_append_of_no_dot hsplit.symm hx.parts.ne_dot
    rw [List.append_assoc, length_append hx hr, List.length_append]
    omega

theorem hexRun_before_dot (v s s' : Text) : hexRun (v ++ '.' :: s') = hexRun (v ++ '.' :: s) := by
  induction v with
  | nil => rfl
  | cons c v ih =>
      simp only [hexRun, List.cons_append, List.takeWhile_cons] at ih ⊢
      split
      · rw [List.length_cons, List.length_cons, ih]
      · rfl

theorem hexRun_le_before_dot (v s : Text) : hexRun (v ++ '.' :: s) ≤ v.length := by
  induction v with
  | nil => exact Nat.le_refl 0
  | cons c v ih =>
      simp only [hexRun, List.cons_append, List.takeWhile_cons] at ih ⊢
      split
      · rw [List.length_cons, List.length_cons]
        omega
      · exact Nat.zero_le _

theorem unclosedEscape_before_dot (v s s' : Text) :
    unclosedEscape (v ++ '.' :: s') = unclosedEscape (v ++ '.' :: s) := by
  by_cases h : ∃ w, v = '\\' :: 'u' :: '\x7b' :: w
  · obtain ⟨w, rfl⟩ := h
    have hle := hexRun_le_before_dot w s
    simp only [List.cons_append, unclosedEscape, hexRun_before_dot w s s',
      List.drop_append_of_le_length hle, head?_before_dot _ s s']
  · have hnone (s : Text) : unclosedEscape (v ++ '.' :: s) = 0 := by
      unfold unclosedEscape
      split
      · next cs heq =>
          rcases v with _ | ⟨a, _ | ⟨b, _ | ⟨c, v⟩⟩⟩
          all_goals simp at heq
          obtain ⟨rfl, rfl, rfl, -⟩ := heq
          exact absurd ⟨v, rfl⟩ h
      · rfl
    rw [hnone, hnone]

theorem scan_before_dot (v s s' : Text) : scan (v ++ '.' :: s') = scan (v ++ '.' :: s) := by
  have hle := length_le_before_dot v s
  simp only [scan_eq, length_before_dot v s s', List.drop_append_of_le_length hle,
    List.take_append_of_le_length hle, unclosedEscape_before_dot _ s s', kindOf,
    head?_before_dot _ s s']

theorem scanPrivate_before_dot (v s s' : Text) :
    scanPrivate ('#' :: (v ++ '.' :: s')) = scanPrivate ('#' :: (v ++ '.' :: s)) := by
  have hle := length_le_before_dot v s
  simp only [scanPrivate_eq, List.tail_cons, length_before_dot v s s',
    List.drop_append_of_le_length hle, List.take_succ_cons, List.take_append_of_le_length hle,
    unclosedEscape_before_dot _ s s']

end Name

/-! ## strings and templates -/

namespace Delimited

theorem length_quoted_dot {quote : Char} (hquote : quote ≠ '.') (s : Text) :
    0 < (quoted quote ('.' :: s)).length := by
  rw [quoted_cons (by decide), if_neg (Ne.symm hquote), if_neg (by decide), Reach.after]
  simp only []
  omega

theorem quoted_escaped {quote c : Char} (hc : c ≠ '\r') (cs : Text) :
    quoted quote ('\\' :: c :: cs) = (quoted quote cs).after 2 := by
  rw [quoted]
  all_goals
    intros
    contradiction

theorem quoted_return {quote : Char} {cs : Text} (hcs : ∀ ds, cs ≠ '\n' :: ds) :
    quoted quote ('\\' :: '\r' :: cs) =
      if quoted quote cs = ⟨0, false⟩ then ⟨1, false⟩ else (quoted quote cs).after 2 := by
  rw [quoted]
  exact hcs

/-- A string that ends in front of a dot without being closed ends at a line end there. -/
theorem quoted_before_dot {quote : Char} (hquote : quote ≠ '.') {s : Text} (s' : Text) (v : Text)
    (hopen : (quoted quote (v ++ '.' :: s)).closed = false)
    (hle : (quoted quote (v ++ '.' :: s)).length ≤ v.length) :
    quoted quote (v ++ '.' :: s') = quoted quote (v ++ '.' :: s) := by
  have hdot := length_quoted_dot hquote s
  -- a backslash takes one more character or two with it
  induction hn : v.length using Nat.strongRecOn generalizing v with
  | ind n ih =>
      subst hn
      rcases v with _ | ⟨c, v⟩
      · simp only [List.nil_append, List.length_nil] at hle
        omega
      by_cases hc : c = '\\'
      · subst hc
        rcases v with _ | ⟨d, v⟩
        · rw [List.singleton_append, quoted_escaped (by decide)] at hle
          simp only [Reach.after, List.length_singleton] at hle
          omega
        simp only [List.cons_append] at hopen hle ⊢
        by_cases hd : d = '\r'
        · subst hd
          by_cases hv : ∃ w, v = '\n' :: w
          · obtain ⟨w, rfl⟩ := hv
            simp only [List.cons_append, quoted, Reach.after, List.length_cons] at hopen hle ⊢
            rw [ih w.length (by grind) w hopen (by omega) rfl]
          · have hend (s ds : Text) : v ++ '.' :: s ≠ '\n' :: ds := by
              rcases v with _ | ⟨e, v⟩
              · simp
              · rintro heq
                exact hv ⟨v, by rw [(List.cons.inj heq).1]⟩
            rw [quoted_return (hend s)] at hopen hle ⊢
            rw [quoted_return (hend s')]
            have hsame : quoted quote (v ++ '.' :: s') = quoted quote (v ++ '.' :: s) := by
              split at hopen
              · next hr => exact ih v.length (by grind) v (by rw [hr]) (by simp [hr]) rfl
              · next hr =>
                  rw [if_neg hr] at hle
                  simp only [Reach.after, List.length_cons] at hopen hle
                  exact ih v.length (by grind) v hopen (by omega) rfl
            rw [hsame]
        · rw [quoted_escaped hd] at hopen hle ⊢
          rw [quoted_escaped hd]
          simp only [Reach.after, List.length_cons] at hopen hle ⊢
          rw [ih v.length (by grind) v hopen (by omega) rfl]
      · rw [List.cons_append, quoted_cons hc] at hopen hle ⊢
        rw [List.cons_append, quoted_cons hc]
        by_cases hq : c = quote
        · simp [hq] at hopen
        rw [if_neg hq] at hopen hle ⊢
        rw [if_neg hq]
        split at hopen
        · next hline => rw [if_pos hline, if_pos hline]
        · next hline =>
            rw [if_neg hline] at hle ⊢
            rw [if_neg hline]
            simp only [Reach.after, List.length_cons] at hopen hle ⊢
            rw [ih v.length (by grind) v hopen (by omega) rfl]

/-- A chunk that does not end reaches the end of the text. -/
theorem template_eq_length_of_error {cs : Text} (h : (template cs).1 = .error) :
    (template cs).2 = cs.length := by
  fun_induction template cs with
  | case1 => rfl
  | case2 c cs kind n hn ih =>
      rw [hn] at ih
      simpa using ih h
  | case3 => simp at h
  | case4 => simp at h
  | case5 c cs _ _ _ kind n hn ih =>
      rw [hn] at ih
      simpa using ih h

end Delimited

/-! ## tokens -/

namespace Mode

variable {m : Mode} {first : Bool} {u y x s s' : Text} {k : TokenKind}

section

variable (h : Swapped s s')

include h in
theorem swapped_before_dot (u : Text) : Swapped (u ++ '.' :: s) (u ++ '.' :: s') :=
  (Swapped.keep '.' h).append_left u

include h in
theorem scanSlash_before_dot
    (hs : m.scanSlash ('/' :: (y ++ (u ++ '.' :: s))) = (k, y.length + 1)) :
    m.scanSlash ('/' :: (y ++ (u ++ '.' :: s'))) = (k, y.length + 1) := by
  have hswapped := swapped_before_dot h u
  have hhead := head?_before_dot u s s'
  by_cases hk : k = .error
  · by_cases hmark : ∀ c ∈ (y ++ (u ++ '.' :: s)).head?, (c = '/' || c = '*') = false
    · exact scanSlash_unmarked_swapped hswapped hmark hs fun _ => hhead
    · -- a comment that is not closed would take the dot with it
      subst hk
      obtain ⟨c, cs, hcs⟩ : ∃ c cs, y ++ (u ++ '.' :: s) = c :: cs :=
        List.exists_cons_of_ne_nil (by simp)
      have hlength := congrArg List.length hcs
      rw [hcs] at hmark hs
      have hc : c = '/' ∨ c = '*' := Decidable.or_iff_not_imp_left.mpr (by simpa using hmark)
      simp only [List.length_append, List.length_cons] at hlength
      rcases hc with rfl | rfl
      · simp [scanSlash] at hs
      · simp only [scanSlash] at hs
        split at hs
        · simp at hs
        · have hend := (Prod.mk.inj hs).2
          omega
  · exact scanSlash_swapped hswapped hs hk fun _ => hhead

include h in
theorem scanHash_before_dot
    (hs : scanHash first ('#' :: (y ++ (u ++ '.' :: s))) = (k, y.length + 1)) :
    scanHash first ('#' :: (y ++ (u ++ '.' :: s'))) = (k, y.length + 1) := by
  have hhead := head?_before_dot (y ++ u) s s'
  rw [List.append_assoc, List.append_assoc] at hhead
  by_cases hmark : ∀ c ∈ (y ++ (u ++ '.' :: s)).head?, c ≠ '!'
  · rw [scanHash_eq first hmark] at hs
    rw [scanHash_eq first (hhead ▸ hmark)]
    rw [← List.append_assoc] at hs ⊢
    rw [Name.scanPrivate_before_dot _ s s', hs]
  · cases y with
    | nil =>
        obtain ⟨c, cs, hcs⟩ : ∃ c cs, u ++ '.' :: s = c :: cs :=
          List.exists_cons_of_ne_nil (by simp)
        rw [List.nil_append, hcs] at hmark hs
        obtain rfl : c = '!' := by simpa using hmark
        simp only [scanHash, Prod.mk.injEq, List.length_nil] at hs
        omega
    | cons c y =>
        obtain rfl : c = '!' := by simpa using hmark
        exact shebang_swapped (swapped_before_dot h u) hs

theorem scanQuoted_before_dot {quote : Char} (hquote : quote ≠ '.')
    (hs : scanQuoted quote (y ++ (u ++ '.' :: s)) = (k, y.length + 1)) :
    scanQuoted quote (y ++ (u ++ '.' :: s')) = (k, y.length + 1) := by
  by_cases hk : k = .error
  · subst hk
    obtain ⟨hkind, hlength⟩ := Prod.mk.inj hs
    have hopen : (Delimited.quoted quote (y ++ u ++ '.' :: s)).closed = false := by
      rw [List.append_assoc]
      simpa using hkind
    have hle : (Delimited.quoted quote (y ++ u ++ '.' :: s)).length ≤ (y ++ u).length := by
      rw [List.append_assoc, List.length_append]
      omega
    have hsame := Delimited.quoted_before_dot hquote s' (y ++ u) hopen hle
    rw [List.append_assoc, List.append_assoc] at hsame
    rw [scanQuoted, hsame]
    exact hs
  · exact scanQuoted_swapped hs hk

theorem scanTemplate_before_dot
    (hs : scanTemplate (y ++ (u ++ '.' :: s)) = (k, y.length + 1)) :
    scanTemplate (y ++ (u ++ '.' :: s')) = (k, y.length + 1) := by
  refine scanTemplate_swapped hs fun hk => ?_
  obtain ⟨hkind, hlength⟩ := Prod.mk.inj hs
  have hend := Delimited.template_eq_length_of_error (hkind.trans hk)
  simp only [List.length_append, List.length_cons] at hend
  omega

theorem number_before_dot (hx : x ≠ []) (hs : Number.length (x ++ (u ++ '.' :: s)) = x.length) :
    Number.length (x ++ (u ++ '.' :: s')) = x.length := by
  have hpos := List.length_pos_iff.mpr hx
  have hsplit (s : Text) : x ++ (u ++ '.' :: s) = (x ++ u ++ ['.']) ++ s := by simp
  rw [hsplit] at hs ⊢
  rw [Number.length_append s' ?_ ?_ ?_]
  · exact hs
  · simp only [List.length_append, List.length_singleton]
    omega
  · rw [hs]
    simp only [List.length_append, List.length_singleton]
    omega
  · simp

include h in
/-- A token in front of a dot is read the same when names after the dot change. -/
theorem scan_before_dot (hx : x ≠ []) (hs : m.scan first (x ++ (u ++ '.' :: s)) = (k, x.length)) :
    m.scan first (x ++ (u ++ '.' :: s')) = (k, x.length) := by
  refine scan_of_readers (swapped_before_dot h u) hx hs (scanSlash_before_dot h)
    (scanHash_before_dot h) scanQuoted_before_dot scanTemplate_before_dot (fun hs => ?_)
    (fun _ hlen => number_before_dot hx hlen)
  have hsame := Name.scan_before_dot (x ++ u) s s'
  simp only [List.append_assoc] at hsame
  exact hsame.trans hs

end

end Mode

/-! ## runs of tokens -/

/-- Tokens that are read one after the other in front of a text. -/
def Reads (r : Text) : Mode → Bool → List Token → Prop
  | _, _, [] => True
  | m, first, t :: ts =>
    t.text ≠ [] ∧ m.scan first (t.text ++ (Token.concat ts ++ r)) = (t.kind, t.text.length) ∧
      Reads r (m.after t) false ts

/-- Tokens are read in front of others, and the others in the mode after them. -/
theorem lexed_append_iff {m : Mode} {first : Bool} {ts us : List Token} :
    Lexed m first (ts ++ us) ↔ Reads (Token.concat us) m first ts ∧
      Lexed (ts.foldl Mode.after m) (first && ts.isEmpty) us := by
  induction ts generalizing m first with
  | nil => simp [Reads]
  | cons t ts ih =>
      have hrest : Lexed (m.after t) false (ts ++ us) ↔ _ := ih
      rw [Bool.false_and] at hrest
      simp only [List.cons_append, Reads, List.foldl_cons, List.isEmpty_cons, Bool.and_false,
        and_assoc, ← hrest, ← Token.concat_append]
      constructor
      · rintro (_ | ⟨hne, hscan, hlexed⟩)
        exact ⟨hne, hscan, hlexed⟩
      · rintro ⟨hne, hscan, hlexed⟩
        exact .cons hne hscan hlexed

/-- Tokens in front of a dot are read the same when names after the dot change. -/
theorem Reads.before_dot {u s s' : Text} (h : Swapped s s') {m : Mode} {first : Bool}
    {ts : List Token} (hreads : Reads (u ++ '.' :: s) m first ts) :
    Reads (u ++ '.' :: s') m first ts := by
  induction ts generalizing m first with
  | nil => exact trivial
  | cons t ts ih =>
      obtain ⟨hne, hscan, hrest⟩ := hreads
      refine ⟨hne, ?_, ih hrest⟩
      rw [← List.append_assoc (Token.concat ts)] at hscan ⊢
      exact Mode.scan_before_dot h hne hscan

end FreeNames
