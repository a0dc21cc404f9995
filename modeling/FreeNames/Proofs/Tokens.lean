import FreeNames.Proofs.Bytes
import FreeNames.Token.Tokenize

/-!
# FreeNames.Proofs.Tokens

The tokens of a text spell the text and none of them is empty.  Hence each token
covers a range of bytes of its own (`Token.locate`), and where a token starts
says which token it is.
-/

namespace FreeNames

/-! ## no token is empty -/

theorem Punct.spelling_ne_nil (p : Punct) : p.spelling ≠ [] := by
  cases p <;> decide

namespace Name

theorem scan_eq (cs : Text) :
    scan cs =
      if unclosedEscape (cs.drop (length cs)) ≠ 0 then
        (.error, length cs + unclosedEscape (cs.drop (length cs)))
      else if length cs = 0 then (.error, 1)
      else (kindOf (cs.take (length cs)) (cs.drop (length cs)), length cs) := by
  unfold scan
  generalize length cs = n
  simp only []
  generalize unclosedEscape (cs.drop n) = k
  cases k <;> cases n <;> simp

theorem scanPrivate_eq (cs : Text) :
    scanPrivate cs =
      if unclosedEscape (cs.tail.drop (length cs.tail)) ≠ 0 then
        (.error, length cs.tail + 1 + unclosedEscape (cs.tail.drop (length cs.tail)))
      else if length cs.tail = 0 then (.error, 1)
      else
        (if isAllowed (cs.take (length cs.tail + 1)) then .privateName else .error,
          length cs.tail + 1) := by
  unfold scanPrivate
  generalize length cs.tail = n
  simp only []
  generalize unclosedEscape (cs.tail.drop n) = k
  cases k <;> cases n <;> simp

theorem scan_pos (cs : Text) : 0 < (scan cs).2 := by
  rw [scan_eq]
  split
  · simp only []; omega
  · split
    · exact Nat.one_pos
    · next h => exact Nat.pos_of_ne_zero h

theorem scanPrivate_pos (cs : Text) : 0 < (scanPrivate cs).2 := by
  rw [scanPrivate_eq]
  split
  · simp only []; omega
  · split <;> simp only [] <;> omega

end Name

namespace Mode

theorem scanPunct_pos (cs : Text) : 0 < (scanPunct cs).2 := by
  unfold scanPunct
  split
  · next p _ => exact List.length_pos_iff.mpr p.spelling_ne_nil
  · exact Nat.one_pos

theorem scanSlash_pos (m : Mode) (cs : Text) : 0 < (m.scanSlash cs).2 := by
  unfold scanSlash
  split
  · simp only []; omega
  · split <;> simp only [] <;> omega
  · split
    · simp only []; omega
    · exact scanPunct_pos _

end Mode

theorem Mode.scanHash_pos (first : Bool) (cs : Text) : 0 < (scanHash first cs).2 := by
  unfold scanHash
  split
  · simp only []; omega
  · exact Name.scanPrivate_pos _

/-- How the token at the start of a text is read, by its first character. -/
inductive Mode.Scan (m : Mode) (first : Bool) (c : Char) (cs : Text) : TokenKind × Nat → Prop
  | blank (hc : Name.isBlank c = true) :
    Scan m first c cs (.trivia .whitespace, 1 + (cs.takeWhile Name.isBlank).length)
  | slash (hc : c = '/') : Scan m first c cs (m.scanSlash (c :: cs))
  | hash (hc : c = '#') : Scan m first c cs (scanHash first (c :: cs))
  | quoted (hc : c = '\x22' ∨ c = '\x27') : Scan m first c cs (scanQuoted c cs)
  | template (hc : c = '\x60' ∨ c = '\x7d' ∧ m.braces.head? = some .template) :
    Scan m first c cs (scanTemplate cs)
  | number (hn : Number.length (c :: cs) ≠ 0) : Scan m first c cs (.number, Number.length (c :: cs))
  | name (hc : Name.isStartChar c = true ∨ c = '\\') (hn : Number.length (c :: cs) = 0) :
    Scan m first c cs (Name.scan (c :: cs))
  | punct (hn : Number.length (c :: cs) = 0) : Scan m first c cs (scanPunct (c :: cs))

theorem Mode.scan_spec (m : Mode) (first : Bool) (c : Char) (cs : Text) :
    m.Scan first c cs (m.scan first (c :: cs)) := by
  rw [scan]
  split
  · next h => exact .blank h
  split
  · next h => exact .slash h
  split
  · next h => exact .hash h
  split
  · next h => exact .quoted (by simpa using h)
  split
  · next h => exact .template (by simpa using h)
  split
  · next hn =>
      split
      · next h => exact .name (by simpa using h) hn
      · exact .punct hn
  · next hn => exact .number hn

/-- A token takes at least one character. -/
theorem Mode.scan_pos (m : Mode) (first : Bool) (c : Char) (cs : Text) :
    0 < (m.scan first (c :: cs)).2 := by
  have hs := m.scan_spec first c cs
  generalize m.scan first (c :: cs) = r at hs ⊢
  cases hs with
  | blank _ => simp only []; omega
  | slash _ => exact m.scanSlash_pos _
  | hash _ => exact scanHash_pos first _
  | quoted _ => simp only [scanQuoted]; omega
  | template _ => simp only [scanTemplate]; omega
  | number hn => exact Nat.pos_of_ne_zero hn
  | name _ _ => exact Name.scan_pos _
  | punct _ => exact scanPunct_pos _

theorem Token.concat_cons (t : Token) (ts : List Token) :
    Token.concat (t :: ts) = t.text ++ Token.concat ts := rfl

theorem Token.concat_append (ss ts : List Token) :
    Token.concat (ss ++ ts) = Token.concat ss ++ Token.concat ts := by
  simp [Token.concat]

/-- The tokens read from a text spell it, when the bound allows for one token a
character. -/
theorem concat_tokensFrom {bound : Nat} {m : Mode} {first : Bool} {text : Text}
    (h : text.length ≤ bound) : Token.concat (tokensFrom bound m first text) = text := by
  induction bound generalizing m first text with
  | zero =>
      have hnil : text = [] := List.length_eq_zero_iff.mp (by omega)
      subst hnil
      rfl
  | succ bound ih =>
      cases text with
      | nil => rfl
      | cons c cs =>
          have hpos := m.scan_pos first c cs
          have hrest : ((c :: cs).drop (m.scan first (c :: cs)).2).length ≤ bound := by
            rw [List.length_drop]
            simp only [List.length_cons] at h ⊢
            omega
          rw [tokensFrom, Token.concat_cons, ih hrest]
          exact List.take_append_drop _ _

/-- The tokens of a text spell it. -/
theorem concat_tokenize (text : Text) : Token.concat (tokenize text) = text :=
  concat_tokensFrom (Nat.le_refl _)

/-- Each token is what is scanned at some place of the text. -/
theorem exists_scan_of_mem_tokensFrom {bound : Nat} {m : Mode} {first : Bool} {text : Text}
    {t : Token} (h : t ∈ tokensFrom bound m first text) :
    ∃ (m : Mode) (first : Bool) (c : Char) (cs : Text),
      t = ⟨(m.scan first (c :: cs)).1, (c :: cs).take (m.scan first (c :: cs)).2⟩ := by
  induction bound generalizing m first text with
  | zero => simp [tokensFrom] at h
  | succ bound ih =>
      cases text with
      | nil => simp [tokensFrom] at h
      | cons c cs =>
          rw [tokensFrom, List.mem_cons] at h
          rcases h with rfl | h
          · exact ⟨m, first, c, cs, rfl⟩
          · exact ih h

/-- No token of a text is empty. -/
theorem text_ne_nil_of_mem_tokenize {text : Text} {t : Token} (h : t ∈ tokenize text) :
    t.text ≠ [] := by
  obtain ⟨m, first, c, cs, rfl⟩ := exists_scan_of_mem_tokensFrom h
  have hpos := m.scan_pos first c cs
  simp only [ne_eq, List.take_eq_nil_iff, reduceCtorEq, or_false]
  omega

/-! ## reserved words -/

theorem Keyword.spelling_of_ofText? {text : Text} {k : Keyword} (h : ofText? text = some k) :
    k.spelling = text := by
  simpa using List.find?_some h

theorem Name.spelling_of_scan {cs : Text} {k : Keyword} (h : (scan cs).1 = .keyword k) :
    cs.take (scan cs).2 = k.spelling := by
  rw [scan_eq] at h ⊢
  split at h
  · simp at h
  · next hclosed =>
      rw [if_neg hclosed]
      split at h
      · simp at h
      · next hne =>
          rw [if_neg hne]
          simp only [kindOf] at h ⊢
          split at h
          · next w hw =>
              obtain rfl : w = k := by simpa using h
              split at hw
              · simp at hw
              · exact (Keyword.spelling_of_ofText? hw).symm
          · split at h <;> simp at h

namespace Mode

theorem scanPunct_not_name (cs : Text) : (scanPunct cs).1.isIdentifierName = false := by
  unfold scanPunct
  split <;> rfl

theorem scanSlash_not_name (m : Mode) (cs : Text) :
    (m.scanSlash cs).1.isIdentifierName = false := by
  unfold scanSlash
  split
  · rfl
  · split <;> rfl
  · split
    · rfl
    · exact scanPunct_not_name _

theorem scanHash_not_name (first : Bool) (cs : Text) :
    (scanHash first cs).1.isIdentifierName = false := by
  unfold scanHash
  split
  · cases first <;> rfl
  · rw [Name.scanPrivate_eq]
    split
    · rfl
    · split
      · rfl
      · simp only []
        split <;> rfl

theorem template_not_name (cs : Text) : (Delimited.template cs).1.isIdentifierName = false := by
  fun_induction Delimited.template cs <;> simp_all [TokenKind.isIdentifierName]

/-- An identifier or a reserved word is read as a name. -/
theorem scan_eq_of_isIdentifierName {m : Mode} {first : Bool} {c : Char} {cs : Text}
    (h : (m.scan first (c :: cs)).1.isIdentifierName = true) :
    m.scan first (c :: cs) = Name.scan (c :: cs) := by
  have hs := m.scan_spec first c cs
  generalize m.scan first (c :: cs) = r at h hs ⊢
  cases hs with
  | blank _ => simp [TokenKind.isIdentifierName] at h
  | slash _ => simp [scanSlash_not_name] at h
  | hash _ => simp [scanHash_not_name] at h
  | quoted _ =>
      simp only [scanQuoted] at h
      split at h <;> simp [TokenKind.isIdentifierName] at h
  | template _ => simp [scanTemplate, template_not_name] at h
  | number _ => simp [TokenKind.isIdentifierName] at h
  | name _ _ => rfl
  | punct _ => simp [scanPunct_not_name] at h

/-- A reserved word is spelt as such. -/
theorem spelling_of_scan {m : Mode} {first : Bool} {cs : Text} {k : Keyword}
    (h : (m.scan first cs).1 = .keyword k) : cs.take (m.scan first cs).2 = k.spelling := by
  cases cs with
  | nil => simp [scan] at h
  | cons c cs =>
      have hname := scan_eq_of_isIdentifierName (m := m) (show _ = true by rw [h]; rfl)
      rw [hname] at h ⊢
      exact Name.spelling_of_scan h

end Mode

theorem text_eq_spelling {text : Text} {t : Token} {k : Keyword} (h : t ∈ tokenize text)
    (hk : t.kind = .keyword k) : t.text = k.spelling := by
  obtain ⟨m, first, c, cs, rfl⟩ := exists_scan_of_mem_tokensFrom h
  exact Mode.spelling_of_scan hk

/-! ## where tokens stand -/

namespace Token

/-- Bytes that tokens take together. -/
def sizeAll (ts : List Token) : Nat := Text.size (concat ts)

@[simp] theorem sizeAll_nil : sizeAll [] = 0 := rfl

@[simp] theorem sizeAll_cons (t : Token) (ts : List Token) :
    sizeAll (t :: ts) = t.size + sizeAll ts := by
  simp [sizeAll, concat_cons, Token.size]

@[simp] theorem sizeAll_append (ss ts : List Token) :
    sizeAll (ss ++ ts) = sizeAll ss + sizeAll ts := by
  simp [sizeAll, concat_append]

@[simp] theorem locate_nil (offset : Nat) : locate offset [] = [] := rfl

@[simp] theorem locate_cons (offset : Nat) (t : Token) (ts : List Token) :
    locate offset (t :: ts) = (offset, t) :: locate (offset + t.size) ts := rfl

theorem locate_append (offset : Nat) (ss ts : List Token) :
    locate offset (ss ++ ts) = locate offset ss ++ locate (offset + sizeAll ss) ts := by
  induction ss generalizing offset with
  | nil => simp
  | cons s ss ih => simp [ih, Nat.add_assoc]

@[simp] theorem map_snd_locate (offset : Nat) (ts : List Token) :
    (locate offset ts).map Prod.snd = ts := by
  induction ts generalizing offset with
  | nil => rfl
  | cons t ts ih => simp [ih]

/-- A token that stands at an offset has tokens of that size before it. -/
theorem mem_locate_iff {offset o : Nat} {t : Token} {ts : List Token} :
    (o, t) ∈ locate offset ts ↔
      ∃ before after, ts = before ++ t :: after ∧ o = offset + sizeAll before := by
  induction ts generalizing offset with
  | nil => simp
  | cons s ts ih =>
      rw [locate_cons, List.mem_cons, ih]
      constructor
      · rintro (h | ⟨before, after, rfl, rfl⟩)
        · obtain ⟨rfl, rfl⟩ := Prod.mk.inj h
          exact ⟨[], ts, rfl, by simp⟩
        · exact ⟨s :: before, after, rfl, by simp [Nat.add_assoc]⟩
      · rintro ⟨before, after, hsplit, rfl⟩
        cases before with
        | nil =>
            obtain ⟨rfl, rfl⟩ := List.cons.inj hsplit
            exact Or.inl (by simp)
        | cons b before =>
            obtain ⟨rfl, rfl⟩ := List.cons.inj hsplit
            exact Or.inr ⟨before, after, rfl, by simp [Nat.add_assoc]⟩

theorem le_of_mem_locate {offset o : Nat} {t : Token} {ts : List Token}
    (h : (o, t) ∈ locate offset ts) : offset ≤ o := by
  obtain ⟨before, after, -, rfl⟩ := mem_locate_iff.mp h
  omega

/-- Tokens that are not empty start at offsets that go up, each where the one
before it stops or later. -/
theorem locate_pairwise (offset : Nat) (ts : List Token) :
    (locate offset ts).Pairwise fun a b => a.1 + a.2.size ≤ b.1 := by
  induction ts generalizing offset with
  | nil => exact .nil
  | cons t ts ih =>
      rw [locate_cons]
      refine .cons ?_ (ih _)
      rintro ⟨o, s⟩ hmem
      exact le_of_mem_locate hmem

theorem size_pos {t : Token} (h : t.text ≠ []) : 0 < t.size := Text.size_pos h

theorem mem_of_mem_locate {offset o : Nat} {t : Token} {ts : List Token}
    (h : (o, t) ∈ locate offset ts) : t ∈ ts := by
  rw [← map_snd_locate offset ts]
  exact List.mem_map_of_mem h

theorem locate_strict {offset : Nat} {ts : List Token} (hne : ∀ t ∈ ts, t.text ≠ []) :
    (locate offset ts).Pairwise fun a b => a.1 < b.1 := by
  refine (locate_pairwise offset ts).imp_of_mem fun {a b} ha _ hle => ?_
  have hpos := size_pos (hne a.2 (mem_of_mem_locate ha))
  omega

/-- Where a token starts says which one it is. -/
theorem eq_of_mem_locate {offset o : Nat} {s t : Token} {ts : List Token}
    (hne : ∀ t ∈ ts, t.text ≠ []) (hs : (o, s) ∈ locate offset ts)
    (ht : (o, t) ∈ locate offset ts) : s = t := by
  induction ts generalizing offset with
  | nil => simp at hs
  | cons u ts ih =>
      have hpos := size_pos (hne u List.mem_cons_self)
      have hne' : ∀ t ∈ ts, t.text ≠ [] := fun t ht => hne t (List.mem_cons_of_mem u ht)
      rw [locate_cons, List.mem_cons] at hs ht
      rcases hs with hs | hs <;> rcases ht with ht | ht
      · exact (Prod.mk.inj hs).2.trans (Prod.mk.inj ht).2.symm
      · -- a later token starts past this one
        have hle := le_of_mem_locate ht
        obtain ⟨rfl, -⟩ := Prod.mk.inj hs
        omega
      · have hle := le_of_mem_locate hs
        obtain ⟨rfl, -⟩ := Prod.mk.inj ht
        omega
      · exact ih hne' hs ht

end Token

end FreeNames
