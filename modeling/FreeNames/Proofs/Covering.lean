import FreeNames.Proofs.Relexing
import Mathlib.Algebra.Ring.Nat

/-!
# FreeNames.Proofs.Covering

The tokens of a text cover it.  Tokens are read one after another until nothing
is left; reading comes to an end because each token takes at least one character
and never more than there are, also where a comment, a string, a template or an
escape is not closed.

Offsets are sums of sizes.  A counter of 32 bits that is moved on with every token
(`Token.count`) never wraps in a text that is short enough, so it gives the same
offsets.

Main statement: `tokenize_covers`.
-/

namespace FreeNames

namespace Token

/-- Tokens with what a counter of 32 bits shows in front of each. -/
def count (offset : UInt32) : List Token → List (UInt32 × Token)
  | [] => []
  | t :: ts => (offset, t) :: count (offset + UInt32.ofNat t.size) ts

theorem sizeAll_eq_sum (ts : List Token) : sizeAll ts = (ts.map size).sum := by
  induction ts with
  | nil => rfl
  | cons t ts ih => simp [ih]

/-- The counter does not wrap before the last token. -/
theorem map_count {offset : UInt32} {ts : List Token}
    (h : offset.toNat + sizeAll ts < 2 ^ 32) :
    (count offset ts).map (fun p => (p.1.toNat, p.2)) = locate offset.toNat ts := by
  induction ts generalizing offset with
  | nil => rfl
  | cons t ts ih =>
      rw [sizeAll_cons] at h
      have hnext : (offset + UInt32.ofNat t.size).toNat = offset.toNat + t.size := by
        rw [UInt32.toNat_add, UInt32.toNat_ofNat']
        omega
      rw [count, locate_cons, List.map_cons, ih (by omega), hnext]

end Token

/-- The tokens of a text do not depend on how many could have been read. -/
theorem tokensFrom_eq_tokenize {text : Text} {bound : Nat} (h : text.length ≤ bound) :
    tokensFrom bound .initial true text = tokenize text := by
  have hbound : (Token.concat (tokenize text)).length ≤ bound := by rwa [concat_tokenize]
  have heq := (lexed_tokenize text).tokensFrom_eq hbound
  rwa [concat_tokenize] at heq

/-- Reading a text token by token gives its tokens and nothing else. -/
theorem lexed_iff {text : Text} {ts : List Token} :
    Lexed .initial true ts ∧ Token.concat ts = text ↔ ts = tokenize text := by
  constructor
  · rintro ⟨hlexed, rfl⟩
    exact (tokenize_eq_iff_lexed.mpr hlexed).symm
  · rintro rfl
    exact ⟨lexed_tokenize text, concat_tokenize text⟩

/-- A token stands where the tokens before it end, between two characters. -/
theorem exists_of_mem_locate {text : Text} {o : Nat} {t : Token}
    (h : (o, t) ∈ Token.locate 0 (tokenize text)) :
    ∃ before after, tokenize text = before ++ t :: after ∧ o = (before.map Token.size).sum ∧
      text.isBoundary o = true ∧ text.slice? o (o + t.size) = some t.text := by
  obtain ⟨before, after, hsplit, ho⟩ := Token.mem_locate_iff.mp h
  rw [Nat.zero_add] at ho
  have htext : text = Token.concat before ++ (t.text ++ Token.concat after) := by
    rw [← Token.concat_cons, ← Token.concat_append, ← hsplit, concat_tokenize]
  refine ⟨before, after, hsplit, ho.trans (Token.sizeAll_eq_sum before), ?_, ?_⟩
  · exact Text.isBoundary_iff.mpr ⟨Token.concat before, _, htext, ho.symm⟩
  · have hslice := Text.slice?_append (Token.concat before) t.text (Token.concat after)
    rwa [← htext, ← Token.sizeAll, ← ho] at hslice

/-- Reading a text token by token comes to its end, in one way only, and more steps
would read nothing more.  No token is empty, and together they spell the text.  In
a text of less than 2 ^ 32 bytes the counter shows in front of each token how many
bytes the tokens before it take; the token is what stands there in the text, and
no character is cut. -/
theorem tokenize_covers (text : Text) (hsize : text.size < 2 ^ 32) :
    (∀ bound, text.length ≤ bound → tokensFrom bound .initial true text = tokenize text) ∧
      (∀ ts, Lexed .initial true ts ∧ Token.concat ts = text ↔ ts = tokenize text) ∧
      (∀ t ∈ tokenize text, t.text ≠ []) ∧
      Token.concat (tokenize text) = text ∧
      (Token.count 0 (tokenize text)).map (fun p => (p.1.toNat, p.2)) =
        Token.locate 0 (tokenize text) ∧
      ∀ o t, (o, t) ∈ Token.locate 0 (tokenize text) →
        ∃ before after, tokenize text = before ++ t :: after ∧ o = (before.map Token.size).sum ∧
          text.isBoundary o = true ∧ text.slice? o (o + t.size) = some t.text := by
  refine ⟨fun bound => tokensFrom_eq_tokenize, fun ts => lexed_iff,
    fun t => text_ne_nil_of_mem_tokenize, concat_tokenize text, ?_,
    fun o t => exists_of_mem_locate⟩
  apply Token.map_count
  rwa [Token.sizeAll, concat_tokenize, UInt32.toNat_zero, Nat.zero_add]

/-- A regular expression whose class holds a slash, and a template that is cut at a
substitution and does not close, with characters of two and three bytes. -/
theorem tokenize_covers_regex_template :
    let text : Text := "/[é/]/g;`ü$\x7bx\x7d€\\".toList
    text.size < 2 ^ 32 ∧
      Token.concat (tokenize text) = text ∧
      (Token.count 0 (tokenize text)).map (fun p => (p.1.toNat, p.2.kind)) =
        [(0, .regex), (8, .punct .semicolon), (9, .templateHead), (14, .ident), (15, .error)] := by
  intro text
  have hsize : text.size < 2 ^ 32 := by decide
  obtain ⟨-, -, -, hconcat, hcount, -⟩ := tokenize_covers text hsize
  refine ⟨hsize, hconcat, ?_⟩
  have hkinds := congrArg (List.map fun p => (p.1, p.2.kind)) hcount
  rw [List.map_map] at hkinds
  exact hkinds.trans (by decide)

end FreeNames
