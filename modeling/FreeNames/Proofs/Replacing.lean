import FreeNames.Proofs.Sorting
import FreeNames.Proofs.Splicing
import FreeNames.Proofs.Tokens

/-!
# FreeNames.Proofs.Replacing

Edits that replace whole tokens.  They always fit the text they are made in, and
leave a text in which these tokens are replaced and all others are as they were
(`Edit.splice_tokenEdits`).  Edits that go up strictly and each replace a token
are of this form (`eq_tokenEdits`).
-/

namespace FreeNames

namespace Token

/-- The edit that puts a text in place of a token. -/
def edit (new : Text) (p : Nat × Token) : Edit := ⟨⟨p.1, p.1 + p.2.size⟩, new⟩

/-- Edits of the tokens that start at some offsets. -/
def edits (new : Text) (isHit : Nat → Bool) (located : List (Nat × Token)) : List Edit :=
  (located.filter fun p => isHit p.1).map (edit new)

/-- What tokens spell when those that start at some offsets are replaced. -/
def replaced (new : Text) (isHit : Nat → Bool) (located : List (Nat × Token)) : Text :=
  located.flatMap fun p => if isHit p.1 then new else p.2.text

variable {new : Text} {isHit : Nat → Bool} {offset : Nat} {t : Token} {ts : List Token}

theorem edits_cons_of_hit (h : isHit offset = true) :
    edits new isHit (locate offset (t :: ts)) =
      edit new (offset, t) :: edits new isHit (locate (offset + t.size) ts) := by
  simp [edits, h]

theorem edits_cons_of_not_hit (h : isHit offset = false) :
    edits new isHit (locate offset (t :: ts)) = edits new isHit (locate (offset + t.size) ts) := by
  simp [edits, h]

theorem replaced_cons_of_hit (h : isHit offset = true) :
    replaced new isHit (locate offset (t :: ts)) =
      new ++ replaced new isHit (locate (offset + t.size) ts) := by
  simp [replaced, h]

theorem replaced_cons_of_not_hit (h : isHit offset = false) :
    replaced new isHit (locate offset (t :: ts)) =
      t.text ++ replaced new isHit (locate (offset + t.size) ts) := by
  simp [replaced, h]

/-- Edits of tokens pass the check, wherever the one before them ends. -/
theorem fault?_edits {text front : Text} {previous : Nat} (htext : text = front ++ concat ts)
    (hoffset : offset = front.size) (hprev : previous ≤ offset) :
    Edit.fault? text previous (edits new isHit (locate offset ts)) = none := by
  induction ts generalizing front previous offset with
  | nil => rfl
  | cons t ts ih =>
      have hcut : text = (front ++ t.text) ++ concat ts := by
        rw [htext, concat_cons, List.append_assoc]
      have hstop : offset + t.size = (front ++ t.text).size := by
        rw [hoffset, Text.size_append]
        rfl
      cases hit : isHit offset with
      | true =>
          rw [edits_cons_of_hit hit, Edit.fault?_cons_eq_none]
          exact ⟨hprev, Text.isBoundary_iff.mpr ⟨front, _, htext, hoffset.symm⟩,
            Text.isBoundary_iff.mpr ⟨front ++ t.text, concat ts, hcut, hstop.symm⟩,
            ih hcut hstop (Nat.le_refl _)⟩
      | false =>
          rw [edits_cons_of_not_hit hit]
          exact ih hcut hstop (by omega)

/-- What edits of tokens ask for, when some text after the edit before is kept. -/
theorem spliced_edits {text front kept : Text} {previous : Nat}
    (htext : text = front ++ (kept ++ concat ts)) (hprev : previous = front.size)
    (hoffset : offset = front.size + kept.size) :
    Edit.spliced text previous (edits new isHit (locate offset ts)) =
      some (kept ++ replaced new isHit (locate offset ts)) := by
  induction ts generalizing front kept offset previous with
  | nil =>
      have hslice := Text.slice?_append front kept []
      simpa [edits, replaced, concat, Edit.spliced, htext, hprev] using hslice
  | cons t ts ih =>
      cases hit : isHit offset with
      | true =>
          have hslice : text.slice? previous offset = some kept := by
            rw [htext, hprev, hoffset]
            exact Text.slice?_append front kept _
          have hcut : text = (front ++ kept ++ t.text) ++ ([] ++ concat ts) := by
            simp [htext, concat_cons]
          have hstop : offset + t.size = (front ++ kept ++ t.text).size := by
            rw [hoffset, Text.size_append, Text.size_append]
            rfl
          rw [edits_cons_of_hit hit, replaced_cons_of_hit hit, Edit.spliced]
          simp only [edit, hslice, ih hcut hstop hstop]
          simp
      | false =>
          have hcut : text = front ++ ((kept ++ t.text) ++ concat ts) := by
            simp [htext, concat_cons]
          have hstop : offset + t.size = front.size + (kept ++ t.text).size := by
            rw [hoffset, Text.size_append, Nat.add_assoc]
            rfl
          rw [edits_cons_of_not_hit hit, replaced_cons_of_not_hit hit, ih hcut hprev hstop]
          simp

end Token

/-! ## edits of a text -/

/-- Edits of tokens of a text are made, and replace these tokens only. -/
theorem Edit.splice_tokenEdits (text new : Text) (isHit : Nat → Bool) :
    splice text (Token.edits new isHit (Token.locate 0 (tokenize text))) =
      (Token.replaced new isHit (Token.locate 0 (tokenize text)), none) := by
  have htext : text = [] ++ ([] ++ Token.concat (tokenize text)) := by simp [concat_tokenize]
  have hfault : fault? text 0 (Token.edits new isHit (Token.locate 0 (tokenize text))) = none :=
    Token.fault?_edits htext rfl (Nat.le_refl 0)
  have hspliced : spliced text 0 (Token.edits new isHit (Token.locate 0 (tokenize text))) =
      some (Token.replaced new isHit (Token.locate 0 (tokenize text))) :=
    Token.spliced_edits htext rfl rfl
  have hspans : ∀ e ∈ Token.edits new isHit (Token.locate 0 (tokenize text)),
      e.span.start ≤ e.span.stop := by
    intro e he
    obtain ⟨p, -, rfl⟩ := List.mem_map.mp he
    exact Nat.le_add_right _ _
  obtain ⟨⟨out, hout, hdone⟩, -⟩ :=
    foldl_make_of_fault?_eq_none (reached_initial text) hspans hfault
  rw [splice, hfault, applyAll, hdone]
  simpa [hspliced] using hout.symm

/-- Edits that go up strictly, each of which replaces a token, are the edits of
these tokens. -/
theorem Edit.eq_tokenEdits {new : Text} {isHit : Nat → Bool} {located : List (Nat × Token)}
    {es : List Edit} (hlocated : located.Pairwise fun a b => a.1 < b.1)
    (hes : es.Pairwise fun a b => a.span.start < b.span.start)
    (hmem : ∀ e, e ∈ es ↔ ∃ p ∈ located, isHit p.1 = true ∧ Token.edit new p = e) :
    es = Token.edits new isHit located := by
  have : Std.Irrefl fun a b : Edit => a.span.start < b.span.start := ⟨fun a => Nat.lt_irrefl _⟩
  have : Std.Asymm fun a b : Edit => a.span.start < b.span.start := ⟨fun a b => Nat.lt_asymm⟩
  refine hes.eq_of_mem_iff ?_ fun e => ?_
  · rw [Token.edits, List.pairwise_map]
    exact hlocated.filter _
  · rw [hmem]
    simp [Token.edits, and_assoc]

end FreeNames
