import FreeNames.Proofs.Reparsing
import FreeNames.Proofs.Replacing
import FreeNames.Proofs.Respelling
import Mathlib.Algebra.Ring.Int.Defs
import Mathlib.Algebra.Ring.Nat

/-!
# FreeNames.Proofs.Moving

Where things stand after some tokens of a text have become one name.  The edits
that put the name in place of the tokens say where offsets move (`Edit.moved`),
and offsets move as the tokens do (`Respelling.fits_ofHits`).  Trees keep their
shape, nodes keep the words that are not hit, and no two nodes come to stand in
one place (`Respelling.eq_of_node_eq`).
-/

namespace FreeNames

theorem Node.Stands.locate_subset {n : Node} {ts : List Token} (h : n.Stands 0 ts) :
    Token.locate n.start (Tree.tokensAll n.parts) ⊆ Token.locate 0 ts := by
  obtain ⟨before, after, rfl, hstart⟩ := h
  rw [Token.locate_append, Token.locate_append, ← hstart]
  intro p hp
  simp [hp]

/-- The word of a node is a token inside it, or nothing. -/
theorem Node.word_eq_nil_or {n : Node} :
    n.word = [] ∨ ∃ t ∈ Tree.tokensAll n.parts, t.text = n.word := by
  unfold word
  cases h : n.firstToken? with
  | none => exact Or.inl rfl
  | some t =>
      refine Or.inr ⟨t, ?_, rfl⟩
      obtain ⟨part, hpart, hsome⟩ := List.exists_of_findSome?_eq_some h
      obtain ⟨before, after, hparts⟩ := List.append_of_mem hpart
      cases part with
      | leaf u =>
          obtain rfl : u = t := by
            simp only [Option.ite_none_left_eq_some, Option.some.injEq] at hsome
            exact hsome.2
          simp [hparts]
      | node k ps => simp at hsome

/-! ## where edits move things -/

/-- Where what stood at an offset stands once edits are made: each edit that ends
by then moves it. -/
def Edit.moved (edits : List Edit) (offset : Nat) : Nat :=
  (offset + ((edits.filter fun e => e.span.stop ≤ offset).map Edit.shift).sum : Int).toNat

namespace Respelling

/-- Tokens of a text that become one name. -/
def ofHits (text : Text) (isHit : Nat → Bool) (word : Text) : Respelling :=
  ⟨isHit, word, Edit.moved (Token.edits word isHit (Token.locate 0 (tokenize text)))⟩

theorem sum_shift_edits (ρ : Respelling) (offset : Nat) (ts : List Token) :
    (Token.sizeAll ts : Int) +
        ((Token.edits ρ.word ρ.isHit (Token.locate offset ts)).map Edit.shift).sum =
      Token.sizeAll (ρ.tokens offset ts) := by
  induction ts generalizing offset with
  | nil => simp [Token.edits, Token.locate, tokens]
  | cons t ts ih =>
      have hrest := ih (offset + t.size)
      cases hhit : ρ.isHit offset with
      | true =>
          rw [Token.edits_cons_of_hit hhit, tokens, token, if_pos hhit]
          simp only [List.map_cons, List.sum_cons, Token.sizeAll_cons, Token.edit, Edit.shift,
            Token.size] at hrest ⊢
          omega
      | false =>
          rw [Token.edits_cons_of_not_hit hhit, tokens, token, if_neg (by simp [hhit])]
          simp only [Token.sizeAll_cons]
          omega

/-- The edits of tokens that end by the end of some of them are the edits of these. -/
theorem filter_edits (ρ : Respelling) {before after : List Token} (hne : ∀ t ∈ before ++ after, t.text ≠ []) :
    (Token.edits ρ.word ρ.isHit (Token.locate 0 (before ++ after))).filter
        (fun e => e.span.stop ≤ Token.sizeAll before) =
      Token.edits ρ.word ρ.isHit (Token.locate 0 before) := by
  have hfirst : ∀ e ∈ Token.edits ρ.word ρ.isHit (Token.locate 0 before),
      e.span.stop ≤ Token.sizeAll before := by
    intro e he
    obtain ⟨⟨o, t⟩, hmem, rfl⟩ := List.mem_map.mp he
    obtain ⟨bs, as, rfl, rfl⟩ := Token.mem_locate_iff.mp (List.mem_filter.mp hmem).1
    simp [Token.edit]
  have hlater : ∀ e ∈ Token.edits ρ.word ρ.isHit
      (Token.locate (0 + Token.sizeAll before) after), ¬e.span.stop ≤ Token.sizeAll before := by
    intro e he
    obtain ⟨⟨o, t⟩, hmem, rfl⟩ := List.mem_map.mp he
    have hlocated := (List.mem_filter.mp hmem).1
    have hle := Token.le_of_mem_locate hlocated
    have hpos := Token.size_pos
      (hne t (List.mem_append_right before (Token.mem_of_mem_locate hlocated)))
    simp only [Token.edit]
    omega
  have hsplit : Token.edits ρ.word ρ.isHit (Token.locate 0 (before ++ after)) =
      Token.edits ρ.word ρ.isHit (Token.locate 0 before) ++
        Token.edits ρ.word ρ.isHit (Token.locate (0 + Token.sizeAll before) after) := by
    rw [Token.locate_append, Token.edits, List.filter_append, List.map_append]
    rfl
  rw [hsplit, List.filter_append, List.filter_eq_self.mpr fun e he => decide_eq_true (hfirst e he),
    List.filter_eq_nil_iff.mpr fun e he => by simpa using hlater e he, List.append_nil]

section

variable {text : Text} (isHit : Nat → Bool) (word : Text)

/-- What stands after some tokens of a text stands after the new tokens. -/
theorem move_ofHits {before after : List Token} (h : tokenize text = before ++ after) :
    (ofHits text isHit word).move (Token.sizeAll before) =
      Token.sizeAll ((ofHits text isHit word).tokens 0 before) := by
  have hne : ∀ t ∈ before ++ after, t.text ≠ [] := fun t ht =>
    text_ne_nil_of_mem_tokenize (h ▸ ht)
  have hfilter := filter_edits (ofHits text isHit word) hne
  have hsum := sum_shift_edits (ofHits text isHit word) 0 before
  rw [← hfilter, ← h] at hsum
  have hmove : (ofHits text isHit word).move (Token.sizeAll before) =
      Edit.moved (Token.edits word isHit (Token.locate 0 (tokenize text)))
        (Token.sizeAll before) := rfl
  rw [hmove, Edit.moved]
  simp only [ofHits] at hsum ⊢
  omega

theorem fits_ofHits : (ofHits text isHit word).Fits 0 (tokenize text) := by
  rintro ⟨o, t⟩ hp
  obtain ⟨before, after, hsplit, rfl⟩ := Token.mem_locate_iff.mp hp
  have hsplit' : tokenize text = (before ++ [t]) ++ after := by simpa using hsplit
  have hbefore := move_ofHits isHit word hsplit
  have hafter := move_ofHits isHit word hsplit'
  simp only [tokens_append, tokens, Token.sizeAll_append, Token.sizeAll_cons,
    Token.sizeAll_nil, Nat.add_zero] at hafter
  simp only [Nat.zero_add] at hafter hbefore ⊢
  rw [hafter, hbefore]

end

/-! ## shapes and words -/

variable {ρ : Respelling}

mutual

theorem map_blur_tree {start : Nat} : (t : Tree) →
    (∀ p ∈ Token.locate start t.tokens, (ρ.token p.1 p.2).blur = p.2.blur) →
      (ρ.tree start t).map Token.blur = t.map Token.blur
  | .leaf t, h => by simpa [tree, Tree.map] using h
  | .node k ps, h => by
      rw [tree, Tree.map, Tree.map, mapAll_blur_trees ps (by simpa using h)]

theorem mapAll_blur_trees {start : Nat} : (ts : List Tree) →
    (∀ p ∈ Token.locate start (Tree.tokensAll ts), (ρ.token p.1 p.2).blur = p.2.blur) →
      Tree.mapAll Token.blur (ρ.trees start ts) = Tree.mapAll Token.blur ts
  | [], _ => by simp [trees, Tree.mapAll]
  | t :: ts, h => by
      rw [Tree.tokensAll_cons, Token.locate_append, List.forall_mem_append, ← Tree.size_eq] at h
      rw [trees, Tree.mapAll, Tree.mapAll, map_blur_tree t h.1, mapAll_blur_trees ts h.2]

end

theorem parts_node {n : Node} {t : Token} (h : n.parts = [.leaf t]) :
    (ρ.node n).parts = [.leaf (ρ.token n.start t)] := by
  simp [node, h, trees, tree]

theorem firstToken?_trees (stop : Nat) {start : Nat} {k : NodeKind} : (ts : List Tree) →
    (∀ o t, (⟨start, k, ts⟩ : Node).Holds o t → ρ.isHit o = false) →
      (⟨stop, k, ρ.trees start ts⟩ : Node).firstToken? = (⟨start, k, ts⟩ : Node).firstToken?
  | [], _ => by simp [Node.firstToken?, trees]
  | t :: ts, h => by
      have hrest : ∀ o u, (⟨start + t.size, k, ts⟩ : Node).Holds o u → ρ.isHit o = false := by
        rintro o u ⟨before, after, hparts, rfl⟩
        refine h _ u ⟨t :: before, after, by simpa using hparts, ?_⟩
        simp [Tree.sizeAll, Nat.add_assoc]
      have htail := firstToken?_trees stop ts hrest
      cases t with
      | leaf t =>
          have hmissed : ρ.isHit start = false := h start t ⟨[], ts, rfl, by simp [Tree.sizeAll]⟩
          simp only [Node.firstToken?, trees, tree, token, hmissed, Bool.false_eq_true, if_false,
            List.findSome?_cons] at htail ⊢
          rw [htail]
      | node k' ps =>
          simpa only [Node.firstToken?, trees, tree, List.findSome?_cons] using htail

/-- A node keeps its word if no token directly inside it is hit. -/
theorem word_node {n : Node} (h : ∀ o t, n.Holds o t → ρ.isHit o = false) :
    (ρ.node n).word = n.word := by
  rw [Node.word, Node.word, node, firstToken?_trees _ n.parts h]

theorem eq_nil_of_sizeAll_tokens {offset : Nat} {ts : List Token} (hword : ρ.word ≠ [])
    (hne : ∀ t ∈ ts, t.text ≠ []) (h : Token.sizeAll (ρ.tokens offset ts) = 0) : ts = [] := by
  cases ts with
  | nil => rfl
  | cons t ts =>
      have hpos : 0 < (ρ.token offset t).size := by
        refine Token.size_pos ?_
        unfold token
        split
        · exact hword
        · exact hne t List.mem_cons_self
      rw [tokens, Token.sizeAll_cons] at h
      omega

/-- Some tokens of a text are known by how many bytes the new tokens take. -/
theorem eq_of_sizeAll_tokens {text : Text} {before after before' after' : List Token}
    (hword : ρ.word ≠ []) (h : tokenize text = before ++ after)
    (h' : tokenize text = before' ++ after')
    (hsize : Token.sizeAll (ρ.tokens 0 before) = Token.sizeAll (ρ.tokens 0 before')) :
    before = before' ∧ after = after' := by
  have hne : ∀ t ∈ tokenize text, t.text ≠ [] := fun t ht => text_ne_nil_of_mem_tokenize ht
  rcases List.append_eq_append_iff.mp (h.symm.trans h') with
    ⟨ts, hbefore, hafter⟩ | ⟨ts, hbefore, hafter⟩
  · rw [hbefore, tokens_append, Token.sizeAll_append] at hsize
    have hzero : Token.sizeAll (ρ.tokens (0 + Token.sizeAll before) ts) = 0 := by omega
    obtain rfl := eq_nil_of_sizeAll_tokens hword (fun t ht => hne t (by simp [h, hafter, ht])) hzero
    exact ⟨by simpa using hbefore.symm, by simpa using hafter⟩
  · rw [hbefore, tokens_append, Token.sizeAll_append] at hsize
    have hzero : Token.sizeAll (ρ.tokens (0 + Token.sizeAll before') ts) = 0 := by omega
    obtain rfl := eq_nil_of_sizeAll_tokens hword (fun t ht => hne t (by simp [h', hafter, ht])) hzero
    exact ⟨by simpa using hbefore, by simpa using hafter.symm⟩

/-- No two nodes come to stand in one place. -/
theorem eq_of_node_eq {text word : Text} {isHit : Nat → Bool} (hword : word ≠ [])
    (hblur : ∀ p ∈ Token.locate 0 (tokenize text),
      ((ofHits text isHit word).token p.1 p.2).blur = p.2.blur)
    {n m : Node} (hn : n.Stands 0 (tokenize text)) (hm : m.Stands 0 (tokenize text))
    (h : (ofHits text isHit word).node n = (ofHits text isHit word).node m) : n = m := by
  have hshape {k : Node} (hk : k.Stands 0 (tokenize text)) :
      Tree.mapAll Token.blur ((ofHits text isHit word).trees k.start k.parts) =
        Tree.mapAll Token.blur k.parts :=
    mapAll_blur_trees _ fun p hp => hblur p (hk.locate_subset hp)
  have hparts := hshape hn
  have hparts' := hshape hm
  obtain ⟨before, after, htokens, hstart⟩ := hn
  obtain ⟨before', after', htokens', hstart'⟩ := hm
  obtain ⟨start, kind, parts⟩ := n
  obtain ⟨start', kind', parts'⟩ := m
  simp only [node, Node.mk.injEq, Nat.zero_add] at h hstart hstart' htokens htokens' hparts hparts'
  obtain ⟨hmove, rfl, htrees⟩ := h
  rw [hstart, hstart', move_ofHits isHit word htokens, move_ofHits isHit word htokens'] at hmove
  obtain ⟨rfl, hrest⟩ := eq_of_sizeAll_tokens hword htokens htokens' hmove
  obtain rfl : start = start' := hstart.trans hstart'.symm
  have hshapes : Tree.mapAll Token.blur parts = Tree.mapAll Token.blur parts' := by
    rw [← hparts, ← hparts', htrees]
  have hlength : (Tree.tokensAll parts).length = (Tree.tokensAll parts').length := by
    simpa [Tree.tokensAll_mapAll] using congrArg (fun ts => (Tree.tokensAll ts).length) hshapes
  rw [Tree.eq_of_mapAll_eq parts parts' hshapes (List.append_inj hrest hlength).1]

end Respelling

end FreeNames
