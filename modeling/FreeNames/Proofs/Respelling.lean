import FreeNames.Proofs.Carrying
import Mathlib.Data.List.Basic

/-!
# FreeNames.Proofs.Respelling

Trees in which some tokens are spelt otherwise (`Respelling`).  All that follows
such a token moves.  Where offsets move as tokens do (`Respelling.Fits`), nodes
are found in the tree at the places they have moved to (`Respelling.carries`).
-/

namespace FreeNames

/-- Tokens that become one name, by where they start, and where what stood at an
offset stands afterwards. -/
structure Respelling where
  isHit : Nat → Bool
  word : Text
  move : Nat → Nat

namespace Respelling

/-- A token that starts at an offset. -/
def token (ρ : Respelling) (offset : Nat) (t : Token) : Token :=
  if ρ.isHit offset then ⟨.ident, ρ.word⟩ else t

/-- Tokens of which the first starts at an offset. -/
def tokens (ρ : Respelling) (offset : Nat) : List Token → List Token
  | [] => []
  | t :: ts => ρ.token offset t :: ρ.tokens (offset + t.size) ts

mutual

/-- A tree that starts at an offset. -/
def tree (ρ : Respelling) (start : Nat) : Tree → Tree
  | .leaf t => .leaf (ρ.token start t)
  | .node kind parts => .node kind (ρ.trees start parts)

/-- Trees in a row of which the first starts at an offset. -/
def trees (ρ : Respelling) (start : Nat) : List Tree → List Tree
  | [] => []
  | t :: ts => ρ.tree start t :: ρ.trees (start + t.size) ts

end

/-- A node, where it stands afterwards. -/
def node (ρ : Respelling) (n : Node) : Node := ⟨ρ.move n.start, n.kind, ρ.trees n.start n.parts⟩

/-- A site, where it stands afterwards. -/
def site (ρ : Respelling) (s : Site) : Site := ⟨ρ.node s.node, s.above.map ρ.node⟩

/-- Offsets move as the tokens that start at an offset do. -/
def Fits (ρ : Respelling) (offset : Nat) (ts : List Token) : Prop :=
  ∀ p ∈ Token.locate offset ts, ρ.move (p.1 + p.2.size) = ρ.move p.1 + (ρ.token p.1 p.2).size

variable {ρ : Respelling}

/-! ## tokens -/

theorem tokens_append (offset : Nat) (ss ts : List Token) :
    ρ.tokens offset (ss ++ ts) =
      ρ.tokens offset ss ++ ρ.tokens (offset + Token.sizeAll ss) ts := by
  induction ss generalizing offset with
  | nil => simp [tokens]
  | cons s ss ih => simp [tokens, ih, Nat.add_assoc]

mutual

theorem tokens_tree (start : Nat) : (t : Tree) → (ρ.tree start t).tokens = ρ.tokens start t.tokens
  | .leaf _ => by simp [tree, tokens]
  | .node _ parts => by simp [tree, tokensAll_trees start parts]

theorem tokensAll_trees (start : Nat) : (ts : List Tree) →
    Tree.tokensAll (ρ.trees start ts) = ρ.tokens start (Tree.tokensAll ts)
  | [] => by simp [trees, tokens]
  | t :: ts => by
      simp [trees, tokens_append, tokens_tree start t, tokensAll_trees _ ts, Tree.size_eq]

end

theorem fits_append {offset : Nat} {ss ts : List Token} :
    ρ.Fits offset (ss ++ ts) ↔ ρ.Fits offset ss ∧ ρ.Fits (offset + Token.sizeAll ss) ts := by
  simp only [Fits, Token.locate_append, List.forall_mem_append]

theorem Fits.move_sizeAll {offset : Nat} {ts : List Token} (h : ρ.Fits offset ts) :
    ρ.move (offset + Token.sizeAll ts) = ρ.move offset + Token.sizeAll (ρ.tokens offset ts) := by
  induction ts generalizing offset with
  | nil => simp [tokens]
  | cons t ts ih =>
      rw [Fits, Token.locate, List.forall_mem_cons] at h
      rw [tokens, Token.sizeAll_cons, Token.sizeAll_cons, ← Nat.add_assoc, ih h.2, h.1,
        Nat.add_assoc]

theorem Fits.locate_tokens {offset : Nat} {ts : List Token} (h : ρ.Fits offset ts) :
    Token.locate (ρ.move offset) (ρ.tokens offset ts) =
      (Token.locate offset ts).map fun p => (ρ.move p.1, ρ.token p.1 p.2) := by
  induction ts generalizing offset with
  | nil => rfl
  | cons t ts ih =>
      rw [Fits, Token.locate, List.forall_mem_cons] at h
      rw [tokens, Token.locate, Token.locate, List.map_cons, ← ih h.2, h.1]

section

variable {start : Nat} {t : Tree} {ts : List Tree}

theorem Fits.head (h : ρ.Fits start (Tree.tokensAll (t :: ts))) : ρ.Fits start t.tokens :=
  (fits_append.mp (by simpa using h)).1

theorem Fits.tail (h : ρ.Fits start (Tree.tokensAll (t :: ts))) :
    ρ.Fits (start + t.size) (Tree.tokensAll ts) := by
  rw [Tree.size_eq]
  exact (fits_append.mp (by simpa using h)).2

theorem Fits.parts {k : NodeKind} {ps : List Tree} (h : ρ.Fits start (Tree.node k ps).tokens) :
    ρ.Fits start (Tree.tokensAll ps) := by
  simpa using h

theorem Fits.move_size (h : ρ.Fits start t.tokens) :
    ρ.move (start + t.size) = ρ.move start + (ρ.tree start t).size := by
  rw [Tree.size_eq, Tree.size_eq, tokens_tree, h.move_sizeAll]

end

/-! ## nodes inside a node -/

theorem among_trees {start : Nat} : (ts : List Tree) → ρ.Fits start (Tree.tokensAll ts) →
    Node.among (ρ.move start) (ρ.trees start ts) = (Node.among start ts).map ρ.node
  | [], _ => by simp [trees, Node.among]
  | .leaf t :: ts, h => by
      have hmove : ρ.move (start + t.size) = ρ.move start + (ρ.token start t).size := h.head.move_size
      have htail := among_trees ts h.tail
      simp only [Tree.size, hmove] at htail
      simp [trees, tree, Node.among, Tree.size, htail]
  | .node k ps :: ts, h => by
      have hmove := h.head.move_size
      have htail := among_trees ts h.tail
      rw [hmove] at htail
      simp only [tree, Tree.size] at htail
      simp [trees, tree, Node.among, Tree.size, htail, node]

theorem fits_child {n c : Node} (h : ρ.Fits n.start (Tree.tokensAll n.parts))
    (hc : c ∈ n.children) : ρ.Fits c.start (Tree.tokensAll c.parts) := by
  obtain ⟨before, after, hparts, hstart⟩ := Node.mem_among hc
  rw [hparts, Tree.tokensAll_append, fits_append, ← Tree.sizeAll_eq, ← hstart] at h
  exact h.2.head.parts

theorem fits_of_within {root n : Node} (h : ρ.Fits root.start (Tree.tokensAll root.parts))
    (hn : Node.Within root n) : ρ.Fits n.start (Tree.tokensAll n.parts) := by
  induction hn with
  | refl => exact h
  | child _ hc ih => exact fits_child ih hc

section

variable {n : Node}

@[simp] theorem kind_node : (ρ.node n).kind = n.kind := rfl

theorem span_node (h : ρ.Fits n.start (Tree.tokensAll n.parts)) :
    (ρ.node n).span = ⟨ρ.move n.span.start, ρ.move n.span.stop⟩ := by
  simp [Node.span, node, Tree.sizeAll_eq, tokensAll_trees, h.move_sizeAll]

end

/-- Nodes are found where they have moved to. -/
theorem carries {root : Node} (h : ρ.Fits root.start (Tree.tokensAll root.parts)) :
    Carries ρ.node root where
  kind _ := rfl
  children n hn := among_trees n.parts (fits_of_within h hn)

end Respelling

end FreeNames
