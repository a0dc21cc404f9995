import FreeNames.Proofs.Bytes
import FreeNames.Proofs.Tokens
import FreeNames.Tree.View

/-!
# FreeNames.Proofs.Places

Where the nodes of a tree stand among its tokens.

* `Node.Within` — a node is inside another, at any depth;
* `Node.Stands` — the leaves of a node are some of the tokens in a row, and it
  starts where the first of them does.
-/

namespace FreeNames

/-! ## leaves of trees in a row -/

namespace Tree

@[simp] theorem tokensAll_nil : tokensAll [] = [] := by rw [tokensAll]

@[simp] theorem tokensAll_cons (t : Tree) (ts : List Tree) :
    tokensAll (t :: ts) = t.tokens ++ tokensAll ts := by
  rw [tokensAll]

@[simp] theorem tokens_leaf (t : Token) : (leaf t).tokens = [t] := by rw [tokens]

@[simp] theorem tokens_node (k : NodeKind) (parts : List Tree) :
    (node k parts).tokens = tokensAll parts := by
  rw [tokens]

@[simp] theorem tokensAll_append (ss ts : List Tree) :
    tokensAll (ss ++ ts) = tokensAll ss ++ tokensAll ts := by
  induction ss with
  | nil => simp
  | cons s ss ih => simp [ih]

@[simp] theorem tokensAll_map_leaf (ts : List Token) : tokensAll (ts.map leaf) = ts := by
  induction ts with
  | nil => simp
  | cons t ts ih => simp [ih]

end Tree

/-! ## where trees in a row start -/

namespace Tree

mutual

theorem size_eq : (t : Tree) → t.size = Token.sizeAll t.tokens
  | .leaf t => by simp [size]
  | .node _ parts => by simp [size, sizeAll_eq parts]

theorem sizeAll_eq : (ts : List Tree) → sizeAll ts = Token.sizeAll (tokensAll ts)
  | [] => by simp [sizeAll]
  | t :: ts => by simp [sizeAll, size_eq t, sizeAll_eq ts]

end

end Tree

namespace Node

theorem mem_among {c : Node} {start : Nat} {ts : List Tree} (h : c ∈ among start ts) :
    ∃ before after, ts = before ++ .node c.kind c.parts :: after ∧
      c.start = start + Tree.sizeAll before := by
  fun_induction among start ts with
  | case1 => simp at h
  | case2 start t ts ih =>
      obtain ⟨before, after, rfl, hstart⟩ := ih h
      exact ⟨.leaf t :: before, after, rfl, by simp [hstart, Tree.sizeAll, Tree.size]; omega⟩
  | case3 start k parts ts ih =>
      rcases List.mem_cons.mp h with rfl | h
      · exact ⟨[], ts, rfl, by simp [Tree.sizeAll]⟩
      · obtain ⟨before, after, rfl, hstart⟩ := ih h
        exact ⟨.node k parts :: before, after, rfl, by simp [hstart, Tree.sizeAll, Tree.size]; omega⟩

/-- A node inside another, at any depth. -/
inductive Within (root : Node) : Node → Prop
  | refl : Within root root
  | child {n c : Node} : Within root n → c ∈ n.children → Within root c

theorem Within.trans {a b c : Node} (hab : Within a b) (hbc : Within b c) : Within a c := by
  induction hbc with
  | refl => exact hab
  | child _ hc ih => exact ih.child hc

/-- A node covers some of the tokens in a row that starts at an offset. -/
def Stands (n : Node) (offset : Nat) (tokens : List Token) : Prop :=
  ∃ before after, tokens = before ++ (Tree.tokensAll n.parts ++ after) ∧
    n.start = offset + Token.sizeAll before

theorem Stands.self (n : Node) : n.Stands n.start (Tree.tokensAll n.parts) :=
  ⟨[], [], by simp, by simp⟩

theorem Stands.child {n c : Node} {offset : Nat} {tokens : List Token}
    (h : n.Stands offset tokens) (hc : c ∈ n.children) : c.Stands offset tokens := by
  obtain ⟨before, after, rfl, hstart⟩ := h
  obtain ⟨first, last, hparts, hcstart⟩ := mem_among hc
  refine ⟨before ++ Tree.tokensAll first, Tree.tokensAll last ++ after, by simp [hparts], ?_⟩
  rw [hcstart, hstart, Tree.sizeAll_eq, Token.sizeAll_append]
  omega

theorem Within.stands {root n : Node} {offset : Nat} {tokens : List Token} (h : Within root n)
    (hroot : root.Stands offset tokens) : n.Stands offset tokens := by
  induction h with
  | refl => exact hroot
  | child _ hc ih => exact ih.child hc

/-- A node spells the bytes that it covers. -/
theorem Stands.slice?_span {n : Node} {tokens : List Token} (h : n.Stands 0 tokens) :
    (Token.concat tokens).slice? n.span.start n.span.stop =
      some (Token.concat (Tree.tokensAll n.parts)) := by
  obtain ⟨before, after, rfl, hstart⟩ := h
  rw [Nat.zero_add] at hstart
  simp only [span, hstart, Tree.sizeAll_eq, Token.concat_append]
  exact Text.slice?_append _ _ _

end Node

end FreeNames
