import FreeNames.Kind

/-!
# FreeNames.Tree

Syntax trees whose leaves are the tokens of a text, trivia included, so that a
tree spells its text and every node covers an exact range of bytes:

* `Tree.tokens` — the leaves from left to right;
* `Tree.size` — the bytes a tree covers;
* `Tree.outline` — all nodes and tokens from the root down, with their ranges.
-/

namespace FreeNames

/-- A token, or a node with its parts. -/
inductive Tree where
  | leaf (token : Token)
  | node (kind : NodeKind) (parts : List Tree)

namespace Tree

mutual

/-- The leaves from left to right. -/
def tokens : Tree → List Token
  | .leaf t => [t]
  | .node _ parts => tokensAll parts

/-- The leaves of trees in a row. -/
def tokensAll : List Tree → List Token
  | [] => []
  | t :: ts => t.tokens ++ tokensAll ts

end

mutual

/-- Bytes a tree covers. -/
def size : Tree → Nat
  | .leaf t => t.size
  | .node _ parts => sizeAll parts

/-- Bytes that trees in a row cover. -/
def sizeAll : List Tree → Nat
  | [] => 0
  | t :: ts => t.size + sizeAll ts

end

mutual

/-- Whether two trees are the same. -/
def same : Tree → Tree → Bool
  | .leaf s, .leaf t => s = t
  | .node j ps, .node k qs => j = k && sameAll ps qs
  | _, _ => false

/-- Whether trees in a row are the same, one by one. -/
def sameAll : List Tree → List Tree → Bool
  | [], [] => true
  | s :: ss, t :: ts => s.same t && sameAll ss ts
  | _, _ => false

end

mutual

theorem same_iff : (s t : Tree) → (s.same t = true ↔ s = t)
  | .leaf s, .leaf t => by simp [same]
  | .node j ps, .node k qs => by simp [same, sameAll_iff ps qs]
  | .leaf _, .node _ _ => by simp [same]
  | .node _ _, .leaf _ => by simp [same]

theorem sameAll_iff : (ss ts : List Tree) → (sameAll ss ts = true ↔ ss = ts)
  | [], [] => by simp [sameAll]
  | s :: ss, t :: ts => by simp [sameAll, same_iff s t, sameAll_iff ss ts]
  | [], _ :: _ => by simp [sameAll]
  | _ :: _, [] => by simp [sameAll]

end

instance : DecidableEq Tree := fun s t => decidable_of_iff _ (same_iff s t)

/-- The text a tree spells. -/
def text (t : Tree) : Text := Token.concat t.tokens

/-- A line of an outline: how deep, what, and which bytes. -/
structure Entry where
  depth : Nat
  kind : Kind
  span : Span

mutual

/-- All nodes and tokens of a tree that starts at `start`, a node before its
parts. -/
def outline (depth start : Nat) : Tree → List Entry
  | .leaf t => [⟨depth, .token t.kind, ⟨start, start + t.size⟩⟩]
  | .node kind parts =>
    ⟨depth, .node kind, ⟨start, start + sizeAll parts⟩⟩ :: outlineAll (depth + 1) start parts

/-- The outlines of trees in a row. -/
def outlineAll (depth start : Nat) : List Tree → List Entry
  | [] => []
  | t :: ts => t.outline depth start ++ outlineAll depth (start + t.size) ts

end

end Tree

end FreeNames
