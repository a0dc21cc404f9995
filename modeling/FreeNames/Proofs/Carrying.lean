import FreeNames.Proofs.Sites
import Mathlib.Data.List.Basic

/-!
# FreeNames.Proofs.Carrying

Trees that stand for one another node by node.  What the analysis reads off a
node it finds by going to the nodes inside: a map of nodes that keeps their kinds
and the nodes directly inside them (`Carries`) then keeps

* the nodes inside at any depth (`Carries.descendants_map`);
* the operand inside parentheses, the subject and the arguments of a call
  (`Carries.bare_map`, `Carries.subject?_map`, `Carries.arguments_map`);
* the names that a target declares (`Carries.boundNames_map`).

Each of them is first said through the nodes directly inside.
-/

namespace FreeNames

/-! ## a node by the nodes inside it -/

namespace Node

theorem sizeOf_parts_lt {n c : Node} (h : c ∈ n.children) : sizeOf c.parts < sizeOf n.parts := by
  obtain ⟨before, after, hparts, -⟩ := mem_among h
  have hmem : Tree.node c.kind c.parts ∈ n.parts := by simp [hparts]
  have hlt := List.sizeOf_lt_of_mem hmem
  simp only [Tree.node.sizeOf_spec] at hlt
  omega

/-- What a node has whenever those directly inside it do, every node has. -/
theorem induction_children {P : Node → Prop} (step : ∀ n, (∀ c ∈ n.children, P c) → P n)
    (n : Node) : P n :=
  step n fun c _ => induction_children step c
termination_by sizeOf n.parts
decreasing_by exact sizeOf_parts_lt ‹_›

theorem boundAll_eq (start : Nat) : (ts : List Tree) →
    Tree.boundAll start ts = (among start ts).flatMap boundNames
  | [] => by simp [Tree.boundAll, among]
  | .leaf t :: ts => by simp [Tree.boundAll, Tree.bound, among, Tree.size, boundAll_eq _ ts]
  | .node k ps :: ts => by
      simp [Tree.boundAll, among, Tree.size, boundAll_eq _ ts, boundNames]

theorem boundLast_eq (start : Nat) : (ts : List Tree) →
    Tree.boundLast start ts =
      ((among start ts).filter fun c => c.kind.isTarget).getLast?.map boundNames
  | [] => by simp [Tree.boundLast, among]
  | .leaf t :: ts => by
      rw [Tree.boundLast, boundLast_eq _ ts, among, Tree.size]
      cases ((among (start + t.size) ts).filter fun c => c.kind.isTarget).getLast? <;> rfl
  | .node k ps :: ts => by
      rw [Tree.boundLast, boundLast_eq _ ts, among, Tree.size, Tree.isTarget]
      by_cases hk : k.isTarget
      · rw [List.filter_cons_of_pos (by exact hk), List.getLast?_cons]
        cases ((among (start + Tree.sizeAll ps) ts).filter fun c => c.kind.isTarget).getLast? with
        | none => simp only [Option.map_none, if_pos hk, Option.getD_none, Option.map_some, boundNames]
        | some last => rfl
      · rw [List.filter_cons_of_neg (by exact hk)]
        cases ((among (start + Tree.sizeAll ps) ts).filter fun c => c.kind.isTarget).getLast? with
        | none => simp only [Option.map_none, if_neg hk]
        | some last => rfl

theorem boundFirst_eq (start : Nat) : (ts : List Tree) →
    Tree.boundFirst start ts = ((among start ts).head?.map boundNames).getD []
  | [] => by simp [Tree.boundFirst, among]
  | .leaf t :: ts => by simp [Tree.boundFirst, among, boundFirst_eq _ ts]
  | .node k ps :: ts => by simp [Tree.boundFirst, among, boundNames]

theorem boundNames_eq (n : Node) :
    n.boundNames =
      match n.kind with
      | .name => [n]
      | .objectPattern | .arrayPattern | .paramList => n.children.flatMap boundNames
      | .objectPatternProp =>
        ((n.children.filter fun c => c.kind.isTarget).getLast?.map boundNames).getD []
      | .assignPattern | .restPattern => (n.children.head?.map boundNames).getD []
      | _ => [] := by
  obtain ⟨start, k, ps⟩ := n
  cases k <;>
    simp only [boundNames, Tree.bound, boundAll_eq, boundLast_eq, boundFirst_eq, children]

end Node

namespace Site

theorem withinAll_eq (above : List Node) (start : Nat) : (ts : List Tree) →
    withinAll above start ts =
      ((Node.among start ts).map fun n => ⟨n, above⟩).flatMap descendants
  | [] => by simp [withinAll, Node.among]
  | .leaf t :: ts => by
      rw [withinAll, withinAll_eq above _ ts, within, Node.among, List.nil_append, Tree.size]
  | .node k ps :: ts => by
      rw [withinAll, withinAll_eq above _ ts, Node.among, List.map_cons, List.flatMap_cons,
        descendants_eq_within, Tree.size]

theorem descendants_eq (s : Site) : s.descendants = s :: s.children.flatMap descendants := by
  rw [descendants, withinAll_eq]
  rfl

theorem unwrapFirst_eq (above : List Node) (start : Nat) : (ts : List Tree) →
    unwrapFirst above start ts = (Node.among start ts).head?.map fun n => bare ⟨n, above⟩
  | [] => by simp [unwrapFirst, Node.among]
  | .leaf t :: ts => by rw [unwrapFirst, unwrapFirst_eq above _ ts, Node.among]
  | .node k ps :: ts => by
      rw [unwrapFirst, Node.among, List.head?_cons, Option.map_some, bare, unwrap]
      split <;> rfl

theorem bare_eq (s : Site) :
    s.bare = if s.node.kind = .parenExpr then (s.children.head?.map bare).getD s else s := by
  rw [bare, unwrap, unwrapFirst_eq, children, List.head?_map, Option.map_map]
  split <;> rfl

/-- A site with each of its nodes in the place of another. -/
def map (φ : Node → Node) (s : Site) : Site := ⟨φ s.node, s.above.map φ⟩

@[simp] theorem node_map (φ : Node → Node) (s : Site) : (s.map φ).node = φ s.node := rfl

@[simp] theorem above_map (φ : Node → Node) (s : Site) : (s.map φ).above = s.above.map φ := rfl

end Site

/-! ## maps of nodes -/

/-- A map of the nodes of a tree that keeps their kinds and what is directly
inside them. -/
structure Carries (φ : Node → Node) (root : Node) : Prop where
  kind : ∀ n, (φ n).kind = n.kind
  children : ∀ n, Node.Within root n → (φ n).children = n.children.map φ

namespace Carries

variable {φ : Node → Node} {root : Node}

section

variable {n : Node}

theorem child?_map (h : Carries φ root) (hn : Node.Within root n) (k : NodeKind) :
    (φ n).child? k = (n.child? k).map φ := by
  rw [Node.child?, h.children n hn, List.find?_map]
  simp only [Function.comp_def, h.kind]
  rfl

theorem targets_map (h : Carries φ root) (hn : Node.Within root n) :
    (φ n).targets = n.targets.map φ := by
  rw [Node.targets, Node.targets, h.children n hn, List.filterMap_map, List.map_filterMap]
  refine List.filterMap_congr fun c hc => ?_
  by_cases hk : c.kind = .varDeclarator
  · simp [h.kind, hk, h.children c (hn.child hc)]
  · simp [h.kind, hk]

theorem boundNames_map (h : Carries φ root) (hn : Node.Within root n) :
    (φ n).boundNames = n.boundNames.map φ := by
  induction n using Node.induction_children with
  | step n ih =>
      have hinside (c : Node) (hc : c ∈ n.children) : (φ c).boundNames = c.boundNames.map φ :=
        ih c hc (hn.child hc)
      have hone {c : Option Node} (hc : ∀ m, c = some m → m ∈ n.children) :
          ((c.map φ).map Node.boundNames).getD [] =
            ((c.map Node.boundNames).getD []).map φ := by
        cases c with
        | none => rfl
        | some m => exact hinside m (hc m rfl)
      have hall : (n.children.map φ).flatMap Node.boundNames =
          (n.children.flatMap Node.boundNames).map φ := by
        rw [List.flatMap_map, List.map_flatMap]
        exact List.flatMap_congr hinside
      have hlast : (((n.children.map φ).filter fun c => c.kind.isTarget).getLast?.map
            Node.boundNames).getD [] =
          (((n.children.filter fun c => c.kind.isTarget).getLast?.map
            Node.boundNames).getD []).map φ := by
        rw [List.filter_map, List.getLast?_map]
        simp only [Function.comp_def, h.kind]
        exact hone fun m hm => (List.mem_filter.mp (List.mem_of_getLast? hm)).1
      have hfirst : (((n.children.map φ).head?).map Node.boundNames).getD [] =
          ((n.children.head?.map Node.boundNames).getD []).map φ := by
        rw [List.head?_map]
        exact hone fun m hm => List.mem_of_mem_head? hm
      rw [Node.boundNames_eq, Node.boundNames_eq n, h.kind, h.children n hn]
      split
      · rfl
      · exact hall
      · exact hall
      · exact hall
      · exact hlast
      · exact hfirst
      · exact hfirst
      · rfl

end

variable {s : Site}

theorem children_map (h : Carries φ root) (hs : Node.Within root s.node) :
    (s.map φ).children = s.children.map (Site.map φ) := by
  simp [Site.children, Site.map, h.children s.node hs, Function.comp_def]

theorem within_children (hs : Node.Within root s.node) {c : Site} (hc : c ∈ s.children) :
    Node.Within root c.node := by
  obtain ⟨n, hn, rfl⟩ := List.mem_map.mp hc
  exact hs.child hn

theorem descendants_map (h : Carries φ root) (hs : Node.Within root s.node) :
    (s.map φ).descendants = s.descendants.map (Site.map φ) := by
  obtain ⟨n, above⟩ := s
  induction n using Node.induction_children generalizing above with
  | step n ih =>
      rw [Site.descendants_eq, Site.descendants_eq ⟨n, above⟩, h.children_map hs, List.map_cons,
        List.flatMap_map, List.map_flatMap]
      congr 1
      refine List.flatMap_congr fun c hc => ?_
      obtain ⟨m, hm, rfl⟩ := List.mem_map.mp hc
      exact ih m hm _ (hs.child hm)

theorem sizeOf_lt_of_reaches (h : Carries φ root) {t : Site} (hs : Node.Within root s.node)
    (hreaches : s.Reaches t) : t = s ∨ sizeOf (φ t.node).parts < sizeOf (φ s.node).parts := by
  induction hreaches with
  | refl => exact Or.inl rfl
  | @child u c hu hc ih =>
      obtain ⟨n, hn, rfl⟩ := List.mem_map.mp hc
      have hmem : φ n ∈ (φ u.node).children := by
        rw [h.children u.node (hs.trans hu.within)]
        exact List.mem_map_of_mem hn
      have hlt : sizeOf (φ n).parts < sizeOf (φ u.node).parts := Node.sizeOf_parts_lt hmem
      rcases ih with rfl | hlt'
      · exact Or.inr hlt
      · exact Or.inr (Nat.lt_trans hlt hlt')

/-- No site inside another is carried to the same node. -/
theorem eq_of_reaches (h : Carries φ root) {t : Site} (hs : Node.Within root s.node)
    (hreaches : s.Reaches t) (heq : φ t.node = φ s.node) : t = s := by
  rcases h.sizeOf_lt_of_reaches hs hreaches with rfl | hlt
  · rfl
  · rw [heq] at hlt
    exact absurd hlt (Nat.lt_irrefl _)

theorem bare_map (h : Carries φ root) (hs : Node.Within root s.node) :
    (s.map φ).bare = s.bare.map φ := by
  obtain ⟨n, above⟩ := s
  induction n using Node.induction_children generalizing above with
  | step n ih =>
      rw [Site.bare_eq, Site.bare_eq ⟨n, above⟩, h.children_map hs, List.head?_map, Site.node_map,
        h.kind]
      split
      · cases hc : (Site.children ⟨n, above⟩).head? with
        | none => rfl
        | some c =>
            obtain ⟨m, hm, rfl⟩ := List.mem_map.mp (List.mem_of_mem_head? hc)
            exact ih m hm _ (hs.child hm)
      · rfl

theorem map_bare_children (h : Carries φ root) (hs : Node.Within root s.node) :
    (s.map φ).children.map Site.bare = (s.children.map Site.bare).map (Site.map φ) := by
  rw [h.children_map hs, List.map_map, List.map_map]
  exact List.map_congr_left fun c hc => h.bare_map (within_children hs hc)

theorem subject?_map (h : Carries φ root) (hs : Node.Within root s.node) :
    (s.map φ).subject? = s.subject?.map (Site.map φ) := by
  rw [Site.subject?, Site.subject?, ← List.head?_map, ← List.head?_map, h.map_bare_children hs,
    List.head?_map]

theorem arguments_map (h : Carries φ root) (hs : Node.Within root s.node) :
    (s.map φ).arguments = s.arguments.map (Site.map φ) := by
  have hfind : (s.map φ).children.find? (fun c => c.node.kind = .argList) =
      (s.children.find? fun c => c.node.kind = .argList).map (Site.map φ) := by
    rw [h.children_map hs, List.find?_map]
    simp only [Function.comp_def, Site.node_map, h.kind]
  rw [Site.arguments, Site.arguments, hfind]
  cases hlist : s.children.find? fun c => c.node.kind = .argList with
  | none => rfl
  | some list =>
      exact h.map_bare_children (within_children hs (List.mem_of_find?_eq_some hlist))

end Carries

end FreeNames
