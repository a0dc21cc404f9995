import FreeNames.Proofs.Shapes

/-!
# FreeNames.Proofs.Preorder

The order of sites.  `Site.descendants` lists a site before those inside it, and these
before what comes after it: `pairwise_descendants`.

In a text without problems parentheses hold one node each, and a member access has two
nodes inside it, its object and its property.  So around a name in parentheses there are
only parentheses: `Reaches.of_bare`.
-/

namespace FreeNames

namespace Site

/-! ## sites in a row -/

/-- A site is around another, or ends before it. -/
def Precedes (a b : Site) : Prop :=
  (∃ c ∈ a.children, c.Reaches b) ∨ a.node.span.stop ≤ b.node.start

mutual

theorem bounds_of_mem_within {above : List Node} {start : Nat} {s : Site} : (t : Tree) →
    s ∈ within above start t → start ≤ s.node.start ∧ s.node.span.stop ≤ start + t.size
  | .leaf _, h => by simp [within] at h
  | .node k ps, h => by
      rw [within, List.mem_cons] at h
      rcases h with rfl | h
      · exact ⟨Nat.le_refl _, by simp [Node.span, Tree.size]⟩
      · simpa [Tree.size] using bounds_of_mem_withinAll ps h

theorem bounds_of_mem_withinAll {above : List Node} {start : Nat} {s : Site} : (ts : List Tree) →
    s ∈ withinAll above start ts →
      start ≤ s.node.start ∧ s.node.span.stop ≤ start + Tree.sizeAll ts
  | [], h => by simp [withinAll] at h
  | t :: ts, h => by
      rw [withinAll, List.mem_append] at h
      rw [Tree.sizeAll]
      rcases h with h | h
      · have hbounds := bounds_of_mem_within t h
        omega
      · have hbounds := bounds_of_mem_withinAll ts h
        omega

end

theorem Reaches.bounds {a b : Site} (h : a.Reaches b) :
    a.node.start ≤ b.node.start ∧ b.node.span.stop ≤ a.node.span.stop := by
  rw [← mem_descendants_iff, descendants_eq_within] at h
  simpa [Node.span, Tree.size] using bounds_of_mem_within _ h

mutual

theorem pairwise_within (above : List Node) (start : Nat) : (t : Tree) →
    (within above start t).Pairwise Precedes
  | .leaf _ => by simp [within]
  | .node k ps => by
      rw [within, List.pairwise_cons]
      refine ⟨fun b hb => Or.inl ?_, pairwise_withinAll _ start ps⟩
      obtain ⟨n, hn, hreaches⟩ := reaches_of_mem_withinAll ps hb
      exact ⟨_, List.mem_map_of_mem hn, hreaches⟩

theorem pairwise_withinAll (above : List Node) (start : Nat) : (ts : List Tree) →
    (withinAll above start ts).Pairwise Precedes
  | [] => by simp [withinAll]
  | t :: ts => by
      rw [withinAll, List.pairwise_append]
      refine ⟨pairwise_within above start t, pairwise_withinAll above _ ts, fun a ha b hb => ?_⟩
      exact Or.inr (Nat.le_trans (bounds_of_mem_within t ha).2 (bounds_of_mem_withinAll ts hb).1)

end

/-- Sites are listed in source order. -/
theorem pairwise_descendants (s : Site) : s.descendants.Pairwise Precedes := by
  rw [descendants_eq_within]
  exact pairwise_within ..

end Site

/-! ## nodes inside a node -/

/-- Anything but a token. -/
def Tree.isNode : Tree → Bool
  | .leaf _ => false
  | .node _ _ => true

/-- The tree of a node. -/
def Node.tree (n : Node) : Tree := .node n.kind n.parts

theorem Node.map_tree_among (start : Nat) (ts : List Tree) :
    (among start ts).map tree = (Tree.solids ts).filter Tree.isNode := by
  fun_induction among start ts with
  | case1 => rfl
  | case2 start t ts ih =>
      rw [ih]
      cases htrivia : t.isTrivia <;>
        simp [Tree.solids, Tree.isSolid, Tree.isNode, htrivia]
  | case3 start k parts ts ih =>
      rw [List.map_cons, ih, Tree.solids_node, List.filter_cons_of_pos rfl]
      rfl

theorem Node.among_append (start : Nat) (ts us : List Tree) :
    among start (ts ++ us) = among start ts ++ among (start + Tree.sizeAll ts) us := by
  fun_induction among start ts with
  | case1 => simp [Tree.sizeAll]
  | case2 start t ts ih => rw [List.cons_append, among, ih, Tree.sizeAll, Tree.size, Nat.add_assoc]
  | case3 start k parts ts ih =>
      rw [List.cons_append, among, ih, List.cons_append, Tree.sizeAll, Tree.size, Nat.add_assoc]

namespace Site

section

variable {source : SourceType} {text : Text} {s : Site}

/-- Every node of a text without problems has its shape. -/
theorem Reaches.shaped (h : (parse source text).problems = [])
    (hs : (parse source text).root.Reaches s) : s.node.tree.All Tree.Shaped := by
  cases shaped_root h with
  | node here all =>
      obtain ⟨hown, hparts⟩ := hs.all all
      rcases hown with rfl | hown
      · exact .node here all
      · exact .node hown hparts

end

/-- Parentheses have one node inside them. -/
theorem length_among_paren {start : Nat} {parts : List Tree} (h : Tree.Shaped .parenExpr parts) :
    (Node.among start parts).length = 1 := by
  obtain ⟨l, k, inner, r, hparts, -⟩ := h.paren
  have hmap := congrArg List.length (Node.map_tree_among start parts)
  rw [List.length_map, hparts] at hmap
  exact hmap

/-- A member access has two nodes inside it, its object and its property. -/
theorem children_member {n : Node} (h : Tree.Shaped n.kind n.parts) (hk : n.kind = .memberExpr) :
    ∃ object property, n.children = [object, property] ∧ object.kind.isExpression = true ∧
      property.kind = .propertyName := by
  rw [hk] at h
  obtain ⟨k, object, t, name, hparts, hexpr, -⟩ := h.member
  have hmap := Node.map_tree_among n.start n.parts
  rw [hparts] at hmap
  have hlength := congrArg List.length hmap
  rw [List.length_map] at hlength
  obtain ⟨a, b, hab⟩ := List.length_eq_two.mp hlength
  rw [hab] at hmap
  obtain ⟨ha, hb⟩ : a.tree = .node k object ∧ b.tree = .node .propertyName name := by
    simpa [List.filter_cons, Tree.isNode] using hmap
  exact ⟨a, b, hab, (Tree.node.inj ha).1 ▸ hexpr, (Tree.node.inj hb).1⟩

theorem withinAll_eq_nil {above : List Node} {start : Nat} {ts : List Tree}
    (h : Node.among start ts = []) : withinAll above start ts = [] := by
  refine List.eq_nil_iff_forall_not_mem.mpr fun b hb => ?_
  obtain ⟨n, hn, -⟩ := reaches_of_mem_withinAll ts hb
  simp [h] at hn

/-! ## names in parentheses -/

mutual

theorem eq_of_mem_within_of_unwrap {above : List Node} {start : Nat} {r b : Site} : (t : Tree) →
    t.All Tree.Shaped → unwrap above start t = some r → r.children = [] →
      b ∈ within above start t → b.node.kind = .parenExpr ∨ b = r
  | .leaf _, _, h, _, _ => by simp [unwrap] at h
  | .node k ps, hall, h, hr, hb => by
      rw [unwrap] at h
      rw [within, List.mem_cons] at hb
      -- no site is inside the one reached
      have hinside {n : Node} (heq : r = ⟨n, above⟩) (hn : n = ⟨start, k, ps⟩) : b = r := by
        subst hn heq
        rw [withinAll_eq_nil (by simpa [children, Node.children] using hr)] at hb
        exact hb.resolve_right List.not_mem_nil
      split at h
      · next hk =>
          rcases hb with rfl | hb'
          · exact Or.inl hk
          cases hall with
          | node here all =>
              cases hfirst : unwrapFirst (⟨start, k, ps⟩ :: above) start ps with
              | none =>
                  rw [hfirst] at h
                  exact Or.inr (hinside (Option.some.inj h).symm rfl)
              | some first =>
                  rw [hfirst] at h
                  obtain rfl : first = r := Option.some.inj h
                  rw [hk] at here
                  exact eq_of_mem_withinAll_of_unwrapFirst ps all
                    (Nat.le_of_eq (length_among_paren here)) hfirst hr hb'
      · exact Or.inr (hinside (Option.some.inj h).symm rfl)

theorem eq_of_mem_withinAll_of_unwrapFirst {above : List Node} {start : Nat} {r b : Site} :
    (ts : List Tree) → (∀ t ∈ ts, t.All Tree.Shaped) → (Node.among start ts).length ≤ 1 →
      unwrapFirst above start ts = some r → r.children = [] →
      b ∈ withinAll above start ts → b.node.kind = .parenExpr ∨ b = r
  | [], _, _, h, _, _ => by simp [unwrapFirst] at h
  | .leaf t :: ts, hall, hlength, h, hr, hb => by
      rw [unwrapFirst] at h
      rw [withinAll, List.mem_append] at hb
      exact eq_of_mem_withinAll_of_unwrapFirst ts (fun u hu => hall u (List.mem_cons_of_mem _ hu))
        hlength h hr (hb.resolve_left (by simp [within]))
  | .node k ps :: ts, hall, hlength, h, hr, hb => by
      rw [unwrapFirst] at h
      rw [Node.among, List.length_cons] at hlength
      have hrest : Node.among (start + Tree.sizeAll ps) ts = [] :=
        List.length_eq_zero_iff.mp (by omega)
      rw [withinAll, Tree.size, withinAll_eq_nil hrest, List.append_nil] at hb
      exact eq_of_mem_within_of_unwrap (.node k ps) (hall _ List.mem_cons_self) h hr hb

end

/-- Around a name in parentheses there are only parentheses. -/
theorem Reaches.of_bare {s b : Site} (hs : s.node.tree.All Tree.Shaped)
    (hbare : s.bare.children = []) (h : s.Reaches b) :
    b.node.kind = .parenExpr ∨ b = s.bare := by
  rw [← mem_descendants_iff, descendants_eq_within] at h
  unfold bare at hbare ⊢
  cases hunwrap : unwrap s.above s.node.start (.node s.node.kind s.node.parts) with
  | none => rw [unwrap] at hunwrap; split at hunwrap <;> cases hunwrap
  | some r =>
      rw [hunwrap] at hbare
      exact eq_of_mem_within_of_unwrap _ hs hunwrap hbare h

end Site

end FreeNames
