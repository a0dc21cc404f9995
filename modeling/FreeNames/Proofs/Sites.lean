import FreeNames.Proofs.Places
import Mathlib.Data.List.Nodup

/-!
# FreeNames.Proofs.Sites

The sites of a tree, which are those that `Site.descendants` lists.  All that a
search from a site of the tree reaches is a site of it, and so are the nodes
around a site.  A token is directly inside one site only (`Site.eq_of_holds`).
-/

namespace FreeNames

/-- A token that starts at an offset is directly inside a node. -/
def Node.Holds (n : Node) (offset : Nat) (t : Token) : Prop :=
  ∃ before after, n.parts = before ++ .leaf t :: after ∧ offset = n.start + Tree.sizeAll before

namespace Site

/-- A site is inside another, at any depth. -/
inductive Reaches (root : Site) : Site → Prop
  | refl : Reaches root root
  | child {s c : Site} : Reaches root s → c ∈ s.children → Reaches root c

theorem Reaches.trans {a b c : Site} (hab : Reaches a b) (hbc : Reaches b c) : Reaches a c := by
  induction hbc with
  | refl => exact hab
  | child _ hc ih => exact ih.child hc

/-! ## sites of a tree -/

theorem mem_withinAll_of_mem_among {above : List Node} {start : Nat} {n : Node} :
    (ts : List Tree) → n ∈ Node.among start ts → ⟨n, above⟩ ∈ withinAll above start ts
  | [], h => by simp [Node.among] at h
  | .leaf t :: ts, h => by
      rw [Node.among] at h
      rw [withinAll, List.mem_append]
      exact Or.inr (mem_withinAll_of_mem_among ts h)
  | .node k ps :: ts, h => by
      rw [Node.among, List.mem_cons] at h
      rw [withinAll, List.mem_append]
      rcases h with rfl | h
      · exact Or.inl (by simp [within])
      · exact Or.inr (mem_withinAll_of_mem_among ts h)

mutual

theorem mem_within_of_mem_children {above : List Node} {start : Nat} {s c : Site} :
    (t : Tree) → s ∈ within above start t → c ∈ s.children → c ∈ within above start t
  | .leaf _, hs, _ => by simp [within] at hs
  | .node k ps, hs, hc => by
      rw [within, List.mem_cons] at hs ⊢
      rcases hs with rfl | hs
      · obtain ⟨n, hn, rfl⟩ := List.mem_map.mp hc
        exact Or.inr (mem_withinAll_of_mem_among ps hn)
      · exact Or.inr (mem_withinAll_of_mem_children ps hs hc)

theorem mem_withinAll_of_mem_children {above : List Node} {start : Nat} {s c : Site} :
    (ts : List Tree) → s ∈ withinAll above start ts → c ∈ s.children → c ∈ withinAll above start ts
  | [], hs, _ => by simp [withinAll] at hs
  | t :: ts, hs, hc => by
      rw [withinAll, List.mem_append] at hs ⊢
      rcases hs with hs | hs
      · exact Or.inl (mem_within_of_mem_children t hs hc)
      · exact Or.inr (mem_withinAll_of_mem_children ts hs hc)

end

mutual

theorem reaches_of_mem_within {above : List Node} {start : Nat} {s : Site} :
    (t : Tree) → s ∈ within above start t →
      ∃ k ps, t = .node k ps ∧ Reaches ⟨⟨start, k, ps⟩, above⟩ s
  | .leaf _, h => by simp [within] at h
  | .node k ps, h => by
      refine ⟨k, ps, rfl, ?_⟩
      rw [within, List.mem_cons] at h
      rcases h with rfl | h
      · exact .refl
      · obtain ⟨n, hn, hreaches⟩ := reaches_of_mem_withinAll ps h
        exact Reaches.trans (.child .refl (List.mem_map_of_mem hn)) hreaches

theorem reaches_of_mem_withinAll {above : List Node} {start : Nat} {s : Site} :
    (ts : List Tree) → s ∈ withinAll above start ts →
      ∃ n ∈ Node.among start ts, Reaches ⟨n, above⟩ s
  | [], h => by simp [withinAll] at h
  | t :: ts, h => by
      rw [withinAll, List.mem_append] at h
      rcases h with h | h
      · obtain ⟨k, ps, rfl, hreaches⟩ := reaches_of_mem_within t h
        exact ⟨_, by simp [Node.among], hreaches⟩
      · obtain ⟨n, hn, hreaches⟩ := reaches_of_mem_withinAll ts h
        cases t with
        | leaf t => exact ⟨n, by simpa [Node.among, Tree.size] using hn, hreaches⟩
        | node k ps =>
            refine ⟨n, ?_, hreaches⟩
            rw [Node.among, List.mem_cons]
            exact Or.inr (by simpa [Tree.size] using hn)

end

theorem descendants_eq_within (s : Site) :
    s.descendants = within s.above s.node.start (.node s.node.kind s.node.parts) := by
  rw [within, descendants]

/-- The sites of a tree are those inside its root. -/
theorem mem_descendants_iff {root s : Site} : s ∈ root.descendants ↔ root.Reaches s := by
  rw [descendants_eq_within]
  constructor
  · intro h
    obtain ⟨k, ps, heq, hreaches⟩ := reaches_of_mem_within _ h
    obtain ⟨rfl, rfl⟩ := Tree.node.inj heq
    exact hreaches
  · intro h
    induction h with
    | refl => simp [within]
    | child _ hc ih => exact mem_within_of_mem_children _ ih hc

mutual

theorem mem_within_of_unwrap {above : List Node} {start : Nat} {s : Site} :
    (t : Tree) → unwrap above start t = some s → s ∈ within above start t
  | .leaf _, h => by simp [unwrap] at h
  | .node k ps, h => by
      rw [unwrap] at h
      rw [within, List.mem_cons]
      split at h
      · cases hfirst : unwrapFirst (⟨start, k, ps⟩ :: above) start ps with
        | none => exact Or.inl (by simpa [hfirst] using h.symm)
        | some first =>
            obtain rfl : first = s := by simpa [hfirst] using h
            exact Or.inr (mem_withinAll_of_unwrapFirst ps hfirst)
      · exact Or.inl (Option.some.inj h).symm

theorem mem_withinAll_of_unwrapFirst {above : List Node} {start : Nat} {s : Site} :
    (ts : List Tree) → unwrapFirst above start ts = some s → s ∈ withinAll above start ts
  | [], h => by simp [unwrapFirst] at h
  | .leaf t :: ts, h => by
      rw [unwrapFirst] at h
      rw [withinAll, List.mem_append]
      exact Or.inr (mem_withinAll_of_unwrapFirst ts h)
  | .node k ps :: ts, h => by
      rw [unwrapFirst] at h
      rw [withinAll, List.mem_append]
      exact Or.inl (mem_within_of_unwrap (.node k ps) h)

end

theorem reaches_bare (s : Site) : s.Reaches s.bare := by
  unfold bare
  cases h : unwrap s.above s.node.start (.node s.node.kind s.node.parts) with
  | none => exact .refl
  | some b =>
      rw [← mem_descendants_iff, descendants_eq_within]
      exact mem_within_of_unwrap _ h

section

variable {root s t : Site}

theorem Reaches.subject? (h : root.Reaches s) (ht : s.subject? = some t) : root.Reaches t := by
  simp only [Site.subject?, Option.map_eq_some_iff] at ht
  obtain ⟨c, hc, rfl⟩ := ht
  exact (h.child (List.mem_of_mem_head? hc)).trans (reaches_bare c)

theorem Reaches.arguments (h : root.Reaches s) (ht : t ∈ s.arguments) : root.Reaches t := by
  unfold Site.arguments at ht
  split at ht
  · next list hlist =>
      obtain ⟨c, hc, rfl⟩ := List.mem_map.mp ht
      exact ((h.child (List.mem_of_find?_eq_some hlist)).child hc).trans (reaches_bare c)
  · simp at ht

theorem Reaches.within (h : root.Reaches s) : Node.Within root.node s.node := by
  induction h with
  | refl => exact .refl
  | child _ hc ih =>
      obtain ⟨n, hn, rfl⟩ := List.mem_map.mp hc
      exact ih.child hn

theorem within_of_mem_descendants (h : s ∈ root.descendants) : Node.Within root.node s.node :=
  (mem_descendants_iff.mp h).within

theorem exists_reaches {n : Node} (h : Node.Within root.node n) :
    ∃ s, root.Reaches s ∧ s.node = n := by
  induction h with
  | refl => exact ⟨root, .refl, rfl⟩
  | child _ hc ih =>
      obtain ⟨s, hs, rfl⟩ := ih
      exact ⟨_, hs.child (List.mem_map_of_mem hc), rfl⟩

/-- The nodes around a site are those around the root and nodes of its tree. -/
theorem Reaches.above {n : Node} (h : root.Reaches s) (hn : n ∈ s.above) :
    n ∈ root.above ∨ Node.Within root.node n := by
  induction h with
  | refl => exact Or.inl hn
  | child hs hc ih =>
      obtain ⟨c, -, rfl⟩ := List.mem_map.mp hc
      rcases List.mem_cons.mp hn with rfl | hn
      · exact Or.inr hs.within
      · exact ih hn

theorem Reaches.mem_above {n : Node} (h : root.Reaches s) (hn : n ∈ root.above) :
    n ∈ s.above := by
  induction h with
  | refl => exact hn
  | child _ hc ih =>
      obtain ⟨c, -, rfl⟩ := List.mem_map.mp hc
      exact List.mem_cons_of_mem _ ih

end

/-- The nodes around a site inside another end in that other site. -/
theorem Reaches.above_append {a s : Site} (h : a.Reaches s) (hne : s ≠ a) :
    ∃ inner, s.above = inner ++ a.node :: a.above := by
  induction h with
  | refl => exact absurd rfl hne
  | @child s c hs hc ih =>
      obtain ⟨n, -, rfl⟩ := List.mem_map.mp hc
      by_cases hsa : s = a
      · exact ⟨[], by simp [hsa]⟩
      · obtain ⟨inner, hinner⟩ := ih hsa
        exact ⟨s.node :: inner, by simp [hinner]⟩

/-- A node around a site is a site of the tree, and the site is inside it. -/
theorem Reaches.of_above {root s : Site} (htop : root.above = []) (h : root.Reaches s)
    {inner outer : List Node} {n : Node} (habove : s.above = inner ++ n :: outer) :
    root.Reaches ⟨n, outer⟩ ∧ Reaches ⟨n, outer⟩ s := by
  induction h generalizing inner with
  | refl => simp [htop] at habove
  | @child s c hs hc ih =>
      obtain ⟨m, hm, rfl⟩ := List.mem_map.mp hc
      cases inner with
      | nil =>
          obtain ⟨rfl, rfl⟩ := List.cons.inj habove
          exact ⟨hs, .child .refl hc⟩
      | cons m' inner =>
          obtain ⟨hroot, hinside⟩ := ih (List.cons.inj habove).2
          exact ⟨hroot, hinside.child hc⟩

/-- Of two sites around a third, one is inside the other. -/
theorem Reaches.comparable {a b s : Site} (ha : a.Reaches s) (hb : b.Reaches s) :
    a.Reaches b ∨ b.Reaches a := by
  induction ha with
  | refl => exact Or.inr hb
  | @child s c hs hc ih =>
      cases hb with
      | refl => exact Or.inl (hs.child hc)
      | @child s' _ hs' hc' =>
          obtain ⟨n, -, rfl⟩ := List.mem_map.mp hc
          obtain ⟨n', -, heq⟩ := List.mem_map.mp hc'
          -- the site right around a site is the first of those above it
          have habove : s'.node :: s'.above = s.node :: s.above := congrArg Site.above heq
          obtain ⟨hnode, hrest⟩ := List.cons.inj habove
          have hsame : s' = s := by
            cases s
            cases s'
            simp_all
          exact ih (hsame ▸ hs')

/-! ## tokens and the sites they are in -/

mutual

/-- The tokens of a tree inside a site, each with where it starts and the site
that it is directly inside. -/
def leaves (s : Site) (start : Nat) : Tree → List (Nat × Token × Site)
  | .leaf t => [(start, t, s)]
  | .node kind parts => leavesAll ⟨⟨start, kind, parts⟩, s.node :: s.above⟩ start parts

/-- The tokens of trees in a row. -/
def leavesAll (s : Site) (start : Nat) : List Tree → List (Nat × Token × Site)
  | [] => []
  | t :: ts => leaves s start t ++ leavesAll s (start + t.size) ts

end

mutual

theorem map_leaves (s : Site) (start : Nat) : (t : Tree) →
    (leaves s start t).map (fun l => (l.1, l.2.1)) = Token.locate start t.tokens
  | .leaf t => by simp [leaves]
  | .node k ps => by simpa [leaves] using map_leavesAll _ start ps

theorem map_leavesAll (s : Site) (start : Nat) : (ts : List Tree) →
    (leavesAll s start ts).map (fun l => (l.1, l.2.1)) = Token.locate start (Tree.tokensAll ts)
  | [] => by simp [leavesAll]
  | t :: ts => by
      rw [leavesAll, List.map_append, map_leaves s start t, map_leavesAll s _ ts,
        Tree.tokensAll_cons, Token.locate_append, Tree.size_eq]

end

theorem mem_leavesAll_of_holds {s : Site} {start : Nat} {t : Token} {after : List Tree} :
    (before : List Tree) → (start + Tree.sizeAll before, t, s) ∈
      leavesAll s start (before ++ .leaf t :: after)
  | [] => by simp [leavesAll, leaves, Tree.sizeAll]
  | b :: bs => by
      rw [List.cons_append, leavesAll, List.mem_append, Tree.sizeAll, ← Nat.add_assoc]
      exact Or.inr (mem_leavesAll_of_holds bs)

mutual

theorem leaves_subset {s m : Site} {start : Nat} : (t : Tree) →
    m ∈ within (s.node :: s.above) start t →
      leavesAll m m.node.start m.node.parts ⊆ leaves s start t
  | .leaf _, h => by simp [within] at h
  | .node k ps, h => by
      rw [within, List.mem_cons] at h
      rw [leaves]
      rcases h with rfl | h
      · exact List.Subset.refl _
      · exact leavesAll_subset ps h

theorem leavesAll_subset {s m : Site} {start : Nat} : (ts : List Tree) →
    m ∈ withinAll (s.node :: s.above) start ts →
      leavesAll m m.node.start m.node.parts ⊆ leavesAll s start ts
  | [], h => by simp [withinAll] at h
  | t :: ts, h => by
      rw [withinAll, List.mem_append] at h
      rw [leavesAll]
      rcases h with h | h
      · exact List.subset_append_of_subset_left _ (leaves_subset t h)
      · exact List.subset_append_of_subset_right _ (leavesAll_subset ts h)

end

theorem Reaches.mem_leavesAll {root s : Site} {o : Nat} {t : Token} (h : root.Reaches s)
    (hholds : s.node.Holds o t) : (o, t, s) ∈ leavesAll root root.node.start root.node.parts := by
  obtain ⟨before, after, hparts, rfl⟩ := hholds
  have hown : (s.node.start + Tree.sizeAll before, t, s) ∈
      leavesAll s s.node.start s.node.parts := by
    rw [hparts]
    exact mem_leavesAll_of_holds before
  rw [← mem_descendants_iff, descendants, List.mem_cons] at h
  rcases h with rfl | h
  · exact hown
  · exact leavesAll_subset _ h hown

mutual

theorem of_mem_leaves {s a : Site} {start o : Nat} {t : Token} : (tree : Tree) →
    (o, t, a) ∈ leaves s start tree →
      (tree = .leaf t ∧ o = start ∧ a = s) ∨
        ∃ k ps, tree = .node k ps ∧ Reaches ⟨⟨start, k, ps⟩, s.node :: s.above⟩ a ∧
          a.node.Holds o t
  | .leaf u, h => by
      rw [leaves, List.mem_singleton, Prod.mk.injEq, Prod.mk.injEq] at h
      obtain ⟨rfl, rfl, rfl⟩ := h
      exact Or.inl ⟨rfl, rfl, rfl⟩
  | .node k ps, h => by
      rw [leaves] at h
      refine Or.inr ⟨k, ps, rfl, ?_⟩
      rcases of_mem_leavesAll ps h with ⟨rfl, before, after, rfl, rfl⟩ | ⟨c, hc, hreaches, hholds⟩
      · exact ⟨.refl, before, after, rfl, rfl⟩
      · exact ⟨Reaches.trans (.child .refl (List.mem_map_of_mem hc)) hreaches, hholds⟩

theorem of_mem_leavesAll {s a : Site} {start o : Nat} {t : Token} : (ts : List Tree) →
    (o, t, a) ∈ leavesAll s start ts →
      (a = s ∧ ∃ before after, ts = before ++ .leaf t :: after ∧
          o = start + Tree.sizeAll before) ∨
        ∃ c ∈ Node.among start ts, Reaches ⟨c, s.node :: s.above⟩ a ∧ a.node.Holds o t
  | [], h => by simp [leavesAll] at h
  | tree :: ts, h => by
      rw [leavesAll, List.mem_append] at h
      rcases h with h | h
      · rcases of_mem_leaves tree h with ⟨rfl, rfl, rfl⟩ | ⟨k, ps, rfl, hreaches, hholds⟩
        · exact Or.inl ⟨rfl, [], ts, rfl, by simp [Tree.sizeAll]⟩
        · exact Or.inr ⟨_, by simp [Node.among], hreaches, hholds⟩
      · rcases of_mem_leavesAll ts h with ⟨rfl, before, after, rfl, rfl⟩ | ⟨c, hc, hinside⟩
        · exact Or.inl ⟨rfl, tree :: before, after, rfl, by simp [Tree.sizeAll]; omega⟩
        · refine Or.inr ⟨c, ?_, hinside⟩
          cases tree with
          | leaf u => simpa [Node.among, Tree.size] using hc
          | node k ps => exact List.mem_cons_of_mem _ (by simpa [Tree.size] using hc)

end

/-- A token of a site is directly inside it or a site inside it. -/
theorem exists_holds {s : Site} {o : Nat} {t : Token}
    (h : (o, t) ∈ Token.locate s.node.start (Tree.tokensAll s.node.parts)) :
    ∃ a, s.Reaches a ∧ a.node.Holds o t := by
  rw [← map_leavesAll s, List.mem_map] at h
  obtain ⟨⟨o', t', a⟩, hmem, heq⟩ := h
  obtain ⟨rfl, rfl⟩ := Prod.mk.inj heq
  rcases of_mem_leavesAll _ hmem with ⟨rfl, hholds⟩ | ⟨c, hc, hreaches, hholds⟩
  · exact ⟨_, .refl, hholds⟩
  · exact ⟨a, Reaches.trans (.child .refl (List.mem_map_of_mem hc)) hreaches, hholds⟩

/-- A token is directly inside one site only. -/
theorem eq_of_holds {root s s' : Site} {o : Nat} {t t' : Token}
    (hne : ∀ t ∈ Tree.tokensAll root.node.parts, t.text ≠ []) (hs : root.Reaches s)
    (hs' : root.Reaches s') (h : s.node.Holds o t) (h' : s'.node.Holds o t') : s = s' := by
  have hnodup : ((leavesAll root root.node.start root.node.parts).map Prod.fst).Nodup := by
    have hstrict : (Token.locate root.node.start (Tree.tokensAll root.node.parts)).Pairwise
        fun a b => a.1 < b.1 := Token.locate_strict hne
    rw [← map_leavesAll root, List.pairwise_map] at hstrict
    exact List.pairwise_map.mpr (hstrict.imp Nat.ne_of_lt)
  have heq := List.inj_on_of_nodup_map hnodup (hs.mem_leavesAll h) (hs'.mem_leavesAll h') rfl
  exact (Prod.mk.inj (Prod.mk.inj heq).2).2

/-! ## names that a target declares -/

mutual

theorem of_mem_bound (above : List Node) {start : Nat} {n : Node} : (t : Tree) →
    n ∈ t.bound start → n.kind = .name ∧ ∃ s ∈ within above start t, s.node = n
  | .leaf _, h => by simp [Tree.bound] at h
  | .node k ps, h => by
      have hparts : (n.kind = .name ∧
          ∃ s ∈ withinAll (⟨start, k, ps⟩ :: above) start ps, s.node = n) →
          n.kind = .name ∧ ∃ s ∈ within above start (.node k ps), s.node = n := by
        rintro ⟨hk, s, hs, hn⟩
        exact ⟨hk, s, by simp [within, hs], hn⟩
      unfold Tree.bound at h
      split at h
      · obtain rfl := List.mem_singleton.mp h
        exact ⟨rfl, ⟨⟨start, .name, ps⟩, above⟩, by simp [within], rfl⟩
      · exact hparts (of_mem_boundAll _ ps h)
      · exact hparts (of_mem_boundAll _ ps h)
      · exact hparts (of_mem_boundAll _ ps h)
      · cases hlast : Tree.boundLast start ps with
        | none => simp [hlast] at h
        | some names => exact hparts (of_mem_boundLast _ ps hlast (by simpa [hlast] using h))
      · exact hparts (of_mem_boundFirst _ ps h)
      · exact hparts (of_mem_boundFirst _ ps h)
      · simp at h

theorem of_mem_boundAll (above : List Node) {start : Nat} {n : Node} : (ts : List Tree) →
    n ∈ Tree.boundAll start ts → n.kind = .name ∧ ∃ s ∈ withinAll above start ts, s.node = n
  | [], h => by simp [Tree.boundAll] at h
  | t :: ts, h => by
      rw [Tree.boundAll, List.mem_append] at h
      rcases h with h | h
      · obtain ⟨hk, s, hs, hn⟩ := of_mem_bound above t h
        exact ⟨hk, s, by simp [withinAll, hs], hn⟩
      · obtain ⟨hk, s, hs, hn⟩ := of_mem_boundAll above ts h
        exact ⟨hk, s, by simp [withinAll, hs], hn⟩

theorem of_mem_boundLast (above : List Node) {start : Nat} {n : Node} {names : List Node} :
    (ts : List Tree) → Tree.boundLast start ts = some names → n ∈ names →
      n.kind = .name ∧ ∃ s ∈ withinAll above start ts, s.node = n
  | [], h, _ => by simp [Tree.boundLast] at h
  | t :: ts, h, hn => by
      rw [Tree.boundLast] at h
      split at h
      · next names' hlast =>
          obtain rfl := Option.some.inj h
          obtain ⟨hk, s, hs, hn⟩ := of_mem_boundLast above ts hlast hn
          exact ⟨hk, s, by simp [withinAll, hs], hn⟩
      · split at h
        · obtain rfl := Option.some.inj h
          obtain ⟨hk, s, hs, hn⟩ := of_mem_bound above t hn
          exact ⟨hk, s, by simp [withinAll, hs], hn⟩
        · simp at h

theorem of_mem_boundFirst (above : List Node) {start : Nat} {n : Node} : (ts : List Tree) →
    n ∈ Tree.boundFirst start ts → n.kind = .name ∧ ∃ s ∈ withinAll above start ts, s.node = n
  | [], h => by simp [Tree.boundFirst] at h
  | .leaf t :: ts, h => by
      rw [Tree.boundFirst] at h
      obtain ⟨hk, s, hs, hn⟩ := of_mem_boundFirst above ts h
      exact ⟨hk, s, by simp [withinAll, Tree.size, hs], hn⟩
  | .node k ps :: ts, h => by
      rw [Tree.boundFirst] at h
      obtain ⟨hk, s, hs, hn⟩ := of_mem_bound above (.node k ps) h
      exact ⟨hk, s, by simp [withinAll, hs], hn⟩

end

theorem mem_boundAll_of_mem_among {start : Nat} {n : Node} (hk : n.kind = .name) :
    (ts : List Tree) → n ∈ Node.among start ts → n ∈ Tree.boundAll start ts
  | [], h => by simp [Node.among] at h
  | .leaf t :: ts, h => by
      rw [Node.among] at h
      rw [Tree.boundAll, List.mem_append]
      exact Or.inr (mem_boundAll_of_mem_among hk ts h)
  | .node k ps :: ts, h => by
      rw [Node.among, List.mem_cons] at h
      rw [Tree.boundAll, List.mem_append]
      rcases h with rfl | h
      · obtain rfl : k = .name := hk
        exact Or.inl (by simp [Tree.bound])
      · exact Or.inr (mem_boundAll_of_mem_among hk ts h)

end Site

/-- What a target declares are names inside it. -/
theorem Node.of_mem_boundNames {n m : Node} (h : m ∈ n.boundNames) :
    m.kind = .name ∧ Within n m := by
  obtain ⟨hk, s, hs, rfl⟩ := Site.of_mem_bound [] _ h
  rw [← Site.descendants_eq_within ⟨n, []⟩] at hs
  exact ⟨hk, Site.within_of_mem_descendants hs⟩

theorem Node.boundNames_of_name {n : Node} (h : n.kind = .name) : n.boundNames = [n] := by
  obtain ⟨start, kind, parts⟩ := n
  subst h
  simp [boundNames, Tree.bound]

end FreeNames
