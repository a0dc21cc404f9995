import FreeNames.Proofs.Aliases
import FreeNames.Proofs.Declarations
import FreeNames.Proofs.Margins
import FreeNames.Proofs.Preorder

/-!
# FreeNames.Proofs.Targets

The names of a target as a list.  They are listed as they come in the text: of the
sites in a target, in preorder, those that are names and have only patterns around
them inside the target (`boundNames_eq_filter`).

Main statement: `boundNames_exact`.
-/

namespace FreeNames

/-- Names, patterns and what patterns are made of, and lists of parameters. -/
def NodeKind.isBinding : NodeKind → Bool
  | .name | .objectPattern | .objectPatternProp | .arrayPattern | .assignPattern
  | .restPattern | .paramList => true
  | _ => false

namespace NodeKind

variable {k : NodeKind}

theorem isBinding_iff :
    k.isBinding = true ↔ k = .name ∨ k.isPattern = true ∨ k = .paramList := by
  cases k <;> decide

theorem not_isBinding_of_plain (h : k.family ∈ Family.plain) : k.isBinding = false := by
  revert h
  cases k <;> decide

end NodeKind

namespace Site

/-! ## nodes around a site -/

/-- The nodes around a site inside another one, with that one. -/
def aboveIn (p s : Site) : List Node := s.above.take (s.above.length - p.above.length)

variable {p c s : Site}

theorem aboveIn_eq {inner : List Node} (h : s.above = inner ++ p.above) : p.aboveIn s = inner := by
  simp [aboveIn, h]

theorem Reaches.exists_above (h : p.Reaches s) : ∃ inner, s.above = inner ++ p.above := by
  by_cases hs : s = p
  · exact ⟨[], by rw [hs, List.nil_append]⟩
  · obtain ⟨inner, hinner⟩ := h.above_append hs
    exact ⟨inner ++ [p.node], by simp [hinner]⟩

/-- What is around a site inside another one is among the nodes around it. -/
theorem Reaches.mem_aboveIn (hc : p.Reaches c) (hs : c.Reaches s) (hne : s ≠ c) :
    c.node ∈ p.aboveIn s := by
  obtain ⟨outer, houter⟩ := hc.exists_above
  obtain ⟨inner, hinner⟩ := hs.above_append hne
  have habove : s.above = (inner ++ c.node :: outer) ++ p.above := by simp [hinner, houter]
  rw [aboveIn_eq habove]
  simp

/-! ## names in a target -/

/-- A site is a name that only patterns are around, up to another site. -/
def isBoundIn (p s : Site) : Bool :=
  s.node.kind = .name && (p.aboveIn s).all fun n => n.kind.isBinding

theorem isBoundIn_iff : p.isBoundIn s = true ↔
    s.node.kind = .name ∧ ∀ n ∈ p.aboveIn s, n.kind.isBinding = true := by
  simp [isBoundIn]

/-- Nothing is bound inside a node that is no pattern. -/
theorem not_isBoundIn (hc : p.Reaches c) (hk : c.node.kind.isBinding = false)
    (hs : c.Reaches s) : p.isBoundIn s = false := by
  rw [Bool.eq_false_iff, Ne, isBoundIn_iff]
  rintro ⟨hname, hall⟩
  by_cases hsc : s = c
  · rw [← hsc, hname] at hk
    cases hk
  · simp [hall _ (hc.mem_aboveIn hs hsc)] at hk

theorem aboveIn_child (hp : p.Reaches s) (hc : c ∈ s.children) :
    p.aboveIn c = s.node :: p.aboveIn s := by
  obtain ⟨outer, houter⟩ := hp.exists_above
  obtain ⟨n, -, rfl⟩ := List.mem_map.mp hc
  rw [aboveIn_eq houter]
  exact aboveIn_eq (by simp [houter])

/-- The names of a site are those of the nodes inside it, and itself. -/
theorem boundNames_eq_of_isBinding (h : s.node.Laid) (hk : s.node.kind.isBinding = true) :
    s.node.boundNames =
      (if s.node.kind = .name then [s.node] else []) ++ s.node.children.flatMap Node.boundNames := by
  by_cases hname : s.node.kind = .name
  · have hinside : s.node.children.flatMap Node.boundNames = [] := by
      refine List.flatMap_eq_nil_iff.mpr fun c hc => Node.boundNames_of_plain ?_
      have hmem := h.family_mem hc
      rwa [hname] at hmem
    rw [if_pos hname, hinside, Node.boundNames_of_name hname, List.append_nil]
  · have hpattern := (NodeKind.isBinding_iff.mp hk).resolve_left hname
    rw [if_neg hname, h.boundNames_eq hpattern, List.nil_append]

/-- The names of a site are listed in the order in which they come. -/
theorem map_filter_isBoundIn {t : Tree} (h : t.All Layout.Laid) (hs : t = s.node.tree)
    (hp : p.Reaches s) (habove : ∀ n ∈ p.aboveIn s, n.kind.isBinding = true) :
    (s.descendants.filter p.isBoundIn).map node = s.node.boundNames := by
  induction h generalizing s with
  | leaf u => cases hs
  | @node k parts here all ih =>
      obtain ⟨rfl, rfl⟩ := Tree.node.inj hs
      cases hk : s.node.kind.isBinding with
      | false =>
          have hnil : s.descendants.filter p.isBoundIn = [] := List.filter_eq_nil_iff.mpr
            fun b hb => by simp [not_isBoundIn hp hk (mem_descendants_iff.mp hb)]
          have hkind := mt NodeKind.isBinding_iff.mpr (Bool.eq_false_iff.mp hk)
          simp only [not_or, Bool.not_eq_true] at hkind
          rw [hnil, Node.boundNames_eq_nil hkind.1 hkind.2.1 hkind.2.2]
          rfl
      | true =>
          -- what is bound inside the nodes of the site is what they bind
          have hchildren : ((s.children.flatMap descendants).filter p.isBoundIn).map node =
              s.node.children.flatMap Node.boundNames := by
            rw [List.filter_flatMap, List.map_flatMap, children, List.flatMap_map]
            refine List.flatMap_congr fun n hn => ?_
            have hc : (⟨n, s.node :: s.above⟩ : Site) ∈ s.children := List.mem_map_of_mem hn
            obtain ⟨before, after, hparts, -⟩ := Node.mem_among hn
            refine ih n.tree (by simp [hparts, Node.tree]) rfl (hp.child hc) ?_
            rw [aboveIn_child hp hc, List.forall_mem_cons]
            exact ⟨hk, habove⟩
          have hself : p.isBoundIn s = decide (s.node.kind = .name) := by
            rw [isBoundIn, List.all_eq_true.mpr habove, Bool.and_true]
          rw [descendants_eq, boundNames_eq_of_isBinding here hk, List.filter_cons, hself]
          by_cases hname : s.node.kind = .name <;> simp [hname, hchildren]

/-! ## the names of a text -/

section

variable {source : SourceType} {text : Text}

theorem Reaches.laid (h : (parse source text).problems = [])
    (hs : (parse source text).root.Reaches s) : s.node.tree.All Layout.Laid := by
  cases laid_root h with
  | node here all =>
      have hroot : (parse source text).root.Laid := ⟨here, all⟩
      exact .node (hroot.reaches hs).1 (hroot.reaches hs).2

theorem boundNames_eq_filter (h : (parse source text).problems = [])
    (hp : (parse source text).root.Reaches p) :
    p.node.boundNames = (p.descendants.filter p.isBoundIn).map node :=
  (map_filter_isBoundIn (hp.laid h) rfl .refl (by simp [aboveIn])).symm

/-- The site of a name tells whether the name is listed. -/
theorem mem_boundNames_iff_isBoundIn (h : (parse source text).problems = [])
    (hp : (parse source text).root.Reaches p) (hs : p.Reaches s) :
    s.node ∈ p.node.boundNames ↔ p.isBoundIn s = true := by
  rw [boundNames_eq_filter h hp, List.mem_map]
  constructor
  · rintro ⟨b, hb, hnode⟩
    obtain ⟨hmem, hbound⟩ := List.mem_filter.mp hb
    have hunit : b.node.kind.isUnit = true := by rw [(isBoundIn_iff.mp hbound).1]; rfl
    have hsame := (hp.trans (mem_descendants_iff.mp hmem)).eq_of_node_eq (hp.trans hs) hunit hnode
    exact hsame ▸ hbound
  · intro hbound
    exact ⟨s, List.mem_filter.mpr ⟨mem_descendants_iff.mpr hs, hbound⟩, rfl⟩

/-- No name is bound inside another name. -/
theorem stop_le_of_precedes (h : (parse source text).problems = [])
    (hp : (parse source text).root.Reaches p) {a b : Site} (ha : p.Reaches a)
    (haname : a.node.kind = .name) (hb : p.isBoundIn b = true) (hab : a.Precedes b) :
    a.node.span.stop ≤ b.node.start := by
  refine hab.resolve_left ?_
  rintro ⟨c, hc, hcb⟩
  obtain ⟨n, hn, rfl⟩ := List.mem_map.mp hc
  cases (hp.trans ha).laid h with
  | node here _ =>
      have hfamily := Node.Laid.family_mem here hn
      rw [haname] at hfamily
      have hplain := NodeKind.not_isBinding_of_plain hfamily
      simp [not_isBoundIn (ha.child hc) hplain hcb] at hb

theorem pairwise_boundNames (h : (parse source text).problems = [])
    (hp : (parse source text).root.Reaches p) :
    p.node.boundNames.Pairwise fun a b => a.span.stop ≤ b.start := by
  rw [boundNames_eq_filter h hp, List.pairwise_map]
  refine ((pairwise_descendants p).filter p.isBoundIn).imp_of_mem fun ha hb hab => ?_
  obtain ⟨hmem, hbound⟩ := List.mem_filter.mp ha
  exact stop_le_of_precedes h hp (mem_descendants_iff.mp hmem) (isBoundIn_iff.mp hbound).1
    (List.mem_filter.mp hb).2 hab

/-- A name covers some bytes. -/
theorem Reaches.start_lt_of_name (hs : (parse source text).root.Reaches s)
    (hk : s.node.kind = .name) : s.node.start < s.node.span.stop := by
  obtain ⟨t, hparts, -⟩ := hs.within.exists_token (by rw [hk]; rfl)
  have hpos := hs.size_pos (t := t) (by simp [hparts])
  simp only [Node.span, hparts, Tree.sizeAll, Tree.size]
  omega

theorem nodup_boundNames (h : (parse source text).problems = [])
    (hp : (parse source text).root.Reaches p) : p.node.boundNames.Nodup := by
  refine (pairwise_boundNames h hp).imp_of_mem fun {a b} ha _ hab heq => ?_
  rw [boundNames_eq_filter h hp] at ha
  obtain ⟨s, hs, rfl⟩ := List.mem_map.mp ha
  obtain ⟨hmem, hbound⟩ := List.mem_filter.mp hs
  have hlt := (hp.trans (mem_descendants_iff.mp hmem)).start_lt_of_name (isBoundIn_iff.mp hbound).1
  rw [← heq] at hab
  omega

/-- What stands after the target of a target with a default is an expression. -/
theorem not_isBinding_of_mem_tail {a d : Site} (h : a.node.Laid)
    (hk : a.node.kind = .assignPattern) (hd : d ∈ a.children.tail) :
    d.node.kind.isBinding = false := by
  have hl := h.exists_layout
  simp only [hk, NodeKind.layouts, List.mem_singleton, exists_eq_left, Layout.fits_row_cons,
    Layout.fits_row_nil] at hl
  obtain ⟨c, _, hc, -, e, _, rfl, he, rfl⟩ := hl
  obtain rfl : d = ⟨e, a.node :: a.above⟩ := by simpa [children, hc] using hd
  refine NodeKind.not_isBinding_of_plain (Layout.mem_of_all_contains ?_ he)
  decide

end

end Site

/-- What a target binds, for every node of a text without problems, lists of parameters,
targets of declarations and what handlers name among them.  It is the list of the names inside
the node, in source order and each once, that only patterns are around up to the node.
Nothing in a default or a computed key is listed. -/
theorem boundNames_exact {source : SourceType} {text : Text} {p : Site}
    (h : (parse source text).problems = []) (hp : p ∈ (parse source text).root.descendants) :
    p.node.boundNames = (p.descendants.filter fun s => s.node.kind = .name &&
      (p.aboveIn s).all fun n => n.kind.isBinding).map Site.node ∧
    p.node.boundNames.Nodup ∧
    (p.node.boundNames.Pairwise fun a b => a.span.stop ≤ b.span.start) ∧
    ∀ d ∈ p.descendants, d.node.kind = .computedKey ∨
        (∃ a ∈ p.descendants, a.node.kind = .assignPattern ∧ d ∈ a.children.tail) →
      ∀ s ∈ d.descendants, s.node ∉ p.node.boundNames := by
  have hreach := Site.mem_descendants_iff.mp hp
  refine ⟨Site.boundNames_eq_filter h hreach, Site.nodup_boundNames h hreach,
    Site.pairwise_boundNames h hreach, fun d hd hkind s hs => ?_⟩
  have hdreach := Site.mem_descendants_iff.mp hd
  have hsreach := Site.mem_descendants_iff.mp hs
  have hplain : d.node.kind.isBinding = false := by
    rcases hkind with hkey | ⟨a, ha, hak, hda⟩
    · rw [hkey]
      rfl
    · cases (hreach.trans (Site.mem_descendants_iff.mp ha)).laid h with
      | node here _ => exact Site.not_isBinding_of_mem_tail here hak hda
  rw [Site.mem_boundNames_iff_isBoundIn h hreach (hdreach.trans hsreach),
    Site.not_isBoundIn hdreach hplain hsreach]
  exact Bool.false_ne_true

/-- Parameters with a function in a computed key and one in a default, whose own parameters are
not listed. -/
theorem boundNames_exact_nested :
    ∃ text, text =
        "function f(\x7ba, [function (y) \x7b\x7d]: [b, ...c] = d => d\x7d, ...e) \x7b\x7d".toList ∧
      (parse .script text).problems = [] ∧
      ∃ p ∈ (parse .script text).root.descendants, p.node.kind = .paramList ∧
        p.node.boundNames.map Node.word = ["a".toList, "b".toList, "c".toList, "e".toList] ∧
        p.node.boundNames = (p.descendants.filter fun s => s.node.kind = .name &&
          (p.aboveIn s).all fun n => n.kind.isBinding).map Site.node ∧
        p.node.boundNames.Nodup ∧
        (p.node.boundNames.Pairwise fun a b => a.span.stop ≤ b.span.start) ∧
        (∃ d ∈ p.descendants, d.node.kind = .computedKey ∧
          ∃ s ∈ d.descendants, s.node.kind = .name ∧ s.node ∉ p.node.boundNames) ∧
        ∃ a ∈ p.descendants, a.node.kind = .assignPattern ∧ ∃ d ∈ a.children.tail,
          ∃ s ∈ d.descendants, s.node.kind = .name ∧ s.node ∉ p.node.boundNames := by
  obtain ⟨text, htext⟩ : ∃ text, text =
    "function f(\x7ba, [function (y) \x7b\x7d]: [b, ...c] = d => d\x7d, ...e) \x7b\x7d".toList :=
      ⟨_, rfl⟩
  have hrun : (parse .script text).problems = [] ∧
      ∃ p ∈ (parse .script text).root.descendants, p.node.kind = .paramList ∧
        p.node.boundNames.map Node.word = ["a".toList, "b".toList, "c".toList, "e".toList] ∧
        (∃ d ∈ p.descendants, d.node.kind = .computedKey ∧
          ∃ s ∈ d.descendants, s.node.kind = .name) ∧
        ∃ a ∈ p.descendants, a.node.kind = .assignPattern ∧ ∃ d ∈ a.children.tail,
          d ∈ p.descendants ∧ ∃ s ∈ d.descendants, s.node.kind = .name := by
    rw [htext]; decide +kernel
  obtain ⟨hok, p, hp, hk, hwords, ⟨d, hd, hkey, s, hs, hname⟩, a, ha, hassign, e, he, hep, t, ht,
    htname⟩ := hrun
  obtain ⟨hfilter, hnodup, hordered, hnever⟩ := boundNames_exact hok hp
  exact ⟨text, htext, hok, p, hp, hk, hwords, hfilter, hnodup, hordered,
    ⟨d, hd, hkey, s, hs, hname, hnever d hd (Or.inl hkey) s hs⟩,
    a, ha, hassign, e, he, t, ht, htname, hnever e hep (Or.inr ⟨a, ha, hassign, he⟩) t ht⟩

end FreeNames
