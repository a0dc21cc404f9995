import FreeNames.Proofs.FreeOccurrences
import FreeNames.Proofs.Layouts

/-!
# FreeNames.Proofs.Patterns

The names in a pattern.  What a target declares is collected by rules that differ from
one kind of pattern to another: all that is inside, the first node, the last target.
Where nodes have their layouts these rules say the same, as everything else in a pattern
declares nothing.

Main statement: `mem_boundNames_iff`, a target declares the names inside it that only
patterns are around.
-/

namespace FreeNames

/-- Patterns, and what patterns are made of beside names. -/
def NodeKind.isPattern : NodeKind → Bool
  | .objectPattern | .objectPatternProp | .arrayPattern | .assignPattern | .restPattern => true
  | _ => false

/-! ## layouts of the nodes inside a node -/

section

variable {cs : List Node} {fs : List Family} {slots : List (List Family)} {n c : Node}

@[simp] theorem Layout.fits_row_nil : (Layout.row []).Fits (cs.map Node.kind) ↔ cs = [] := by
  simp [Fits]

@[simp] theorem Layout.fits_row_cons :
    (Layout.row (fs :: slots)).Fits (cs.map Node.kind) ↔
      ∃ c rest, cs = c :: rest ∧ c.kind.family ∈ fs ∧
        (Layout.row slots).Fits (rest.map Node.kind) := by
  cases cs <;> simp [Fits]

/-- A node has one of its layouts. -/
def Node.Laid (n : Node) : Prop := Layout.Laid n.kind n.parts

theorem Node.Laid.exists_layout (h : n.Laid) :
    ∃ l ∈ n.kind.layouts, l.Fits (n.children.map Node.kind) := by
  rw [Node.children, Node.map_kind_among]
  exact h

theorem NodeKind.family_eq_name_iff {k : NodeKind} : k.family = .name ↔ k = .name := by
  cases k <;> decide

theorem NodeKind.family_eq_parameters_iff {k : NodeKind} :
    k.family = .parameters ↔ k = .paramList := by
  cases k <;> decide

theorem NodeKind.family_eq_declarator_iff {k : NodeKind} :
    k.family = .declarator ↔ k = .varDeclarator := by
  cases k <;> decide

theorem NodeKind.family_eq_block_iff {k : NodeKind} : k.family = .block ↔ k = .blockStmt := by
  cases k <;> decide

theorem NodeKind.isTarget_of_family {k : NodeKind} (h : k.family ∈ Family.elements) :
    k.isTarget = true := by
  revert h
  cases k <;> decide

theorem NodeKind.not_isTarget_of_family {k : NodeKind} (h : k.family ∈ Family.plain) :
    k.isTarget = false := by
  revert h
  cases k <;> decide

/-- The families of all nodes that a layout has. -/
def Layout.families : Layout → List Family
  | .row slots => slots.flatten
  | .among fs => fs

/-- The families of the nodes that can stand directly inside a node. -/
def NodeKind.inside (k : NodeKind) : List Family := k.layouts.flatMap Layout.families

theorem Node.Laid.family_mem (h : n.Laid) (hc : c ∈ n.children) :
    c.kind.family ∈ n.kind.inside := by
  obtain ⟨l, hl, hfits⟩ := h.exists_layout
  refine List.mem_flatMap.mpr ⟨l, hl, ?_⟩
  cases l with
  | row slots => exact hfits.among_flatten _ (List.mem_map_of_mem hc)
  | among fs => exact hfits _ (List.mem_map_of_mem hc)

/-- A layout has at most one node of a family. -/
def Layout.once (f : Family) : Layout → Bool
  | .row slots => slots.countP (fun fs => fs.contains f) ≤ 1
  | .among fs => !fs.contains f

theorem Layout.find?_of_once {l : Layout} {f : Family} (honce : l.once f = true)
    (h : l.Fits (cs.map Node.kind)) (hc : c ∈ cs) (hf : c.kind.family = f) :
    cs.find? (fun c => c.kind.family = f) = some c := by
  cases l with
  | among fs =>
      have hmem := hf ▸ h _ (List.mem_map_of_mem hc)
      simp [once, hmem] at honce
  | row slots =>
      induction slots generalizing cs with
      | nil =>
          rw [fits_row_nil.mp h] at hc
          cases hc
      | cons fs slots ih =>
          obtain ⟨a, rest, rfl, ha, hrest⟩ := fits_row_cons.mp h
          simp only [once, List.countP_cons, decide_eq_true_eq] at honce
          by_cases haf : a.kind.family = f
          · -- no other node can be of the family
            have hzero : slots.countP (fun fs => fs.contains f) = 0 := by
              have hfs : fs.contains f = true := by simpa using haf ▸ ha
              rw [if_pos hfs] at honce
              omega
            rcases List.mem_cons.mp hc with rfl | hc
            · exact List.find?_cons_of_pos (by simpa using haf)
            · obtain ⟨slot, hslot, hmem⟩ := List.mem_flatten.mp
                (Fits.among_flatten hrest _ (List.mem_map_of_mem hc))
              exact absurd (by simpa using hf ▸ hmem) (List.countP_eq_zero.mp hzero slot hslot)
          · rw [List.find?_cons_of_neg (by simpa using haf)]
            refine ih ((List.mem_cons.mp hc).resolve_left fun heq => haf (heq ▸ hf)) ?_ hrest
            exact decide_eq_true (Nat.le_trans (Nat.le_add_right _ _) honce)

/-- The node of a kind that can be there only once. -/
theorem Node.Laid.child?_eq (h : n.Laid) {k : NodeKind} {f : Family}
    (hk : ∀ j : NodeKind, j.family = f ↔ j = k)
    (honce : (n.kind.layouts.all fun l => l.once f) = true) (hc : c ∈ n.children)
    (hck : c.kind = k) : n.child? k = some c := by
  obtain ⟨l, hl, hfits⟩ := h.exists_layout
  have hfind := Layout.find?_of_once (List.all_eq_true.mp honce l hl) hfits hc ((hk _).mpr hck)
  simpa [child?, hk] using hfind

end

/-! ## names that targets declare -/

namespace Tree

theorem boundAll_eq (start : Nat) (ts : List Tree) :
    boundAll start ts = (Node.among start ts).flatMap Node.boundNames := by
  induction ts generalizing start with
  | nil => rfl
  | cons t ts ih =>
      cases t with
      | leaf u => simpa [boundAll, bound, Node.among, size] using ih _
      | node k parts => simp [boundAll, Node.among, size, ih, Node.boundNames]

theorem boundFirst_eq (start : Nat) (ts : List Tree) :
    boundFirst start ts = (Node.among start ts).head?.toList.flatMap Node.boundNames := by
  induction ts generalizing start with
  | nil => rfl
  | cons t ts ih =>
      cases t with
      | leaf u => simpa [boundFirst, Node.among] using ih _
      | node k parts => simp [boundFirst, Node.among, Node.boundNames]

theorem boundLast_eq (start : Nat) (ts : List Tree) :
    boundLast start ts =
      ((Node.among start ts).filter fun c => c.kind.isTarget).getLast?.map Node.boundNames := by
  induction ts generalizing start with
  | nil => rfl
  | cons t ts ih =>
      cases t with
      | leaf u =>
          rw [boundLast, Node.among, ih, size]
          cases h : ((Node.among (start + u.size) ts).filter fun c => c.kind.isTarget).getLast? <;>
            simp [isTarget]
      | node k parts =>
          rw [boundLast, Node.among, ih, size]
          cases h : ((Node.among (start + sizeAll parts) ts).filter
              fun c => c.kind.isTarget).getLast? with
          | none =>
              have hnil := List.getLast?_eq_none_iff.mp h
              cases hk : k.isTarget <;> simp [isTarget, hk, hnil, Node.boundNames]
          | some c =>
              cases hk : k.isTarget <;> simp [hk, h, List.getLast?_cons]

end Tree

namespace Node

variable {n c : Node}

theorem boundNames_eq_nil (hname : n.kind ≠ .name) (hpattern : n.kind.isPattern = false)
    (hlist : n.kind ≠ .paramList) : n.boundNames = [] := by
  obtain ⟨start, k, parts⟩ := n
  cases k with
  | name => exact absurd rfl hname
  | paramList => exact absurd rfl hlist
  | objectPattern | arrayPattern | objectPatternProp | assignPattern | restPattern => cases hpattern
  | _ => rfl

/-- Where nothing is declared there are no names. -/
theorem boundNames_of_plain (h : n.kind.family ∈ Family.plain) : n.boundNames = [] := by
  have hkind : n.kind ≠ .name ∧ n.kind.isPattern = false ∧ n.kind ≠ .paramList := by
    revert h
    cases n.kind <;> decide
  exact boundNames_eq_nil hkind.1 hkind.2.1 hkind.2.2

theorem boundNames_of_mem {fs : List Family} (h : n.kind.family ∈ fs)
    (hfs : fs.all Family.plain.contains = true) : n.boundNames = [] :=
  boundNames_of_plain (Layout.mem_of_all_contains hfs h)

/-- What is initialized comes first, and what follows declares nothing. -/
theorem Laid.flatMap_head? (h : n.Laid)
    (hk : n.kind = .assignPattern ∨ n.kind = .restPattern ∨ n.kind = .varDeclarator) :
    n.children.head?.toList.flatMap boundNames = n.children.flatMap boundNames := by
  have hl := h.exists_layout
  rcases hk with hk | hk | hk <;>
    simp only [hk, NodeKind.layouts, List.mem_cons, List.not_mem_nil, or_false,
      exists_eq_or_imp, exists_eq_left, Layout.fits_row_cons, Layout.fits_row_nil] at hl
  · obtain ⟨c, _, hc, -, e, _, rfl, he, rfl⟩ := hl
    simp [hc, boundNames_of_mem he rfl]
  · obtain ⟨c, _, hc, -, rfl⟩ := hl
    simp [hc]
  · obtain ⟨c, _, hc, -, rfl⟩ | ⟨c, _, hc, -, e, _, rfl, he, rfl⟩ := hl
    · simp [hc]
    · simp [hc, boundNames_of_mem he rfl]

/-- The target of a property is the only one inside it. -/
theorem Laid.flatMap_getLast? (h : n.Laid) (hk : n.kind = .objectPatternProp) :
    (((n.children.filter fun c => c.kind.isTarget).getLast?.map boundNames).getD []) =
      n.children.flatMap boundNames := by
  have hl := h.exists_layout
  simp only [hk, NodeKind.layouts, List.mem_cons, List.not_mem_nil, or_false,
    exists_eq_or_imp, exists_eq_left, Layout.fits_row_cons, Layout.fits_row_nil] at hl
  obtain ⟨c, _, hc, hfamily, rfl⟩ | ⟨key, _, hc, hkey, c, _, rfl, hfamily, rfl⟩ := hl
  · simp [hc, NodeKind.isTarget_of_family hfamily]
  · have hplain : key.kind.family ∈ Family.plain := by simp [hkey, Family.plain]
    simp [hc, NodeKind.isTarget_of_family hfamily, NodeKind.not_isTarget_of_family hplain,
      boundNames_of_plain hplain]

/-- The names of a pattern are those of the nodes inside it. -/
theorem Laid.boundNames_eq (h : n.Laid) (hk : n.kind.isPattern = true ∨ n.kind = .paramList) :
    n.boundNames = n.children.flatMap boundNames := by
  obtain ⟨start, k, parts⟩ := n
  cases k with
  | objectPattern | arrayPattern | paramList => exact Tree.boundAll_eq start parts
  | objectPatternProp =>
      rw [← h.flatMap_getLast? rfl]
      exact congrArg (Option.getD · []) (Tree.boundLast_eq start parts)
  | assignPattern =>
      rw [← h.flatMap_head? (Or.inl rfl)]
      exact Tree.boundFirst_eq start parts
  | restPattern =>
      rw [← h.flatMap_head? (Or.inr (Or.inl rfl))]
      exact Tree.boundFirst_eq start parts
  | _ => simp [NodeKind.isPattern] at hk

end Node

/-! ## names in patterns -/

/-- A site is a name inside a pattern, or the pattern itself is one. -/
inductive Site.Gives : Site → Site → Prop
  | name {s : Site} (kind : s.node.kind = .name) : Gives s s
  | part {t c s : Site} (kind : t.node.kind.isPattern = true) (child : c ∈ t.children)
    (gives : Gives c s) : Gives t s

namespace Site.Gives

variable {t s : Site}

theorem kind (h : t.Gives s) : s.node.kind = .name := by
  induction h with
  | name hk => exact hk
  | part _ _ _ ih => exact ih

theorem reaches (h : t.Gives s) : t.Reaches s := by
  induction h with
  | name _ => exact .refl
  | part _ hc _ ih => exact Reaches.trans (.child .refl hc) ih

theorem iff_of_isPattern (ht : t.node.kind.isPattern = true) :
    t.Gives s ↔ ∃ c ∈ t.children, c.Gives s := by
  constructor
  · intro h
    cases h with
    | name hname =>
        rw [hname] at ht
        cases ht
    | part _ hc hs => exact ⟨_, hc, hs⟩
  · rintro ⟨c, hc, hs⟩
    exact .part ht hc hs

theorem iff_of_not_isPattern (ht : t.node.kind.isPattern = false) :
    t.Gives s ↔ t.node.kind = .name ∧ s = t := by
  constructor
  · intro h
    cases h with
    | name hname => exact ⟨hname, rfl⟩
    | part hpattern _ _ => simp [ht] at hpattern
  · rintro ⟨hname, rfl⟩
    exact .name hname

end Site.Gives

/-- Lists of parameters stand in functions only. -/
theorem Node.Laid.isFunction {n c : Node} (h : n.Laid) (hc : c ∈ n.children)
    (hk : c.kind = .paramList) : n.kind.isFunction = true := by
  have hmem := h.family_mem hc
  rw [NodeKind.family_eq_parameters_iff.mpr hk] at hmem
  revert hmem
  cases n.kind <;> decide

/-- The names that a target declares are the names inside it, as far as only patterns are
around them. -/
theorem mem_boundNames_iff {t : Tree} (h : t.All Layout.Laid) {n : Node}
    (ht : t = .node n.kind n.parts) (hk : n.kind ≠ .paramList) (above : List Node) {m : Node} :
    m ∈ n.boundNames ↔ ∃ s, Site.Gives ⟨n, above⟩ s ∧ s.node = m := by
  induction h generalizing n above with
  | leaf u => cases ht
  | @node k parts here all ih =>
      obtain ⟨rfl, rfl⟩ := Tree.node.inj ht
      cases hpattern : n.kind.isPattern with
      | true =>
          rw [Node.Laid.boundNames_eq here (Or.inl hpattern), List.mem_flatMap]
          simp only [Site.Gives.iff_of_isPattern (t := ⟨n, above⟩) hpattern]
          have hchild {c : Node} (hc : c ∈ n.children) :
              m ∈ c.boundNames ↔ ∃ s, Site.Gives ⟨c, n :: above⟩ s ∧ s.node = m := by
            obtain ⟨before, after, hparts, -⟩ := Node.mem_among hc
            refine ih _ (by simp [hparts]) rfl (fun hlist => ?_) _
            have hfunction := Node.Laid.isFunction here hc hlist
            revert hpattern hfunction
            cases n.kind <;> decide
          constructor
          · rintro ⟨c, hc, hm⟩
            obtain ⟨s, hs, rfl⟩ := (hchild hc).mp hm
            exact ⟨s, ⟨_, List.mem_map_of_mem hc, hs⟩, rfl⟩
          · rintro ⟨s, ⟨t, ht, hs⟩, rfl⟩
            obtain ⟨c, hc, rfl⟩ := List.mem_map.mp ht
            exact ⟨c, hc, (hchild hc).mpr ⟨s, hs, rfl⟩⟩
      | false =>
          simp only [Site.Gives.iff_of_not_isPattern (t := ⟨n, above⟩) hpattern]
          by_cases hname : n.kind = .name
          · rw [Node.boundNames_of_name hname, List.mem_singleton]
            constructor
            · rintro rfl
              exact ⟨⟨m, above⟩, ⟨hname, rfl⟩, rfl⟩
            · rintro ⟨_, ⟨-, rfl⟩, rfl⟩
              rfl
          · rw [Node.boundNames_eq_nil hname hpattern hk]
            simp [hname]

end FreeNames
