import FreeNames.Proofs.Carrying
import FreeNames.Proofs.Renaming
import FreeNames.Proofs.Respelling
import Mathlib.Data.List.Find

/-!
# FreeNames.Proofs.Regrouping

The globals of a tree whose nodes stand for those of another.

* Where the map of nodes keeps what names spell, and takes no other node to a node
  around a reference (`CarriesScopes`), scopes hold the names that they held
  (`CarriesScopes.build_map`).
* Where what is global also keeps its name or gets one that nothing around it
  declares (`CarriesGlobals`), what was global is, and nothing else
  (`CarriesGlobals.resolve?_map`), and the groups are those that there were, each
  under its new name (`CarriesGlobals.collect_map`).

One such map respells the references to one global, with a name that the tree does
not hold (`Respelling.Renames`).
-/

namespace FreeNames

namespace Site

/-- A site of a kind that may refer to a global. -/
def Refers (s : Site) : Prop := s.node.kind = .nameRef ∨ s.node.kind = .thisExpr

/-- A node that may refer to a global, or is around one that may. -/
def Leads (root : Site) (n : Node) : Prop :=
  ∃ s, root.Reaches s ∧ s.Refers ∧ n ∈ s.node :: s.above

theorem Reaches.within_above {root s : Site} (htop : root.above = []) (hs : root.Reaches s)
    {n : Node} (hn : n ∈ s.above) : Node.Within root.node n := by
  rcases hs.above hn with hroot | hwithin
  · simp [htop] at hroot
  · exact hwithin

end Site

/-- The references of a tree, in source order. -/
def Globals.references (root : Site) : List Reference :=
  root.descendants.filterMap (resolve? (Scopes.build root))

/-- A map of nodes that keeps what names spell, and that takes no other node to
where a node is that leads to a reference. -/
structure CarriesScopes (φ : Node → Node) (root : Site) : Prop extends
    Carries φ root.node where
  top : root.above = []
  injective : ∀ n m, root.Leads n → Node.Within root.node m → φ m = φ n → m = n
  word : ∀ n, Node.Within root.node n → n.kind ≠ .nameRef → n.kind ≠ .propertyName →
    (φ n).word = n.word

/-- A map of nodes under which globals get names, and the accesses to properties
are others. -/
structure CarriesGlobals (φ : Node → Node) (ν : Text → Text) (α : Access → Access)
    (root : Site) : Prop extends CarriesScopes φ root where
  global : ∀ s, root.Reaches s → s.node.kind = .nameRef → ∀ r,
    Globals.resolve? (Scopes.build root) s = some r →
      (φ s.node).word = ν r.name ∧ ν r.name ≠ "undefined".toList ∧
        s.above.any (Globals.gives (Scopes.build root) (ν r.name)) = false
  bound : ∀ s, root.Reaches s → s.node.kind = .nameRef →
    Globals.resolve? (Scopes.build root) s = none → (φ s.node).word = s.node.word
  this : ν Globals.thisName = Globals.thisName
  distinct : ∀ r ∈ Globals.references root, ∀ r' ∈ Globals.references root,
    ν r.name = ν r'.name → r.name = r'.name
  access : ∀ n, Node.Within root.node n → Globals.access? (φ n) = (Globals.access? n).map α

/-- A reference under a name, where it stands afterwards. -/
def Reference.map (φ : Node → Node) (ν : Text → Text) (r : Reference) : Reference :=
  ⟨ν r.name, r.site.map φ⟩

/-- A group under a name, with its references and accesses where they stand
afterwards. -/
def Group.map (φ : Node → Node) (ν : Text → Text) (α : Access → Access) (g : Group) : Group :=
  ⟨ν g.name, g.references.map (Reference.map φ ν), g.direct.map α, g.aliased.map α⟩

/-! ## lists -/

theorem any_congr_of_mem {α : Type} {p q : α → Bool} {as : List α} (h : ∀ a ∈ as, p a = q a) :
    as.any p = as.any q := by
  induction as with
  | nil => rfl
  | cons a as ih =>
      rw [List.forall_mem_cons] at h
      rw [List.any_cons, List.any_cons, h.1, ih h.2]

theorem takeWhile_congr_of_mem {α : Type} {p q : α → Bool} {as : List α}
    (h : ∀ a ∈ as, p a = q a) : as.takeWhile p = as.takeWhile q := by
  induction as with
  | nil => rfl
  | cons a as ih =>
      rw [List.forall_mem_cons] at h
      rw [List.takeWhile_cons, List.takeWhile_cons, h.1, ih h.2]

/-! ## names and groups -/

theorem Globals.resolve?_of_nameRef {scopes : Scopes} {s : Site} (h : s.node.kind = .nameRef) :
    resolve? scopes s =
      if s.node.word = "undefined".toList || s.above.any (gives scopes s.node.word) then none
      else some ⟨s.node.word, s⟩ := by
  unfold resolve?
  rw [h]

theorem Globals.of_passed? {references : List Reference} {argument parameter : Node}
    {name word : Text} (h : passed? references argument parameter = some (name, word)) :
    parameter.kind = .name ∧ parameter.word = word := by
  simp only [passed?, Option.bind_eq_bind, Option.bind_eq_some_iff, Option.pure_def,
    Option.some.injEq, Prod.mk.injEq, guard] at h
  obtain ⟨_, -, _, hguard, -, rfl⟩ := h
  split at hguard
  · next hk => exact ⟨hk, rfl⟩
  · cases hguard

/-- The group of a name, among references and accesses. -/
def Globals.gather (references : List Reference) (direct aliased : List (Text × Access))
    (name : Text) : Group :=
  ⟨name, references.filter fun r => r.name = name, named name direct, named name aliased⟩

theorem Globals.collect_eq (scopes : Scopes) (root : Site) :
    collect scopes root =
      (Sort.sort Text.le
        ((root.descendants.filterMap (resolve? scopes)).map Reference.name).eraseDups).map
      (gather (root.descendants.filterMap (resolve? scopes))
        (root.descendants.filterMap (direct? (root.descendants.filterMap (resolve? scopes))))
        (root.descendants.flatMap
          (throughCall scopes (root.descendants.filterMap (resolve? scopes))))) :=
  rfl

theorem Globals.named_map {α β : Type} {f : Text → Text} {g : α → β} {name : Text}
    {items : List (Text × α)} (h : ∀ p ∈ items, f p.1 = f name ↔ p.1 = name) :
    named (f name) (items.map (Prod.map f g)) = (named name items).map g := by
  rw [named, named, List.filterMap_map, List.map_filterMap]
  refine List.filterMap_congr fun p hp => ?_
  by_cases hname : p.1 = name
  · simp [hname]
  · simp [hname, (h p hp).not.mpr hname]

theorem Globals.exists_reference {references : List Reference} {n : Node} {name : Text}
    (h : nameOf? references n = some name) : ∃ r ∈ references, r.name = name := by
  obtain ⟨r, hr, rfl⟩ := Option.map_eq_some_iff.mp h
  exact ⟨r, List.mem_of_find?_eq_some hr, rfl⟩

theorem Globals.exists_reference_of_direct? {references : List Reference} {s : Site}
    {p : Text × Access} (h : direct? references s = some p) : ∃ r ∈ references, r.name = p.1 := by
  simp only [direct?, Option.bind_eq_bind, Option.bind_eq_some_iff, Option.pure_def,
    Option.some.injEq] at h
  obtain ⟨_, -, _, -, name, hname, _, -, rfl⟩ := h
  exact exists_reference hname

theorem Globals.exists_reference_of_throughCall {scopes : Scopes} {references : List Reference}
    {s : Site} {p : Text × Access} (h : p ∈ throughCall scopes references s) :
    ∃ r ∈ references, r.name = p.1 := by
  unfold throughCall at h
  split at h
  · simp at h
  · split at h
    · simp at h
    · split at h
      · simp only [List.mem_flatMap] at h
        obtain ⟨_, -, h⟩ := h
        split at h
        · simp at h
        · next hpassed =>
            obtain ⟨_, -, rfl⟩ := List.mem_map.mp h
            simp only [passed?, Option.bind_eq_bind, Option.bind_eq_some_iff, Option.pure_def,
              Option.some.injEq, Prod.mk.injEq] at hpassed
            obtain ⟨_, hname, _, -, rfl, -⟩ := hpassed
            exact exists_reference hname
      · simp at h

theorem Scopes.of_mem_held {scope : Option Node} {names : List Node} {p : Node × Text}
    (h : p ∈ held scope names) : scope = some p.1 ∧ ∃ n ∈ names, n.word = p.2 := by
  cases scope with
  | none => simp [held] at h
  | some scope =>
      obtain ⟨n, hn, rfl⟩ := List.mem_map.mp h
      exact ⟨rfl, n, hn, rfl⟩

/-! ## scopes -/

namespace CarriesScopes

variable {φ : Node → Node} {root s : Site}

theorem enclosing?_map (h : CarriesScopes φ root) (isScope : NodeKind → Bool) :
    Scopes.enclosing? (s.map φ) isScope = (Scopes.enclosing? s isScope).map φ := by
  rw [Scopes.enclosing?, Site.above_map, List.find?_map]
  simp only [Function.comp_def, h.kind]
  rfl

theorem held_map {names : List Node} (h : ∀ n ∈ names, (φ n).word = n.word)
    (scope : Option Node) :
    Scopes.held (scope.map φ) (names.map φ) =
      (Scopes.held scope names).map (Prod.map φ id) := by
  cases scope with
  | none => rfl
  | some scope =>
      simp only [Scopes.held, Option.map_some, List.map_map]
      exact List.map_congr_left fun n hn => by simp [h n hn]

theorem word_of_name (h : CarriesScopes φ root) {n : Node} (hn : Node.Within root.node n)
    (hk : n.kind = .name) : (φ n).word = n.word :=
  h.word n hn (by simp [hk]) (by simp [hk])

/-- What targets declare, where the scope and the targets stand afterwards. -/
theorem held_boundNames (h : CarriesScopes φ root) {ns : List Node}
    (hns : ∀ n ∈ ns, Node.Within root.node n) (scope : Option Node) :
    Scopes.held (scope.map φ) ((ns.map φ).flatMap Node.boundNames) =
      (Scopes.held scope (ns.flatMap Node.boundNames)).map (Prod.map φ id) := by
  have hnames : (ns.map φ).flatMap Node.boundNames = (ns.flatMap Node.boundNames).map φ := by
    rw [List.flatMap_map, List.map_flatMap]
    exact List.flatMap_congr fun n hn => h.boundNames_map (hns n hn)
  rw [hnames]
  refine held_map (fun m hm => ?_) scope
  obtain ⟨n, hn, hm⟩ := List.mem_flatMap.mp hm
  obtain ⟨hk, hwithin⟩ := Node.of_mem_boundNames hm
  exact h.word_of_name ((hns n hn).trans hwithin) hk

theorem held_ownName? (h : CarriesScopes φ root) (hs : root.Reaches s) (scope : Option Node) :
    Scopes.held (scope.map φ) (φ s.node).ownName?.toList =
      (Scopes.held scope s.node.ownName?.toList).map (Prod.map φ id) := by
  rw [Node.ownName?, h.child?_map hs.within, Option.toList_map]
  refine held_map (fun n hn => ?_) scope
  obtain ⟨hwithin, hk⟩ := hs.within.of_child? (Option.mem_toList.mp hn)
  exact h.word_of_name hwithin hk

theorem within_targets (hs : root.Reaches s) {t : Node} (ht : t ∈ s.node.targets) :
    Node.Within root.node t := by
  obtain ⟨c, hc, hsome⟩ := List.mem_filterMap.mp ht
  split at hsome
  · exact (hs.within.child hc).child (List.mem_of_mem_head? hsome)
  · simp at hsome

theorem ofVariables_map (h : CarriesScopes φ root) (hs : root.Reaches s)
    (hk : s.node.kind = .varDecl) :
    Scopes.ofVariables (s.map φ) = (Scopes.ofVariables s).map (Prod.map φ id) := by
  have hkind : (φ s.node).variableKind = s.node.variableKind := by
    simp only [Node.variableKind, h.word s.node hs.within (by simp [hk]) (by simp [hk])]
  have hwithin : ∀ t ∈ s.node.targets, Node.Within root.node t := fun t ht => within_targets hs ht
  simp only [Scopes.ofVariables, hkind, Site.node_map, h.targets_map hs.within, h.enclosing?_map]
  split
  · exact h.held_boundNames hwithin _
  · exact h.held_boundNames hwithin _
  · exact h.held_boundNames hwithin _

theorem ofFunction_map (h : CarriesScopes φ root) (hs : root.Reaches s) :
    Scopes.ofFunction (s.map φ) = (Scopes.ofFunction s).map (Prod.map φ id) := by
  have hwithin : ∀ l ∈ s.node.parameterList?.toList, Node.Within root.node l := fun l hl =>
    (hs.within.of_child? (Option.mem_toList.mp hl)).1
  have hlist : (s.map φ).node.parameterList?.toList = s.node.parameterList?.toList.map φ := by
    rw [Site.node_map, Node.parameterList?, h.child?_map hs.within, Option.toList_map]
    rfl
  have houter : (if (s.map φ).node.kind = .functionDecl then
        Scopes.enclosing? (s.map φ) NodeKind.isFunctionScope else none) =
      (if s.node.kind = .functionDecl then
        Scopes.enclosing? s NodeKind.isFunctionScope else none).map φ := by
    rw [h.enclosing?_map, Site.node_map, h.kind]
    split <;> rfl
  have hown (scope : Option Node) :
      Scopes.held (scope.map φ) (s.map φ).node.ownName?.toList =
        (Scopes.held scope s.node.ownName?.toList).map (Prod.map φ id) :=
    h.held_ownName? hs scope
  simp only [Scopes.ofFunction, hlist, houter, List.map_append, hown]
  rw [← h.held_boundNames hwithin, ← hown (some s.node)]
  rfl

theorem ofClass_map (h : CarriesScopes φ root) (hs : root.Reaches s) :
    Scopes.ofClass (s.map φ) = (Scopes.ofClass s).map (Prod.map φ id) := by
  rw [Scopes.ofClass, Scopes.ofClass, h.enclosing?_map, Site.node_map, h.kind]
  split
  · exact h.held_ownName? hs (some s.node)
  · exact h.held_ownName? hs _

theorem ofHandler_map (h : CarriesScopes φ root) (hs : root.Reaches s) :
    Scopes.ofHandler (s.map φ) = (Scopes.ofHandler s).map (Prod.map φ id) := by
  have hbody : (φ s.node).body? = s.node.body?.map φ := h.child?_map hs.within _
  have hhandled : (φ s.node).handled?.toList = s.node.handled?.toList.map φ := by
    rw [Node.handled?, h.children _ hs.within, List.find?_map, Option.toList_map]
    simp only [Function.comp_def, h.kind]
    rfl
  rw [Scopes.ofHandler, Scopes.ofHandler, Site.node_map, hbody, hhandled]
  refine h.held_boundNames (fun t ht => ?_) _
  exact hs.within.child (List.mem_of_find?_eq_some (Option.mem_toList.mp ht))

theorem ofSite_map (h : CarriesScopes φ root) (hs : root.Reaches s) :
    Scopes.ofSite (φ root.node) (s.map φ) =
      (Scopes.ofSite root.node s).map (Prod.map φ id) := by
  have himported : Scopes.held (some (φ root.node))
      ((s.map φ).node.children.filter fun n => n.kind = .name) =
        (Scopes.held (some root.node) (s.node.children.filter fun n => n.kind = .name)).map
          (Prod.map φ id) := by
    rw [Site.node_map, h.children _ hs.within, List.filter_map]
    simp only [Function.comp_def, h.kind]
    refine held_map (fun n hn => ?_) (some root.node)
    obtain ⟨hn, hname⟩ := List.mem_filter.mp hn
    exact h.word_of_name (hs.within.child hn) (of_decide_eq_true hname)
  have hkind : (s.map φ).node.kind = s.node.kind := h.kind s.node
  unfold Scopes.ofSite
  rw [hkind]
  split
  · next hk => exact h.ofVariables_map hs hk
  · exact h.ofFunction_map hs
  · exact h.ofFunction_map hs
  · exact h.ofFunction_map hs
  · exact h.ofFunction_map hs
  · exact h.ofClass_map hs
  · exact h.ofClass_map hs
  · exact h.ofHandler_map hs
  · exact himported
  · exact himported
  · exact himported
  · rfl

/-- Scopes hold the names that they held. -/
theorem build_map (h : CarriesScopes φ root) :
    (Scopes.build (root.map φ)).bindings =
      (Scopes.build root).bindings.map (Prod.map φ id) := by
  rw [Scopes.build, Scopes.build, h.descendants_map .refl, List.flatMap_map, List.map_flatMap]
  exact List.flatMap_congr fun s hs => h.ofSite_map (Site.mem_descendants_iff.mp hs)

/-! ## what scopes hold -/

/-- Scopes and the names they hold are nodes of the tree. -/
theorem of_mem_ofSite (htop : root.above = []) (hs : root.Reaches s) {p : Node × Text}
    (hp : p ∈ Scopes.ofSite root.node s) :
    Node.Within root.node p.1 ∧ ∃ n, Node.Within root.node n ∧ n.word = p.2 := by
  have hheld {scope : Option Node} {names : List Node}
      (hscope : ∀ n, scope = some n → Node.Within root.node n)
      (hnames : ∀ n ∈ names, Node.Within root.node n) (hp : p ∈ Scopes.held scope names) :
      Node.Within root.node p.1 ∧ ∃ n, Node.Within root.node n ∧ n.word = p.2 := by
    obtain ⟨hsome, n, hn, hword⟩ := Scopes.of_mem_held hp
    exact ⟨hscope _ hsome, n, hnames n hn, hword⟩
  have henclosing {isScope : NodeKind → Bool} {n : Node}
      (hn : Scopes.enclosing? s isScope = some n) : Node.Within root.node n :=
    hs.within_above htop (List.mem_of_find?_eq_some hn)
  have hself : ∀ n, some s.node = some n → Node.Within root.node n := by
    rintro n ⟨rfl⟩
    exact hs.within
  have hbound {ns : List Node} (hns : ∀ n ∈ ns, Node.Within root.node n) :
      ∀ n ∈ ns.flatMap Node.boundNames, Node.Within root.node n := by
    intro m hm
    obtain ⟨n, hn, hm⟩ := List.mem_flatMap.mp hm
    exact (hns n hn).trans (Node.of_mem_boundNames hm).2
  have hchild {k : NodeKind} : ∀ n ∈ (s.node.child? k).toList, Node.Within root.node n :=
    fun n hn => (hs.within.of_child? (Option.mem_toList.mp hn)).1
  have hfunction (hp : p ∈ Scopes.ofFunction s) :
      Node.Within root.node p.1 ∧ ∃ n, Node.Within root.node n ∧ n.word = p.2 := by
    simp only [Scopes.ofFunction, List.mem_append] at hp
    rcases hp with (hp | hp) | hp
    · exact hheld hself (hbound hchild) hp
    · exact hheld hself hchild hp
    · refine hheld (fun n hn => ?_) hchild hp
      split at hn
      · exact henclosing hn
      · simp at hn
  have hclass (hp : p ∈ Scopes.ofClass s) :
      Node.Within root.node p.1 ∧ ∃ n, Node.Within root.node n ∧ n.word = p.2 := by
    refine hheld (fun n hn => ?_) hchild hp
    split at hn
    · exact hself n hn
    · exact henclosing hn
  have himport (hp : p ∈ Scopes.held (some root.node)
      (s.node.children.filter fun n => n.kind = .name)) :
      Node.Within root.node p.1 ∧ ∃ n, Node.Within root.node n ∧ n.word = p.2 := by
    refine hheld (fun n hn => ?_) (fun n hn => hs.within.child (List.mem_filter.mp hn).1) hp
    obtain rfl := Option.some.inj hn
    exact .refl
  unfold Scopes.ofSite at hp
  split at hp
  · refine hheld (fun n hn => ?_) (hbound fun t ht => ?_) hp
    · split at hn
      · exact henclosing hn
      · exact henclosing hn
      · exact henclosing hn
    · exact within_targets hs ht
  · exact hfunction hp
  · exact hfunction hp
  · exact hfunction hp
  · exact hfunction hp
  · exact hclass hp
  · exact hclass hp
  · refine hheld (fun n hn => (hs.within.of_child? hn).1) (hbound fun t ht => ?_) hp
    exact hs.within.child (List.mem_of_find?_eq_some (Option.mem_toList.mp ht))
  · exact himport hp
  · exact himport hp
  · exact himport hp
  · simp at hp

theorem of_mem_bindings (htop : root.above = []) {p : Node × Text}
    (hp : p ∈ (Scopes.build root).bindings) :
    Node.Within root.node p.1 ∧ ∃ n, Node.Within root.node n ∧ n.word = p.2 := by
  obtain ⟨s, hs, hp⟩ := List.mem_flatMap.mp hp
  exact of_mem_ofSite htop (Site.mem_descendants_iff.mp hs) hp

theorem declares_map (h : CarriesScopes φ root) {n : Node} (hn : root.Leads n) (name : Text) :
    (Scopes.build (root.map φ)).declares (φ n) name = (Scopes.build root).declares n name := by
  rw [Scopes.declares, Scopes.declares, h.build_map, List.any_map]
  refine any_congr_of_mem fun p hp => ?_
  obtain ⟨holder, held⟩ := p
  have hsame : φ holder = φ n ↔ holder = n :=
    ⟨h.injective _ _ hn (of_mem_bindings h.top hp).1, congrArg φ⟩
  show (decide (held = name) && decide (φ holder = φ n)) =
    (decide (held = name) && decide (holder = n))
  rw [decide_eq_decide.mpr hsame]

theorem any_gives (h : CarriesScopes φ root) {ns : List Node} (hns : ∀ n ∈ ns, root.Leads n)
    (name : Text) :
    (ns.map φ).any (Globals.gives (Scopes.build (root.map φ)) name) =
      ns.any (Globals.gives (Scopes.build root) name) := by
  rw [List.any_map]
  refine any_congr_of_mem fun n hn => ?_
  rw [Function.comp_apply, Globals.gives, Globals.gives, h.declares_map (hns n hn), h.kind]

theorem isShadowed_map (h : CarriesScopes φ root) (hs : root.Reaches s) (href : s.Refers)
    {function : Node} (hfunction : Node.Within root.node function) (name : Text) :
    Globals.isShadowed (Scopes.build (root.map φ)) (φ function) name (s.map φ) =
      Globals.isShadowed (Scopes.build root) function name s := by
  have habove : ∀ n ∈ s.above, root.Leads n := fun n hn =>
    ⟨s, hs, href, List.mem_cons_of_mem _ hn⟩
  have htake : (s.above.map φ).takeWhile (fun n => n ≠ φ function) =
      (s.above.takeWhile fun n => n ≠ function).map φ := by
    rw [List.takeWhile_map]
    congr 1
    refine takeWhile_congr_of_mem fun n hn => decide_eq_decide.mpr (not_congr ?_)
    exact ⟨fun heq => (h.injective _ _ (habove n hn) hfunction heq.symm).symm, congrArg φ⟩
  rw [Globals.isShadowed, Globals.isShadowed, Site.above_map, htake]
  exact h.any_gives (fun n hn => habove n (List.takeWhile_subset _ hn)) name

end CarriesScopes

/-! ## references -/

namespace CarriesGlobals

variable {φ : Node → Node} {ν : Text → Text} {α : Access → Access} {root s : Site}

/-- What was global is, and nothing else. -/
theorem resolve?_map (h : CarriesGlobals φ ν α root) (hs : root.Reaches s) :
    Globals.resolve? (Scopes.build (root.map φ)) (s.map φ) =
      (Globals.resolve? (Scopes.build root) s).map (Reference.map φ ν) := by
  have hkind : (s.map φ).node.kind = s.node.kind := h.kind s.node
  by_cases href : s.node.kind = .nameRef
  · have hleads : ∀ n ∈ s.above, root.Leads n := fun n hn =>
      ⟨s, hs, Or.inl href, List.mem_cons_of_mem _ hn⟩
    have habove := h.any_gives hleads
    rw [Globals.resolve?_of_nameRef (hkind.trans href), Site.node_map, Site.above_map]
    cases hresolve : Globals.resolve? (Scopes.build root) s with
    | none =>
        rw [h.bound s hs href hresolve, habove]
        rw [Globals.resolve?_of_nameRef href] at hresolve
        split at hresolve
        · next hheld => rw [if_pos hheld, Option.map_none]
        · cases hresolve
    | some r =>
        obtain ⟨hword, hdefined, hfree⟩ := h.global s hs href r hresolve
        obtain ⟨rfl, -⟩ := Globals.resolve?_eq_some hresolve
        rw [hword, habove, hfree, decide_eq_false hdefined]
        rfl
  · by_cases hthis : s.node.kind = .thisExpr
    · have hany : (s.map φ).above.any (fun n => n.kind.bindsThis) =
          s.above.any fun n => n.kind.bindsThis := by
        simp only [Site.above_map, List.any_map, Function.comp_def, h.kind]
      simp only [Globals.resolve?, hkind.trans hthis, hthis, hany]
      split
      · rfl
      · rw [Option.map_some, Reference.map, h.this]
    · have hnone {scopes : Scopes} {t : Site} (hk : t.node.kind = s.node.kind) :
          Globals.resolve? scopes t = none := by
        unfold Globals.resolve?
        split
        · next hk' => exact absurd (hk.symm.trans hk') href
        · next hk' => exact absurd (hk.symm.trans hk') hthis
        · rfl
      rw [hnone hkind, hnone rfl]
      rfl

theorem references_map (h : CarriesGlobals φ ν α root) :
    Globals.references (root.map φ) = (Globals.references root).map (Reference.map φ ν) := by
  rw [Globals.references, Globals.references, h.descendants_map .refl, List.filterMap_map,
    List.map_filterMap]
  exact List.filterMap_congr fun s hs => h.resolve?_map (Site.mem_descendants_iff.mp hs)

theorem of_mem_references {r : Reference} (hr : r ∈ Globals.references root) :
    root.Reaches r.site ∧ r.site.Refers := by
  obtain ⟨s, hs, hresolve⟩ := List.mem_filterMap.mp hr
  obtain ⟨rfl, ⟨hk, -⟩ | ⟨hk, -⟩⟩ := Globals.resolve?_eq_some hresolve
  · exact ⟨Site.mem_descendants_iff.mp hs, Or.inl hk⟩
  · exact ⟨Site.mem_descendants_iff.mp hs, Or.inr hk⟩

/-! ## properties -/

theorem nameOf?_map (h : CarriesGlobals φ ν α root) {n : Node} (hn : Node.Within root.node n) :
    Globals.nameOf? (Globals.references (root.map φ)) (φ n) =
      (Globals.nameOf? (Globals.references root) n).map ν := by
  have hfind : ((Globals.references root).map (Reference.map φ ν)).find?
        (fun r => r.site.node = φ n) =
      ((Globals.references root).find? fun r => r.site.node = n).map (Reference.map φ ν) := by
    rw [List.find?_map]
    congr 1
    refine List.find?_congr fun r hr => ?_
    obtain ⟨hreaches, hrefers⟩ := of_mem_references hr
    have hleads : root.Leads r.site.node := ⟨r.site, hreaches, hrefers, List.mem_cons_self⟩
    refine decide_eq_decide.mpr ⟨fun heq => ?_, fun heq => ?_⟩
    · exact (h.injective _ _ hleads hn heq.symm).symm
    · rw [Reference.map, Site.node_map, heq]
  rw [h.references_map, Globals.nameOf?, Globals.nameOf?, hfind, Option.map_map, Option.map_map]
  rfl

theorem direct?_map (h : CarriesGlobals φ ν α root) (hs : root.Reaches s) :
    Globals.direct? (Globals.references (root.map φ)) (s.map φ) =
      (Globals.direct? (Globals.references root) s).map (Prod.map ν α) := by
  have hkind : (s.map φ).node.kind = s.node.kind := h.kind s.node
  have haccess : Globals.access? (s.map φ).node = (Globals.access? s.node).map α :=
    h.access _ hs.within
  rw [Globals.direct?, Globals.direct?, hkind, haccess, h.subject?_map hs.within]
  by_cases hk : s.node.kind = .memberExpr
  · cases hsubject : s.subject? with
    | none => simp [hk]
    | some object =>
        have hname := h.nameOf?_map (hs.subject? hsubject).within
        cases hof : Globals.nameOf? (Globals.references root) object.node with
        | none => simp [hk, hname, hof]
        | some name => cases hproperty : Globals.access? s.node <;> simp [hk, hname, hof]
  · simp [hk, guard]

/-- No global stands for a parameter around it, under its name or under the new one. -/
theorem refersTo_map (h : CarriesGlobals φ ν α root) (hs : root.Reaches s) {function : Node}
    {parameter : Text} (hfunction : function ∈ s.above)
    (hdeclares : (Scopes.build root).declares function parameter = true) :
    ((s.map φ).node.kind = .nameRef && (s.map φ).node.word = parameter) =
      (s.node.kind = .nameRef && s.node.word = parameter : Bool) := by
  have hgives : s.above.any (Globals.gives (Scopes.build root) parameter) = true :=
    List.any_eq_true.mpr ⟨function, hfunction, by simp [Globals.gives, hdeclares]⟩
  rw [Site.node_map, h.kind]
  by_cases hk : s.node.kind = .nameRef
  · cases hresolve : Globals.resolve? (Scopes.build root) s with
    | none => rw [h.bound s hs hk hresolve]
    | some r =>
        obtain ⟨hword, -, hfree⟩ := h.global s hs hk r hresolve
        have hold : s.node.word ≠ parameter := by
          rintro rfl
          simp [Globals.resolve?_of_nameRef hk, hgives] at hresolve
        have hnew : (φ s.node).word ≠ parameter := by
          rintro rfl
          rw [hword, hfree] at hgives
          cases hgives
        rw [decide_eq_false hold, decide_eq_false hnew]
  · rw [decide_eq_false hk, Bool.false_and, Bool.false_and]

theorem onParameter?_map (h : CarriesGlobals φ ν α root) (hs : root.Reaches s) {function : Node}
    {parameter : Text} (hfunction : function ∈ s.above)
    (hdeclares : (Scopes.build root).declares function parameter = true) :
    Globals.onParameter? (Scopes.build (root.map φ)) (φ function) parameter (s.map φ) =
      (Globals.onParameter? (Scopes.build root) function parameter s).map α := by
  have hkind : (s.map φ).node.kind = s.node.kind := h.kind s.node
  have haccess : Globals.access? (s.map φ).node = (Globals.access? s.node).map α :=
    h.access _ hs.within
  rw [Globals.onParameter?, Globals.onParameter?, hkind, haccess, h.subject?_map hs.within]
  cases hsubject : s.subject? with
  | none => by_cases hk : s.node.kind = .memberExpr <;> simp [hk, guard]
  | some object =>
      have hobject : s.Reaches object := Site.Reaches.refl.subject? hsubject
      have hrefers := h.refersTo_map (hs.trans hobject) (hobject.mem_above hfunction) hdeclares
      by_cases hobjectKind : object.node.kind = .nameRef
      · have hshadowed := h.isShadowed_map (hs.trans hobject) (Or.inl hobjectKind)
          (hs.within_above h.top hfunction) parameter
        simp only [Option.map_some, Option.bind_eq_bind, Option.bind_some, hrefers, hshadowed]
        simp only [guard]
        split <;> split <;> split <;> rfl
      · rw [decide_eq_false hobjectKind, Bool.false_and] at hrefers
        simp only [Option.map_some, Option.bind_eq_bind, Option.bind_some, hrefers,
          hobjectKind, decide_false, Bool.false_and, guard]
        split <;> rfl

theorem passed?_map (h : CarriesGlobals φ ν α root) {argument parameter : Node}
    (hargument : Node.Within root.node argument) (hparameter : Node.Within root.node parameter) :
    Globals.passed? (Globals.references (root.map φ)) (φ argument) (φ parameter) =
      (Globals.passed? (Globals.references root) argument parameter).map (Prod.map ν id) := by
  rw [Globals.passed?, Globals.passed?, h.nameOf?_map hargument, h.kind]
  by_cases hk : parameter.kind = .name
  · rw [h.word_of_name hparameter hk]
    cases Globals.nameOf? (Globals.references root) argument <;> simp [hk]
  · cases Globals.nameOf? (Globals.references root) argument <;> simp [hk, guard]

/-- A function declares the plain names among its parameters. -/
theorem declares_parameter (hs : root.Reaches s) (hk : s.node.kind = .functionExpr)
    {list parameter : Node} (hlist : s.node.parameterList? = some list)
    (hparameter : parameter ∈ list.children) (hname : parameter.kind = .name) :
    (Scopes.build root).declares s.node parameter.word = true := by
  have hbound : parameter ∈ list.boundNames := by
    have hkind : list.kind = .paramList := by simpa using List.find?_some hlist
    rw [Node.boundNames, hkind, Tree.bound]
    exact Site.mem_boundAll_of_mem_among hname _ hparameter
  have hmem : (s.node, parameter.word) ∈ Scopes.ofSite root.node s := by
    simp only [Scopes.ofSite, hk, Scopes.ofFunction, hlist, List.mem_append]
    refine Or.inl (Or.inl ?_)
    simpa [Scopes.held] using ⟨parameter, hbound, rfl⟩
  rw [Scopes.declares, List.any_eq_true]
  exact ⟨_, List.mem_flatMap.mpr ⟨s, Site.mem_descendants_iff.mpr hs, hmem⟩, by simp⟩

/-- The properties accessed through one argument of a call. -/
theorem throughArgument_map (h : CarriesGlobals φ ν α root) (hs : root.Reaches s)
    (hk : s.node.kind = .functionExpr) {list body argument parameter : Node}
    (hlist : s.node.parameterList? = some list) (hbody : s.node.body? = some body)
    (hargument : Node.Within root.node argument) (hparameter : parameter ∈ list.children) :
    (match Globals.passed? (Globals.references (root.map φ)) (φ argument) (φ parameter) with
      | none => []
      | some (name, parameter) =>
        ((Site.mk (φ body) (φ s.node :: s.above.map φ)).descendants.filterMap
          (Globals.onParameter? (Scopes.build (root.map φ)) (φ s.node) parameter)).map
            (name, ·)) =
      (match Globals.passed? (Globals.references root) argument parameter with
      | none => []
      | some (name, parameter) =>
        ((Site.mk body (s.node :: s.above)).descendants.filterMap
          (Globals.onParameter? (Scopes.build root) s.node parameter)).map (name, ·)).map
            (Prod.map ν α) := by
  have hwithin : Node.Within root.node parameter :=
    (hs.within.of_child? hlist).1.child hparameter
  rw [h.passed?_map hargument hwithin]
  cases hpassed : Globals.passed? (Globals.references root) argument parameter with
  | none => rfl
  | some p =>
      obtain ⟨name, word⟩ := p
      obtain ⟨hname, rfl⟩ := Globals.of_passed? hpassed
      have hinside : ∀ t ∈ (Site.mk body (s.node :: s.above)).descendants,
          root.Reaches t ∧ s.node ∈ t.above := by
        intro t ht
        have hreaches := Site.mem_descendants_iff.mp ht
        have hchild : (Site.mk body (s.node :: s.above)) ∈ s.children :=
          List.mem_map_of_mem (List.mem_of_find?_eq_some hbody)
        exact ⟨(hs.child hchild).trans hreaches, hreaches.mem_above List.mem_cons_self⟩
      have hdescendants : (Site.mk (φ body) (φ s.node :: s.above.map φ)).descendants =
          (Site.mk body (s.node :: s.above)).descendants.map (Site.map φ) :=
        h.descendants_map (s := ⟨body, s.node :: s.above⟩) (hs.within.of_child? hbody).1
      simp only [Option.map_some, Prod.map, id_eq, hdescendants, List.filterMap_map,
        List.map_filterMap]
      refine List.filterMap_congr fun t ht => ?_
      obtain ⟨hreaches, habove⟩ := hinside t ht
      have hdeclares := declares_parameter hs hk hlist hparameter hname
      rw [Function.comp_apply, h.onParameter?_map hreaches habove hdeclares, Option.map_map,
        Option.map_map]
      rfl

theorem throughCall_map (h : CarriesGlobals φ ν α root) (hs : root.Reaches s) :
    Globals.throughCall (Scopes.build (root.map φ)) (Globals.references (root.map φ))
        (s.map φ) =
      (Globals.throughCall (Scopes.build root) (Globals.references root) s).map
        (Prod.map ν α) := by
  have hkind : (s.map φ).node.kind = s.node.kind := h.kind s.node
  rw [Globals.throughCall, Globals.throughCall, h.subject?_map hs.within, hkind]
  cases hsubject : s.subject? with
  | none => rfl
  | some callee =>
      have hcallee := hs.subject? hsubject
      have hlist : (φ callee.node).parameterList? = callee.node.parameterList?.map φ :=
        h.child?_map hcallee.within _
      have hbody : (φ callee.node).body? = callee.node.body?.map φ :=
        h.child?_map hcallee.within _
      simp only [Option.map_some, Site.node_map, Site.above_map, h.kind, hlist, hbody]
      split
      · rfl
      · next hcall =>
          have hfunction : callee.node.kind = .functionExpr := by
            simp only [Bool.or_eq_true, decide_eq_true_eq, not_or, not_not] at hcall
            exact hcall.2
          cases hl : callee.node.parameterList? with
          | none => rfl
          | some list =>
              cases hb : callee.node.body? with
              | none => rfl
              | some body =>
                  have hpairs : ((s.map φ).arguments.map Site.node).zip (φ list).children =
                      ((s.arguments.map Site.node).zip list.children).map (Prod.map φ φ) := by
                    rw [h.arguments_map hs.within,
                      h.children _ (hcallee.within.of_child? hl).1,
                      List.map_map, ← List.zip_map, List.map_map]
                    rfl
                  simp only [Option.map_some, hpairs, List.flatMap_map, List.map_flatMap]
                  refine List.flatMap_congr fun p hp => ?_
                  obtain ⟨hargument, hparameter⟩ := List.of_mem_zip hp
                  obtain ⟨argument, hargument, heq⟩ := List.mem_map.mp hargument
                  exact h.throughArgument_map hcallee hfunction hl hb
                    (heq ▸ (hs.arguments hargument).within) hparameter

/-! ## groups -/

variable {references : List Reference} {direct aliased : List (Text × Access)}

theorem gather_map {name : Text} (hrefs : ∀ r ∈ references, ν r.name = ν name → r.name = name)
    (hdirect : ∀ p ∈ direct, ν p.1 = ν name → p.1 = name)
    (haliased : ∀ p ∈ aliased, ν p.1 = ν name → p.1 = name) :
    Globals.gather (references.map (Reference.map φ ν)) (direct.map (Prod.map ν α))
        (aliased.map (Prod.map ν α)) (ν name) =
      (Globals.gather references direct aliased name).map φ ν α := by
  have hreferences : (references.map (Reference.map φ ν)).filter (fun r => r.name = ν name) =
      (references.filter fun r => r.name = name).map (Reference.map φ ν) := by
    rw [List.filter_map]
    congr 1
    exact List.filter_congr fun r hr => decide_eq_decide.mpr ⟨hrefs r hr, congrArg ν⟩
  rw [Globals.gather, Globals.gather, Group.map, hreferences,
    Globals.named_map fun p hp => ⟨hdirect p hp, congrArg ν⟩,
    Globals.named_map fun p hp => ⟨haliased p hp, congrArg ν⟩]

theorem sort_names {names : List Text}
    (h : ∀ x ∈ names, ∀ y ∈ names, ν x = ν y → x = y) :
    Sort.sort Text.le (names.map ν).eraseDups =
      Sort.sort Text.le ((Sort.sort Text.le names.eraseDups).map ν) := by
  refine Text.sort_eq_of_perm ?_
  have hnodup : (names.eraseDups.map ν).Nodup := by
    refine List.Nodup.map_on (fun x hx y hy heq => ?_) (Text.nodup_eraseDups names)
    rw [List.mem_eraseDups] at hx hy
    exact h x hx y hy heq
  have hperm : (names.map ν).eraseDups.Perm (names.eraseDups.map ν) :=
    (List.perm_ext_iff_of_nodup (Text.nodup_eraseDups _) hnodup).mpr fun x => by
      simp [List.mem_eraseDups]
  exact hperm.trans ((Sort.perm_sort Text.le _).map _).symm

/-- Groups gathered after renaming are the groups gathered before, renamed. -/
theorem sort_gather
    (hrefs : ∀ r ∈ references, ∀ r' ∈ references, ν r.name = ν r'.name → r.name = r'.name)
    (hdirect : ∀ p ∈ direct, ∃ r ∈ references, r.name = p.1)
    (haliased : ∀ p ∈ aliased, ∃ r ∈ references, r.name = p.1) :
    (Sort.sort Text.le ((references.map (Reference.map φ ν)).map Reference.name).eraseDups).map
        (Globals.gather (references.map (Reference.map φ ν)) (direct.map (Prod.map ν α))
          (aliased.map (Prod.map ν α))) =
      Sort.sort (fun g g' => Text.le g.name g'.name)
        (((Sort.sort Text.le (references.map Reference.name).eraseDups).map
          (Globals.gather references direct aliased)).map (Group.map φ ν α)) := by
  have hnames : ∀ x ∈ references.map Reference.name, ∀ y ∈ references.map Reference.name,
      ν x = ν y → x = y := by
    simpa using hrefs
  have hrenamed : (references.map (Reference.map φ ν)).map Reference.name =
      (references.map Reference.name).map ν := by
    rw [List.map_map, List.map_map]
    rfl
  have hgroups : ∀ n ∈ Sort.sort Text.le (references.map Reference.name).eraseDups,
      (Group.map φ ν α ∘ Globals.gather references direct aliased) n =
        (Globals.gather (references.map (Reference.map φ ν)) (direct.map (Prod.map ν α))
          (aliased.map (Prod.map ν α)) ∘ ν) n := by
    intro n hn
    rw [Sort.mem_sort, List.mem_eraseDups] at hn
    have hmem {x : Text} (hx : ∃ r ∈ references, r.name = x) : ν x = ν n → x = n :=
      hnames x (List.mem_map.mpr hx) n hn
    exact (gather_map (fun r hr => hmem ⟨r, hr, rfl⟩) (fun p hp => hmem (hdirect p hp))
      fun p hp => hmem (haliased p hp)).symm
  rw [hrenamed, sort_names hnames, List.map_map, List.map_congr_left hgroups, ← List.map_map,
    Sort.sort_map fun g g' : Group => Text.le g.name g'.name]
  -- a group that is gathered under a name has that name
  rfl

/-- The groups are those that there were, each under its new name. -/
theorem collect_map (h : CarriesGlobals φ ν α root) :
    Globals.collect (Scopes.build (root.map φ)) (root.map φ) =
      Sort.sort (fun g g' => Text.le g.name g'.name)
        ((Globals.collect (Scopes.build root) root).map (Group.map φ ν α)) := by
  have hdirect : (root.map φ).descendants.filterMap
        (Globals.direct? (Globals.references (root.map φ))) =
      (root.descendants.filterMap (Globals.direct? (Globals.references root))).map
        (Prod.map ν α) := by
    rw [h.descendants_map .refl, List.filterMap_map, List.map_filterMap]
    exact List.filterMap_congr fun s hs => h.direct?_map (Site.mem_descendants_iff.mp hs)
  have haliased : (root.map φ).descendants.flatMap
        (Globals.throughCall (Scopes.build (root.map φ)) (Globals.references (root.map φ))) =
      (root.descendants.flatMap
        (Globals.throughCall (Scopes.build root) (Globals.references root))).map
          (Prod.map ν α) := by
    rw [h.descendants_map .refl, List.flatMap_map, List.map_flatMap]
    exact List.flatMap_congr fun s hs => h.throughCall_map (Site.mem_descendants_iff.mp hs)
  have hreferences := h.references_map
  rw [Globals.references] at hreferences hdirect haliased
  rw [Globals.collect_eq, Globals.collect_eq, hdirect, haliased, hreferences]
  refine sort_gather h.distinct (fun p hp => ?_) (fun p hp => ?_)
  · obtain ⟨s, -, hs⟩ := List.mem_filterMap.mp hp
    exact Globals.exists_reference_of_direct? hs
  · obtain ⟨s, -, hs⟩ := List.mem_flatMap.mp hp
    exact Globals.exists_reference_of_throughCall hs

/-- The groups are those that there were, if each keeps its name. -/
theorem collect_map_id (h : CarriesGlobals φ id α root) :
    Globals.collect (Scopes.build (root.map φ)) (root.map φ) =
      (Globals.collect (Scopes.build root) root).map (Group.map φ id α) := by
  rw [h.collect_map, Sort.sort_eq_self]
  rw [Globals.collect_eq, List.pairwise_map, List.pairwise_map]
  exact Sort.pairwise_sort Text.le Text.le_total Text.le_trans _

end CarriesGlobals

/-- A map that keeps what references spell keeps the names of globals. -/
theorem CarriesScopes.carriesGlobals {φ : Node → Node} {α : Access → Access} {root : Site}
    (h : CarriesScopes φ root)
    (hword : ∀ n, Node.Within root.node n → n.kind = .nameRef → (φ n).word = n.word)
    (haccess : ∀ n, Node.Within root.node n →
      Globals.access? (φ n) = (Globals.access? n).map α) :
    CarriesGlobals φ id α root where
  toCarriesScopes := h
  global s hs hk r hr := by
    rw [Globals.resolve?_of_nameRef hk, Option.ite_none_left_eq_some] at hr
    obtain ⟨hfree, hname⟩ := hr
    obtain rfl := Option.some.inj hname
    simp only [Bool.or_eq_true, decide_eq_true_eq, not_or, Bool.not_eq_true] at hfree
    exact ⟨hword s.node hs.within hk, hfree⟩
  bound s hs hk _ := hword s.node hs.within hk
  this := rfl
  distinct _ _ _ _ heq := heq
  access := haccess

/-! ## one global under another name -/

namespace Respelling

/-- A respelling of the references to one global, with a name that is nowhere
else in the tree. -/
structure Renames (ρ : Respelling) (root : Site) (old : Text) : Prop where
  top : root.above = []
  fits : ρ.Fits root.node.start (Tree.tokensAll root.node.parts)
  injective : ∀ n m, Node.Within root.node n → Node.Within root.node m →
    ρ.node n = ρ.node m → n = m
  spared : ∀ n, Node.Within root.node n → n.kind ≠ .nameRef → (ρ.node n).word = n.word
  hit : ∀ s, root.Reaches s → s.node.kind = .nameRef → ρ.isHit s.node.start = true →
    Globals.resolve? (Scopes.build root) s = some ⟨old, s⟩ ∧ (ρ.node s.node).word = ρ.word
  missed : ∀ s, root.Reaches s → s.node.kind = .nameRef → ρ.isHit s.node.start = false →
    Globals.resolve? (Scopes.build root) s ≠ some ⟨old, s⟩ ∧
      (ρ.node s.node).word = s.node.word
  fresh : ∀ n, Node.Within root.node n → n.word ≠ ρ.word
  defined : ρ.word ≠ "undefined".toList
  plain : ρ.word ≠ "arguments".toList
  notThis : old ≠ Globals.thisName ∧ ρ.word ≠ Globals.thisName

/-- The name of a global. -/
def name (ρ : Respelling) (old n : Text) : Text := if n = old then ρ.word else n

/-- A reference, where it stands afterwards. -/
def reference (ρ : Respelling) (old : Text) (r : Reference) : Reference :=
  ⟨ρ.name old r.name, ρ.site r.site⟩

/-- An access, where it stands afterwards. -/
def access (ρ : Respelling) (a : Access) : Access := ⟨a.name, ρ.node a.node⟩

/-- A group, with its references and accesses where they stand afterwards. -/
def group (ρ : Respelling) (old : Text) (g : Group) : Group :=
  ⟨ρ.name old g.name, g.references.map (ρ.reference old), g.direct.map ρ.access,
    g.aliased.map ρ.access⟩

namespace Renames

variable {ρ : Respelling} {root : Site} {old : Text}

theorem fits_node (h : ρ.Renames root old) {n : Node} (hn : Node.Within root.node n) :
    ρ.Fits n.start (Tree.tokensAll n.parts) :=
  fits_of_within h.fits hn

theorem gives_word (h : ρ.Renames root old) (n : Node) :
    Globals.gives (Scopes.build root) ρ.word n = false := by
  have hdeclares : (Scopes.build root).declares n ρ.word = false := by
    rw [Scopes.declares, List.any_eq_false]
    intro p hp
    obtain ⟨-, m, hm, hword⟩ := CarriesScopes.of_mem_bindings h.top hp
    simp [← hword, h.fresh m hm]
  rw [Globals.gives, hdeclares, Bool.or_false, decide_eq_false h.plain, Bool.false_and]

theorem name_inj {x y : Text} (hx : x ≠ ρ.word) (hy : y ≠ ρ.word)
    (heq : ρ.name old x = ρ.name old y) : x = y := by
  unfold name at heq
  split at heq <;> split at heq <;> simp_all

theorem access?_node (h : ρ.Renames root old) {n : Node} (hn : Node.Within root.node n) :
    Globals.access? (ρ.node n) = (Globals.access? n).map ρ.access := by
  rw [Globals.access?, Globals.access?, Node.property?, (carries h.fits).child?_map hn]
  cases hp : n.child? .propertyName with
  | none => simp [Node.property?, hp]
  | some p =>
      obtain ⟨hwithin, hk⟩ := hn.of_child? hp
      simp [Node.property?, hp, access, h.spared p hwithin (by simp [hk])]

theorem carriesGlobals (h : ρ.Renames root old) :
    CarriesGlobals ρ.node (ρ.name old) ρ.access root where
  toCarries := carries h.fits
  top := h.top
  injective n m hn hm heq := by
    obtain ⟨s, hs, -, hn⟩ := hn
    refine h.injective m n hm ?_ heq
    rcases List.mem_cons.mp hn with rfl | hn
    · exact hs.within
    · exact hs.within_above h.top hn
  word n hn hk _ := h.spared n hn hk
  global s hs hk r hr := by
    cases hhit : ρ.isHit s.node.start with
    | true =>
        obtain ⟨hresolve, hword⟩ := h.hit s hs hk hhit
        obtain rfl := Option.some.inj (hresolve.symm.trans hr)
        rw [show ρ.name old old = ρ.word from if_pos rfl]
        refine ⟨hword, h.defined, List.any_eq_false.mpr fun n _ => ?_⟩
        simp [h.gives_word]
    | false =>
        obtain ⟨hold, hword⟩ := h.missed s hs hk hhit
        have hfree := hr
        rw [Globals.resolve?_of_nameRef hk, Option.ite_none_left_eq_some] at hfree
        obtain ⟨hfree, hname⟩ := hfree
        obtain rfl := Option.some.inj hname
        have hne : s.node.word ≠ old := by
          rintro rfl
          exact hold hr
        rw [show ρ.name old s.node.word = s.node.word from if_neg hne]
        simp only [Bool.or_eq_true, decide_eq_true_eq, not_or, Bool.not_eq_true] at hfree
        exact ⟨hword, hfree⟩
  bound s hs hk hr := by
    cases hhit : ρ.isHit s.node.start with
    | true => simp [(h.hit s hs hk hhit).1] at hr
    | false => exact (h.missed s hs hk hhit).2
  this := if_neg h.notThis.1.symm
  distinct r hr r' hr' := by
    have hne {r : Reference} (hr : r ∈ Globals.references root) : r.name ≠ ρ.word := by
      obtain ⟨s, hs, hresolve⟩ := List.mem_filterMap.mp hr
      obtain ⟨rfl, ⟨-, hname⟩ | ⟨-, hname⟩⟩ := Globals.resolve?_eq_some hresolve
      · exact hname ▸ h.fresh _ (Site.mem_descendants_iff.mp hs).within
      · exact hname ▸ h.notThis.2.symm
    exact name_inj (hne hr) (hne hr')
  access n hn := h.access?_node hn

/-- The groups are those that there were, one of them under the new name. -/
theorem collect_site (h : ρ.Renames root old) :
    Globals.collect (Scopes.build (ρ.site root)) (ρ.site root) =
      Sort.sort (fun g g' => Text.le g.name g'.name)
        ((Globals.collect (Scopes.build root) root).map (ρ.group old)) :=
  h.carriesGlobals.collect_map

end Renames

end Respelling

end FreeNames
