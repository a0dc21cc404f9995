import FreeNames.Proofs.Patterns

/-!
# FreeNames.Proofs.Declarations

Which scope each declared name belongs to.  The scopes are told from a name upwards
(`demanded`): from the nodes around it, through the patterns that it is a part of, to
the declaration and on to the scope that this asks for.  What declarations collect they
collect downwards, from the declaration to the names in its targets.  In a text without
problems both find the same, since names and patterns stand in declarations only, each
at its place.

Main statement: `names_demanded`.
-/

namespace FreeNames

/-! ## scopes from the names up -/

/-- The scope that a variable declaration declares for, given the nodes from the declaration
outwards. -/
def variableScope : List Node → List Node
  | [] => []
  | declaration :: around =>
    match declaration.variableKind with
    | .varKind => (around.find? fun n => n.kind.isFunctionScope).toList
    | .letKind | .constKind => (around.find? fun n => n.kind.isBlockScope).toList

/-- The scopes that a name belongs to, given the nodes around it, innermost first. -/
def demanded (root : Node) : List Node → List Node
  | [] => []
  | n :: above =>
    match n.kind with
    | .objectPattern | .objectPatternProp | .arrayPattern | .assignPattern | .restPattern =>
      demanded root above
    | .paramList => above.head?.toList
    | .varDeclarator => variableScope above
    | .functionDecl => n :: (above.find? fun n => n.kind.isFunctionScope).toList
    | .functionExpr | .classExpr => [n]
    | .classDecl => (above.find? fun n => n.kind.isBlockScope).toList
    | .catchClause => n.body?.toList
    | .importDefaultSpecifier | .importSpecifier | .importNamespaceSpecifier => [root]
    | _ => []

theorem demanded_pattern {n : Node} (h : n.kind.isPattern = true) (root : Node)
    (above : List Node) : demanded root (n :: above) = demanded root above := by
  unfold NodeKind.isPattern at h
  split at h <;> simp_all [demanded]

/-- A name belongs to the scopes that the pattern is for. -/
theorem Site.Gives.demanded_eq {t s : Site} (h : t.Gives s) (root : Node) :
    demanded root s.above = demanded root t.above := by
  induction h with
  | name _ => rfl
  | part hk hc _ ih =>
      obtain ⟨n, -, rfl⟩ := List.mem_map.mp hc
      rw [ih, demanded_pattern hk]

/-! ## what declarations declare -/

/-- Functions, classes and imports that have names of their own. -/
def NodeKind.isNamed : NodeKind → Bool
  | .functionDecl | .functionExpr | .classDecl | .classExpr | .importDefaultSpecifier
  | .importSpecifier | .importNamespaceSpecifier => true
  | _ => false

/-- A handler ends with its block, and what stands before the block is none. -/
theorem Node.Laid.catchClause {n : Node} (h : n.Laid) (hk : n.kind = .catchClause) :
    ∃ b, b.kind = .blockStmt ∧
      (n.children = [b] ∨ ∃ t, n.children = [t, b] ∧ t.kind ≠ .blockStmt) := by
  have hl := h.exists_layout
  simp only [hk, NodeKind.layouts, List.mem_cons, List.not_mem_nil, or_false,
    exists_eq_or_imp, exists_eq_left, Layout.fits_row_cons, Layout.fits_row_nil,
    NodeKind.family_eq_block_iff] at hl
  obtain ⟨b, _, hc, hb, rfl⟩ | ⟨t, _, hc, ht, b, _, rfl, hb, rfl⟩ := hl
  · exact ⟨b, hb, Or.inl hc⟩
  · refine ⟨b, hb, Or.inr ⟨t, hc, fun heq => ?_⟩⟩
    rw [heq] at ht
    revert ht
    decide

namespace Site

/-- A name directly inside a site. -/
def Owns (d s : Site) : Prop := s ∈ d.children ∧ s.node.kind = .name

/-- A name in one of the nodes inside a site. -/
def Handles (d s : Site) : Prop := ∃ t ∈ d.children, t.Gives s

/-- A name in one of the parameters of a site. -/
def Takes (d s : Site) : Prop := ∃ p ∈ d.children, p.node.kind = .paramList ∧ p.Handles s

/-- A name in one of the targets of a site. -/
def Initializes (d s : Site) : Prop :=
  ∃ p ∈ d.children, p.node.kind = .varDeclarator ∧ p.Handles s

/-- A site declares a name. -/
inductive Declares (d s : Site) : Prop
  | owns (kind : d.node.kind.isNamed = true) (own : d.Owns s)
  | takes (parameter : d.Takes s)
  | initializes (target : d.Initializes s)
  | handles (kind : d.node.kind = .catchClause) (error : d.Handles s)

/-- A site and all inside it are laid out. -/
def Laid (d : Site) : Prop := d.node.Laid ∧ ∀ p ∈ d.node.parts, p.All Layout.Laid

variable {d p s : Site} {root : Node} {name : Text}

theorem Laid.child (h : d.Laid) (hp : p ∈ d.children) : p.Laid := by
  obtain ⟨c, hc, rfl⟩ := List.mem_map.mp hp
  obtain ⟨before, after, hparts, -⟩ := Node.mem_among hc
  have hall := h.2 (.node c.kind c.parts) (by simp [hparts])
  cases hall with
  | node here all => exact ⟨here, all⟩

/-! ### downwards -/

theorem mem_words_iff {ns : List Node} : name ∈ words ns ↔ ∃ m ∈ ns, m.word = name := by
  simp [words]

theorem Laid.mem_flatMap_iff (h : d.Laid) (hk : d.node.kind.isFunction = false) :
    name ∈ words (d.node.children.flatMap Node.boundNames) ↔
      ∃ s, d.Handles s ∧ s.node.word = name := by
  have hchild {c : Node} (hc : c ∈ d.node.children) {m : Node} :
      m ∈ c.boundNames ↔ ∃ s, Gives ⟨c, d.node :: d.above⟩ s ∧ s.node = m := by
    have hlaid := h.child (List.mem_map_of_mem hc)
    refine mem_boundNames_iff (.node hlaid.1 hlaid.2) rfl (fun hlist => ?_) _
    simp [h.1.isFunction hc hlist] at hk
  rw [mem_words_iff]
  constructor
  · rintro ⟨m, hm, rfl⟩
    obtain ⟨c, hc, hm⟩ := List.mem_flatMap.mp hm
    obtain ⟨s, hs, rfl⟩ := (hchild hc).mp hm
    exact ⟨s, ⟨_, List.mem_map_of_mem hc, hs⟩, rfl⟩
  · rintro ⟨s, ⟨t, ht, hs⟩, rfl⟩
    obtain ⟨c, hc, rfl⟩ := List.mem_map.mp ht
    exact ⟨s.node, List.mem_flatMap.mpr ⟨c, hc, (hchild hc).mpr ⟨s, hs, rfl⟩⟩, rfl⟩

/-- The names that a variable declaration declares. -/
theorem Laid.mem_targetNames_iff (h : d.Laid) :
    name ∈ d.node.targetNames ↔ ∃ s, d.Initializes s ∧ s.node.word = name := by
  have hhead {c : Node} (hc : c ∈ d.node.children) (hk : c.kind = .varDeclarator) :
      name ∈ words (c.children.head?.toList.flatMap Node.boundNames) ↔
        ∃ s, Handles ⟨c, d.node :: d.above⟩ s ∧ s.node.word = name := by
    have hlaid := h.child (List.mem_map_of_mem hc)
    rw [hlaid.1.flatMap_head? (Or.inr (Or.inr hk))]
    exact hlaid.mem_flatMap_iff (by rw [show (⟨c, _⟩ : Site).node.kind = _ from hk]; rfl)
  have hsplit : name ∈ d.node.targetNames ↔ ∃ c ∈ d.node.children, c.kind = .varDeclarator ∧
      name ∈ words (c.children.head?.toList.flatMap Node.boundNames) := by
    simp only [Node.targetNames, Node.targets, words, List.mem_map, List.mem_flatMap,
      List.mem_filterMap, Option.mem_toList, Option.ite_none_right_eq_some]
    constructor
    · rintro ⟨m, ⟨t, ⟨c, hc, hk, ht⟩, hm⟩, rfl⟩
      exact ⟨c, hc, hk, m, ⟨t, ht, hm⟩, rfl⟩
    · rintro ⟨c, hc, hk, m, ⟨t, ht, hm⟩, rfl⟩
      exact ⟨m, ⟨t, ⟨c, hc, hk, ht⟩, hm⟩, rfl⟩
  rw [hsplit]
  constructor
  · rintro ⟨c, hc, hk, hname⟩
    obtain ⟨s, hs, rfl⟩ := (hhead hc hk).mp hname
    exact ⟨s, ⟨_, List.mem_map_of_mem hc, hk, hs⟩, rfl⟩
  · rintro ⟨s, ⟨p, hp, hk, hs⟩, rfl⟩
    obtain ⟨c, hc, rfl⟩ := List.mem_map.mp hp
    exact ⟨c, hc, hk, (hhead hc hk).mpr ⟨s, hs, rfl⟩⟩

/-- A function has one list of parameters. -/
theorem Laid.mem_parameters_iff (h : d.Laid) (hk : d.node.kind.isFunction = true) :
    name ∈ words (d.node.parameterList?.toList.flatMap Node.boundNames) ↔
      ∃ s, d.Takes s ∧ s.node.word = name := by
  have hlist {c : Node} (hc : c ∈ d.node.children) (hck : c.kind = .paramList) :
      d.node.parameterList? = some c ∧ (name ∈ words c.boundNames ↔
        ∃ s, Handles ⟨c, d.node :: d.above⟩ s ∧ s.node.word = name) := by
    have hlaid := h.child (List.mem_map_of_mem hc)
    have honce : (d.node.kind.layouts.all fun l => l.once .parameters) = true := by
      revert hk
      cases d.node.kind <;> decide
    refine ⟨h.1.child?_eq (fun _ => NodeKind.family_eq_parameters_iff) honce hc hck, ?_⟩
    rw [Node.Laid.boundNames_eq hlaid.1 (Or.inr hck)]
    exact hlaid.mem_flatMap_iff (by rw [show (⟨c, _⟩ : Site).node.kind = _ from hck]; rfl)
  constructor
  · intro hname
    cases hp : d.node.parameterList? with
    | none => simp [hp, words] at hname
    | some c =>
        obtain ⟨hc, hck⟩ : c ∈ d.node.children ∧ c.kind = .paramList :=
          ⟨List.mem_of_find?_eq_some hp, by simpa using List.find?_some hp⟩
        rw [hp, Option.toList_some, List.flatMap_singleton] at hname
        obtain ⟨s, hs, rfl⟩ := (hlist hc hck).2.mp hname
        exact ⟨s, ⟨_, List.mem_map_of_mem hc, hck, hs⟩, rfl⟩
  · rintro ⟨s, ⟨p, hp, hpk, hs⟩, rfl⟩
    obtain ⟨c, hc, rfl⟩ := List.mem_map.mp hp
    obtain ⟨hparams, hnames⟩ := hlist hc hpk
    rw [hparams, Option.toList_some, List.flatMap_singleton]
    exact hnames.mpr ⟨s, hs, rfl⟩

/-- A function or class has at most one name. -/
theorem Laid.mem_ownName_iff (h : d.Laid)
    (honce : (d.node.kind.layouts.all fun l => l.once .name) = true) :
    name ∈ words d.node.ownName?.toList ↔ ∃ s, d.Owns s ∧ s.node.word = name := by
  constructor
  · intro hname
    cases hn : d.node.ownName? with
    | none => simp [hn, words] at hname
    | some c =>
        rw [hn, Option.toList_some, mem_words_iff] at hname
        obtain ⟨m, hm, rfl⟩ := hname
        obtain rfl := List.mem_singleton.mp hm
        exact ⟨_, ⟨List.mem_map_of_mem (List.mem_of_find?_eq_some hn),
          by simpa using List.find?_some hn⟩, rfl⟩
  · rintro ⟨s, ⟨hs, hname⟩, rfl⟩
    obtain ⟨c, hc, rfl⟩ := List.mem_map.mp hs
    rw [Node.ownName?, h.1.child?_eq (fun _ => NodeKind.family_eq_name_iff) honce hc hname]
    simp [words]

/-- What a handler names comes first. -/
theorem Laid.mem_handled_iff (h : d.Laid) (hk : d.node.kind = .catchClause) :
    name ∈ words (d.node.handled?.toList.flatMap Node.boundNames) ↔
      ∃ s, d.Handles s ∧ s.node.word = name := by
  have hbound {b : Node} (hb : b.kind = .blockStmt) : b.boundNames = [] :=
    Node.boundNames_of_plain (by rw [hb]; decide)
  have heq : d.node.handled?.toList.flatMap Node.boundNames =
      d.node.children.flatMap Node.boundNames := by
    obtain ⟨b, hb, hc | ⟨t, hc, hne⟩⟩ := h.1.catchClause hk
    · simp [Node.handled?, hc, hb, hbound hb]
    · simp [Node.handled?, hc, hne, hbound hb]
  rw [heq]
  exact h.mem_flatMap_iff (by rw [hk]; rfl)

/-! ### upwards -/

theorem Owns.demanded_eq (h : d.Owns s) :
    demanded root s.above = demanded root (d.node :: d.above) := by
  obtain ⟨c, -, rfl⟩ := List.mem_map.mp h.1
  rfl

theorem Handles.demanded_eq (h : d.Handles s) :
    demanded root s.above = demanded root (d.node :: d.above) := by
  obtain ⟨t, ht, hs⟩ := h
  obtain ⟨c, -, rfl⟩ := List.mem_map.mp ht
  exact hs.demanded_eq root

theorem Takes.demanded_eq (h : d.Takes s) : demanded root s.above = [d.node] := by
  obtain ⟨p, hp, hk, hs⟩ := h
  obtain ⟨c, -, rfl⟩ := List.mem_map.mp hp
  rw [hs.demanded_eq, demanded]
  simp only at hk
  simp [hk]

theorem Initializes.demanded_eq (h : d.Initializes s) :
    demanded root s.above = variableScope (d.node :: d.above) := by
  obtain ⟨p, hp, hk, hs⟩ := h
  obtain ⟨c, -, rfl⟩ := List.mem_map.mp hp
  rw [hs.demanded_eq, demanded]
  simp only at hk
  simp [hk]

/-! ### both ways -/

variable {n : Node}

/-- A function that has a name is a declaration or an expression. -/
theorem Laid.kind_of_owns (h : d.Laid) (hk : d.node.kind.isFunction = true) (hs : d.Owns s) :
    d.node.kind = .functionDecl ∨ d.node.kind = .functionExpr := by
  obtain ⟨c, hc, rfl⟩ := List.mem_map.mp hs.1
  have hmem := h.1.family_mem hc
  rw [NodeKind.family_eq_name_iff.mpr hs.2] at hmem
  revert hk hmem
  cases d.node.kind <;> decide

theorem Laid.kind_of_initializes (h : d.Laid) (hs : d.Initializes s) : d.node.kind = .varDecl := by
  obtain ⟨p, hp, hk, -⟩ := hs
  obtain ⟨c, hc, rfl⟩ := List.mem_map.mp hp
  have hmem := h.1.family_mem hc
  rw [NodeKind.family_eq_declarator_iff.mpr hk] at hmem
  revert hmem
  cases d.node.kind <;> decide

/-- What a site declares comes from names that ask for the scope. -/
theorem Laid.exists_declares (h : d.Laid) (hmem : (n, name) ∈ Scopes.ofSite root d) :
    ∃ s, d.Declares s ∧ s.node.word = name ∧ n ∈ demanded root s.above := by
  have hown (hname : name ∈ words d.node.ownName?.toList) (hnamed : d.node.kind.isNamed = true)
      (honce : (d.node.kind.layouts.all fun l => l.once .name) = true)
      (hn : n ∈ demanded root (d.node :: d.above)) :
      ∃ s, d.Declares s ∧ s.node.word = name ∧ n ∈ demanded root s.above := by
    obtain ⟨s, hs, hword⟩ := (h.mem_ownName_iff honce).mp hname
    exact ⟨s, .owns hnamed hs, hword, hs.demanded_eq ▸ hn⟩
  have hinit (hname : name ∈ d.node.targetNames) (hn : n ∈ variableScope (d.node :: d.above)) :
      ∃ s, d.Declares s ∧ s.node.word = name ∧ n ∈ demanded root s.above := by
    obtain ⟨s, hs, hword⟩ := h.mem_targetNames_iff.mp hname
    exact ⟨s, .initializes hs, hword, hs.demanded_eq ▸ hn⟩
  rcases Scopes.mem_ofSite_iff.mp hmem with ⟨rfl, hnames⟩ | ⟨hscope, hvars⟩ | ⟨hscope, hlets⟩ |
    hhandled | ⟨rfl, himports⟩
  · unfold ownNames at hnames
    split at hnames
    · next hfunction =>
        rcases List.mem_append.mp hnames with hparams | hname
        · obtain ⟨s, hs, hword⟩ := (h.mem_parameters_iff hfunction).mp hparams
          exact ⟨s, .takes hs, hword, by simp [hs.demanded_eq]⟩
        · have honce : (d.node.kind.layouts.all fun l => l.once .name) = true := by
            revert hfunction
            cases d.node.kind <;> decide
          obtain ⟨s, hs, -⟩ := (h.mem_ownName_iff honce).mp hname
          rcases h.kind_of_owns hfunction hs with hk | hk
          · exact hown hname (by rw [hk]; rfl) honce (by simp [demanded, hk])
          · exact hown hname (by rw [hk]; rfl) honce (by simp [demanded, hk])
    · split at hnames
      · next hk => exact hown hnames (by rw [hk]; rfl) (by rw [hk]; decide) (by simp [demanded, hk])
      · cases hnames
  · unfold Scopes.enclosing? at hscope
    unfold ownVars at hvars
    split at hvars
    · next hv => exact hinit hvars (by simp [variableScope, hv, hscope])
    · next hk =>
        exact hown hvars (by rw [hk]; rfl) (by rw [hk]; decide) (by simp [demanded, hk, hscope])
    · cases hvars
  · unfold Scopes.enclosing? at hscope
    unfold ownLets at hlets
    split at hlets
    · next hv => exact hinit hlets (by simp [variableScope, hv, hscope])
    · next hv => exact hinit hlets (by simp [variableScope, hv, hscope])
    · next hk =>
        exact hown hlets (by rw [hk]; rfl) (by rw [hk]; decide) (by simp [demanded, hk, hscope])
    · cases hlets
  · unfold handledNames at hhandled
    split at hhandled
    · next hbody =>
        obtain ⟨s, hs, hword⟩ := (h.mem_handled_iff hbody.1).mp hhandled
        exact ⟨s, .handles hbody.1 hs, hword, by simp [hs.demanded_eq, demanded, hbody]⟩
    · cases hhandled
  · obtain ⟨hnamed, hdemanded, hnames⟩ : d.node.kind.isNamed = true ∧
        demanded root (d.node :: d.above) = [root] ∧
        name ∈ words (d.node.children.filter fun c => c.kind = .name) := by
      unfold ownImports at himports
      split at himports
      · next hk => exact ⟨by rw [hk]; rfl, by simp [demanded, hk], himports⟩
      · next hk => exact ⟨by rw [hk]; rfl, by simp [demanded, hk], himports⟩
      · next hk => exact ⟨by rw [hk]; rfl, by simp [demanded, hk], himports⟩
      · cases himports
    obtain ⟨m, hm, hword⟩ := mem_words_iff.mp hnames
    obtain ⟨hm, hk⟩ := List.mem_filter.mp hm
    have hs : d.Owns ⟨m, d.node :: d.above⟩ := ⟨List.mem_map_of_mem hm, by simpa using hk⟩
    exact ⟨_, .owns hnamed hs, hword, by rw [hs.demanded_eq, hdemanded]; simp⟩

/-- A name that a site declares is held by the scopes that it asks for. -/
theorem Declares.mem_ofSite (hs : d.Declares s) (h : d.Laid) (hn : n ∈ demanded root s.above) :
    (n, s.node.word) ∈ Scopes.ofSite root d := by
  rw [Scopes.mem_ofSite_iff]
  cases hs with
  | takes hs =>
      obtain ⟨p, hp, hk, -⟩ := id hs
      obtain ⟨c, hc, rfl⟩ := List.mem_map.mp hp
      have hfunction := h.1.isFunction hc hk
      rw [hs.demanded_eq, List.mem_singleton] at hn
      refine Or.inl ⟨hn.symm, ?_⟩
      rw [ownNames, if_pos hfunction]
      exact List.mem_append_left _ ((h.mem_parameters_iff hfunction).mpr ⟨s, hs, rfl⟩)
  | initializes hs =>
      have hdecl := h.kind_of_initializes hs
      have hname := h.mem_targetNames_iff.mpr ⟨s, hs, rfl⟩
      rw [hs.demanded_eq, variableScope] at hn
      cases hv : d.node.variableKind with
      | varKind =>
          rw [hv] at hn
          exact Or.inr (Or.inl ⟨by simpa [Scopes.enclosing?] using hn,
            by simpa [ownVars, hdecl, hv] using hname⟩)
      | letKind | constKind =>
          rw [hv] at hn
          exact Or.inr (Or.inr (Or.inl ⟨by simpa [Scopes.enclosing?] using hn,
            by simpa [ownLets, hdecl, hv] using hname⟩))
  | handles hk hs =>
      rw [hs.demanded_eq, demanded, hk] at hn
      refine Or.inr (Or.inr (Or.inr (Or.inl ?_)))
      rw [handledNames, if_pos ⟨hk, by simpa using hn⟩]
      exact (h.mem_handled_iff hk).mpr ⟨s, hs, rfl⟩
  | owns hnamed hs =>
      have hown (honce : (d.node.kind.layouts.all fun l => l.once .name) = true) :
          s.node.word ∈ words d.node.ownName?.toList := (h.mem_ownName_iff honce).mpr ⟨s, hs, rfl⟩
      have himport : s.node.word ∈ words (d.node.children.filter fun c => c.kind = .name) := by
        obtain ⟨c, hc, rfl⟩ := List.mem_map.mp hs.1
        exact mem_words_iff.mpr ⟨c, List.mem_filter.mpr ⟨hc, by simpa using hs.2⟩, rfl⟩
      rw [hs.demanded_eq, demanded] at hn
      cases hk : d.node.kind with
      | functionDecl =>
          have hname := hown (by rw [hk]; decide)
          simp only [hk, List.mem_cons, Option.mem_toList] at hn
          rcases hn with rfl | hn
          · exact Or.inl ⟨rfl, by simp [ownNames, hk, NodeKind.isFunction, hname]⟩
          · exact Or.inr (Or.inl ⟨hn, by simpa [ownVars, hk] using hname⟩)
      | functionExpr =>
          have hname := hown (by rw [hk]; decide)
          simp only [hk, List.mem_singleton] at hn
          exact Or.inl ⟨hn.symm, by simp [ownNames, hk, NodeKind.isFunction, hname]⟩
      | classExpr =>
          have hname := hown (by rw [hk]; decide)
          simp only [hk, List.mem_singleton] at hn
          exact Or.inl ⟨hn.symm, by simp [ownNames, hk, NodeKind.isFunction, hname]⟩
      | classDecl =>
          have hname := hown (by rw [hk]; decide)
          simp only [hk, Option.mem_toList] at hn
          exact Or.inr (Or.inr (Or.inl ⟨hn, by simpa [ownLets, hk] using hname⟩))
      | importDefaultSpecifier | importSpecifier | importNamespaceSpecifier =>
          simp only [hk, List.mem_singleton] at hn
          exact Or.inr (Or.inr (Or.inr (Or.inr ⟨hn.symm, by simpa [ownImports, hk] using himport⟩)))
      | _ => simp [hk, NodeKind.isNamed] at hnamed

theorem Declares.kind (hs : d.Declares s) : s.node.kind = .name := by
  cases hs with
  | owns _ hs => exact hs.2
  | takes hs | initializes hs =>
      obtain ⟨p, -, -, t, -, hs⟩ := hs
      exact hs.kind
  | handles _ hs =>
      obtain ⟨t, -, hs⟩ := hs
      exact hs.kind

theorem Handles.reaches (hs : d.Handles s) : d.Reaches s := by
  obtain ⟨t, ht, hs⟩ := hs
  exact Reaches.trans (.child .refl ht) hs.reaches

theorem Declares.reaches (hs : d.Declares s) : d.Reaches s := by
  cases hs with
  | owns _ hs => exact .child .refl hs.1
  | takes hs | initializes hs =>
      obtain ⟨p, hp, -, hs⟩ := hs
      exact Reaches.trans (.child .refl hp) hs.reaches
  | handles _ hs => exact hs.reaches

/-- A declared name has a scope to belong to. -/
theorem Declares.demanded_ne_nil (hs : d.Declares s) (h : d.Laid)
    (htop : d.node.kind ≠ .program → ∃ r ∈ d.above, r.kind = .program) :
    demanded root s.above ≠ [] := by
  have hfind {isScope : NodeKind → Bool} (hscope : isScope .program = true)
      (hne : d.node.kind ≠ .program) : (d.above.find? fun n => isScope n.kind).toList ≠ [] := by
    obtain ⟨r, hr, hk⟩ := htop hne
    have hsome : (d.above.find? fun n => isScope n.kind).isSome = true :=
      List.find?_isSome.mpr ⟨r, hr, by rw [hk]; exact hscope⟩
    obtain ⟨m, hm⟩ := Option.isSome_iff_exists.mp hsome
    simp [hm]
  cases hs with
  | takes hs => simp [hs.demanded_eq]
  | initializes hs =>
      have hne : d.node.kind ≠ .program := by simp [h.kind_of_initializes hs]
      rw [hs.demanded_eq, variableScope]
      cases d.node.variableKind with
      | varKind => exact hfind rfl hne
      | letKind | constKind => exact hfind rfl hne
  | handles hk hs =>
      have hblock : ∃ b ∈ d.node.children, b.kind = .blockStmt := by
        obtain ⟨b, hb, hc | ⟨t, hc, -⟩⟩ := h.1.catchClause hk
        · exact ⟨b, by simp [hc], hb⟩
        · exact ⟨b, by simp [hc], hb⟩
      have hbody : d.node.body?.isSome = true := by
        obtain ⟨b, hb, hbk⟩ := hblock
        exact List.find?_isSome.mpr ⟨b, hb, by simpa using hbk⟩
      obtain ⟨m, hm⟩ := Option.isSome_iff_exists.mp hbody
      simp [hs.demanded_eq, demanded, hk, hm]
  | owns hnamed hs =>
      rw [hs.demanded_eq, demanded]
      cases hk : d.node.kind with
      | classDecl => exact hfind rfl (by simp [hk])
      | functionDecl | functionExpr | classExpr | importDefaultSpecifier | importSpecifier
      | importNamespaceSpecifier => simp
      | _ => simp [hk, NodeKind.isNamed] at hnamed

end Site

/-! ## each name is declared -/

/-- Names, and what patterns are made of. -/
def Family.binding : List Family := [.name, .pattern, .withDefault, .rest, .field]

/-- Names and patterns stand in patterns, or where something is declared. -/
theorem Node.Laid.kind_of_binding {n c : Node} (h : n.Laid) (hc : c ∈ n.children)
    (hf : c.kind.family ∈ Family.binding) :
    n.kind.isPattern = true ∨ n.kind = .paramList ∨ n.kind = .varDeclarator ∨
      n.kind = .catchClause ∨ n.kind.isNamed = true ∧ c.kind = .name := by
  have htable (k : NodeKind) : ∀ f ∈ k.inside, f ∈ Family.binding → k.isPattern = true ∨
      k = .paramList ∨ k = .varDeclarator ∨ k = .catchClause ∨ k.isNamed = true ∧ f = .name := by
    cases k <;> decide
  simpa only [NodeKind.family_eq_name_iff] using htable n.kind _ (h.family_mem hc) hf

namespace Site

variable {root c d s : Site}

theorem Laid.reaches (h : root.Laid) (hs : root.Reaches s) : s.Laid := by
  induction hs with
  | refl => exact h
  | child _ hc ih => exact ih.child hc

/-- Outwards from a name or pattern there is what declares it. -/
theorem Reaches.exists_declares (h : root.Laid) (hroot : root.node.kind = .program)
    (hc : root.Reaches c) (hf : c.node.kind.family ∈ Family.binding) (hs : c.Gives s) :
    ∃ d, root.Reaches d ∧ d.Declares s := by
  -- a node that is neither a name nor a pattern is not the root, so there is one around it
  have houter {p : Site} (hp : root.Reaches p) (hk : p.node.kind ≠ .program) :
      ∃ d, root.Reaches d ∧ p ∈ d.children := by
    cases hp with
    | refl => exact absurd hroot hk
    | child hd hp => exact ⟨_, hd, hp⟩
  induction hc with
  | refl => simp [hroot, NodeKind.family, NodeKind.isExpression, Family.binding] at hf
  | @child p c hp hc ih =>
      obtain ⟨m, hm, rfl⟩ := List.mem_map.mp hc
      rcases (h.reaches hp).1.kind_of_binding hm hf with hk | hk | hk | hk | ⟨hk, hname⟩
      · refine ih ?_ (.part hk hc hs)
        revert hk
        cases p.node.kind <;> decide
      · obtain ⟨d, hd, hpd⟩ := houter hp (by simp [hk])
        exact ⟨d, hd, .takes ⟨p, hpd, hk, _, hc, hs⟩⟩
      · obtain ⟨d, hd, hpd⟩ := houter hp (by simp [hk])
        exact ⟨d, hd, .initializes ⟨p, hpd, hk, _, hc, hs⟩⟩
      · exact ⟨p, hp, .handles hk ⟨_, hc, hs⟩⟩
      · cases hs with
        | name _ => exact ⟨p, hp, .owns hk ⟨hc, hname⟩⟩
        | part hpattern _ _ =>
            rw [show (⟨m, _⟩ : Site).node.kind = .name from hname] at hpattern
            cases hpattern

end Site

/-! ## scopes -/

namespace Scopes

variable {root : Site} {n : Node} {name : Text}

theorem mem_names_iff : name ∈ (build root).names n ↔
    ∃ d ∈ root.descendants, (n, name) ∈ ofSite root.node d := by
  simp only [names, build, Sort.mem_sort, List.mem_eraseDups, List.mem_map, List.mem_filter,
    List.mem_flatMap, decide_eq_true_eq]
  constructor
  · rintro ⟨⟨_, _⟩, ⟨⟨d, hd, hmem⟩, rfl⟩, rfl⟩
    exact ⟨d, hd, hmem⟩
  · rintro ⟨d, hd, hmem⟩
    exact ⟨(n, name), ⟨⟨d, hd, hmem⟩, rfl⟩, rfl⟩

theorem exists_of_mem_holders (h : n ∈ (build root).holders) :
    ∃ name, ∃ d ∈ root.descendants, (n, name) ∈ ofSite root.node d := by
  simp only [holders, build, List.mem_eraseDups, List.mem_map, List.mem_flatMap] at h
  obtain ⟨⟨_, name⟩, ⟨d, hd, hmem⟩, rfl⟩ := h
  exact ⟨name, d, hd, hmem⟩

/-- Names are held by functions, blocks, class expressions and the root. -/
theorem kind_of_mem_ofSite {r : Node} {d : Site} (hr : r.kind = .program)
    (h : (n, name) ∈ ofSite r d) :
    n.kind.isFunctionScope = true ∨ n.kind = .blockStmt ∨ n.kind = .classExpr := by
  have hfound {isScope : NodeKind → Bool} (hscope : enclosing? d isScope = some n) :
      isScope n.kind = true := (enclosing?_eq_some_iff.mp hscope).1
  rcases mem_ofSite_iff.mp h with ⟨rfl, hnames⟩ | ⟨hscope, -⟩ | ⟨hscope, -⟩ | hhandled | ⟨rfl, -⟩
  · unfold ownNames at hnames
    split at hnames
    · next hk =>
        left
        revert hk
        cases d.node.kind <;> decide
    · split at hnames
      · next hk => exact Or.inr (Or.inr hk)
      · cases hnames
  · exact Or.inl (hfound hscope)
  · rcases (Bool.or_eq_true ..).mp (hfound hscope) with hblock | hfunction
    · exact Or.inr (Or.inl (of_decide_eq_true hblock))
    · exact Or.inl hfunction
  · unfold handledNames at hhandled
    split at hhandled
    · next hbody =>
        have hblock := List.find?_some hbody.2
        exact Or.inr (Or.inl (by simpa using hblock))
    · cases hhandled
  · exact Or.inl (by rw [hr]; rfl)

end Scopes

/-- In a text without problems no declared name is lost and none is made up: each name node
asks for a scope, the scopes that it asks for hold its word, and what a scope holds comes
from such a name.  All scopes that hold names are function scopes, blocks or class
expressions. -/
theorem names_demanded (source : SourceType) (text : Text)
    (h : (parse source text).problems = []) :
    (∀ s ∈ (parse source text).root.descendants, s.node.kind = .name →
      demanded (parse source text).root.node s.above ≠ [] ∧
        ∀ n ∈ demanded (parse source text).root.node s.above,
          s.node.word ∈ (Scopes.build (parse source text).root).names n) ∧
    (∀ n, ∀ name ∈ (Scopes.build (parse source text).root).names n,
      ∃ s ∈ (parse source text).root.descendants, s.node.kind = .name ∧ s.node.word = name ∧
        n ∈ demanded (parse source text).root.node s.above) ∧
    ∀ n ∈ (Scopes.build (parse source text).root).holders,
      n.kind.isFunctionScope = true ∨ n.kind = .blockStmt ∨ n.kind = .classExpr := by
  have hlaid : (parse source text).root.Laid := by
    cases laid_root h with
    | node here all => exact ⟨here, all⟩
  refine ⟨fun s hs hk => ?_, fun n name hname => ?_, fun n hn => ?_⟩
  · obtain ⟨d, hd, hdeclares⟩ := (Site.mem_descendants_iff.mp hs).exists_declares hlaid rfl
      (by rw [hk]; decide) (.name hk)
    refine ⟨hdeclares.demanded_ne_nil (hlaid.reaches hd) fun hne => ?_, fun n hn => ?_⟩
    · obtain ⟨inner, habove⟩ := hd.above_append fun heq => hne (heq ▸ rfl)
      exact ⟨(parse source text).root.node, by simp [habove], rfl⟩
    · exact Scopes.mem_names_iff.mpr
        ⟨d, Site.mem_descendants_iff.mpr hd, hdeclares.mem_ofSite (hlaid.reaches hd) hn⟩
  · obtain ⟨d, hd, hmem⟩ := Scopes.mem_names_iff.mp hname
    have hreach := Site.mem_descendants_iff.mp hd
    obtain ⟨s, hdeclares, hword, hn⟩ := (hlaid.reaches hreach).exists_declares hmem
    exact ⟨s, Site.mem_descendants_iff.mpr (hreach.trans hdeclares.reaches), hdeclares.kind, hword,
      hn⟩
  · obtain ⟨name, d, -, hmem⟩ := Scopes.exists_of_mem_holders hn
    exact Scopes.kind_of_mem_ofSite rfl hmem

theorem names_demanded_pattern_handler :
    ∃ p, p = parse .script
        "function f(\x7bc: d = 1\x7d) \x7btry \x7b\x7d catch (e) \x7blet g\x7d\x7d".toList ∧
      p.problems = [] ∧
      (∃ s ∈ p.root.descendants, s.node.kind = .name ∧ s.node.word = "d".toList ∧
        ∀ n ∈ demanded p.root.node s.above, s.node.word ∈ (Scopes.build p.root).names n) ∧
      ∃ s ∈ p.root.descendants, s.node.kind = .name ∧ s.node.word = "e".toList ∧
        (demanded p.root.node s.above).map Node.span = [⟨41, 48⟩] ∧
        ∀ n ∈ demanded p.root.node s.above, s.node.word ∈ (Scopes.build p.root).names n := by
  obtain ⟨text, htext⟩ : ∃ text, text =
    "function f(\x7bc: d = 1\x7d) \x7btry \x7b\x7d catch (e) \x7blet g\x7d\x7d".toList := ⟨_, rfl⟩
  have hrun : (parse .script text).problems = [] ∧
      (∃ s ∈ (parse .script text).root.descendants,
        s.node.kind = .name ∧ s.node.word = "d".toList) ∧
      ∃ s ∈ (parse .script text).root.descendants,
        s.node.kind = .name ∧ s.node.word = "e".toList ∧
          (demanded (parse .script text).root.node s.above).map Node.span = [⟨41, 48⟩] := by
    rw [htext]; decide +kernel
  obtain ⟨h, ⟨s, hs, hk, hword⟩, t, ht, htk, htword, hspan⟩ := hrun
  obtain ⟨hnames, -⟩ := names_demanded .script text h
  exact ⟨_, htext ▸ rfl, h, ⟨s, hs, hk, hword, (hnames s hs hk).2⟩, t, ht, htk, htword, hspan,
    (hnames t ht htk).2⟩

end FreeNames
