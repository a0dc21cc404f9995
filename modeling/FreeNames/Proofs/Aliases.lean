import FreeNames.Proofs.FreeOccurrences

/-!
# FreeNames.Proofs.Aliases

Parameters that stand for globals.  The analysis drops the accesses that are shadowed: it looks
outwards from the object up to the called function for a node that gives the name another meaning.
Here the object is resolved for its own sake, to the innermost node around it that binds its name
(`binder?`), and has to be resolved to the function.

* `any_takeWhile_eq_false_iff` — not to be shadowed below the function is to be bound by it;
* `named_throughCall` — what one call contributes to a group;
* `Group.aliases` — the same for all calls of a tree, argument by argument.

Main statement: `aliased_eq_aliases`.
-/

namespace FreeNames

/-! ## what binds a name -/

/-- The innermost of the nodes around a place that binds a name.  The root binds imported names
too, and some functions bind `arguments`. -/
def binder? (root : Node) (name : Text) : List Node → Option Node
  | [] => none
  | n :: outer =>
    if name ∈ binds outer.head? n ∨ (root = n ∧ name ∈ (Meanings.imported root).names) ∨
        (name = "arguments".toList ∧ n.kind.bindsArguments = true) then some n
    else binder? root name outer

/-- The function expression that a call calls on the spot, in parentheses or not. -/
def Site.calledFunction? (call : Site) : Option Site :=
  if call.node.kind = .callExpr then
    call.subject?.filter fun f => f.node.kind = .functionExpr
  else none

/-- The name of the parameter at a position, if it is a plain name. -/
def Node.parameterAt? (f : Node) (i : Nat) : Option Text :=
  ((f.parameterList?.bind fun list => list.children[i]?).filter fun p => p.kind = .name).map
    Node.word

/-- The nodes of the body of a function. -/
def Site.bodySites (f : Site) : List Site :=
  match f.node.body? with
  | some body => (Site.mk body (f.node :: f.above)).descendants
  | none => []

/-- The property that a member access names, if its object is a name that a function binds. -/
def boundAccess? (root f : Node) (name : Text) (member : Site) : Option Access :=
  match member.subject?, member.node.property? with
  | some object, some property =>
    if member.node.kind = .memberExpr ∧ object.node.kind = .nameRef ∧ object.node.word = name ∧
        binder? root name object.above = some f then some ⟨property.word, property⟩
    else none
  | _, _ => none

/-- The properties accessed on a parameter of a function, if an argument is one of some
references. -/
def Site.aliasesOf (root : Node) (references : List Reference) (f argument : Site)
    (name : Text) : List Access :=
  if argument ∈ references.map Reference.site then
    f.bodySites.filterMap (boundAccess? root f.node name)
  else []

/-- The properties accessed on the parameters that stand for some references in a call. -/
def Site.aliases (root : Node) (references : List Reference) (call : Site) : List Access :=
  match call.calledFunction? with
  | none => []
  | some f =>
    (List.range call.arguments.length).flatMap fun i =>
      match call.arguments[i]?, f.node.parameterAt? i with
      | some argument, some name => f.aliasesOf root references argument name
      | _, _ => []

/-- The properties accessed on the parameters that stand for a global in the calls of a tree. -/
def Group.aliases (root : Site) (g : Group) : List Access :=
  root.descendants.flatMap (Site.aliases root.node g.references)

/-! ## lists -/

/-- Nothing before an element has a property which the element has if the element is the first
to have it. -/
theorem any_takeWhile_eq_false_iff {α : Type} [DecidableEq α] {p : α → Bool} {a : α}
    {as : List α} (ha : a ∈ as) (hp : p a = true) :
    (as.takeWhile fun b => b ≠ a).any p = false ↔ as.find? p = some a := by
  induction as with
  | nil => cases ha
  | cons b as ih =>
      by_cases hb : b = a
      · simp [hb, hp]
      · have hmem : a ∈ as := (List.mem_cons.mp ha).resolve_left (Ne.symm hb)
        by_cases hpb : p b = true
        · simp [hb, hpb]
        · simpa [hb, hpb] using ih hmem

/-- Pairs of elements at the same position, position by position. -/
theorem flatMap_zip_eq_range {α β γ : Type} (f : α → β → List γ) (as : List α) (bs : List β) :
    (as.zip bs).flatMap (fun p => f p.1 p.2) =
      (List.range as.length).flatMap fun i =>
        match as[i]?, bs[i]? with
        | some a, some b => f a b
        | _, _ => [] := by
  induction as generalizing bs with
  | nil => rfl
  | cons a as ih =>
      rw [List.length_cons, List.range_succ_eq_map, List.flatMap_cons, List.flatMap_map]
      cases bs with
      | nil => simp
      | cons b bs => simpa using ih bs

/-! ## references of a parsed text -/

section

variable {source : SourceType} {text : Text} {s : Site} {g : Group} {name : Text}

/-- A node of one token is directly inside one site only. -/
theorem Site.Reaches.eq_of_node_eq {s' : Site} (hs : (parse source text).root.Reaches s)
    (hs' : (parse source text).root.Reaches s') (hk : s.node.kind.isUnit = true)
    (h : s.node = s'.node) : s = s' := by
  obtain ⟨t, hparts, -⟩ := hs.within.exists_token hk
  have hholds : s.node.Holds s.node.start t := ⟨[], [], hparts, by simp [Tree.sizeAll]⟩
  have hholds' : s'.node.Holds s.node.start t := by rw [← h]; exact hholds
  exact hs.eq_of_holds hs' hholds hholds'

theorem isUnit_of_refers (h : s.Refers) : s.node.kind.isUnit = true := by
  rcases h with h | h <;> rw [h] <;> rfl

/-- The search for what binds a name finds what gives it a meaning. -/
theorem binder?_eq_find? (hs : (parse source text).root.Reaches s)
    (hk : s.node.kind = .nameRef) :
    binder? (parse source text).root.node name s.above =
      s.above.find? (Globals.gives (Scopes.build (parse source text).root) name) := by
  obtain ⟨t, hparts, -⟩ := hs.within.exists_token (by rw [hk]; rfl)
  have hholds : s.node.Holds s.node.start t := ⟨[], [], hparts, by simp [Tree.sizeAll]⟩
  have hne : ∀ t ∈ Tree.tokensAll (parse source text).root.node.parts, t.text ≠ [] := by
    rw [tokensAll_root]
    exact fun t ht => text_ne_nil_of_mem_tokenize ht
  -- what is left of the nodes around the name, with those already passed in front
  suffices h : ∀ inner outer, s.above = inner ++ outer →
      binder? (parse source text).root.node name outer =
        outer.find? (Globals.gives (Scopes.build (parse source text).root) name) from
    h [] s.above rfl
  intro inner outer habove
  induction outer generalizing inner with
  | nil => rfl
  | cons n outer ih =>
      have hrest := ih (inner ++ [n]) (by simpa using habove)
      have hdeclares : (Scopes.build (parse source text).root).declares n name = true ↔ _ :=
        declares_iff_mem_binds rfl hne hs hholds habove
      have hgives : Globals.gives (Scopes.build (parse source text).root) name n = true ↔
          name ∈ binds outer.head? n ∨
            ((parse source text).root.node = n ∧
              name ∈ (Meanings.imported (parse source text).root.node).names) ∨
            (name = "arguments".toList ∧ n.kind.bindsArguments = true) := by
        rw [Globals.gives, Bool.or_eq_true, hdeclares, Bool.and_eq_true, decide_eq_true_eq, or_comm,
          or_assoc]
      rw [binder?, List.find?_cons, hrest]
      by_cases h : Globals.gives (Scopes.build (parse source text).root) name n = true
      · rw [if_pos (hgives.mp h), h]
      · rw [if_neg (mt hgives.mpr h), Bool.eq_false_of_not_eq_true h]

/-- The name that an argument is found under is that of a group if it is one of its references. -/
theorem nameOf?_eq_some_iff
    (hg : g ∈ Globals.collect (Scopes.build (parse source text).root) (parse source text).root)
    (hs : (parse source text).root.Reaches s) :
    Globals.nameOf? (Globals.references (parse source text).root) s.node = some g.name ↔
      s ∈ g.references.map Reference.site := by
  have hunique {r : Reference} (hr : r ∈ Globals.references (parse source text).root)
      (hnode : r.site.node = s.node) : r.site = s := by
    obtain ⟨hreaches, hrefers⟩ := CarriesGlobals.of_mem_references hr
    exact hreaches.eq_of_node_eq hs (isUnit_of_refers hrefers) hnode
  constructor
  · intro h
    obtain ⟨r, hfind, hname⟩ := Option.map_eq_some_iff.mp h
    have hr := List.mem_of_find?_eq_some hfind
    have hsite := hunique hr (by simpa using List.find?_some hfind)
    obtain ⟨s', hs', hresolve⟩ := List.mem_filterMap.mp hr
    obtain rfl := (Globals.resolve?_eq_some hresolve).1
    exact List.mem_map.mpr ⟨r, Globals.mem_references hg hs' hresolve hname, hsite⟩
  · intro h
    obtain ⟨r, hr, rfl⟩ := List.mem_map.mp h
    obtain ⟨hsite, hresolve, hname⟩ := Globals.of_mem_references hg hr
    have hmem : r ∈ Globals.references (parse source text).root :=
      List.mem_filterMap.mpr ⟨r.site, hsite, hresolve⟩
    cases hfind : (Globals.references (parse source text).root).find? fun r' =>
        r'.site.node = r.site.node with
    | none => simpa using List.find?_eq_none.mp hfind r hmem
    | some r' =>
        have hr' := List.mem_of_find?_eq_some hfind
        have hsite' := hunique hr' (by simpa using List.find?_some hfind)
        obtain ⟨s', -, hresolve'⟩ := List.mem_filterMap.mp hr'
        obtain rfl := (Globals.resolve?_eq_some hresolve').1
        rw [hsite', hresolve] at hresolve'
        obtain rfl : r = r' := Option.some.inj hresolve'
        rw [Globals.nameOf?, hfind, Option.map_some, hname]

/-! ## what a call contributes -/

/-- An access on a parameter is one whose object the function binds. -/
theorem onParameter?_eq_boundAccess? {f : Node} (hs : (parse source text).root.Reaches s)
    (hf : f ∈ s.above)
    (hdeclares : (Scopes.build (parse source text).root).declares f name = true) :
    Globals.onParameter? (Scopes.build (parse source text).root) f name s =
      boundAccess? (parse source text).root.node f name s := by
  rw [Globals.onParameter?, boundAccess?, Globals.access?]
  by_cases hmember : s.node.kind = .memberExpr
  · cases hsubject : s.subject? with
    | none => simp [hmember]
    | some object =>
        by_cases hobject : object.node.kind = .nameRef ∧ object.node.word = name
        · have hreaches : s.Reaches object := Site.Reaches.refl.subject? hsubject
          have hgives : Globals.gives (Scopes.build (parse source text).root) name f = true := by
            simp [Globals.gives, hdeclares]
          have hshadowed :
              Globals.isShadowed (Scopes.build (parse source text).root) f name object = false ↔
                binder? (parse source text).root.node name object.above = some f := by
            rw [binder?_eq_find? (hs.trans hreaches) hobject.1]
            exact any_takeWhile_eq_false_iff (hreaches.mem_above hf) hgives
          by_cases hbinder : binder? (parse source text).root.node name object.above = some f
          · cases s.node.property? <;> simp [hmember, hobject, hbinder, hshadowed.mpr hbinder]
          · have hhidden := Bool.eq_true_of_not_eq_false (mt hshadowed.mp hbinder)
            cases s.node.property? <;> simp [hmember, hobject, hbinder, hhidden, guard]
        · have hother : ¬(object.node.kind = .nameRef ∧ object.node.word = name ∧
              binder? (parse source text).root.node name object.above = some f) :=
            fun h => hobject ⟨h.1, h.2.1⟩
          cases s.node.property? <;> simp [hmember, guard, if_neg hobject, if_neg hother]
  · cases s.subject? <;> cases s.node.property? <;> simp [hmember, guard]

theorem Globals.named_flatMap {α β : Type} (name : Text) (f : α → List (Text × β)) (as : List α) :
    named name (as.flatMap f) = as.flatMap fun a => named name (f a) :=
  List.filterMap_flatMap ..

theorem Globals.named_map_mk {β : Type} (name other : Text) (bs : List β) :
    named name (bs.map (other, ·)) = if other = name then bs else [] := by
  by_cases h : other = name <;> simp [named, List.filterMap_map, h]

theorem Site.Reaches.of_mem_bodySites {root f : Site} (hf : root.Reaches f)
    (hs : s ∈ f.bodySites) : root.Reaches s ∧ f.node ∈ s.above := by
  unfold Site.bodySites at hs
  split at hs
  · next body hbody =>
      have hreaches := Site.mem_descendants_iff.mp hs
      have hchild : Site.mk body (f.node :: f.above) ∈ f.children :=
        List.mem_map_of_mem (List.mem_of_find?_eq_some hbody)
      exact ⟨(hf.child hchild).trans hreaches, hreaches.mem_above List.mem_cons_self⟩
  · simp at hs

/-- One argument of a call contributes to the group that it is a reference of. -/
theorem named_throughArgument {f argument : Site} {list body parameter : Node}
    (hg : g ∈ Globals.collect (Scopes.build (parse source text).root) (parse source text).root)
    (hf : (parse source text).root.Reaches f) (hk : f.node.kind = .functionExpr)
    (hlist : f.node.parameterList? = some list) (hbody : f.node.body? = some body)
    (hargument : (parse source text).root.Reaches argument)
    (hparameter : parameter ∈ list.children) :
    Globals.named g.name
        (match Globals.passed? (Globals.references (parse source text).root) argument.node
          parameter with
        | none => []
        | some (name, parameter) =>
          ((Site.mk body (f.node :: f.above)).descendants.filterMap
            (Globals.onParameter? (Scopes.build (parse source text).root) f.node parameter)).map
              (name, ·)) =
      if parameter.kind = .name then
        f.aliasesOf (parse source text).root.node g.references argument parameter.word
      else [] := by
  by_cases hname : parameter.kind = .name
  · simp only [Site.aliasesOf, ← nameOf?_eq_some_iff hg hargument, if_pos hname]
    cases hof : Globals.nameOf? (Globals.references (parse source text).root) argument.node with
    | none => simp [Globals.passed?, hof, Globals.named]
    | some name =>
        have hpassed : Globals.passed? (Globals.references (parse source text).root) argument.node
            parameter = some (name, parameter.word) := by simp [Globals.passed?, hof, hname]
        have hdeclares := CarriesGlobals.declares_parameter hf hk hlist hparameter hname
        have hinside : (Site.mk body (f.node :: f.above)).descendants.filterMap
              (Globals.onParameter? (Scopes.build (parse source text).root) f.node parameter.word) =
            f.bodySites.filterMap
              (boundAccess? (parse source text).root.node f.node parameter.word) := by
          have hsites : f.bodySites = (Site.mk body (f.node :: f.above)).descendants := by
            rw [Site.bodySites, hbody]
          rw [← hsites]
          refine List.filterMap_congr fun s hs => ?_
          obtain ⟨hreaches, habove⟩ := hf.of_mem_bodySites hs
          exact onParameter?_eq_boundAccess? hreaches habove hdeclares
        simp only [hpassed, hinside, Globals.named_map_mk, Option.some.injEq]
  · have hpassed : Globals.passed? (Globals.references (parse source text).root) argument.node
        parameter = none := by
      cases hof : Globals.nameOf? (Globals.references (parse source text).root) argument.node <;>
        simp [Globals.passed?, hof, hname, guard]
    simp [hpassed, hname, Globals.named]

/-- What a call contributes to a group. -/
theorem named_throughCall
    (hg : g ∈ Globals.collect (Scopes.build (parse source text).root) (parse source text).root)
    (hs : (parse source text).root.Reaches s) :
    Globals.named g.name (Globals.throughCall (Scopes.build (parse source text).root)
        (Globals.references (parse source text).root) s) =
      s.aliases (parse source text).root.node g.references := by
  cases hsubject : s.subject? with
  | none => simp [Globals.throughCall, Site.aliases, Site.calledFunction?, hsubject, Globals.named]
  | some f =>
      by_cases hcall : s.node.kind = .callExpr ∧ f.node.kind = .functionExpr
      · obtain ⟨hcall, hk⟩ := hcall
        have hf := hs.subject? hsubject
        have hcalled : s.calledFunction? = some f := by
          simp [Site.calledFunction?, hsubject, hcall, hk]
        cases hlist : f.node.parameterList? with
        | none =>
            simp [Globals.throughCall, Site.aliases, hsubject, hcalled, hlist, Node.parameterAt?,
              Globals.named]
        | some list =>
            cases hbody : f.node.body? with
            | none =>
                rw [Globals.throughCall, hsubject, Site.aliases, hcalled]
                simp only [hlist, hbody, ite_self]
                refine (List.flatMap_eq_nil_iff.mpr fun i _ => ?_).symm
                split <;> simp [Site.aliasesOf, Site.bodySites, hbody]
            | some body =>
                rw [Globals.throughCall, hsubject, Site.aliases, hcalled]
                simp only [hcall, hk, hlist, hbody, ne_eq, not_true_eq_false, decide_false,
                  Bool.or_false, Bool.false_eq_true, if_false]
                rw [Globals.named_flatMap, List.zip_map_left, List.flatMap_map]
                have hpair : ∀ p ∈ s.arguments.zip list.children, _ = _ := fun p hp =>
                  named_throughArgument hg hf hk hlist hbody
                    (hs.arguments (List.of_mem_zip hp).1) (List.of_mem_zip hp).2
                refine (List.flatMap_congr hpair).trans ?_
                rw [flatMap_zip_eq_range fun (argument : Site) (parameter : Node) =>
                  if parameter.kind = .name then
                    f.aliasesOf (parse source text).root.node g.references argument parameter.word
                  else []]
                refine List.flatMap_congr fun i _ => ?_
                cases s.arguments[i]? with
                | none => rfl
                | some argument =>
                    simp only [Node.parameterAt?, hlist, Option.bind_some]
                    cases list.children[i]? with
                    | none => rfl
                    | some parameter =>
                        by_cases hname : parameter.kind = .name <;> simp [hname, Option.filter]
      · have hcalled : s.calledFunction? = none := by
          simpa [Site.calledFunction?, hsubject] using hcall
        have hother : (decide (s.node.kind ≠ .callExpr) || decide (f.node.kind ≠ .functionExpr)) =
            true := by simpa [← not_and_or] using hcall
        rw [Globals.throughCall, hsubject, Site.aliases, hcalled]
        simp only [hother, if_true]
        rfl

/-! ## groups -/

/-- The aliased accesses of a group are those that its references lead to. -/
theorem aliased_eq (hg : g ∈ Globals.collect (Scopes.build (parse source text).root)
      (parse source text).root) : g.aliased = g.aliases (parse source text).root := by
  have haliased : g.aliased = Globals.named g.name ((parse source text).root.descendants.flatMap
      (Globals.throughCall (Scopes.build (parse source text).root)
        (Globals.references (parse source text).root))) := by
    obtain ⟨name, -, rfl⟩ := List.mem_map.mp hg
    rfl
  rw [haliased, Globals.named_flatMap, Group.aliases]
  exact List.flatMap_congr fun s hs => named_throughCall hg (Site.mem_descendants_iff.mp hs)

/-- A name that is bound is no reference. -/
theorem not_mem_references_of_binder? {n : Node}
    (hg : g ∈ Globals.collect (Scopes.build (parse source text).root) (parse source text).root)
    (hs : (parse source text).root.Reaches s) (hk : s.node.kind = .nameRef)
    (hbinder : binder? (parse source text).root.node s.node.word s.above = some n) :
    s ∉ g.references.map Reference.site := by
  intro hmem
  obtain ⟨r, hr, rfl⟩ := List.mem_map.mp hmem
  obtain ⟨-, hresolve, -⟩ := Globals.of_mem_references hg hr
  rw [binder?_eq_find? hs hk] at hbinder
  have hany : r.site.above.any (Globals.gives (Scopes.build (parse source text).root)
      r.site.node.word) = true :=
    List.any_eq_true.mpr ⟨n, List.mem_of_find?_eq_some hbinder, List.find?_some hbinder⟩
  simp [Globals.resolve?_of_nameRef hk, hany] at hresolve

theorem boundAccess?_eq_some {root f : Node} {a : Access}
    (h : boundAccess? root f name s = some a) :
    s.node.property? = some a.node ∧ ∃ object, s.subject? = some object ∧
      object.node.kind = .nameRef ∧ binder? root object.node.word object.above = some f := by
  unfold boundAccess? at h
  split at h
  · next object property hobject hproperty =>
      simp only [Option.ite_none_right_eq_some, Option.some.injEq] at h
      obtain ⟨⟨-, hk, rfl, hbinder⟩, rfl⟩ := h
      exact ⟨hproperty, object, hobject, hk, hbinder⟩
  · cases h

/-- An aliased access is made somewhere in the tree on a name that is bound. -/
theorem exists_member_of_mem_aliases {a : Access} (ha : a ∈ g.aliases (parse source text).root) :
    ∃ member object f, (parse source text).root.Reaches member ∧
      member.node.property? = some a.node ∧ member.subject? = some object ∧
      object.node.kind = .nameRef ∧
      binder? (parse source text).root.node object.node.word object.above = some f := by
  obtain ⟨call, hcall, ha⟩ := List.mem_flatMap.mp ha
  unfold Site.aliases at ha
  split at ha
  · simp at ha
  · next f hf =>
      have hsubject : call.subject? = some f := by
        simp only [Site.calledFunction?, Option.ite_none_right_eq_some,
          Option.filter_eq_some_iff] at hf
        exact hf.2.1
      obtain ⟨i, -, ha⟩ := List.mem_flatMap.mp ha
      split at ha
      · rw [Site.aliasesOf] at ha
        split at ha
        · obtain ⟨member, hmember, haccess⟩ := List.mem_filterMap.mp ha
          obtain ⟨hproperty, object, hobject, hk, hbinder⟩ := boundAccess?_eq_some haccess
          have hreaches := ((Site.mem_descendants_iff.mp hcall).subject? hsubject).of_mem_bodySites
            hmember
          exact ⟨member, object, f.node, hreaches.1, hproperty, hobject, hk, hbinder⟩
        · simp at ha
      · simp at ha

/-- A direct access is made somewhere in the tree on a reference of the group. -/
theorem exists_member_of_mem_direct {a : Access}
    (hg : g ∈ Globals.collect (Scopes.build (parse source text).root) (parse source text).root)
    (ha : a ∈ g.direct) :
    ∃ member object, (parse source text).root.Reaches member ∧
      member.node.property? = some a.node ∧ member.subject? = some object ∧
      object ∈ g.references.map Reference.site := by
  have hdirect : g.direct = Globals.named g.name ((parse source text).root.descendants.filterMap
      (Globals.direct? (Globals.references (parse source text).root))) := by
    obtain ⟨name, -, rfl⟩ := List.mem_map.mp hg
    rfl
  rw [hdirect] at ha
  obtain ⟨member, hmember, haccess⟩ := List.mem_filterMap.mp (Globals.mem_named ha)
  have hreaches := Site.mem_descendants_iff.mp hmember
  simp only [Globals.direct?, Globals.access?, Option.bind_eq_bind, Option.bind_eq_some_iff,
    Option.pure_def, Option.some.injEq, Prod.mk.injEq, Option.map_eq_some_iff] at haccess
  obtain ⟨-, -, object, hobject, name, hname, _, ⟨property, hproperty, rfl⟩, rfl, rfl⟩ := haccess
  exact ⟨member, object, hreaches, hproperty, hobject,
    (nameOf?_eq_some_iff hg (hreaches.subject? hobject)).mp hname⟩

/-- A property is named by one member access only. -/
theorem Site.Reaches.eq_of_property? {s' : Site} {property : Node}
    (hs : (parse source text).root.Reaches s) (hs' : (parse source text).root.Reaches s')
    (h : s.node.property? = some property) (h' : s'.node.property? = some property) : s = s' := by
  have hchild {s : Site} (h : s.node.property? = some property) :
      Site.mk property (s.node :: s.above) ∈ s.children :=
    List.mem_map_of_mem (List.mem_of_find?_eq_some h)
  have hk : property.kind = .propertyName := by simpa using List.find?_some h
  have hsame := (hs.child (hchild h)).eq_of_node_eq (hs'.child (hchild h'))
    (by rw [hk]; rfl) rfl
  obtain ⟨hnode, habove⟩ := List.cons.inj (congrArg Site.above hsame)
  cases s
  cases s'
  simp_all

end

/-- The aliased accesses of a group are exactly those on a parameter that stands for one of its
references and is what the object is resolved to, call by call, argument by argument and in source
order.  What is bound is no reference, so no property is accessed in both ways. -/
theorem aliased_eq_aliases {source : SourceType} {text : Text} {program : Parse}
    (hp : parseProgram source text = .ok program) :
    ∃ groups, globals source text = .ok groups ∧
      (∀ g ∈ groups, g.aliased = g.aliases program.root) ∧
      (∀ s ∈ program.root.descendants, s.node.kind = .nameRef →
        ∀ n, binder? program.root.node s.node.word s.above = some n →
          ∀ g ∈ groups, s ∉ g.references.map Reference.site) ∧
      ∀ g ∈ groups, ∀ h ∈ groups, ∀ a ∈ g.direct, ∀ b ∈ h.aliased, a.node ≠ b.node := by
  obtain ⟨source', rfl⟩ := exists_parse hp
  refine ⟨_, by simp [globals, hp, bind, Except.bind, globalsAt, Parse.root],
    fun g hg => aliased_eq hg, ?_, ?_⟩
  · intro s hs hk n hbinder g hg
    exact not_mem_references_of_binder? hg (Site.mem_descendants_iff.mp hs) hk hbinder
  · intro g hg h hh a ha b hb hsame
    rw [aliased_eq hh] at hb
    obtain ⟨member, object, hmember, hproperty, hobject, hreference⟩ :=
      exists_member_of_mem_direct hg ha
    obtain ⟨member', object', f, hmember', hproperty', hobject', hk, hbinder⟩ :=
      exists_member_of_mem_aliases hb
    obtain rfl := hmember.eq_of_property? hmember' hproperty (hsame ▸ hproperty')
    obtain rfl : object = object' := Option.some.inj (hobject.symm.trans hobject')
    exact not_mem_references_of_binder? hg (hmember.subject? hobject) hk hbinder hreference

/-- Parentheses are looked through, a parameter that is no plain name stands for nothing, and an
inner parameter of the same name hides the outer one. -/
theorem aliased_eq_aliases_hidden :
    ∃ text program groups, text = ("(function (w, [v], u) \x7b w.a; (w).b; v.e; u.d;" ++
        "(function (w) \x7b w.c \x7d)(0) \x7d)((self), self, other)").toList ∧
      parseProgram .script text = .ok program ∧ globals .script text = .ok groups ∧
      groups.map (fun g => (g.name, g.aliased.map Access.name)) =
        [("other".toList, ["d".toList]), ("self".toList, ["a".toList, "b".toList])] ∧
      (∀ g ∈ groups, g.aliased = g.aliases program.root) ∧
      (∀ s ∈ program.root.descendants, s.node.kind = .nameRef →
        ∀ n, binder? program.root.node s.node.word s.above = some n →
          ∀ g ∈ groups, s ∉ g.references.map Reference.site) ∧
      ∀ g ∈ groups, ∀ h ∈ groups, ∀ a ∈ g.direct, ∀ b ∈ h.aliased, a.node ≠ b.node := by
  obtain ⟨text, htext⟩ : ∃ text, text = ("(function (w, [v], u) \x7b w.a; (w).b; v.e; u.d;" ++
    "(function (w) \x7b w.c \x7d)(0) \x7d)((self), self, other)").toList := ⟨_, rfl⟩
  have hrun : (parseEither .script text).problems = [] ∧
      (globals .script text).map (fun groups => groups.map fun g =>
        (g.name, g.aliased.map Access.name)) =
          .ok [("other".toList, ["d".toList]), ("self".toList, ["a".toList, "b".toList])] := by
    rw [htext]; decide +kernel
  obtain ⟨hok, hnames⟩ := hrun
  have hp := parseProgram_eq_ok_iff.mpr ⟨rfl, hok⟩
  obtain ⟨groups, hglobals, hresult⟩ := aliased_eq_aliases hp
  rw [hglobals] at hnames
  exact ⟨text, _, groups, htext, hp, hglobals, Except.ok.inj hnames, hresult⟩

end FreeNames
