import FreeNames.Proofs.Aliases
import FreeNames.Proofs.Preorder

/-!
# FreeNames.Proofs.Grouping

Grouping loses and duplicates nothing.  References and direct accesses are found in
source order, each once: sites are listed in that order (`Site.pairwise_descendants`),
and a member access on a reference has no other inside it, since around its object there
are only parentheses.

Main statement: `groups_partition`.
-/

namespace FreeNames

/-! ## names by their bytes -/

namespace Text

/-- The UTF-8 form of a text. -/
def bytes (t : Text) : List UInt8 := t.flatMap String.utf8EncodeChar

/-- Characters are ordered as their bytes are, whatever comes after them. -/
theorem utf8EncodeChar_lt {a b : Char} (h : a.toNat < b.toNat) (as bs : List UInt8) :
    String.utf8EncodeChar a ++ as < String.utf8EncodeChar b ++ bs := by
  have hb : b.val.toNat < 0x110000 := by
    have hvalid := b.valid
    simp only [UInt32.isValidChar, Nat.isValidChar] at hvalid
    omega
  have hab : a.val.toNat < b.val.toNat := h
  have hdigits (n : Nat) : n / 4096 = n / 64 / 64 ∧ n / 262144 = n / 64 / 64 / 64 := by omega
  -- longer forms start with larger bytes, and forms of one length differ where the points do
  simp only [String.utf8EncodeChar]
  split_ifs
  all_goals
    simp only [List.cons_append, List.nil_append, List.cons_lt_cons_iff, UInt8.lt_iff_toNat_lt,
      ← UInt8.toNat_inj, UInt8.toNat_ofNat', hdigits]
    omega

theorem bytes_lt {as bs : Text} (h : le as bs = true) (hne : as ≠ bs) : as.bytes < bs.bytes := by
  induction as generalizing bs with
  | nil =>
      obtain ⟨b, bs, rfl⟩ := List.exists_cons_of_ne_nil (Ne.symm hne)
      obtain ⟨x, xs, hx⟩ := List.exists_cons_of_ne_nil (String.utf8EncodeChar_ne_nil (c := b))
      simp [bytes, hx]
  | cons a as ih =>
      cases bs with
      | nil => cases h
      | cons b bs =>
          rw [le] at h
          split at h
          · next hab =>
              subst hab
              exact List.append_left_lt (ih h (by simpa using hne))
          · exact utf8EncodeChar_lt (of_decide_eq_true h) _ _

end Text

/-! ## sites of one token -/

section

variable {source : SourceType} {text : Text} {s : Site}

/-- A node of one token covers bytes and has no nodes inside it. -/
theorem Site.Reaches.unit (hs : (parse source text).root.Reaches s)
    (hk : s.node.kind.isUnit = true) :
    s.children = [] ∧ s.node.start < s.node.span.stop := by
  obtain ⟨t, hparts, -, -, hmem⟩ := hs.within.exists_token hk
  have hpos : 0 < t.size :=
    Text.size_pos (text_ne_nil_of_mem_tokenize (Token.mem_of_mem_locate hmem))
  refine ⟨by simp [Site.children, Node.children, hparts, Node.among], ?_⟩
  rw [Node.span_eq hparts]
  exact Nat.lt_add_of_pos_right hpos

theorem Site.eq_of_reaches_of_children {a b : Site} (h : a.Reaches b) (ha : a.children = []) :
    b = a := by
  induction h with
  | refl => rfl
  | child _ hc ih =>
      subst ih
      simp [ha] at hc

/-- What comes after a node of one token starts after it. -/
theorem Site.Precedes.start_lt {b : Site} (h : s.Precedes b)
    (hs : (parse source text).root.Reaches s) (hk : s.node.kind.isUnit = true) :
    s.node.start < b.node.start := by
  obtain ⟨hchildren, hlt⟩ := hs.unit hk
  rcases h with ⟨c, hc, -⟩ | hstop
  · simp [hchildren] at hc
  · omega

/-! ## references in source order -/

theorem pairwise_references (source : SourceType) (text : Text) :
    (Globals.references (parse source text).root).Pairwise fun a b =>
      a.site.node.start < b.site.node.start := by
  rw [Globals.references, List.pairwise_filterMap]
  refine (Site.pairwise_descendants _).imp_of_mem fun {a b} ha _ hab r hr r' hr' => ?_
  have hreaches := Site.mem_descendants_iff.mp ha
  obtain ⟨rfl, hkind⟩ := Globals.resolve?_eq_some hr
  obtain ⟨rfl, -⟩ := Globals.resolve?_eq_some hr'
  refine hab.start_lt hreaches ?_
  rcases hkind with ⟨hk, -⟩ | ⟨hk, -⟩ <;> rw [hk] <;> rfl

/-! ## member accesses on references -/

/-- What is found where a node accesses a property on a reference. -/
theorem Globals.direct?_eq_some_iff {references : List Reference} {name : Text} {a : Access} :
    direct? references s = some (name, a) ↔
      s.node.kind = .memberExpr ∧ ∃ object, s.subject? = some object ∧
        nameOf? references object.node = some name ∧ access? s.node = some a := by
  simp only [direct?, guard, Option.bind_eq_bind, Option.bind_eq_some_iff, Option.pure_def,
    Option.some.injEq, Prod.mk.injEq]
  constructor
  · rintro ⟨_, hguard, object, hobject, _, hname, _, ha, rfl, rfl⟩
    exact ⟨by simpa using hguard, object, hobject, hname, ha⟩
  · rintro ⟨hk, object, hobject, hname, ha⟩
    exact ⟨(), by simp [hk], object, hobject, name, hname, a, ha, rfl, rfl⟩

theorem Globals.kind_of_nameOf? {n : Node} {name : Text}
    (h : nameOf? (references (parse source text).root) n = some name) :
    n.kind.refers = true ∧ n.kind.isUnit = true := by
  obtain ⟨r, hfind, -⟩ := Option.map_eq_some_iff.mp h
  obtain ⟨-, hrefers⟩ := CarriesGlobals.of_mem_references (List.mem_of_find?_eq_some hfind)
  have hnode : r.site.node = n := by simpa using List.find?_some hfind
  rcases hrefers with hk | hk <;> rw [← hnode, hk] <;> exact ⟨rfl, rfl⟩

/-- A member access on a reference has no other member access inside it. -/
theorem Site.Reaches.kind_ne_memberExpr (h : (parse source text).problems = []) {b c object : Site}
    (hs : (parse source text).root.Reaches s) (hk : s.node.kind = .memberExpr)
    (hobject : s.subject? = some object) (hunit : object.node.kind.isUnit = true)
    (hc : c ∈ s.children) (hb : c.Reaches b) : b.node.kind ≠ .memberExpr := by
  cases hs.shaped h with
  | node here _ =>
      obtain ⟨first, second, hchildren, -, hproperty⟩ := Site.children_member here hk
      have hsites : s.children = [⟨first, s.node :: s.above⟩, ⟨second, s.node :: s.above⟩] := by
        simp [Site.children, hchildren]
      rw [hsites] at hc
      rcases List.mem_pair.mp hc with rfl | rfl
      · -- around the object there are only parentheses
        have hfirst := hs.child (hsites ▸ List.mem_cons_self)
        obtain rfl : Site.bare ⟨first, s.node :: s.above⟩ = object := by
          simpa [Site.subject?, hsites] using hobject
        have hbare := (hfirst.trans (Site.reaches_bare _)).unit hunit
        rcases hb.of_bare (hfirst.shaped h) hbare.1 with hparen | rfl
        · simp [hparen]
        · intro heq
          rw [heq] at hunit
          cases hunit
      · have hsecond := hs.child (hsites ▸ List.mem_cons_of_mem _ List.mem_cons_self)
        have hnone := (hsecond.unit (by rw [hproperty]; rfl)).1
        rw [Site.eq_of_reaches_of_children hb hnone, hproperty]
        simp

theorem pairwise_direct (h : (parse source text).problems = []) :
    ((parse source text).root.descendants.filterMap
      (Globals.direct? (Globals.references (parse source text).root))).Pairwise fun a b =>
        a.2.node.start < b.2.node.start := by
  rw [List.pairwise_filterMap]
  refine (Site.pairwise_descendants _).imp_of_mem fun {a b} ha hb hab => ?_
  rintro ⟨name, x⟩ hx ⟨name', x'⟩ hx'
  obtain ⟨hk, object, hobject, hname, hax⟩ := Globals.direct?_eq_some_iff.mp hx
  obtain ⟨hk', -, -, -, hbx⟩ := Globals.direct?_eq_some_iff.mp hx'
  have hreach := Site.mem_descendants_iff.mp ha
  have hreach' := Site.mem_descendants_iff.mp hb
  rcases hab with ⟨c, hc, hinside⟩ | hstop
  · exact absurd hk' (hreach.kind_ne_memberExpr h hk hobject (Globals.kind_of_nameOf? hname).2 hc
      hinside)
  · -- each property is inside its own access
    obtain ⟨p, hp, rfl⟩ := Option.map_eq_some_iff.mp hax
    obtain ⟨p', hp', rfl⟩ := Option.map_eq_some_iff.mp hbx
    have hmem : Site.mk p (a.node :: a.above) ∈ a.children :=
      List.mem_map_of_mem (List.mem_of_find?_eq_some hp)
    have hmem' : Site.mk p' (b.node :: b.above) ∈ b.children :=
      List.mem_map_of_mem (List.mem_of_find?_eq_some hp')
    have hkind : p.kind = .propertyName := by simpa using List.find?_some hp
    have hunit := ((hreach.child hmem).unit (by rw [hkind]; rfl)).2
    have hbound := (Site.Reaches.child .refl hmem).bounds.2
    have hbound' := (Site.Reaches.child .refl hmem').bounds.1
    simp only at hunit hbound hbound' ⊢
    omega

end

/-! ## groups -/

theorem pairwise_names (scopes : Scopes) (root : Site) :
    (Globals.collect scopes root).Pairwise fun g h => g.name.bytes < h.name.bytes := by
  simp only [Globals.collect, List.pairwise_map]
  generalize (root.descendants.filterMap (Globals.resolve? scopes)).map Reference.name = names
  have hsorted := Sort.pairwise_sort Text.le Text.le_total Text.le_trans names.eraseDups
  have hnodup : (Sort.sort Text.le names.eraseDups).Nodup :=
    (Sort.perm_sort _ _).nodup_iff.mpr (Text.nodup_eraseDups names)
  exact (hsorted.and hnodup).imp fun h => Text.bytes_lt h.1 h.2

/-- Every reference has a group of its name. -/
theorem exists_group {scopes : Scopes} {root s : Site} {r : Reference}
    (hs : s ∈ root.descendants) (hr : Globals.resolve? scopes s = some r) :
    ∃ g ∈ Globals.collect scopes root, g.name = r.name := by
  simp only [Globals.collect, List.mem_map, Sort.mem_sort, List.mem_eraseDups]
  exact ⟨_, ⟨r.name, ⟨r, List.mem_filterMap.mpr ⟨s, hs, hr⟩, rfl⟩, rfl⟩, rfl⟩

/-- What is in order occurs once. -/
theorem count_eq_one {α : Type} {f : α → Node} {as : List α} {a : α}
    (h : as.Pairwise fun a b => (f a).start < (f b).start) (ha : a ∈ as) :
    (as.map f).count (f a) = 1 := by
  refine List.count_eq_one_of_mem (List.pairwise_map.mpr (h.imp fun hlt heq => ?_))
    (List.mem_map_of_mem ha)
  rw [heq] at hlt
  exact Nat.lt_irrefl _ hlt

section

variable {source : SourceType} {text : Text} {g h : Group}
  (hg : g ∈ Globals.collect (Scopes.build (parse source text).root) (parse source text).root)

include hg

theorem references_eq :
    g.references = (Globals.references (parse source text).root).filter fun r =>
      r.name = g.name := by
  obtain ⟨name, -, rfl⟩ := List.mem_map.mp hg
  rfl

theorem direct_eq :
    g.direct = Globals.named g.name ((parse source text).root.descendants.filterMap
      (Globals.direct? (Globals.references (parse source text).root))) := by
  obtain ⟨name, -, rfl⟩ := List.mem_map.mp hg
  rfl

theorem pairwise_references_of_mem :
    g.references.Pairwise fun a b => a.site.node.start < b.site.node.start := by
  rw [references_eq hg]
  exact (pairwise_references source text).filter _

theorem pairwise_direct_of_mem (hok : (parse source text).problems = []) :
    g.direct.Pairwise fun a b => a.node.start < b.node.start := by
  rw [direct_eq hg, Globals.named, List.pairwise_filterMap]
  refine (pairwise_direct hok).imp fun {a b} hab x hx y hy => ?_
  simp only [Option.ite_none_right_eq_some, Option.some.injEq] at hx hy
  rwa [← hx.2, ← hy.2]

/-- A reference occurs once in the group of its name, and in no other. -/
theorem count_references {s : Site} {r : Reference} (hs : s ∈ (parse source text).root.descendants)
    (hr : Globals.resolve? (Scopes.build (parse source text).root) s = some r) :
    (g.references.map fun q => q.site.node).count s.node = if g.name = r.name then 1 else 0 := by
  obtain ⟨rfl, hkind⟩ := Globals.resolve?_eq_some hr
  split
  · next hname =>
      exact count_eq_one (f := fun q : Reference => q.site.node) (pairwise_references_of_mem hg)
        (Globals.mem_references hg hs hr hname.symm)
  · next hname =>
      refine List.count_eq_zero.mpr fun hmem => hname ?_
      obtain ⟨q, hq, hnode⟩ := List.mem_map.mp hmem
      obtain ⟨hsite, hres, hqname⟩ := Globals.of_mem_references hg hq
      have hunit : r.site.node.kind.isUnit = true := by
        rcases hkind with ⟨hk, -⟩ | ⟨hk, -⟩ <;> rw [hk] <;> rfl
      have heq := (Site.mem_descendants_iff.mp hs).eq_of_node_eq
        (Site.mem_descendants_iff.mp hsite) hunit hnode.symm
      rw [← heq, hr] at hres
      rw [Option.some.inj hres, hqname]

/-- A property accessed on a reference occurs once in the group of the reference, and in no
other. -/
theorem count_direct (hok : (parse source text).problems = [])
    (hh : h ∈ Globals.collect (Scopes.build (parse source text).root) (parse source text).root)
    {r : Reference} (hr : r ∈ g.references) {m : Site}
    (hm : m ∈ (parse source text).root.descendants) (hk : m.node.kind = .memberExpr)
    (hobject : m.subject? = some r.site) {n : Node} (hn : n ∈ m.node.children)
    (hproperty : n.kind = .propertyName) :
    (h.direct.map Access.node).count n = if h.name = g.name then 1 else 0 := by
  have hreach := Site.mem_descendants_iff.mp hm
  have hfirst : m.node.property? = some n := by
    cases hreach.shaped hok with
    | node here _ =>
        obtain ⟨object, property, hchildren, hexpr, hkind⟩ := Site.children_member here hk
        have hne : object.kind ≠ .propertyName := fun heq => by rw [heq] at hexpr; cases hexpr
        rw [hchildren] at hn
        rcases List.mem_pair.mp hn with rfl | rfl
        · exact absurd hproperty hne
        · simp [Node.property?, Node.child?, hchildren, hne, hkind]
  have hsite : r.site ∈ g.references.map Reference.site := List.mem_map_of_mem hr
  have hname := (nameOf?_eq_some_iff hg (hreach.subject? hobject)).mpr hsite
  split
  · next heq =>
      obtain rfl := Globals.eq_of_name_eq hh hg heq
      have hmem : (⟨n.word, n⟩ : Access) ∈ h.direct := by
        rw [direct_eq hh]
        refine List.mem_filterMap.mpr ⟨(h.name, ⟨n.word, n⟩), List.mem_filterMap.mpr ⟨m, hm, ?_⟩,
          by simp⟩
        exact Globals.direct?_eq_some_iff.mpr
          ⟨hk, r.site, hobject, hname, by simp [Globals.access?, hfirst]⟩
      exact count_eq_one (pairwise_direct_of_mem hh hok) hmem
  · next hne =>
      refine List.count_eq_zero.mpr fun hmem => hne ?_
      obtain ⟨a, ha, rfl⟩ := List.mem_map.mp hmem
      obtain ⟨m', object, hreach', hproperty', hobject', hmem'⟩ := exists_member_of_mem_direct hh ha
      obtain rfl := hreach.eq_of_property? hreach' hfirst hproperty'
      obtain rfl : r.site = object := Option.some.inj (hobject.symm.trans hobject')
      have hname' := (nameOf?_eq_some_iff hh (hreach.subject? hobject)).mpr hmem'
      exact Option.some.inj (hname'.symm.trans hname)

end

/-- The accesses of a group, by where they stand. -/
theorem properties_sorted (g : Group) :
    g.properties.Perm (g.direct ++ g.aliased) ∧
      g.properties.Pairwise fun a b => a.node.start ≤ b.node.start := by
  refine ⟨Sort.perm_sort _ _, ?_⟩
  have hsorted := Sort.pairwise_sort (fun a b : Access => decide (a.node.start ≤ b.node.start))
    (fun a b => by simpa using Nat.le_total _ _)
    (fun a b c hab hbc => by simp only [decide_eq_true_eq] at *; omega) (g.direct ++ g.aliased)
  exact hsorted.imp fun h => of_decide_eq_true h

/-- The groups of the tree under a root hold what is in the tree, each thing once and in its
place. -/
structure Partitions (root : Site) (groups : List Group) : Prop where
  /-- Groups stand in the order of the bytes of their names. -/
  names : groups.Pairwise fun g h => g.name.bytes < h.name.bytes
  nonempty : ∀ g ∈ groups, g.references ≠ []
  /-- What is left unbound is once in the group of its name, and in no other. -/
  reference_once : ∀ s ∈ root.descendants, ∀ r,
    Globals.resolve? (Scopes.build root) s = some r →
      (∃ g ∈ groups, g.name = r.name) ∧ ∀ g ∈ groups,
        (g.references.map fun q => q.site.node).count s.node = if g.name = r.name then 1 else 0
  /-- Nothing else is a reference. -/
  only_references : ∀ g ∈ groups, ∀ r ∈ g.references, r.site ∈ root.descendants ∧
    (r.site.node.kind = .nameRef ∧ g.name = r.site.node.word ∨
      r.site.node.kind = .thisExpr ∧ g.name = Globals.thisName) ∧
    Globals.resolve? (Scopes.build root) r.site = some r
  references_ordered : ∀ g ∈ groups,
    g.references.Pairwise fun a b => a.site.node.start < b.site.node.start
  /-- The property of a member access on a reference, in parentheses or not, is once a direct
  access of the group of the reference, and of no other. -/
  property_once : ∀ g ∈ groups, ∀ r ∈ g.references, ∀ m ∈ root.descendants,
    m.node.kind = .memberExpr → m.subject? = some r.site →
      ∀ n ∈ m.node.children, n.kind = .propertyName → ∀ h ∈ groups,
        (h.direct.map Access.node).count n = if h.name = g.name then 1 else 0
  /-- Nothing else is a direct access. -/
  only_properties : ∀ g ∈ groups, ∀ a ∈ g.direct, ∃ m ∈ root.descendants,
    m.node.kind = .memberExpr ∧ a.node ∈ m.node.children ∧ a.node.kind = .propertyName ∧
      a.name = a.node.word ∧ ∃ r ∈ g.references, m.subject? = some r.site
  direct_ordered : ∀ g ∈ groups, g.direct.Pairwise fun a b => a.node.start < b.node.start
  properties : ∀ g ∈ groups, g.properties.Perm (g.direct ++ g.aliased) ∧
    g.properties.Pairwise fun a b => a.node.start ≤ b.node.start

/-- Grouping loses and duplicates nothing: every text without problems has groups, and these hold
its references and the properties accessed on them, each once and in its place. -/
theorem groups_partition {source : SourceType} {text : Text}
    (h : (parse source text).problems = []) :
    ∃ groups, globalsAt (parse source text).root = .ok groups ∧
      Partitions (parse source text).root groups := by
  refine ⟨_, if_pos rfl, ?_⟩
  constructor
  case names => exact pairwise_names _ _
  case nonempty =>
    intro g hg
    obtain ⟨r, hr⟩ := Globals.exists_mem_references hg
    exact List.ne_nil_of_mem hr
  case reference_once =>
    exact fun s hs r hr => ⟨exists_group hs hr, fun g hg => count_references hg hs hr⟩
  case only_references =>
    intro g hg r hr
    obtain ⟨hsite, hres, hname⟩ := Globals.of_mem_references hg hr
    exact ⟨hsite, hname ▸ (Globals.resolve?_eq_some hres).2, hres⟩
  case references_ordered => exact fun g hg => pairwise_references_of_mem hg
  case property_once =>
    exact fun g hg r hr m hm hk hobject n hn hproperty h' hh =>
      count_direct hg h hh hr hm hk hobject hn hproperty
  case only_properties =>
    intro g hg a ha
    rw [direct_eq hg] at ha
    obtain ⟨m, hm, hdirect⟩ := List.mem_filterMap.mp (Globals.mem_named ha)
    obtain ⟨hk, object, hobject, hname, haccess⟩ := Globals.direct?_eq_some_iff.mp hdirect
    obtain ⟨p, hp, rfl⟩ := Option.map_eq_some_iff.mp haccess
    have hreach := (Site.mem_descendants_iff.mp hm).subject? hobject
    obtain ⟨r, hr, rfl⟩ := List.mem_map.mp ((nameOf?_eq_some_iff hg hreach).mp hname)
    exact ⟨m, hm, hk, List.mem_of_find?_eq_some hp, by simpa using List.find?_some hp, rfl, r, hr,
      hobject⟩
  case direct_ordered => exact fun g hg => pairwise_direct_of_mem hg h
  case properties => exact fun g _ => properties_sorted g

/-- Groups whose names start with characters of one, two and four bytes, with accesses in
parentheses, on `this`, on another access and through a parameter. -/
theorem groups_partition_parentheses :
    ∃ text groups, text = ("((é)).x; 𠮷.y.z; b.x; this.q; b; " ++
        "(function (v) \x7b v.k; b.k \x7d)((b))").toList ∧
      (parse .script text).problems = [] ∧ globalsAt (parse .script text).root = .ok groups ∧
      groups.map (fun g => (g.name, g.references.map fun r => r.site.node.start,
          g.direct.map fun a => a.node.start, g.properties.map fun a => a.node.start)) =
        [("b".toList, [20, 33, 57, 65], [22, 59], [22, 54, 59]), ("this".toList, [25], [30], [30]),
          ("é".toList, [2], [7], [7]), ("𠮷".toList, [10], [15], [15])] ∧
      Partitions (parse .script text).root groups := by
  obtain ⟨text, htext⟩ : ∃ text, text = ("((é)).x; 𠮷.y.z; b.x; this.q; b; " ++
    "(function (v) \x7b v.k; b.k \x7d)((b))").toList := ⟨_, rfl⟩
  have hrun : (parse .script text).problems = [] ∧
      (globalsAt (parse .script text).root).map (fun groups => groups.map fun g =>
        (g.name, g.references.map fun r => r.site.node.start,
          g.direct.map fun a => a.node.start, g.properties.map fun a => a.node.start)) =
        .ok [("b".toList, [20, 33, 57, 65], [22, 59], [22, 54, 59]),
          ("this".toList, [25], [30], [30]),
          ("é".toList, [2], [7], [7]), ("𠮷".toList, [10], [15], [15])] := by
    rw [htext]; decide +kernel
  obtain ⟨hok, hlisted⟩ := hrun
  obtain ⟨groups, hgroups, hpartitions⟩ := groups_partition hok
  rw [hgroups] at hlisted
  exact ⟨text, groups, htext, hok, hgroups, Except.ok.inj hlisted, hpartitions⟩

end FreeNames
