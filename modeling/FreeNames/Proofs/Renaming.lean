import FreeNames.Proofs.Replacing
import FreeNames.Proofs.Units

/-!
# FreeNames.Proofs.Renaming

What one rule does to a buffer.  The nodes that a rule renames are nodes of one
token, so a rule replaces whole tokens and leaves all others as they are.

* `Rule.Hits` — the tokens that a rule replaces, by the groups of the text;
* `renameIn_replaces_tokens` — a rule fails only if it cannot be read or the
  text cannot be parsed, and otherwise replaces exactly these tokens.
-/

namespace FreeNames

/-! ## nodes that are reached -/

namespace Node

theorem Within.of_child? {root n c : Node} {k : NodeKind} (h : Within root n)
    (hc : n.child? k = some c) : Within root c ∧ c.kind = k :=
  ⟨h.child (List.mem_of_find?_eq_some hc), by simpa using List.find?_some hc⟩

end Node

/-! ## references and accesses -/

namespace Globals

theorem resolve?_eq_some {scopes : Scopes} {s : Site} {r : Reference}
    (h : resolve? scopes s = some r) :
    r.site = s ∧ (s.node.kind = .nameRef ∧ r.name = s.node.word ∨
      s.node.kind = .thisExpr ∧ r.name = thisName) := by
  unfold resolve? at h
  split at h
  · next hk =>
      simp only [Option.ite_none_left_eq_some, Option.some.injEq] at h
      obtain ⟨-, rfl⟩ := h
      exact ⟨rfl, Or.inl ⟨hk, rfl⟩⟩
  · next hk =>
      simp only [Option.ite_none_left_eq_some, Option.some.injEq] at h
      obtain ⟨-, rfl⟩ := h
      exact ⟨rfl, Or.inr ⟨hk, rfl⟩⟩
  · simp at h

theorem access?_eq_some {root n : Node} {a : Access} (hn : Node.Within root n)
    (h : access? n = some a) :
    Node.Within root a.node ∧ a.node.kind = .propertyName ∧ a.name = a.node.word := by
  simp only [access?, Option.map_eq_some_iff] at h
  obtain ⟨p, hp, rfl⟩ := h
  obtain ⟨hwithin, hk⟩ := hn.of_child? hp
  exact ⟨hwithin, hk, rfl⟩

theorem direct?_eq_some {references : List Reference} {s : Site} {name : Text} {a : Access}
    (h : direct? references s = some (name, a)) : access? s.node = some a := by
  simp only [direct?, Option.bind_eq_bind, Option.bind_eq_some_iff, Option.pure_def,
    Option.some.injEq, Prod.mk.injEq] at h
  obtain ⟨_, -, _, -, _, -, a', ha, -, rfl⟩ := h
  exact ha

theorem onParameter?_eq_some {scopes : Scopes} {function : Node} {parameter : Text} {s : Site}
    {a : Access} (h : onParameter? scopes function parameter s = some a) :
    access? s.node = some a := by
  simp only [onParameter?, Option.bind_eq_bind, Option.bind_eq_some_iff] at h
  obtain ⟨_, -, _, -, _, -, _, -, ha⟩ := h
  exact ha

theorem exists_access_of_mem_throughCall {scopes : Scopes} {references : List Reference}
    {s : Site} {name : Text} {a : Access} (h : (name, a) ∈ throughCall scopes references s) :
    ∃ n, Node.Within s.node n ∧ access? n = some a := by
  unfold throughCall at h
  split at h
  · simp at h
  · next callee hcallee =>
      split at h
      · simp at h
      · split at h
        · next list body hlist hbody =>
            simp only [List.mem_flatMap] at h
            obtain ⟨⟨argument, parameter⟩, -, h⟩ := h
            split at h
            · simp at h
            · simp only [List.mem_map, List.mem_filterMap, Prod.mk.injEq] at h
              obtain ⟨a', ⟨inner, hinner, ha⟩, -, rfl⟩ := h
              refine ⟨inner.node, ?_, onParameter?_eq_some ha⟩
              have hbody := (Site.Reaches.refl.subject? hcallee).within.of_child? hbody
              exact hbody.1.trans (Site.within_of_mem_descendants hinner)
        · simp at h

theorem mem_named {α : Type} {name : Text} {items : List (Text × α)} {a : α}
    (h : a ∈ named name items) : (name, a) ∈ items := by
  simp only [named, List.mem_filterMap] at h
  obtain ⟨⟨other, item⟩, hmem, hitem⟩ := h
  simp only [Option.ite_none_right_eq_some, Option.some.injEq] at hitem
  obtain ⟨rfl, rfl⟩ := hitem
  exact hmem

variable {scopes : Scopes} {root : Site} {g : Group}

/-- A group holds references of its name to be found in the tree. -/
theorem of_mem_references {r : Reference} (hg : g ∈ collect scopes root)
    (hr : r ∈ g.references) :
    r.site ∈ root.descendants ∧ resolve? scopes r.site = some r ∧ r.name = g.name := by
  simp only [collect, List.mem_map] at hg
  obtain ⟨name, -, rfl⟩ := hg
  simp only [List.mem_filter, List.mem_filterMap, decide_eq_true_eq] at hr
  obtain ⟨⟨s, hs, hres⟩, hname⟩ := hr
  obtain rfl := (resolve?_eq_some hres).1
  exact ⟨hs, hres, hname⟩

/-- A reference of the name of a group is one of the group. -/
theorem mem_references {r : Reference} (hg : g ∈ collect scopes root)
    (hr : r.site ∈ root.descendants) (hres : resolve? scopes r.site = some r)
    (hname : r.name = g.name) : r ∈ g.references := by
  simp only [collect, List.mem_map] at hg
  obtain ⟨name, -, rfl⟩ := hg
  exact List.mem_filter.mpr ⟨List.mem_filterMap.mpr ⟨r.site, hr, hres⟩, decide_eq_true hname⟩

/-- A group has a reference. -/
theorem exists_mem_references (hg : g ∈ collect scopes root) : ∃ r, r ∈ g.references := by
  simp only [collect, List.mem_map, Sort.mem_sort, List.mem_eraseDups] at hg
  obtain ⟨name, ⟨r, hr, rfl⟩, rfl⟩ := hg
  exact ⟨r, List.mem_filter.mpr ⟨hr, decide_eq_true rfl⟩⟩

/-- Accesses of a group are properties that nodes of the tree name. -/
theorem of_mem_accesses {a : Access} (hg : g ∈ collect scopes root)
    (ha : a ∈ g.direct ++ g.aliased) :
    Node.Within root.node a.node ∧ a.node.kind = .propertyName ∧ a.name = a.node.word := by
  simp only [collect, List.mem_map] at hg
  obtain ⟨name, -, rfl⟩ := hg
  rcases List.mem_append.mp ha with ha | ha
  · obtain ⟨s, hs, hdirect⟩ := List.mem_filterMap.mp (mem_named ha)
    exact access?_eq_some (Site.within_of_mem_descendants hs) (direct?_eq_some hdirect)
  · obtain ⟨s, hs, hthrough⟩ := List.mem_flatMap.mp (mem_named ha)
    obtain ⟨n, hn, haccess⟩ := exists_access_of_mem_throughCall hthrough
    exact access?_eq_some ((Site.within_of_mem_descendants hs).trans hn) haccess

/-- The name of a group says which it is. -/
theorem eq_of_name_eq {h : Group} (hg : g ∈ collect scopes root) (hh : h ∈ collect scopes root)
    (hname : g.name = h.name) : g = h := by
  simp only [collect, List.mem_map] at hg hh
  obtain ⟨n, -, rfl⟩ := hg
  obtain ⟨m, -, rfl⟩ := hh
  simp only at hname
  rw [hname]

end Globals

/-! ## tokens of references and accesses -/

/-- A parse that is in force is the parse of the text as a script or a module. -/
theorem exists_parse {source : SourceType} {text : Text} {p : Parse}
    (h : parseProgram source text = .ok p) : ∃ source, p = parse source text := by
  obtain ⟨rfl, -⟩ := parseProgram_eq_ok_iff.mp h
  unfold parseEither
  simp only []
  split
  · exact ⟨.module, rfl⟩
  · exact ⟨source, rfl⟩

/-- The globals of a text are those of its tree. -/
theorem globals_eq_ok {source : SourceType} {text : Text} {groups : List Group}
    (h : globals source text = .ok groups) : ∃ source,
      groups = Globals.collect (Scopes.build (parse source text).root) (parse source text).root := by
  cases hp : parseProgram source text with
  | error fault => simp [globals, hp, bind, Except.bind] at h
  | ok p =>
      obtain ⟨source', rfl⟩ := exists_parse hp
      refine ⟨source', ?_⟩
      simpa [globals, hp, bind, Except.bind, globalsAt, Parse.root] using h.symm

/-- A text has globals unless it cannot be parsed. -/
theorem globals_eq_error_iff {source : SourceType} {text : Text} {fault : Fault} :
    globals source text = .error fault ↔ parseProgram source text = .error fault := by
  cases hp : parseProgram source text with
  | error fault => simp [globals, hp, bind, Except.bind]
  | ok p => simp [globals, hp, bind, Except.bind, globalsAt, Parse.root]

variable {source : SourceType} {text : Text} {groups : List Group} {g : Group}

/-- A reference is one token: the name of its group. -/
theorem exists_token_of_reference (h : globals source text = .ok groups) (hg : g ∈ groups)
    {r : Reference} (hr : r ∈ g.references) :
    ∃ t, r.site.node.parts = [.leaf t] ∧ (t.kind = .ident ∨ t.kind = .keyword .thisKw) ∧
      t.text = g.name ∧ (r.site.node.start, t) ∈ Token.locate 0 (tokenize text) := by
  obtain ⟨source, rfl⟩ := globals_eq_ok h
  obtain ⟨hsite, hres, hname⟩ := Globals.of_mem_references hg hr
  have hwithin := Site.within_of_mem_descendants hsite
  rcases (Globals.resolve?_eq_some hres).2 with ⟨hk, hword⟩ | ⟨hk, hthis⟩
  · obtain ⟨t, hparts, hfits, hspelt, hmem⟩ := hwithin.exists_token (by simp [hk, NodeKind.isUnit])
    refine ⟨t, hparts, Or.inl ?_, by rw [← hspelt, ← hword, hname], hmem⟩
    simpa [hk, NodeKind.fits] using hfits
  · obtain ⟨t, hparts, hfits, -, hmem⟩ := hwithin.exists_token (by simp [hk, NodeKind.isUnit])
    have hkind : t.kind = .keyword .thisKw := by simpa [hk, NodeKind.fits] using hfits
    refine ⟨t, hparts, Or.inr hkind, ?_, hmem⟩
    rw [text_eq_spelling (Token.mem_of_mem_locate hmem) hkind, ← hname, hthis]
    rfl

/-- A property that is accessed is one token: the name of the property. -/
theorem exists_token_of_access (h : globals source text = .ok groups) (hg : g ∈ groups)
    {a : Access} (ha : a ∈ g.direct ++ g.aliased) :
    ∃ t, a.node.parts = [.leaf t] ∧ (t.kind.isIdentifierName = true ∨ t.kind = .privateName) ∧
      t.text = a.name ∧ (a.node.start, t) ∈ Token.locate 0 (tokenize text) := by
  obtain ⟨source, rfl⟩ := globals_eq_ok h
  obtain ⟨hwithin, hk, hname⟩ := Globals.of_mem_accesses hg ha
  obtain ⟨t, hparts, hfits, hspelt, hmem⟩ := hwithin.exists_token (by simp [hk, NodeKind.isUnit])
  refine ⟨t, hparts, ?_, by rw [hname, hspelt], hmem⟩
  simpa [hk, NodeKind.fits] using hfits

/-! ## what a rule asks for -/

namespace Rule

/-- A dot and a property follow at an offset, and the name ends there. -/
def FollowedBy (text : Text) (offset : Nat) (property : Text) : Prop :=
  ∃ before after, text = before ++ ('.' :: property ++ after) ∧ before.size = offset ∧
    ∀ c ∈ after.head?, isNamePart c = false

theorem after?_eq_some_iff {ps cs rest : Text} : after? ps cs = some rest ↔ cs = ps ++ rest := by
  induction ps generalizing cs with
  | nil => simp [after?, eq_comm]
  | cons p ps ih =>
      cases cs with
      | nil => simp [after?]
      | cons c cs =>
          rw [after?]
          split
          · next heq => simp [ih, heq]
          · next hne => simp [Ne.symm hne]

theorem followedBy_iff {text : Text} {offset : Nat} {property : Text} :
    followedBy text offset property = true ↔ FollowedBy text offset property := by
  unfold followedBy
  constructor
  · intro h
    split at h
    · next rest hrest =>
        simp only [Option.bind_eq_some_iff, Text.dropBytes?, Option.map_eq_some_iff] at hrest
        obtain ⟨back, ⟨⟨front, _⟩, hsplit, rfl⟩, hafter⟩ := hrest
        obtain ⟨rfl, hsize⟩ := Text.splitBytes?_eq_some_iff.mp hsplit
        rw [after?_eq_some_iff] at hafter
        refine ⟨front, rest, by rw [← hafter], hsize, fun c hc => ?_⟩
        simp only [Option.mem_def] at hc
        simpa [hc] using h
    · simp at h
  · rintro ⟨before, rest, rfl, rfl, hend⟩
    have hafter : after? ('.' :: property) ('.' :: property ++ rest) = some rest :=
      after?_eq_some_iff.mpr rfl
    rw [Text.dropBytes?_append, Option.bind_some, hafter]
    cases hrest : rest.head? with
    | none => simp [hrest]
    | some c => simpa [hrest] using hend c hrest

/-- The segment that a rule renames. -/
def oldSegment (r : Rule) : Text :=
  if r.old.head ≠ r.new.head then r.old.head else r.old.second?.getD []

/-- What a rule makes of it. -/
def newSegment (r : Rule) : Text :=
  if r.old.head ≠ r.new.head then r.new.head else r.new.second?.getD []

/-- A token is that of a reference which a rule renames.  Where the rule has a
property, it has to follow. -/
def HitsReference (r : Rule) (groups : List Group) (text : Text) (offset : Nat) (t : Token) :
    Prop :=
  ∃ g ∈ groups, g.name = r.old.head ∧ ∃ reference ∈ g.references,
    reference.site.node.start = offset ∧ reference.site.node.parts = [.leaf t] ∧
      ∀ property ∈ r.old.second?, FollowedBy text (offset + t.size) property

/-- A token is that of a property which a rule renames. -/
def HitsProperty (r : Rule) (groups : List Group) (offset : Nat) (t : Token) : Prop :=
  ∃ g ∈ groups, g.name = r.old.head ∧ ∃ access ∈ g.direct ++ g.aliased,
    access.node.start = offset ∧ access.node.parts = [.leaf t] ∧ r.old.second? = some access.name

/-- The tokens that a rule replaces: those of references if the heads of its
paths differ, and those of properties if they agree. -/
def Hits (r : Rule) (groups : List Group) (text : Text) (offset : Nat) (t : Token) : Prop :=
  if r.old.head ≠ r.new.head then r.HitsReference groups text offset t
  else r.HitsProperty groups offset t

theorem second?_of_head_eq {r : Rule} (hhead : r.old.head = r.new.head) (hne : r.old ≠ r.new) :
    ∃ old new, r.old.second? = some old ∧ r.new.second? = some new := by
  obtain ⟨⟨head, tail⟩, ⟨head', tail'⟩, hlength⟩ := r
  simp only [Path.second?, Path.length, Path.segments, List.length_cons] at hlength hhead hne ⊢
  cases tail with
  | nil =>
      have hnil : tail' = [] := List.length_eq_zero_iff.mp (by simpa using hlength.symm)
      simp [hhead, hnil] at hne
  | cons old olds =>
      cases tail' with
      | nil => simp at hlength
      | cons new news => exact ⟨old, new, rfl, rfl⟩

theorem mem_properties {g : Group} {a : Access} : a ∈ g.properties ↔ a ∈ g.direct ++ g.aliased :=
  Sort.mem_sort _

variable {r : Rule} {e : Edit}

/-- The edits that a rule asks for in its group are those of the tokens it hits. -/
theorem mem_editsIn_iff (h : globals source text = .ok groups) (hg : g ∈ groups)
    (hname : g.name = r.old.head) (hne : r.old ≠ r.new) :
    e ∈ r.editsIn text g ↔ ∃ p ∈ Token.locate 0 (tokenize text),
      r.Hits groups text p.1 p.2 ∧ Token.edit r.newSegment p = e := by
  have hunique {g'} (hg' : g' ∈ groups) (hname' : g'.name = r.old.head) : g' = g := by
    obtain ⟨source, rfl⟩ := globals_eq_ok h
    exact Globals.eq_of_name_eq hg' hg (hname'.trans hname.symm)
  unfold editsIn Hits newSegment
  by_cases hhead : r.old.head ≠ r.new.head
  · simp only [if_pos hhead, List.mem_map, List.mem_filter]
    constructor
    · rintro ⟨reference, ⟨hmem, hfollow⟩, rfl⟩
      obtain ⟨t, hparts, -, -, hlocated⟩ := exists_token_of_reference h hg hmem
      refine ⟨_, hlocated, ⟨g, hg, hname, reference, hmem, rfl, hparts, ?_⟩, ?_⟩
      · intro property hproperty
        rw [Option.mem_def] at hproperty
        rw [hproperty, Node.span_eq hparts] at hfollow
        exact followedBy_iff.mp hfollow
      · rw [Node.span_eq hparts]
        rfl
    · rintro ⟨⟨o, t⟩, -, ⟨g', hg', hname', reference, hmem, rfl, hparts, hfollow⟩, rfl⟩
      obtain rfl := hunique hg' hname'
      refine ⟨reference, ⟨hmem, ?_⟩, by rw [Node.span_eq hparts]; rfl⟩
      cases hsecond : r.old.second? with
      | none => rfl
      | some property =>
          rw [Node.span_eq hparts]
          exact followedBy_iff.mpr (hfollow property hsecond)
  · have hheads : r.old.head = r.new.head := not_not.mp hhead
    obtain ⟨old, new, hold, hnew⟩ := second?_of_head_eq hheads hne
    simp only [if_neg hhead, hold, hnew, List.mem_map, List.mem_filter, mem_properties,
      decide_eq_true_eq, Option.getD_some]
    constructor
    · rintro ⟨access, ⟨hmem, rfl⟩, rfl⟩
      obtain ⟨t, hparts, -, -, hlocated⟩ := exists_token_of_access h hg hmem
      refine ⟨_, hlocated, ⟨g, hg, hname, access, hmem, rfl, hparts, hold⟩, ?_⟩
      rw [Node.span_eq hparts]
      rfl
    · rintro ⟨⟨o, t⟩, -, ⟨g', hg', hname', access, hmem, rfl, hparts, hsecond⟩, rfl⟩
      obtain rfl := hunique hg' hname'
      refine ⟨access, ⟨hmem, ?_⟩, by rw [Node.span_eq hparts]; rfl⟩
      simpa [hold] using hsecond.symm

/-- The plan of a rule goes up strictly, and edits the tokens that the rule hits. -/
theorem plan_spec (h : globals source text = .ok groups) (hne : r.old ≠ r.new) :
    ((r.plan groups text).Pairwise fun a b => a.span.start < b.span.start) ∧
      ∀ e, e ∈ r.plan groups text ↔ ∃ p ∈ Token.locate 0 (tokenize text),
        r.Hits groups text p.1 p.2 ∧ Token.edit r.newSegment p = e := by
  have hidentity : r.isIdentity = false := by simpa [isIdentity] using hne
  unfold plan
  rw [if_neg (by simp [hidentity])]
  split
  · next hnone =>
      -- no group has the name, so nothing is hit
      refine ⟨.nil, fun e => ⟨by simp, ?_⟩⟩
      rintro ⟨p, -, hhits, -⟩
      obtain ⟨g, hg, hname⟩ : ∃ g ∈ groups, g.name = r.old.head := by
        unfold Hits at hhits
        split at hhits
        · obtain ⟨g, hg, hname, -⟩ := hhits; exact ⟨g, hg, hname⟩
        · obtain ⟨g, hg, hname, -⟩ := hhits; exact ⟨g, hg, hname⟩
      simpa [hname] using List.find?_eq_none.mp hnone g hg
  · next g hsome =>
      have hg : g ∈ groups := List.mem_of_find?_eq_some hsome
      have hname : g.name = r.old.head := by simpa using List.find?_some hsome
      have hmem {e : Edit} := mem_editsIn_iff (e := e) h hg hname hne
      have hsorted : (Sort.sort (fun a b => a.span.start ≤ b.span.start)
          (r.editsIn text g)).Pairwise fun a b => a.span.start ≤ b.span.start := by
        have hpairwise := Sort.pairwise_sort (fun a b : Edit => a.span.start ≤ b.span.start)
          (by simp [Nat.le_total]) (by simp only [decide_eq_true_eq]; omega) (r.editsIn text g)
        simpa using hpairwise
      obtain ⟨hstrict, hall⟩ := dropRepeated_strict hsorted fun a ha b hb hstart => by
        -- edits that start together are edits of one token
        rw [Sort.mem_sort, hmem] at ha hb
        obtain ⟨⟨o, s⟩, hs, -, rfl⟩ := ha
        obtain ⟨⟨o', t⟩, ht, -, rfl⟩ := hb
        obtain rfl : o = o' := hstart
        rw [Token.eq_of_mem_locate (fun t ht => text_ne_nil_of_mem_tokenize ht) hs ht]
      refine ⟨hstrict, fun e => ⟨fun he => ?_, fun he => ?_⟩⟩
      · exact hmem.mp ((Sort.mem_sort _).mp (mem_of_mem_dropRepeated he))
      · exact hall e ((Sort.mem_sort _).mpr (hmem.mpr he))

/-- The plan of a rule is the edits of the tokens that it hits. -/
theorem plan_eq_tokenEdits (h : globals source text = .ok groups) (hne : r.old ≠ r.new) :
    ∃ isHit : Nat → Bool,
      (∀ p ∈ Token.locate 0 (tokenize text), isHit p.1 = true ↔ r.Hits groups text p.1 p.2) ∧
      r.plan groups text = Token.edits r.newSegment isHit (Token.locate 0 (tokenize text)) := by
  obtain ⟨hstrict, hmem⟩ := plan_spec h hne
  have hhit : ∀ p ∈ Token.locate 0 (tokenize text),
      ((r.plan groups text).any fun e => e.span.start = p.1) = true ↔
        r.Hits groups text p.1 p.2 := by
    rintro ⟨o, t⟩ ht
    simp only [List.any_eq_true, decide_eq_true_eq, hmem]
    constructor
    · rintro ⟨e, ⟨⟨o', t'⟩, ht', hhits, rfl⟩, hstart⟩
      obtain rfl : o' = o := hstart
      rwa [Token.eq_of_mem_locate (fun t ht => text_ne_nil_of_mem_tokenize ht) ht ht']
    · intro hhits
      exact ⟨_, ⟨(o, t), ht, hhits, rfl⟩, rfl⟩
  refine ⟨fun o => (r.plan groups text).any fun e => e.span.start = o, hhit,
    Edit.eq_tokenEdits ?_ hstrict fun e => ?_⟩
  · exact Token.locate_strict fun t ht => text_ne_nil_of_mem_tokenize ht
  · rw [hmem]
    exact exists_congr fun p => and_congr_right fun hp => and_congr_left' (hhit p hp).symm

/-- A token that a rule hits is one of the text, and spells the segment that the
rule renames. -/
theorem of_hits {o : Nat} {t : Token} (h : globals source text = .ok groups)
    (hhits : r.Hits groups text o t) :
    (o, t) ∈ Token.locate 0 (tokenize text) ∧ t.text = r.oldSegment := by
  unfold Hits at hhits
  unfold oldSegment
  split at hhits
  · next hhead =>
      obtain ⟨g, hg, hname, reference, hmem, rfl, hparts, -⟩ := hhits
      obtain ⟨t', hparts', -, htext, hlocated⟩ := exists_token_of_reference h hg hmem
      obtain rfl : t = t' := by simpa [hparts] using hparts'
      exact ⟨hlocated, by rw [if_pos hhead, htext, hname]⟩
  · next hhead =>
      obtain ⟨g, hg, hname, access, hmem, rfl, hparts, hsecond⟩ := hhits
      obtain ⟨t', hparts', -, htext, hlocated⟩ := exists_token_of_access h hg hmem
      obtain rfl : t = t' := by simpa [hparts] using hparts'
      exact ⟨hlocated, by rw [if_neg hhead, hsecond, htext]; rfl⟩

end Rule

/-! ## reading a rule -/

theorem Path.cut_append_dotted (text : Text) : (cut text).1 ++ dotted (cut text).2 = text := by
  induction text with
  | nil => rfl
  | cons c cs ih =>
      rw [cut]
      simp only []
      split
      · next hc => simp [dotted, ih, hc]
      · simp [ih]

theorem Path.print_of_parse {text : Text} {p : Path} (h : parse text = .ok p) : p.print = text := by
  simp only [parse] at h
  split at h
  · simp at h
  · obtain rfl : (⟨(cut text).1, (cut text).2⟩ : Path) = p := by simpa using h
    exact cut_append_dotted text

/-- The paths of a rule that is read are read from its texts. -/
theorem Rule.paths_of_parse {old new : Text} {r : Rule} (h : parse old new = .ok r) :
    Path.parse old = .ok r.old ∧ Path.parse new = .ok r.new := by
  cases hold : Path.parse old with
  | error fault => simp [parse, hold, bind, Except.bind] at h
  | ok oldPath =>
      cases hnew : Path.parse new with
      | error fault => simp [parse, hold, hnew, bind, Except.bind] at h
      | ok newPath =>
          simp only [parse, hold, hnew, bind, Except.bind] at h
          split at h
          · obtain rfl := Except.ok.inj h
            exact ⟨rfl, rfl⟩
          · cases h

/-! ## one rule in a buffer -/

/-- What a rule that was read does: it never asks for edits that are refused. -/
theorem renameIn_eq {old new : Text} {r : Rule} (hne : old ≠ new)
    (hr : Rule.parse old new = .ok r) (h : globals source text = .ok groups) :
    ∃ isHit : Nat → Bool,
      (∀ p ∈ Token.locate 0 (tokenize text), isHit p.1 = true ↔ r.Hits groups text p.1 p.2) ∧
      r.plan groups text = Token.edits r.newSegment isHit (Token.locate 0 (tokenize text)) ∧
      renameIn source text old new =
        (Token.replaced r.newSegment isHit (Token.locate 0 (tokenize text)),
          .ok ((Token.locate 0 (tokenize text)).filter fun p => isHit p.1).length) := by
  have hpaths : r.old ≠ r.new := by
    obtain ⟨hold, hnew⟩ := Rule.paths_of_parse hr
    rintro heq
    exact hne (by rw [← Path.print_of_parse hold, ← Path.print_of_parse hnew, heq])
  obtain ⟨isHit, hhit, hplan⟩ := Rule.plan_eq_tokenEdits h hpaths
  refine ⟨isHit, hhit, hplan, ?_⟩
  simp only [renameIn, if_neg hne, hr, h, hplan, Edit.splice_tokenEdits]
  simp [Token.edits]

/-- One rule in a buffer.  It fails exactly if it changes something and cannot be
read, or the text cannot be parsed; then the buffer is as it was.  Otherwise its
edits are all made: they replace the tokens that the rule hits and keep all
others.  References and accesses are whole tokens, and each that the rule hits
spells the segment that the rule renames. -/
theorem renameIn_replaces_tokens (source : SourceType) (text old new : Text) :
    ((∃ fault, (renameIn source text old new).2 = .error fault) ↔ old ≠ new ∧
      ((∃ fault, Rule.parse old new = .error fault) ∨
        ∃ fault, parseProgram source text = .error fault)) ∧
    (∀ fault, (renameIn source text old new).2 = .error fault →
      (renameIn source text old new).1 = text) ∧
    (old = new → renameIn source text old new = (text, .ok 0)) ∧
    ∀ r groups, old ≠ new → Rule.parse old new = .ok r → globals source text = .ok groups →
      (Edit.splice text (r.plan groups text)).2 = none ∧
      (∃ hits : List (Nat × Token), hits.Sublist (Token.locate 0 (tokenize text)) ∧
        renameIn source text old new =
          ((Token.locate 0 (tokenize text)).flatMap fun p =>
            if p ∈ hits then r.newSegment else p.2.text, .ok hits.length) ∧
        (∀ o t, (o, t) ∈ hits ↔ r.Hits groups text o t) ∧
        ∀ p ∈ hits, p.2.text = r.oldSegment) ∧
      ∀ g ∈ groups,
        (∀ reference ∈ g.references, ∃ t, reference.site.node.parts = [.leaf t] ∧
          (t.kind = .ident ∨ t.kind = .keyword .thisKw)) ∧
        ∀ access ∈ g.direct ++ g.aliased, ∃ t, access.node.parts = [.leaf t] ∧
          (t.kind.isIdentifierName = true ∨ t.kind = .privateName) := by
  by_cases hsame : old = new
  · simp [renameIn, hsame]
  cases hr : Rule.parse old new with
  | error fault => simp [renameIn, hsame, hr]
  | ok r =>
      cases hg : globals source text with
      | error fault => simp [renameIn, hsame, hr, hg, globals_eq_error_iff.mp hg]
      | ok groups =>
          obtain ⟨isHit, hhit, hplan, hresult⟩ := renameIn_eq hsame hr hg
          have hsplice : (Edit.splice text (r.plan groups text)).2 = none := by
            rw [hplan, Edit.splice_tokenEdits]
          have hparse : ∀ fault, parseProgram source text ≠ .error fault := fun fault hp => by
            simp [globals_eq_error_iff.mpr hp] at hg
          refine ⟨by simp [hresult, hparse], by simp [hresult], fun h => (hsame h).elim, ?_⟩
          rintro r' groups' - hr' hg'
          obtain rfl : r = r' := by simpa using hr'
          obtain rfl : groups = groups' := by simpa using hg'
          have hmem : ∀ o t, (o, t) ∈ ((Token.locate 0 (tokenize text)).filter fun p => isHit p.1) ↔
              r.Hits groups text o t := fun o t => by
            rw [List.mem_filter]
            exact ⟨fun h => (hhit _ h.1).mp h.2, fun h =>
              ⟨(Rule.of_hits hg h).1, (hhit _ (Rule.of_hits hg h).1).mpr h⟩⟩
          refine ⟨hsplice, ⟨(Token.locate 0 (tokenize text)).filter fun p => isHit p.1,
            List.filter_sublist, ?_, hmem, ?_⟩, fun g hmem => ⟨?_, ?_⟩⟩
          · rw [hresult, Token.replaced]
            congr 1
            refine List.flatMap_congr fun p hp => ?_
            simp [hp]
          · exact fun p hp => (Rule.of_hits hg ((hmem p.1 p.2).mp hp)).2
          · intro reference href
            obtain ⟨t, hparts, hkind, -, -⟩ := exists_token_of_reference hg hmem href
            exact ⟨t, hparts, hkind⟩
          · intro access haccess
            obtain ⟨t, hparts, hkind, -, -⟩ := exists_token_of_access hg hmem haccess
            exact ⟨t, hparts, hkind⟩

end FreeNames
