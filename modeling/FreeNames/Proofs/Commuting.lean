import FreeNames.Proofs.PropertyNames

/-!
# FreeNames.Proofs.Commuting

Two rules, one after the other.  The second is planned on the text that the first
has left.  That text has the tokens and the globals that there were, where the
edits have moved them (`Applied`), so the second rule hits there what it hits in
the text, if the edits spare what it asks for (`Rule.Spared`, `Applied.hits_iff`).

Main statement: `rename_comm`, a rule that puts a fresh name in place of another
commutes with a rule for another global.
-/

namespace FreeNames

/-! ## rules that are read -/

theorem Path.cut_append_dot {cs : Text} (h : ∀ c ∈ cs, c ≠ '.') (ds : Text) :
    cut (cs ++ '.' :: ds) = (cs, (cut ds).1 :: (cut ds).2) := by
  induction cs with
  | nil => simp [cut]
  | cons c cs ih =>
      rw [List.forall_mem_cons] at h
      simp [cut, ih h.2, h.1]

/-- The rule that renames one property of a global to another. -/
def Rule.ofProperty (head old new : Text) : Rule := ⟨⟨head, [old]⟩, ⟨head, [new]⟩, rfl⟩

theorem Rule.parse_property {head old new : Text} (hhead : Name.IsName head)
    (hold : Name.IsName old) (hnew : Name.IsName new) :
    parse (head ++ '.' :: old) (head ++ '.' :: new) = .ok (ofProperty head old new) := by
  have hpath {a : Text} (ha : Name.IsName a) :
      Path.parse (head ++ '.' :: a) = .ok ⟨head, [a]⟩ := by
    have hcut : Path.cut (head ++ '.' :: a) = (head, [a]) := by
      rw [Path.cut_append_dot hhead.parts.ne_dot, Path.cut_of_ne_dot ha.parts.ne_dot]
    obtain ⟨c, cs, rfl, -⟩ := hhead.exists_cons
    obtain ⟨d, ds, rfl, -⟩ := ha.exists_cons
    rw [Path.parse, hcut]
    rfl
  simp only [parse, hpath hold, hpath hnew, bind, Except.bind]
  rfl

theorem Rule.eq_of_parse_self {path : Text} {r : Rule} (h : parse path path = .ok r) :
    r.old = r.new := by
  cases hp : Path.parse path with
  | error fault => simp [parse, hp, bind, Except.bind] at h
  | ok p =>
      simp only [parse, hp, bind, Except.bind, dite_true] at h
      obtain rfl := Except.ok.inj h
      rfl

section

variable {source : SourceType} {text old new : Text} {groups : List Group} {r : Rule}

/-- A rule that is read replaces the tokens that it hits, also if it changes none. -/
theorem exists_renameIn (hr : Rule.parse old new = .ok r)
    (hglobals : globals source text = .ok groups) :
    ∃ (isHit : Nat → Bool) (count : Nat),
      (∀ p ∈ Token.locate 0 (tokenize text), isHit p.1 = true ↔ r.Hits groups text p.1 p.2) ∧
      renameIn source text old new =
        (Token.replaced r.newSegment isHit (Token.locate 0 (tokenize text)), .ok count) := by
  by_cases hne : old = new
  · subst hne
    classical
    have hpaths := Rule.eq_of_parse_self hr
    have hhit : ∀ p ∈ Token.locate 0 (tokenize text),
        decide (∃ t, r.Hits groups text p.1 t) = true ↔ r.Hits groups text p.1 p.2 := by
      rintro ⟨o, t⟩ ht
      rw [decide_eq_true_eq]
      refine ⟨fun ⟨u, hu⟩ => ?_, fun hu => ⟨t, hu⟩⟩
      have hlocated := (Rule.of_hits hglobals hu).1
      rwa [Token.eq_of_mem_locate (fun t ht => text_ne_nil_of_mem_tokenize ht) ht hlocated]
    refine ⟨fun o => decide (∃ t, r.Hits groups text o t), 0, hhit, ?_⟩
    -- what is put in is what was there
    have hsame : Token.replaced r.newSegment (fun o => decide (∃ t, r.Hits groups text o t))
        (Token.locate 0 (tokenize text)) = text := by
      have hsegment : r.oldSegment = r.newSegment := by
        rw [Rule.oldSegment, Rule.newSegment, hpaths]
      rw [Token.replaced, List.flatMap_congr (g := fun p : Nat × Token => p.2.text) ?_]
      · rw [← List.flatMap_map Prod.snd, Token.map_snd_locate]
        exact concat_tokenize text
      · intro p hp
        split
        · next hit =>
            rw [(Rule.of_hits hglobals ((hhit p hp).mp hit)).2, hsegment]
        · rfl
    rw [hsame, renameIn, if_pos rfl]
  · obtain ⟨isHit, hhit, -, hresult⟩ := renameIn_eq hne hr hglobals
    exact ⟨isHit, _, hhit, hresult⟩

end

/-! ## the text that a rule leaves -/

/-- The text in which tokens are spelt otherwise. -/
def Respelling.edited (ρ : Respelling) (text : Text) : Text :=
  Token.replaced ρ.word ρ.isHit (Token.locate 0 (tokenize text))

/-- A rule has been applied to a text with some groups.  It has put a word where it
hits.  The text that it leaves has the tokens and the groups that there were, where
they have moved to; `ν` names the groups there, and `α` gives the accesses. -/
structure Applied (source : SourceType) (text old new : Text) (groups : List Group) (r : Rule)
    (ρ : Respelling) (ν : Text → Text) (α : Access → Access) : Prop where
  read : Rule.parse old new = .ok r
  hits : ∀ p ∈ Token.locate 0 (tokenize text), ρ.isHit p.1 = true ↔ r.Hits groups text p.1 p.2
  word : ∀ p ∈ Token.locate 0 (tokenize text), ρ.isHit p.1 = true → ρ.word = r.newSegment
  renamed : ∃ count, renameIn source text old new = (ρ.edited text, .ok count)
  fits : ρ.Fits 0 (tokenize text)
  zero : ρ.move 0 = 0
  injective : ∀ p ∈ Token.locate 0 (tokenize text), ∀ q ∈ Token.locate 0 (tokenize text),
    ρ.move p.1 = ρ.move q.1 → p = q
  tokens : tokenize (ρ.edited text) = ρ.tokens 0 (tokenize text)
  globals : ∃ groups', globals source (ρ.edited text) = .ok groups' ∧
    ∀ g', g' ∈ groups' ↔ ∃ g ∈ groups, g.map ρ.node ν α = g'
  node : ∀ a, (α a).node = ρ.node a.node

/-- What a rule asks for is there after an edit if it was before, and only then. -/
structure Rule.Spared (r : Rule) (groups : List Group) (ν : Text → Text)
    (α : Access → Access) : Prop where
  name : ∀ g ∈ groups, ν g.name = r.old.head ↔ g.name = r.old.head
  plain : r.old.head ≠ r.new.head → r.old.second? = none
  access : ∀ property ∈ r.old.second?, ∀ g ∈ groups, ∀ a ∈ g.direct ++ g.aliased,
    (α a).name = property ↔ a.name = property

theorem Respelling.move_injective {text word : Text} {isHit : Nat → Bool} (hword : word ≠ []) :
    ∀ p ∈ Token.locate 0 (tokenize text), ∀ q ∈ Token.locate 0 (tokenize text),
      (ofHits text isHit word).move p.1 = (ofHits text isHit word).move q.1 → p = q := by
  rintro ⟨o, t⟩ hp ⟨o', t'⟩ hq heq
  obtain ⟨before, after, hsplit, rfl⟩ := Token.mem_locate_iff.mp hp
  obtain ⟨before', after', hsplit', rfl⟩ := Token.mem_locate_iff.mp hq
  simp only [Nat.zero_add, move_ofHits isHit word hsplit, move_ofHits isHit word hsplit'] at heq
  have hword' : (ofHits text isHit word).word ≠ [] := hword
  obtain ⟨rfl, hafter⟩ := eq_of_sizeAll_tokens hword' hsplit hsplit' heq
  rw [(List.cons.inj hafter).1]

theorem Group.accesses_map (φ : Node → Node) (ν : Text → Text) (α : Access → Access) (g : Group) :
    (g.map φ ν α).direct ++ (g.map φ ν α).aliased = (g.direct ++ g.aliased).map α :=
  List.map_append.symm

namespace Applied

variable {source : SourceType} {text old new old' new' : Text} {groups : List Group}
  {r r' : Rule} {ρ ρ' : Respelling} {ν ν' : Text → Text} {α α' : Access → Access}

/-- A node of one token has moved to where another token is now if it was there. -/
theorem node_iff (h : Applied source text old new groups r ρ ν α) {p : Nat × Token}
    (hp : p ∈ Token.locate 0 (tokenize text)) {n : Node} {t : Token} (hparts : n.parts = [.leaf t])
    (ht : (n.start, t) ∈ Token.locate 0 (tokenize text)) :
    (ρ.node n).start = ρ.move p.1 ∧ (ρ.node n).parts = [.leaf (ρ.token p.1 p.2)] ↔
      n.start = p.1 ∧ n.parts = [.leaf p.2] := by
  constructor
  · rintro ⟨hstart, -⟩
    obtain rfl := h.injective _ ht p hp hstart
    exact ⟨rfl, hparts⟩
  · rintro ⟨hstart, hparts⟩
    refine ⟨congrArg ρ.move hstart, ?_⟩
    rw [Respelling.parts_node hparts, hstart]

theorem hitsReference_iff (h : Applied source text old new groups r ρ ν α)
    (hglobals : FreeNames.globals source text = .ok groups) {groups' : List Group}
    (hgroups : ∀ g', g' ∈ groups' ↔ ∃ g ∈ groups, g.map ρ.node ν α = g')
    (hspared : r'.Spared groups ν α) (hhead : r'.old.head ≠ r'.new.head) {p : Nat × Token}
    (hp : p ∈ Token.locate 0 (tokenize text)) :
    r'.HitsReference groups' (ρ.edited text) (ρ.move p.1) (ρ.token p.1 p.2) ↔
      r'.HitsReference groups text p.1 p.2 := by
  have hnone := hspared.plain hhead
  constructor
  · rintro ⟨g', hg', hname, reference', hmem', hstart, hparts, -⟩
    obtain ⟨g, hg, rfl⟩ := (hgroups g').mp hg'
    obtain ⟨reference, hmem, rfl⟩ := List.mem_map.mp hmem'
    obtain ⟨t, htoken, -, -, hlocated⟩ := exists_token_of_reference hglobals hg hmem
    obtain ⟨hstart, hparts⟩ := (h.node_iff hp htoken hlocated).mp ⟨hstart, hparts⟩
    exact ⟨g, hg, (hspared.name g hg).mp hname, reference, hmem, hstart, hparts, by simp [hnone]⟩
  · rintro ⟨g, hg, hname, reference, hmem, hstart, hparts, -⟩
    obtain ⟨t, htoken, -, -, hlocated⟩ := exists_token_of_reference hglobals hg hmem
    obtain ⟨hstart, hparts⟩ := (h.node_iff hp htoken hlocated).mpr ⟨hstart, hparts⟩
    exact ⟨_, (hgroups _).mpr ⟨g, hg, rfl⟩, (hspared.name g hg).mpr hname, _,
      List.mem_map_of_mem hmem, hstart, hparts, by simp [hnone]⟩

theorem hitsProperty_iff (h : Applied source text old new groups r ρ ν α)
    (hglobals : FreeNames.globals source text = .ok groups) {groups' : List Group}
    (hgroups : ∀ g', g' ∈ groups' ↔ ∃ g ∈ groups, g.map ρ.node ν α = g')
    (hspared : r'.Spared groups ν α) {p : Nat × Token}
    (hp : p ∈ Token.locate 0 (tokenize text)) :
    r'.HitsProperty groups' (ρ.move p.1) (ρ.token p.1 p.2) ↔
      r'.HitsProperty groups p.1 p.2 := by
  constructor
  · rintro ⟨g', hg', hname, access', hmem', hstart, hparts, hsecond⟩
    obtain ⟨g, hg, rfl⟩ := (hgroups g').mp hg'
    rw [Group.accesses_map] at hmem'
    obtain ⟨access, hmem, rfl⟩ := List.mem_map.mp hmem'
    obtain ⟨t, htoken, -, -, hlocated⟩ := exists_token_of_access hglobals hg hmem
    rw [h.node] at hstart hparts
    obtain ⟨hstart, hparts⟩ := (h.node_iff hp htoken hlocated).mp ⟨hstart, hparts⟩
    refine ⟨g, hg, (hspared.name g hg).mp hname, access, hmem, hstart, hparts, ?_⟩
    rw [hsecond, (hspared.access _ hsecond g hg access hmem).mp rfl]
  · rintro ⟨g, hg, hname, access, hmem, hstart, hparts, hsecond⟩
    obtain ⟨t, htoken, -, -, hlocated⟩ := exists_token_of_access hglobals hg hmem
    obtain ⟨hstart, hparts⟩ := (h.node_iff hp htoken hlocated).mpr ⟨hstart, hparts⟩
    rw [← h.node] at hstart hparts
    refine ⟨_, (hgroups _).mpr ⟨g, hg, rfl⟩, (hspared.name g hg).mpr hname, α access, ?_, hstart,
      hparts, ?_⟩
    · rw [Group.accesses_map]
      exact List.mem_map_of_mem hmem
    · rw [hsecond, (hspared.access _ hsecond g hg access hmem).mpr rfl]

/-- After the edits of a rule another one hits what it hit before. -/
theorem hits_iff (h : Applied source text old new groups r ρ ν α)
    (hglobals : FreeNames.globals source text = .ok groups) {groups' : List Group}
    (hgroups : ∀ g', g' ∈ groups' ↔ ∃ g ∈ groups, g.map ρ.node ν α = g')
    (hspared : r'.Spared groups ν α) {p : Nat × Token}
    (hp : p ∈ Token.locate 0 (tokenize text)) :
    r'.Hits groups' (ρ.edited text) (ρ.move p.1) (ρ.token p.1 p.2) ↔
      r'.Hits groups text p.1 p.2 := by
  unfold Rule.Hits
  split
  · next hhead => exact h.hitsReference_iff hglobals hgroups hspared hhead hp
  · exact h.hitsProperty_iff hglobals hgroups hspared hp

/-- What a second rule does to the text that the first has left. -/
theorem renameIn_edited (h : Applied source text old new groups r ρ ν α)
    (h' : Applied source text old' new' groups r' ρ' ν' α')
    (hglobals : FreeNames.globals source text = .ok groups) (hspared : r'.Spared groups ν α) :
    ∃ count, renameIn source (ρ.edited text) old' new' =
      ((Token.locate 0 (tokenize text)).flatMap fun p =>
        if ρ'.isHit p.1 then ρ'.word else (ρ.token p.1 p.2).text, .ok count) := by
  obtain ⟨groups', hglobals', hgroups⟩ := h.globals
  obtain ⟨isHit, count, hhits, hresult⟩ := exists_renameIn h'.read hglobals'
  refine ⟨count, hresult.trans ?_⟩
  have hlocate : Token.locate 0 (tokenize (ρ.edited text)) =
      (Token.locate 0 (tokenize text)).map fun p => (ρ.move p.1, ρ.token p.1 p.2) := by
    have hlocate := h.fits.locate_tokens
    rwa [h.zero, ← h.tokens] at hlocate
  rw [hlocate] at hhits ⊢
  rw [Token.replaced, List.flatMap_map]
  congr 1
  refine List.flatMap_congr fun p hp => ?_
  have hsame : isHit (ρ.move p.1) = ρ'.isHit p.1 := by
    have hhit := hhits _ (List.mem_map_of_mem hp)
    rw [Bool.eq_iff_iff, hhit, h.hits_iff hglobals hgroups hspared hp, h'.hits p hp]
  simp only [hsame]
  split
  · next hhit => exact (h'.word p hp hhit).symm
  · rfl

/-- Two rules, one after the other. -/
theorem rename_eq (h : Applied source text old new groups r ρ ν α)
    (h' : Applied source text old' new' groups r' ρ' ν' α')
    (hglobals : FreeNames.globals source text = .ok groups) (hspared : r'.Spared groups ν α)
    (hne : old ≠ old') :
    rename (((Options.default.withSource source).withRule old new).withRule old' new') text =
      .ok ((Token.locate 0 (tokenize text)).flatMap fun p =>
        if ρ'.isHit p.1 then ρ'.word else (ρ.token p.1 p.2).text) := by
  obtain ⟨count, hfirst⟩ := h.renamed
  obtain ⟨count', hsecond⟩ := h.renameIn_edited h' hglobals hspared
  have hentries : (((Options.default.withSource source).withRule old new).withRule
      old' new').rules.entries = [(old, new), (old', new')] := by
    show putEntry old' new' [(old, new)] = _
    simp [putEntry, hne]
  have hsource : (((Options.default.withSource source).withRule old new).withRule
      old' new').source = source := rfl
  rw [rename, hentries, hsource, renameEach, hfirst]
  simp only [renameEach, hsecond]

/-- Two rules that hit no token together, each of which leaves what the other asks
for, commute: either way each replaces what it hits in the text. -/
theorem rename_either_way (h : Applied source text old new groups r ρ ν α)
    (h' : Applied source text old' new' groups r' ρ' ν' α')
    (hglobals : FreeNames.globals source text = .ok groups) (hspared : r'.Spared groups ν α)
    (hspared' : r.Spared groups ν' α') (hne : old ≠ old')
    (hapart : ∀ o t, r.Hits groups text o t → ¬r'.Hits groups text o t) :
    ∃ (output : Text) (first second : List (Nat × Token)),
      rename (((Options.default.withSource source).withRule old new).withRule old' new') text =
        .ok output ∧
      rename (((Options.default.withSource source).withRule old' new').withRule old new) text =
        .ok output ∧
      (∀ o t, (o, t) ∈ first ↔ r.Hits groups text o t) ∧
      (∀ o t, (o, t) ∈ second ↔ r'.Hits groups text o t) ∧
      output = (Token.locate 0 (tokenize text)).flatMap fun p =>
        if p ∈ first then r.newSegment else if p ∈ second then r'.newSegment else p.2.text := by
  have hmem {s : Rule} {σ : Respelling}
      (hhits : ∀ p ∈ Token.locate 0 (tokenize text),
        σ.isHit p.1 = true ↔ s.Hits groups text p.1 p.2) (o : Nat) (t : Token) :
      (o, t) ∈ (Token.locate 0 (tokenize text)).filter (fun p => σ.isHit p.1) ↔
        s.Hits groups text o t := by
    rw [List.mem_filter]
    exact ⟨fun hp => (hhits _ hp.1).mp hp.2, fun hhit =>
      ⟨(Rule.of_hits hglobals hhit).1, (hhits _ (Rule.of_hits hglobals hhit).1).mpr hhit⟩⟩
  have hboth : ∀ p ∈ Token.locate 0 (tokenize text), ρ.isHit p.1 = true →
      ρ'.isHit p.1 = false := by
    intro p hp hhit
    rw [Bool.eq_false_iff, Ne, h'.hits p hp]
    exact hapart p.1 p.2 ((h.hits p hp).mp hhit)
  refine ⟨_, (Token.locate 0 (tokenize text)).filter fun p => ρ.isHit p.1,
    (Token.locate 0 (tokenize text)).filter fun p => ρ'.isHit p.1,
    (h.rename_eq h' hglobals hspared hne).trans (congrArg Except.ok ?_),
    (h'.rename_eq h hglobals hspared' hne.symm).trans (congrArg Except.ok ?_),
    hmem h.hits, hmem h'.hits, rfl⟩
  · refine List.flatMap_congr fun p hp => ?_
    cases hhit : ρ.isHit p.1 with
    | true => simp [hp, hhit, hboth p hp hhit, Respelling.token, h.word p hp hhit]
    | false =>
        cases hhit' : ρ'.isHit p.1 with
        | true => simp [hp, hhit, hhit', h'.word p hp hhit']
        | false => simp [hhit, hhit', Respelling.token]
  · refine List.flatMap_congr fun p hp => ?_
    cases hhit : ρ.isHit p.1 with
    | true => simp [hp, hhit, h.word p hp hhit]
    | false =>
        cases hhit' : ρ'.isHit p.1 with
        | true => simp [hp, hhit, hhit', Respelling.token, h'.word p hp hhit']
        | false => simp [hhit, hhit', Respelling.token]

end Applied

/-! ## names -/

/-- What is asked of a name and of a new one for it.  Both are identifiers by
themselves and neither is a word that means something of its own in some places; the
new name is not in the text.  The old one need not be. -/
structure Replaces (text old new : Text) : Prop where
  oldName : tokenize old = [⟨.ident, old⟩]
  newName : tokenize new = [⟨.ident, new⟩]
  oldWord : old ∉ contextualWords
  newWord : new ∉ "undefined".toList :: "arguments".toList :: contextualWords
  absent : ∀ t ∈ tokenize text, t.text ≠ new

instance (text old new : Text) : Decidable (Replaces text old new) :=
  decidable_of_iff
    (tokenize old = [⟨.ident, old⟩] ∧ tokenize new = [⟨.ident, new⟩] ∧ old ∉ contextualWords ∧
      new ∉ "undefined".toList :: "arguments".toList :: contextualWords ∧
      ∀ t ∈ tokenize text, t.text ≠ new)
    ⟨fun ⟨hold, hnew, hword, hword', habsent⟩ => ⟨hold, hnew, hword, hword', habsent⟩,
      fun ⟨hold, hnew, hword, hword', habsent⟩ => ⟨hold, hnew, hword, hword', habsent⟩⟩

section

variable {source : SourceType} {text a b : Text} {groups : List Group}

theorem Replaces.fresh (h : Replaces text a b) (hnamed : a ∈ groups.map Group.name) :
    Fresh text groups a b where
  named := hnamed
  notThis := by
    rintro rfl
    exact absurd (isIdentifier_of_tokenize h.oldName).unreserved (by decide)
  oldWord := h.oldWord
  newWord := h.newWord
  identifier := h.newName
  absent := h.absent

theorem Replaces.parse_names (h : Replaces text a b) :
    Rule.parse a b = .ok (Rule.ofNames a b) :=
  Rule.parse_names (isIdentifier_of_tokenize h.oldName).isName
    (isIdentifier_of_tokenize h.newName).isName

/-- What a rule for a name hits is a reference to the global. -/
theorem Rule.of_hits_ofNames {o : Nat} {t : Token} (h : (ofNames a b).Hits groups text o t) :
    ∃ g ∈ groups, g.name = a ∧ ∃ r ∈ g.references, r.site.node.start = o ∧
      r.site.node.parts = [.leaf t] := by
  unfold Hits at h
  split at h
  · obtain ⟨g, hg, hname, r, hr, hstart, hparts, -⟩ := h
    exact ⟨g, hg, hname, r, hr, hstart, hparts⟩
  · obtain ⟨_, _, _, _, _, _, _, hsecond⟩ := h
    cases hsecond

/-- A global gets a fresh name. -/
theorem Fresh.exists_applied (h : Fresh text groups a b)
    (hread : Rule.parse a b = .ok (.ofNames a b)) (hglobals : globals source text = .ok groups) :
    ∃ isHit, Applied source text a b groups (.ofNames a b) (.ofHits text isHit b)
      ((Respelling.ofHits text isHit b).name a) (Respelling.ofHits text isHit b).access := by
  have hne : a ≠ b := h.absent _ (h.mem_tokenize hglobals)
  have hsegment := (Rule.segments_ofNames hne).2
  obtain ⟨isHit, hhits, -, hrename⟩ := renameIn_eq hne hread hglobals
  rw [hsegment] at hrename
  have hhit : HitsAll groups a text isHit := fun o t ht =>
    (hhits (o, t) ht).trans (hits_ofNames_iff hglobals h hne ht)
  exact ⟨isHit,
    { read := hread
      hits := hhits
      word := fun _ _ _ => hsegment.symm
      renamed := ⟨_, hrename⟩
      fits := Respelling.fits_ofHits isHit b
      zero := Respelling.move_ofHits isHit b (List.nil_append (tokenize text)).symm
      injective := Respelling.move_injective h.new_ne_nil
      tokens := tokenize_replaced hglobals h hhit
      globals := ⟨_, globals_replaced hglobals h hhit, fun g' => by
        rw [Sort.mem_sort, List.mem_map]
        rfl⟩
      node := fun _ => rfl }⟩

variable {old new : Text} {r : Rule} {isHit : Nat → Bool} {program : Parse} {p q : Text}

/-- Properties get a name. -/
theorem HitsProperties.applied (h : HitsProperties program text p isHit)
    (hp : parseProgram source text = .ok program) (hglobals : globals source text = .ok groups)
    (hold : Name.IsName p) (hnew : IsIdentifier q)
    (hsettled : Settled source text ((Respelling.ofHits text isHit q).tokens 0 (tokenize text)))
    (hread : Rule.parse old new = .ok r)
    (hhits : ∀ p ∈ Token.locate 0 (tokenize text), isHit p.1 = true ↔ r.Hits groups text p.1 p.2)
    (hword : ∀ p ∈ Token.locate 0 (tokenize text), isHit p.1 = true → q = r.newSegment)
    {count : Nat} (hrename : renameIn source text old new =
      (Token.replaced r.newSegment isHit (Token.locate 0 (tokenize text)), .ok count)) :
    Applied source text old new groups r (.ofHits text isHit q) id
      (Respelling.ofHits text isHit q).property := by
  obtain ⟨htokens, hedited⟩ := h.globals_replaced hp hglobals hold hnew hsettled
  have hreplaced : Token.replaced r.newSegment isHit (Token.locate 0 (tokenize text)) =
      (Respelling.ofHits text isHit q).edited text := by
    refine List.flatMap_congr fun p hp => ?_
    show (if isHit p.1 = true then r.newSegment else p.2.text) =
      if isHit p.1 = true then q else p.2.text
    split
    · next hhit => exact (hword p hp hhit).symm
    · rfl
  rw [hreplaced] at hrename
  exact
    { read := hread
      hits := hhits
      word := hword
      renamed := ⟨count, hrename⟩
      fits := Respelling.fits_ofHits isHit q
      zero := Respelling.move_ofHits isHit q (List.nil_append (tokenize text)).symm
      injective := Respelling.move_injective hnew.isName.ne_nil
      tokens := htokens
      globals := ⟨_, hedited, fun g' => List.mem_map⟩
      node := fun _ => rfl }

/-- A name that no global has is not replaced. -/
theorem Replaces.exists_applied_of_not_named (h : Replaces text a b)
    (hnamed : a ∉ groups.map Group.name) (hp : parseProgram source text = .ok program)
    (hglobals : globals source text = .ok groups) :
    ∃ isHit, (∀ p ∈ Token.locate 0 (tokenize text), isHit p.1 = false) ∧
      Applied source text a b groups (.ofNames a b) (.ofHits text isHit b) id
        (Respelling.ofHits text isHit b).property := by
  obtain ⟨isHit, count, hhits, hrename⟩ := exists_renameIn h.parse_names hglobals
  have hnone : ∀ p ∈ Token.locate 0 (tokenize text), isHit p.1 = false := by
    intro p hp
    rw [Bool.eq_false_iff, Ne, hhits p hp]
    intro hhit
    obtain ⟨g, hg, hname, -⟩ := Rule.of_hits_ofNames hhit
    exact hnamed (List.mem_map.mpr ⟨g, hg, hname⟩)
  have hold := (isIdentifier_of_tokenize h.oldName).isName
  have hnew := isIdentifier_of_tokenize h.newName
  have hrespelt : Respelt false none (tokenize text)
      ((Respelling.ofHits text isHit b).tokens 0 (tokenize text)) := by
    refine Respelling.respelt_tokens _ hold hnew fun before t after hsplit ho => ?_
    have hfalse := hnone _ (Token.mem_locate_iff.mpr ⟨before, after, hsplit, rfl⟩)
    exact absurd ho (by simpa [Respelling.ofHits] using hfalse)
  have hhit : HitsProperties program text a isHit := fun o t ht ho => by
    simp [hnone _ ht] at ho
  refine ⟨isHit, hnone, hhit.applied hp hglobals hold hnew (Or.inr (Or.inl hrespelt))
    h.parse_names hhits (fun p hp ho => ?_) hrename⟩
  simp [hnone p hp] at ho

/-- A name is replaced, if a global has it: other globals keep theirs, and so do
properties. -/
theorem Replaces.exists_applied (h : Replaces text a b)
    (hp : parseProgram source text = .ok program) (hglobals : globals source text = .ok groups) :
    ∃ ρ ν α, Applied source text a b groups (.ofNames a b) ρ ν α ∧
      (∀ c, c ≠ a → c ≠ b → ∀ x, ν x = c ↔ x = c) ∧
      ∀ g ∈ groups, ∀ x ∈ g.direct ++ g.aliased, (α x).name = x.name := by
  by_cases hnamed : a ∈ groups.map Group.name
  · obtain ⟨isHit, happlied⟩ := (h.fresh hnamed).exists_applied h.parse_names hglobals
    refine ⟨_, _, _, happlied, fun c hca hcb x => ?_, fun _ _ _ _ => rfl⟩
    unfold Respelling.name
    split
    · next hx => exact ⟨fun hb => absurd hb.symm hcb, fun hc => absurd (hc.symm.trans hx) hca⟩
    · exact Iff.rfl
  · obtain ⟨isHit, hnone, happlied⟩ := h.exists_applied_of_not_named hnamed hp hglobals
    refine ⟨_, _, _, happlied, fun _ _ _ _ => Iff.rfl, fun g hg x hx => ?_⟩
    obtain ⟨source', -, -, rfl⟩ := exists_program hglobals
    obtain ⟨hwithin, -, hname⟩ := Globals.of_mem_accesses hg hx
    rw [hname]
    refine Respelling.word_node fun o t hholds => ?_
    exact hnone (o, t) ((stands_of_within hwithin).locate_subset hholds.mem_locate)

/-! ## properties -/

theorem Respelling.of_mem_tokens {ρ : Respelling} {offset : Nat} {ts : List Token} {u : Token}
    (h : u ∈ ρ.tokens offset ts) : u ∈ ts ∨ u = ⟨.ident, ρ.word⟩ := by
  induction ts generalizing offset with
  | nil => simp [tokens] at h
  | cons t ts ih =>
      rw [tokens, List.mem_cons, token] at h
      rcases h with rfl | h
      · split
        · exact Or.inr rfl
        · exact Or.inl List.mem_cons_self
      · exact (ih h).imp_left (List.mem_cons_of_mem t)

/-- How a text is parsed does not hang on which of two names a property has. -/
def SettledNames (source : SourceType) (text p q : Text) : Prop :=
  (parse source text).problems = [] ∨ p ∉ contextualWords ∧ q ∉ contextualWords ∨
    ⟨.ident, "await".toList⟩ ∉ tokenize text ∧ q ≠ "await".toList

theorem SettledNames.settled (h : SettledNames source text p q)
    (hhit : HitsProperties program text p isHit) (hold : Name.IsName p)
    (hnew : IsIdentifier q) :
    Settled source text ((Respelling.ofHits text isHit q).tokens 0 (tokenize text)) := by
  rcases h with hok | ⟨hpword, hqword⟩ | ⟨hnone, hne⟩
  · exact Or.inl hok
  · refine Or.inr (Or.inl (Respelling.respelt_tokens _ hold hnew
      fun before t after hsplit ho => ⟨?_, Or.inr ⟨hpword, hqword⟩⟩))
    exact (hhit _ t (Token.mem_locate_iff.mpr ⟨before, after, hsplit, rfl⟩) ho).1
  · refine Or.inr (Or.inr ⟨hnone, fun hmem => ?_⟩)
    rcases Respelling.of_mem_tokens hmem with hmem | heq
    · exact hnone hmem
    · exact hne (Token.mk.inj heq).2.symm

/-- What a rule for a property hits is the name of the property, where it is
accessed. -/
theorem Rule.of_hits_ofProperty {c : Text} {o : Nat} {t : Token}
    (h : (ofProperty c p q).Hits groups text o t) :
    ∃ g ∈ groups, ∃ access ∈ g.direct ++ g.aliased, access.name = p ∧ access.node.start = o ∧
      access.node.parts = [.leaf t] := by
  have hheads : ¬(ofProperty c p q).old.head ≠ (ofProperty c p q).new.head := fun hne => hne rfl
  rw [Hits, if_neg hheads] at h
  obtain ⟨g, hg, -, access, hmem, hstart, hparts, hsecond⟩ := h
  exact ⟨g, hg, access, hmem, (Option.some.inj hsecond).symm, hstart, hparts⟩

theorem hitsProperties_of_hits {c : Text} (hp : parseProgram source text = .ok program)
    (hglobals : globals source text = .ok groups) (hid : IsIdentifier p)
    (hhits : ∀ x ∈ Token.locate 0 (tokenize text), isHit x.1 = true ↔
      (Rule.ofProperty c p q).Hits groups text x.1 x.2) :
    HitsProperties program text p isHit := by
  intro o t ht ho
  obtain ⟨g, hg, access, hmem, rfl, rfl, hparts⟩ :=
    Rule.of_hits_ofProperty ((hhits (o, t) ht).mp ho)
  obtain ⟨u, hparts', hkind, htext, hlocated⟩ := exists_token_of_access hglobals hg hmem
  obtain rfl : t = u := by simpa [hparts] using hparts'
  have hident : t.kind = .ident := by
    refine kind_eq_ident (Token.mem_of_mem_locate hlocated) hkind ?_
    rwa [htext]
  obtain ⟨source', hp', -, rfl⟩ := exists_program hglobals
  obtain rfl : parse source' text = program := Except.ok.inj (hp'.symm.trans hp)
  obtain ⟨hwithin, hk, -⟩ := Globals.of_mem_accesses hg hmem
  refine ⟨?_, access.node, hwithin, hk, rfl, hparts⟩
  rw [← hident, ← htext]

/-- A property is renamed: globals keep their names. -/
theorem exists_applied_property {c : Text} (hp : parseProgram source text = .ok program)
    (hglobals : globals source text = .ok groups) (hhead : Name.IsName c)
    (hold : IsIdentifier p) (hnew : IsIdentifier q) (hsettled : SettledNames source text p q) :
    ∃ ρ α, Applied source text (c ++ '.' :: p) (c ++ '.' :: q) groups (.ofProperty c p q) ρ id
      α := by
  have hread := Rule.parse_property hhead hold.isName hnew.isName
  obtain ⟨isHit, count, hhits, hrename⟩ := exists_renameIn hread hglobals
  have hhit := hitsProperties_of_hits hp hglobals hold hhits
  have hsegment : (Rule.ofProperty c p q).newSegment = q := by
    simp [Rule.newSegment, Rule.ofProperty, Path.second?]
  exact ⟨_, _, hhit.applied hp hglobals hold.isName hnew
    (hsettled.settled hhit hold.isName hnew) hread hhits (fun _ _ _ => hsegment.symm) hrename⟩

/-! ## two rules -/

/-- A rule beside one that puts `b` in place of `a`: it is about another global,
which it gives a new name, or of which it renames a property. -/
inductive Apart (source : SourceType) (text a b : Text) : Text → Text → Prop
  | name {c d : Text} (replaces : Replaces text c d) (old : c ≠ a) (fresh : c ≠ b)
    (back : a ≠ d) : Apart source text a b c d
  | property {c p q : Text} (head : tokenize c = [⟨.ident, c⟩])
    (oldName : tokenize p = [⟨.ident, p⟩]) (newName : tokenize q = [⟨.ident, q⟩]) (old : c ≠ a)
    (fresh : c ≠ b) (settled : SettledNames source text p q) :
    Apart source text a b (c ++ '.' :: p) (c ++ '.' :: q)

theorem Apart.exists_applied {old new : Text} (h : Apart source text a b old new)
    (hp : parseProgram source text = .ok program) (hglobals : globals source text = .ok groups) :
    ∃ r ρ ν α, Applied source text old new groups r ρ ν α ∧ (∀ x, ν x = a ↔ x = a) ∧
      r.old.head ≠ a ∧ r.old.head ≠ b ∧ (r.old.head ≠ r.new.head → r.old.second? = none) := by
  cases h with
  | name replaces old fresh back =>
      obtain ⟨ρ, ν, α, happlied, hname, -⟩ := replaces.exists_applied hp hglobals
      exact ⟨_, ρ, ν, α, happlied, hname a old.symm back, old, fresh, fun _ => rfl⟩
  | property head oldName newName old fresh settled =>
      obtain ⟨ρ, α, happlied⟩ := exists_applied_property hp hglobals
        (isIdentifier_of_tokenize head).isName (isIdentifier_of_tokenize oldName)
        (isIdentifier_of_tokenize newName) settled
      exact ⟨_, ρ, id, α, happlied, fun _ => Iff.rfl, old, fresh, fun hne => absurd rfl hne⟩

/-- Rules about different globals hit no token together: a token that names a
reference neither names another one nor a property. -/
theorem not_hits_of_hits_ofNames (hglobals : globals source text = .ok groups) {r : Rule}
    (hne : r.old.head ≠ a) {o : Nat} {t : Token} (h : (Rule.ofNames a b).Hits groups text o t) :
    ¬r.Hits groups text o t := by
  intro h'
  obtain ⟨g, hg, hname, s, hs, rfl, hparts⟩ := Rule.of_hits_ofNames h
  unfold Rule.Hits at h'
  split at h'
  · obtain ⟨g', hg', hname', s', hs', -, hparts', -⟩ := h'
    obtain ⟨u, hu, -, htext, -⟩ := exists_token_of_reference hglobals hg hs
    obtain ⟨u', hu', -, htext', -⟩ := exists_token_of_reference hglobals hg' hs'
    obtain rfl : t = u := by simpa [hparts] using hu
    obtain rfl : t = u' := by simpa [hparts'] using hu'
    exact hne (by rw [← hname', ← htext', htext, hname])
  · obtain ⟨g', hg', -, access, hmem, hstart, hparts', -⟩ := h'
    obtain ⟨source', rfl⟩ := globals_eq_ok hglobals
    obtain ⟨hsite, hresolve, -⟩ := Globals.of_mem_references hg hs
    obtain ⟨hwithin, hk, -⟩ := Globals.of_mem_accesses hg' hmem
    obtain ⟨s', hs', heq⟩ := Site.exists_reaches hwithin
    have hholds := Node.holds_of_parts hparts'
    rw [hstart, ← heq] at hholds
    have hsame := (Site.mem_descendants_iff.mp hsite).eq_of_holds hs'
      (Node.holds_of_parts hparts) hholds
    rw [← heq, ← hsame] at hk
    rcases (Globals.resolve?_eq_some hresolve).2 with ⟨hk', -⟩ | ⟨hk', -⟩
    · simp [hk] at hk'
    · simp [hk] at hk'

theorem Apart.old_ne {old new : Text} (h : Apart source text a b old new)
    (ha : Name.IsName a) : a ≠ old := by
  cases h with
  | name _ old _ _ => exact old.symm
  | property _ _ _ _ _ _ =>
      intro heq
      exact ha.parts.ne_dot '.' (by simp [heq]) rfl

/-- A rule that puts a fresh name in place of another commutes with a rule for
another global.  Either way both succeed, each token that one of the rules hits in
the text is replaced as that rule says, and all other tokens stay. -/
theorem rename_comm {old new : Text} (hp : parseProgram source text = .ok program)
    (h : Replaces text a b) (hapart : Apart source text a b old new) :
    ∃ (groups : List Group) (rule rule' : Rule) (output : Text) (first second : List (Nat × Token)),
      globals source text = .ok groups ∧
      Rule.parse a b = .ok rule ∧ Rule.parse old new = .ok rule' ∧
      rename (((Options.default.withSource source).withRule a b).withRule old new) text =
        .ok output ∧
      rename (((Options.default.withSource source).withRule old new).withRule a b) text =
        .ok output ∧
      (∀ o t, (o, t) ∈ first ↔ rule.Hits groups text o t) ∧
      (∀ o t, (o, t) ∈ second ↔ rule'.Hits groups text o t) ∧
      output = (Token.locate 0 (tokenize text)).flatMap fun p =>
        if p ∈ first then rule.newSegment else if p ∈ second then rule'.newSegment
        else p.2.text := by
  obtain ⟨groups, hglobals⟩ : ∃ groups, globals source text = .ok groups := by
    cases hglobals : globals source text with
    | error fault => simp [globals_eq_error_iff.mp hglobals] at hp
    | ok groups => exact ⟨groups, rfl⟩
  obtain ⟨ρ, ν, α, happlied, hname, haccess⟩ := h.exists_applied hp hglobals
  obtain ⟨rule', ρ', ν', α', happlied', hname', hhead, hfresh, hplain⟩ :=
    hapart.exists_applied hp hglobals
  have hspared : rule'.Spared groups ν α :=
    { name := fun g _ => hname _ hhead hfresh g.name
      plain := hplain
      access := fun property _ g hg x hx => by rw [haccess g hg x hx] }
  have hspared' : (Rule.ofNames a b).Spared groups ν' α' :=
    { name := fun g _ => hname' g.name
      plain := fun _ => rfl
      access := nofun }
  have hne := hapart.old_ne (isIdentifier_of_tokenize h.oldName).isName
  obtain ⟨output, first, second, hresult⟩ := happlied.rename_either_way happlied' hglobals hspared
    hspared' hne fun o t => not_hits_of_hits_ofNames hglobals hhead
  exact ⟨groups, _, rule', output, first, second, hglobals, happlied.read, happlied'.read, hresult⟩

/-- A property is renamed where it is accessed through a parameter too, to a word that
means something of its own elsewhere.  The new name of the other global takes two
bytes a letter. -/
theorem rename_comm_passed_property :
    let text : Text := "(function (w) \x7b ab.x / w.of / ab \x7d)(self); self.of".toList
    (∃ program, parseProgram .script text = .ok program) ∧
      Replaces text "ab".toList "äß".toList ∧
      Apart .script text "ab".toList "äß".toList "self.of".toList "self.await".toList ∧
      ∃ (groups : List Group) (rule rule' : Rule) (output : Text)
        (first second : List (Nat × Token)), globals .script text = .ok groups ∧
        Rule.parse "ab".toList "äß".toList = .ok rule ∧
        Rule.parse "self.of".toList "self.await".toList = .ok rule' ∧
        rename (((Options.default.withSource .script).withRule "ab".toList "äß".toList).withRule
          "self.of".toList "self.await".toList) text = .ok output ∧
        rename (((Options.default.withSource .script).withRule "self.of".toList
          "self.await".toList).withRule "ab".toList "äß".toList) text = .ok output ∧
        (∀ o t, (o, t) ∈ first ↔ rule.Hits groups text o t) ∧
        (∀ o t, (o, t) ∈ second ↔ rule'.Hits groups text o t) ∧
        output = (Token.locate 0 (tokenize text)).flatMap fun p =>
          if p ∈ first then rule.newSegment else if p ∈ second then rule'.newSegment
          else p.2.text := by
  intro text
  have hrun : (parse .script text).problems = [] ∧ Replaces text "ab".toList "äß".toList ∧
      tokenize "self".toList = [⟨.ident, "self".toList⟩] ∧
      tokenize "of".toList = [⟨.ident, "of".toList⟩] ∧
      tokenize "await".toList = [⟨.ident, "await".toList⟩] ∧
      "self".toList ≠ "ab".toList ∧ "self".toList ≠ "äß".toList := by decide +kernel
  obtain ⟨hok, hreplaces, hself, hof, hawait, hold, hfresh⟩ := hrun
  have hp : parseProgram .script text = .ok (parse .script text) := by
    rw [parseProgram_eq_ok_iff, parseEither_of_ok hok]
    exact ⟨rfl, hok⟩
  have hapart : Apart .script text "ab".toList "äß".toList ("self".toList ++ '.' :: "of".toList)
      ("self".toList ++ '.' :: "await".toList) :=
    .property hself hof hawait hold hfresh (Or.inl hok)
  exact ⟨⟨_, hp⟩, hreplaces, hapart, rename_comm hp hreplaces hapart⟩

/-- The order of two rules matters where one of them makes the name that the other
replaces, and where a word after a dot settles whether a broken script is taken for
a module. -/
theorem rename_order_matters :
    ((parseProgram .script "x".toList).isOk = true ∧
      Replaces "x".toList "x".toList "y".toList ∧ Replaces "x".toList "y".toList "z".toList ∧
      rename (((Options.default.withSource .script).withRule "x".toList "y".toList).withRule
        "y".toList "z".toList) "x".toList = .ok "z".toList ∧
      rename (((Options.default.withSource .script).withRule "y".toList "z".toList).withRule
        "x".toList "y".toList) "x".toList = .ok "y".toList) ∧
    ∃ text, text = "class A \x7b [await x] = a.p\n foo\n\x7d\nimport \"m\"; c".toList ∧
      (parseProgram .script text).isOk = true ∧ Replaces text "c".toList "d".toList ∧
      tokenize "a".toList = [⟨.ident, "a".toList⟩] ∧ tokenize "p".toList = [⟨.ident, "p".toList⟩] ∧
      tokenize "get".toList = [⟨.ident, "get".toList⟩] ∧
      rename (((Options.default.withSource .script).withRule "c".toList "d".toList).withRule
        "a.p".toList "a.get".toList) text =
          .ok "class A \x7b [await x] = a.get\n foo\n\x7d\nimport \"m\"; d".toList ∧
      (rename (((Options.default.withSource .script).withRule "a.p".toList "a.get".toList).withRule
        "c".toList "d".toList) text).isOk = false := by
  exact ⟨by decide +kernel, _, rfl, by decide +kernel⟩

end

end FreeNames
