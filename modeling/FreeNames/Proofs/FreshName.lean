import FreeNames.Proofs.Moving
import FreeNames.Proofs.Neighbours
import FreeNames.Proofs.Regrouping

/-!
# FreeNames.Proofs.FreshName

Renaming a global to a name that the text does not hold (`Fresh`).  The edited
text has the tokens of the old text but for the names that are replaced, hence a
tree of the same shape, hence the same globals, moved as the edits move things.
Renaming back gives the old text.

Main statement: `rename_fresh_name`.
-/

namespace FreeNames

/-- What is asked of a global and of a new name for it.  The new name is read as
an identifier and is not in the text, and neither is a word that means something
of its own in some places. -/
structure Fresh (text : Text) (groups : List Group) (old new : Text) : Prop where
  named : old ∈ groups.map Group.name
  notThis : old ≠ Globals.thisName
  oldWord : old ∉ contextualWords
  newWord : new ∉ "undefined".toList :: "arguments".toList :: contextualWords
  identifier : tokenize new = [⟨.ident, new⟩]
  absent : ∀ t ∈ tokenize text, t.text ≠ new

/-! ## what groups say -/

/-- Where a span is when offsets move. -/
def Span.map (move : Nat → Nat) (s : Span) : Span := ⟨move s.start, move s.stop⟩

/-- What a group says of a text: its name, the references with the kinds of the
nodes from each of them up, and the properties by name, all with their bytes. -/
structure Outline where
  name : Text
  references : List (List NodeKind × Span)
  direct : List (Text × Span)
  aliased : List (Text × Span)

/-- The outline of a group. -/
def Group.outline (g : Group) : Outline where
  name := g.name
  references := g.references.map fun r =>
    ((r.site.node :: r.site.above).map Node.kind, r.site.node.span)
  direct := g.direct.map fun a => (a.name, a.node.span)
  aliased := g.aliased.map fun a => (a.name, a.node.span)

/-- An outline when offsets move. -/
def Outline.moved (move : Nat → Nat) (o : Outline) : Outline where
  name := o.name
  references := o.references.map fun (path, span) => (path, span.map move)
  direct := o.direct.map fun (name, span) => (name, span.map move)
  aliased := o.aliased.map fun (name, span) => (name, span.map move)

/-- An outline under a new name, when offsets move. -/
def Outline.renamed (old new : Text) (move : Nat → Nat) (o : Outline) : Outline where
  name := if o.name = old then new else o.name
  references := o.references.map fun (path, span) => (path, span.map move)
  direct := o.direct.map fun (name, span) => (name, span.map move)
  aliased := o.aliased.map fun (name, span) => (name, span.map move)

/-! ## reading the rule -/

theorem Path.cut_of_ne_dot {cs : Text} (h : ∀ c ∈ cs, c ≠ '.') : cut cs = (cs, []) := by
  induction cs with
  | nil => rfl
  | cons c cs ih =>
      rw [List.forall_mem_cons] at h
      simp [cut, ih h.2, h.1]

/-- The rule that renames one name to another. -/
def Rule.ofNames (old new : Text) : Rule := ⟨⟨old, []⟩, ⟨new, []⟩, rfl⟩

theorem Rule.parse_names {old new : Text} (hold : Name.IsName old) (hnew : Name.IsName new) :
    parse old new = .ok (ofNames old new) := by
  have hpath {a : Text} (ha : Name.IsName a) : Path.parse a = .ok ⟨a, []⟩ := by
    obtain ⟨c, cs, rfl, -⟩ := ha.exists_cons
    simp [Path.parse, Path.cut_of_ne_dot ha.parts.ne_dot]
  simp only [parse, hpath hold, hpath hnew, bind, Except.bind]
  rfl

theorem Rule.segments_ofNames {old new : Text} (h : old ≠ new) :
    (ofNames old new).oldSegment = old ∧ (ofNames old new).newSegment = new := by
  have hhead : (ofNames old new).old.head ≠ (ofNames old new).new.head := h
  rw [oldSegment, newSegment, if_pos hhead, if_pos hhead]
  exact ⟨rfl, rfl⟩

/-! ## tokens of the edited text -/

namespace Respelling

variable {old : Text} {offset : Nat} {ts : List Token}

theorem respelt_tokens (ρ : Respelling) {dots : Bool} {last : Option TokenKind}
    (hold : Name.IsName old) (hword : IsIdentifier ρ.word)
    (h : ∀ before t after, ts = before ++ t :: after →
      ρ.isHit (offset + Token.sizeAll before) = true → t = ⟨.ident, old⟩ ∧
        (dots = true ∧ (before.foldl Token.seen last).any TokenKind.isDot = true ∨
          old ∉ contextualWords ∧ ρ.word ∉ contextualWords)) :
    Respelt dots last ts (ρ.tokens offset ts) := by
  induction ts generalizing offset last with
  | nil => exact .nil last
  | cons t ts ih =>
      have hrest : Respelt dots (t.seen last) ts (ρ.tokens (offset + t.size) ts) := by
        refine ih fun before u after hsplit hhit => ?_
        refine h (t :: before) u after (by rw [hsplit, List.cons_append]) ?_
        rwa [Token.sizeAll_cons, ← Nat.add_assoc]
      rw [tokens, token]
      split
      · next hhit =>
          obtain ⟨rfl, hfree⟩ := h [] t ts rfl (by simpa using hhit)
          exact .respell hold hword hfree hrest
      · exact .keep t hrest

theorem concat_tokens (ρ : Respelling) (offset : Nat) (ts : List Token) :
    Token.concat (ρ.tokens offset ts) =
      Token.replaced ρ.word ρ.isHit (Token.locate offset ts) := by
  induction ts generalizing offset with
  | nil => rfl
  | cons t ts ih =>
      cases hhit : ρ.isHit offset with
      | true =>
          rw [Token.replaced_cons_of_hit hhit, tokens, Token.concat_cons, ih, token, if_pos hhit]
      | false =>
          rw [Token.replaced_cons_of_not_hit hhit, tokens, Token.concat_cons, ih, token,
            if_neg (by simp [hhit])]

/-- Names that were put in are told by their spelling, if no token had it. -/
theorem concat_of_tokens (ρ : Respelling)
    (h : ∀ p ∈ Token.locate offset ts, ρ.isHit p.1 = true → p.2 = ⟨.ident, old⟩)
    (habsent : ∀ t ∈ ts, t.text ≠ ρ.word) :
    (ρ.tokens offset ts).flatMap (fun t => if t.text = ρ.word then old else t.text) =
      Token.concat ts := by
  induction ts generalizing offset with
  | nil => rfl
  | cons t ts ih =>
      rw [Token.locate, List.forall_mem_cons] at h
      rw [List.forall_mem_cons] at habsent
      rw [tokens, List.flatMap_cons, ih h.2 habsent.2, Token.concat_cons, token]
      cases hhit : ρ.isHit offset with
      | true =>
          obtain rfl : t = ⟨.ident, old⟩ := h.1 hhit
          simp
      | false => simp [habsent.1]

end Respelling

/-! ## references that are hit -/

section

variable {source : SourceType} {text : Text} {groups : List Group} {old new : Text}

/-- A reference to a global other than `this` is one identifier. -/
theorem token_of_reference (hglobals : globals source text = .ok groups)
    (hthis : old ≠ Globals.thisName) {g : Group} (hg : g ∈ groups) (hname : g.name = old)
    {r : Reference} (hr : r ∈ g.references) :
    r.site.node.kind = .nameRef ∧ r.site.node.parts = [.leaf ⟨.ident, old⟩] ∧
      (r.site.node.start, ⟨.ident, old⟩) ∈ Token.locate 0 (tokenize text) := by
  obtain ⟨⟨kind, spelt⟩, hparts, hkind, htext, hlocated⟩ := exists_token_of_reference hglobals hg hr
  obtain rfl : spelt = old := htext.trans hname
  have hident : kind = .ident := by
    rcases hkind with hkind | hkind
    · exact hkind
    · exact absurd (text_eq_spelling (Token.mem_of_mem_locate hlocated) hkind) hthis
  subst hident
  refine ⟨?_, hparts, hlocated⟩
  obtain ⟨source', rfl⟩ := globals_eq_ok hglobals
  obtain ⟨-, hresolve, hrname⟩ := Globals.of_mem_references hg hr
  rcases (Globals.resolve?_eq_some hresolve).2 with ⟨hk, -⟩ | ⟨-, hthisName⟩
  · exact hk
  · exact absurd (hname.symm.trans (hrname.symm.trans hthisName)) hthis

theorem Fresh.mem_tokenize (h : Fresh text groups old new)
    (hglobals : globals source text = .ok groups) : ⟨.ident, old⟩ ∈ tokenize text := by
  obtain ⟨g, hg, hname⟩ := List.mem_map.mp h.named
  obtain ⟨r, hr⟩ : ∃ r, r ∈ g.references := by
    obtain ⟨source', rfl⟩ := globals_eq_ok hglobals
    exact Globals.exists_mem_references hg
  exact Token.mem_of_mem_locate (token_of_reference hglobals h.notThis hg hname hr).2.2

/-- What the rule hits are the references to the global. -/
theorem hits_ofNames_iff (hglobals : globals source text = .ok groups)
    (h : Fresh text groups old new) (hne : old ≠ new) {o : Nat} {t : Token}
    (ht : (o, t) ∈ Token.locate 0 (tokenize text)) :
    (Rule.ofNames old new).Hits groups text o t ↔
      ∃ g ∈ groups, g.name = old ∧ ∃ r ∈ g.references, r.site.node.start = o := by
  have hhead : (Rule.ofNames old new).old.head ≠ (Rule.ofNames old new).new.head := hne
  rw [Rule.Hits, if_pos hhead]
  constructor
  · rintro ⟨g, hg, hname, r, hr, hstart, -⟩
    exact ⟨g, hg, hname, r, hr, hstart⟩
  · rintro ⟨g, hg, hname, r, hr, rfl⟩
    obtain ⟨-, hparts, hlocated⟩ := token_of_reference hglobals h.notThis hg hname hr
    obtain rfl := Token.eq_of_mem_locate (fun t ht => text_ne_nil_of_mem_tokenize ht) ht hlocated
    exact ⟨g, hg, hname, r, hr, rfl, hparts, by simp [Rule.ofNames, Path.second?]⟩

/-! ## the tree of the edited text -/

theorem Node.Holds.mem_locate {n : Node} {o : Nat} {t : Token} (h : n.Holds o t) :
    (o, t) ∈ Token.locate n.start (Tree.tokensAll n.parts) := by
  obtain ⟨before, after, hparts, rfl⟩ := h
  refine Token.mem_locate_iff.mpr ⟨Tree.tokensAll before, Tree.tokensAll after, ?_, ?_⟩
  · simp [hparts]
  · rw [Tree.sizeAll_eq]

theorem Node.holds_of_parts {n : Node} {t : Token} (h : n.parts = [.leaf t]) :
    n.Holds n.start t :=
  ⟨[], [], h, by simp [Tree.sizeAll]⟩

theorem stands_of_within {n : Node} (h : Node.Within (parse source text).root.node n) :
    n.Stands 0 (tokenize text) := by
  have hstands := h.stands (.self _)
  rwa [tokensAll_root] at hstands

variable {isHit : Nat → Bool}

/-- Offsets are hit where the references to a global start. -/
def HitsAll (groups : List Group) (old : Text) (text : Text) (isHit : Nat → Bool) : Prop :=
  ∀ o t, (o, t) ∈ Token.locate 0 (tokenize text) →
    (isHit o = true ↔ ∃ g ∈ groups, g.name = old ∧ ∃ r ∈ g.references, r.site.node.start = o)

/-- A token that is hit is directly inside a reference to the global only. -/
theorem reference_of_holds (hglobals : globals source text = .ok groups)
    (hthis : old ≠ Globals.thisName) {source' : SourceType}
    (hgroups : groups = Globals.collect (Scopes.build (parse source' text).root)
      (parse source' text).root)
    (hhit : HitsAll groups old text isHit) {s : Site} (hs : (parse source' text).root.Reaches s)
    {o : Nat} {t : Token} (hholds : s.node.Holds o t) (ho : isHit o = true) :
    s.node.kind = .nameRef ∧
      Globals.resolve? (Scopes.build (parse source' text).root) s = some ⟨old, s⟩ := by
  have hlocated := (stands_of_within hs.within).locate_subset hholds.mem_locate
  obtain ⟨g, hg, hname, r, hr, rfl⟩ := (hhit o t hlocated).mp ho
  obtain ⟨hk, hparts, -⟩ := token_of_reference hglobals hthis hg hname hr
  rw [hgroups] at hg
  obtain ⟨hsite, hresolve, hrname⟩ := Globals.of_mem_references hg hr
  obtain rfl := hs.eq_of_holds (Site.mem_descendants_iff.mp hsite) hholds
    (Node.holds_of_parts hparts)
  refine ⟨hk, hresolve.trans ?_⟩
  rw [← hname, ← hrname]

theorem HitsAll.token_eq (hhit : HitsAll groups old text isHit)
    (hglobals : globals source text = .ok groups) (hthis : old ≠ Globals.thisName) {o : Nat}
    {t : Token} (ht : (o, t) ∈ Token.locate 0 (tokenize text)) (ho : isHit o = true) :
    t = ⟨.ident, old⟩ := by
  obtain ⟨g, hg, hname, r, hr, rfl⟩ := (hhit o t ht).mp ho
  obtain ⟨-, -, hlocated⟩ := token_of_reference hglobals hthis hg hname hr
  exact Token.eq_of_mem_locate (fun t ht => text_ne_nil_of_mem_tokenize ht) ht hlocated

/-- A name in place of another leaves what is seen of a token. -/
theorem HitsAll.blur_token (hhit : HitsAll groups old text isHit)
    (hglobals : globals source text = .ok groups) (h : Fresh text groups old new) :
    ∀ p ∈ Token.locate 0 (tokenize text),
      ((Respelling.ofHits text isHit new).token p.1 p.2).blur = p.2.blur := by
  rintro ⟨o, t⟩ ht
  rw [Respelling.token]
  split
  · next ho =>
      obtain rfl := hhit.token_eq hglobals h.notThis ht ho
      rfl
  · rfl

theorem Fresh.new_ne_nil (h : Fresh text groups old new) : new ≠ [] :=
  (isIdentifier_of_tokenize h.identifier).isName.ne_nil

theorem Fresh.new_ne (h : Fresh text groups old new) :
    new ≠ "undefined".toList ∧ new ≠ "arguments".toList ∧ new ≠ Globals.thisName := by
  refine ⟨?_, ?_, ?_⟩
  · rintro rfl
    exact h.newWord List.mem_cons_self
  · rintro rfl
    exact h.newWord (List.mem_cons_of_mem _ List.mem_cons_self)
  · rintro rfl
    exact absurd (isIdentifier_of_tokenize h.identifier).unreserved (by decide)

/-- Respelling the references to a global with a fresh name. -/
theorem renames_ofHits (hglobals : globals source text = .ok groups)
    (h : Fresh text groups old new) {source' : SourceType}
    (hgroups : groups = Globals.collect (Scopes.build (parse source' text).root)
      (parse source' text).root)
    (hhit : HitsAll groups old text isHit) :
    (Respelling.ofHits text isHit new).Renames (parse source' text).root old where
  top := rfl
  fits := by
    have hfits : (Respelling.ofHits text isHit new).Fits 0 (tokenize text) :=
      Respelling.fits_ofHits isHit new
    rwa [← Draft.tokensAll_ofText source' text] at hfits
  injective n m hn hm heq :=
    Respelling.eq_of_node_eq h.new_ne_nil (hhit.blur_token hglobals h) (stands_of_within hn)
      (stands_of_within hm) heq
  spared n hn hk := by
    refine Respelling.word_node fun o t hholds => Bool.eq_false_iff.mpr fun ho => hk ?_
    obtain ⟨s, hs, rfl⟩ := Site.exists_reaches hn
    exact (reference_of_holds hglobals h.notThis hgroups hhit hs hholds ho).1
  hit s hs hk ho := by
    obtain ⟨t, hparts, -⟩ := hs.within.exists_token (by simp [hk, NodeKind.isUnit])
    have hholds := Node.holds_of_parts hparts
    refine ⟨(reference_of_holds hglobals h.notThis hgroups hhit hs hholds ho).2, ?_⟩
    have hparts' : ((Respelling.ofHits text isHit new).node s.node).parts =
        [.leaf ⟨.ident, new⟩] := by
      rw [Respelling.parts_node hparts, Respelling.token, if_pos ho]
      rfl
    exact Node.word_eq hparts' rfl
  missed s hs hk ho := by
    obtain ⟨t, hparts, hfits, hword, hlocated⟩ :=
      hs.within.exists_token (by simp [hk, NodeKind.isUnit])
    constructor
    · intro hresolve
      obtain ⟨g, hg, hname⟩ := List.mem_map.mp h.named
      have hmem : (⟨old, s⟩ : Reference) ∈ g.references := by
        rw [hgroups] at hg
        exact Globals.mem_references hg (Site.mem_descendants_iff.mpr hs) hresolve hname.symm
      have htrue : isHit s.node.start = true :=
        (hhit _ t hlocated).mpr ⟨g, hg, hname, ⟨old, s⟩, hmem, rfl⟩
      have hfalse : isHit s.node.start = false := ho
      simp [htrue] at hfalse
    · have hparts' : ((Respelling.ofHits text isHit new).node s.node).parts = [.leaf t] := by
        rw [Respelling.parts_node hparts, Respelling.token, if_neg (by simp [ho])]
      rw [hword, Node.word_eq hparts' (NodeKind.not_isTrivia_of_fits hfits)]
  fresh n hn := by
    intro heq
    rcases Node.word_eq_nil_or (n := n) with hnil | ⟨t, ht, hword⟩
    · exact h.new_ne_nil (heq.symm.trans hnil)
    · obtain ⟨before, after, htokens, -⟩ := stands_of_within hn
      exact h.absent t (by simp [htokens, ht]) (hword.trans heq)
  defined := h.new_ne.1
  plain := h.new_ne.2.1
  notThis := ⟨h.notThis, h.new_ne.2.2⟩

/-! ## the edited text -/

theorem exists_program (hglobals : globals source text = .ok groups) :
    ∃ source', parseProgram source text = .ok (parse source' text) ∧
      (parse source' text).problems = [] ∧
      groups = Globals.collect (Scopes.build (parse source' text).root)
        (parse source' text).root := by
  cases hp : parseProgram source text with
  | error fault => simp [globals_eq_error_iff.mpr hp] at hglobals
  | ok p =>
      obtain ⟨source', rfl⟩ := exists_parse hp
      refine ⟨source', rfl, ?_, ?_⟩
      · obtain ⟨heq, hnone⟩ := parseProgram_eq_ok_iff.mp hp
        rwa [← heq] at hnone
      · simpa [globals, hp, bind, Except.bind, globalsAt, Parse.root] using hglobals.symm

theorem globals_of_problems (h : (parseEither source text).problems = []) :
    globals source text = .ok (Globals.collect (Scopes.build (parseEither source text).root)
      (parseEither source text).root) := by
  simp [globals, parseProgram, h, bind, Except.bind, globalsAt, Parse.root]

theorem HitsAll.respelt (hhit : HitsAll groups old text isHit)
    (hglobals : globals source text = .ok groups) (h : Fresh text groups old new) :
    Respelt false none (tokenize text)
      ((Respelling.ofHits text isHit new).tokens 0 (tokenize text)) := by
  have hold := isName_of_mem_tokenize (h.mem_tokenize hglobals)
  have hword := isIdentifier_of_tokenize h.identifier
  have hnew : new ∉ contextualWords := fun hmem =>
    h.newWord (List.mem_cons_of_mem _ (List.mem_cons_of_mem _ hmem))
  refine Respelling.respelt_tokens (.ofHits text isHit new) hold hword
    fun before t after hsplit ho => ⟨?_, Or.inr ⟨h.oldWord, hnew⟩⟩
  exact hhit.token_eq hglobals h.notThis
    (Token.mem_locate_iff.mpr ⟨before, after, hsplit, rfl⟩) ho

/-- The edited text has the tokens of the text, but for those that are hit. -/
theorem tokenize_replaced (hglobals : globals source text = .ok groups)
    (h : Fresh text groups old new) (hhit : HitsAll groups old text isHit) :
    tokenize (Token.replaced new isHit (Token.locate 0 (tokenize text))) =
      (Respelling.ofHits text isHit new).tokens 0 (tokenize text) := by
  obtain ⟨source', -, hok, -⟩ := exists_program hglobals
  have htokens := tokenize_respelt hok (hhit.respelt hglobals h)
  rwa [Respelling.concat_tokens] at htokens

/-- The globals of the edited text are those of the text, moved. -/
theorem globals_replaced (hglobals : globals source text = .ok groups)
    (h : Fresh text groups old new) (hhit : HitsAll groups old text isHit) :
    globals source (Token.replaced new isHit (Token.locate 0 (tokenize text))) =
      .ok (Sort.sort (fun g g' => Text.le g.name g'.name)
        (groups.map ((Respelling.ofHits text isHit new).group old))) := by
  obtain ⟨source', hp, -, hgroups⟩ := exists_program hglobals
  have hblur := hhit.blur_token hglobals h
  have htokenize := tokenize_replaced hglobals h hhit
  have htokens : Tree.tokensAll (parse source' text).parts = tokenize text :=
    Draft.tokensAll_ofText source' text
  have hrespelt := hhit.respelt hglobals h
  rw [← htokenize] at hrespelt
  obtain ⟨p, hp', hparts⟩ := exists_parse_of_shape hrespelt hp
    (Respelling.mapAll_blur_trees (parse source' text).parts (htokens ▸ hblur)).symm
    (by rw [Respelling.tokensAll_trees, htokens, htokenize])
  have hroot : p.root = (Respelling.ofHits text isHit new).site (parse source' text).root := by
    have hmove := Respelling.move_ofHits isHit new (List.nil_append (tokenize text)).symm
    simp only [Parse.root, Respelling.site, Respelling.node, hparts, List.map_nil]
    rw [show (Respelling.ofHits text isHit new).move 0 = 0 from hmove]
  have hcollect := (renames_ofHits hglobals h hgroups hhit).collect_site
  rw [← hgroups, ← hroot] at hcollect
  rw [← hcollect]
  simp [globals, hp', bind, Except.bind, globalsAt, Parse.root]

/-- What a group says when its nodes stand elsewhere is what the group says, moved. -/
theorem Group.outline_map {φ : Node → Node} {move : Nat → Nat} {root : Site}
    (hkind : ∀ n, (φ n).kind = n.kind)
    (hspan : ∀ n, Node.Within root.node n → (φ n).span = n.span.map move) {g : Group}
    (hg : g ∈ Globals.collect (Scopes.build root) root) (ν : Text → Text) :
    (g.map φ ν fun a => ⟨a.name, φ a.node⟩).outline =
      { g.outline.moved move with name := ν g.name } := by
  have haccesses {as : List Access} (has : ∀ a ∈ as, a ∈ g.direct ++ g.aliased) :
      (as.map fun a => ⟨a.name, φ a.node⟩).map (fun a : Access => (a.name, a.node.span)) =
        (as.map fun a => (a.name, a.node.span)).map fun (name, span) =>
          (name, span.map move) := by
    rw [List.map_map, List.map_map]
    refine List.map_congr_left fun a ha => ?_
    simp [hspan _ (Globals.of_mem_accesses hg (has a ha)).1]
  have hreferences : (g.references.map (Reference.map φ ν)).map (fun r =>
        ((r.site.node :: r.site.above).map Node.kind, r.site.node.span)) =
      (g.references.map fun r =>
        ((r.site.node :: r.site.above).map Node.kind, r.site.node.span)).map
          fun (path, span) => (path, span.map move) := by
    rw [List.map_map, List.map_map]
    refine List.map_congr_left fun r hr => ?_
    have hwithin := Site.within_of_mem_descendants (Globals.of_mem_references hg hr).1
    simp [Reference.map, hkind, hspan _ hwithin, Function.comp_def]
  simp only [Group.outline, Group.map, Outline.moved, hreferences,
    haccesses fun a ha => List.mem_append_left _ ha,
    haccesses fun a ha => List.mem_append_right _ ha]

/-- What a moved group says is what the group says, moved. -/
theorem outline_group {ρ : Respelling} {root : Site} (h : ρ.Renames root old) {g : Group}
    (hg : g ∈ Globals.collect (Scopes.build root) root) :
    (ρ.group old g).outline = g.outline.renamed old ρ.word ρ.move := by
  have hspan (n : Node) (hn : Node.Within root.node n) :
      (ρ.node n).span = n.span.map ρ.move := Respelling.span_node (h.fits_node hn)
  exact Group.outline_map (fun _ => Respelling.kind_node) hspan hg (ρ.name old)

/-- What the rule that renames back hits in the edited text are the new names. -/
theorem hits_back_iff (hglobals : globals source text = .ok groups)
    (h : Fresh text groups old new) (hne : old ≠ new) (hhit : HitsAll groups old text isHit)
    {o : Nat} {t : Token}
    (ht : (o, t) ∈ Token.locate 0 ((Respelling.ofHits text isHit new).tokens 0 (tokenize text))) :
    (Rule.ofNames new old).Hits (Sort.sort (fun g g' => Text.le g.name g'.name)
        (groups.map ((Respelling.ofHits text isHit new).group old)))
      (Token.replaced new isHit (Token.locate 0 (tokenize text))) o t ↔ t.text = new := by
  have hhead : (Rule.ofNames new old).old.head ≠ (Rule.ofNames new old).new.head := hne.symm
  constructor
  · intro hhits
    rw [(Rule.of_hits (globals_replaced hglobals h hhit) hhits).2]
    exact (Rule.segments_ofNames hne.symm).1
  · intro hnew
    have hfits : (Respelling.ofHits text isHit new).Fits 0 (tokenize text) :=
      Respelling.fits_ofHits isHit new
    have hmove : (Respelling.ofHits text isHit new).move 0 = 0 :=
      Respelling.move_ofHits isHit new (List.nil_append (tokenize text)).symm
    have hlocate := hfits.locate_tokens
    rw [hmove] at hlocate
    rw [hlocate, List.mem_map] at ht
    obtain ⟨⟨o', t'⟩, ht', heq⟩ := ht
    obtain ⟨rfl, rfl⟩ := Prod.mk.inj heq
    -- a token that was kept does not spell the new name
    cases ho : isHit o' with
    | false =>
        rw [Respelling.token, if_neg (by simpa [Respelling.ofHits] using ho)] at hnew
        exact absurd hnew (h.absent t' (Token.mem_of_mem_locate ht'))
    | true =>
        obtain ⟨g, hg, hname, r, hr, rfl⟩ := (hhit o' t' ht').mp ho
        obtain rfl := hhit.token_eq hglobals h.notThis ht' ho
        obtain ⟨-, hparts, -⟩ := token_of_reference hglobals h.notThis hg hname hr
        rw [Rule.Hits, if_pos hhead]
        refine ⟨_, (Sort.mem_sort _).mpr (List.mem_map_of_mem hg), ?_, _,
          List.mem_map_of_mem hr, rfl, Respelling.parts_node hparts, by
            simp [Rule.ofNames, Path.second?]⟩
        simp [Respelling.group, Respelling.name, hname, Rule.ofNames, Respelling.ofHits]

/-- Putting the old name in place of the new one gives the text. -/
theorem replaced_back (hglobals : globals source text = .ok groups)
    (h : Fresh text groups old new) (hhit : HitsAll groups old text isHit)
    {isBack : Nat → Bool} (hback : ∀ p ∈ Token.locate 0
      ((Respelling.ofHits text isHit new).tokens 0 (tokenize text)),
        isBack p.1 = true ↔ p.2.text = new) :
    Token.replaced old isBack (Token.locate 0
      ((Respelling.ofHits text isHit new).tokens 0 (tokenize text))) = text := by
  have hspelt : Token.replaced old isBack (Token.locate 0
        ((Respelling.ofHits text isHit new).tokens 0 (tokenize text))) =
      ((Token.locate 0 ((Respelling.ofHits text isHit new).tokens 0 (tokenize text))).map
        Prod.snd).flatMap fun t => if t.text = new then old else t.text := by
    rw [Token.replaced, List.flatMap_map]
    exact List.flatMap_congr fun p hp => by simp only [hback p hp]
  have hconcat := Respelling.concat_of_tokens (.ofHits text isHit new)
    (fun p hp ho => hhit.token_eq hglobals h.notThis hp ho) h.absent
  rw [concat_tokenize] at hconcat
  rw [hspelt, Token.map_snd_locate]
  exact hconcat

theorem rename_of_renameIn {output : Text} {count : Nat}
    (h : renameIn source text old new = (output, .ok count)) :
    rename ((Options.default.withSource source).withRule old new) text = .ok output := by
  have hentries : ((Options.default.withSource source).withRule old new).rules.entries =
      [(old, new)] := rfl
  have hsource : ((Options.default.withSource source).withRule old new).source = source := rfl
  rw [rename, hentries, hsource, renameEach, h]
  rfl

/-- Renaming a global to a fresh name is faithful and can be undone.  The edited
text has the groups of the text, one of them under the new name and sorted
there: the same references and properties in the same order, where the edits
have moved them.  No group has the old name, and renaming back gives the text. -/
theorem rename_fresh_name (hglobals : globals source text = .ok groups)
    (h : Fresh text groups old new) :
    ∃ rule output groups', Rule.parse old new = .ok rule ∧
      rename ((Options.default.withSource source).withRule old new) text = .ok output ∧
      globals source output = .ok groups' ∧
      groups'.map Group.outline = Sort.sort (fun o o' => Text.le o.name o'.name)
        (groups.map fun g => g.outline.renamed old new (Edit.moved (rule.plan groups text))) ∧
      old ∉ groups'.map Group.name ∧
      rename ((Options.default.withSource source).withRule new old) output = .ok text := by
  have hmem := h.mem_tokenize hglobals
  have hne : old ≠ new := h.absent _ hmem
  have hold := isName_of_mem_tokenize hmem
  have hnew := (isIdentifier_of_tokenize h.identifier).isName
  have hparse := Rule.parse_names hold hnew
  obtain ⟨isHit, hhits, hplan, hrename⟩ := renameIn_eq hne hparse hglobals
  rw [(Rule.segments_ofNames hne).2] at hplan hrename
  have hhit : HitsAll groups old text isHit := fun o t ht =>
    (hhits (o, t) ht).trans (hits_ofNames_iff hglobals h hne ht)
  have hglobals' := globals_replaced hglobals h hhit
  refine ⟨_, _, _, hparse, rename_of_renameIn hrename, hglobals', ?_, ?_, ?_⟩
  · obtain ⟨source', -, -, hgroups⟩ := exists_program hglobals
    have hrenames := renames_ofHits hglobals h hgroups hhit
    have houtlines : (groups.map fun g => g.outline.renamed old new
          (Edit.moved ((Rule.ofNames old new).plan groups text))) =
        (groups.map ((Respelling.ofHits text isHit new).group old)).map Group.outline := by
      rw [List.map_map, hplan]
      exact List.map_congr_left fun g hg => (outline_group hrenames (hgroups ▸ hg)).symm
    rw [houtlines, Sort.sort_map fun o o' : Outline => Text.le o.name o'.name]
    rfl
  · simp only [List.mem_map, Sort.mem_sort, not_exists, not_and]
    rintro g' ⟨g, -, rfl⟩ hname
    simp only [Respelling.group, Respelling.name] at hname
    split at hname
    · exact hne hname.symm
    · next hother => exact hother hname
  · obtain ⟨isHit', hhits', -, hback⟩ :=
      renameIn_eq hne.symm (Rule.parse_names hnew hold) hglobals'
    rw [rename_of_renameIn hback, (Rule.segments_ofNames hne.symm).2]
    rw [tokenize_replaced hglobals h hhit] at hhits' ⊢
    exact congrArg Except.ok (replaced_back hglobals h hhit fun p hp =>
      (hhits' p hp).trans (hits_back_iff hglobals h hne hhit hp))

/-- A global that is divided, passed for a parameter and shadowed in a block.  Its
new name takes two bytes a letter, and comes after that of the other global. -/
theorem rename_divided_passed_shadowed :
    ∃ text groups, text = ("(function (w) \x7b w.x \x7d)(ab); ab.y / 2 / ab; " ++
        "\x7b let ab; ab / 2 \x7d; b").toList ∧
      globals .script text = .ok groups ∧ Fresh text groups "ab".toList "äß".toList ∧
      ∃ rule output groups', Rule.parse "ab".toList "äß".toList = .ok rule ∧
        rename ((Options.default.withSource .script).withRule "ab".toList "äß".toList) text =
          .ok output ∧
        globals .script output = .ok groups' ∧
        groups'.map Group.outline = Sort.sort (fun o o' => Text.le o.name o'.name)
          (groups.map fun g => g.outline.renamed "ab".toList "äß".toList
            (Edit.moved (rule.plan groups text))) ∧
        "ab".toList ∉ groups'.map Group.name ∧
        rename ((Options.default.withSource .script).withRule "äß".toList "ab".toList) output =
          .ok text := by
  obtain ⟨text, htext⟩ : ∃ text, text = ("(function (w) \x7b w.x \x7d)(ab); ab.y / 2 / ab; " ++
    "\x7b let ab; ab / 2 \x7d; b").toList := ⟨_, rfl⟩
  have hrun : (parseEither .script text).problems = [] ∧
      "ab".toList ∈ (Globals.collect (Scopes.build (parseEither .script text).root)
        (parseEither .script text).root).map Group.name ∧
      tokenize "äß".toList = [⟨.ident, "äß".toList⟩] ∧
      ∀ t ∈ tokenize text, t.text ≠ "äß".toList := by
    rw [htext]; decide +kernel
  obtain ⟨hok, hnamed, hidentifier, habsent⟩ := hrun
  have hglobals := globals_of_problems hok
  have hfresh : Fresh text _ "ab".toList "äß".toList :=
    ⟨hnamed, by decide, by decide, by decide, hidentifier, habsent⟩
  exact ⟨text, _, htext, hglobals, hfresh, rename_fresh_name hglobals hfresh⟩

end

end FreeNames
