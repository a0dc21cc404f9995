import FreeNames.Proofs.FreshName
import FreeNames.Proofs.SourceTypes
import FreeNames.Proofs.Substitution

/-!
# FreeNames.Proofs.PropertyNames

Names of properties that are spelt otherwise (`HitsProperties`).  They stand after
dots, where a word means nothing of its own, so the edited text is parsed like the
text, by the same kind of source if that is settled (`Settled`).

Main statement: `HitsProperties.globals_replaced`, the edited text has the tokens
that were put in and the globals that the text had, each property under the name
that it is given.
-/

namespace FreeNames

/-! ## tokens that spell an identifier -/

theorem Name.scan_ne_privateName (cs : Text) : (Name.scan cs).1 ≠ .privateName := by
  simp only [scan, kindOf]
  split
  · simp
  · split
    · simp
    · split <;> simp
  · simp

/-- A private name does not begin as a name does. -/
theorem ne_privateName {text : Text} {t : Token} (ht : t ∈ tokenize text)
    (hname : Name.IsName t.text) : t.kind ≠ .privateName := by
  obtain ⟨m, first, d, cs, rfl⟩ := exists_scan_of_mem_tokensFrom ht
  obtain ⟨c, x, hx, hstarts⟩ := hname.exists_cons
  have hd : d = c := by
    have hhead := congrArg List.head? hx
    have hpos := m.scan_pos first d cs
    rw [List.head?_take, if_neg (by omega)] at hhead
    simpa using hhead
  subst hd
  rw [Mode.scan_of_starts hstarts]
  exact Name.scan_ne_privateName _

/-- A property whose name spells an identifier is named by an identifier. -/
theorem kind_eq_ident {text : Text} {t : Token} (ht : t ∈ tokenize text)
    (hkind : t.kind.isIdentifierName = true ∨ t.kind = .privateName)
    (hid : IsIdentifier t.text) : t.kind = .ident := by
  rcases hkind with hkind | hkind
  · cases hk : t.kind with
    | ident => rfl
    | keyword k =>
        have hnone := List.find?_eq_none.mp hid.unreserved k k.mem_all
        exact absurd (text_eq_spelling ht hk).symm (by simpa using hnone)
    | _ => simp [hk, TokenKind.isIdentifierName] at hkind
  · exact absurd hkind (ne_privateName ht hid.isName)

/-! ## what stands before a property -/

/-- Wherever a node stands, what comes before it puts dots before its properties. -/
theorem Node.Within.exists_dotted {root n : Node} (h : Within root n) {last : Option TokenKind}
    (hroot : (Tree.node root.kind root.parts).Dotted last) :
    ∃ before after, Tree.tokensAll root.parts = before ++ (Tree.tokensAll n.parts ++ after) ∧
      n.start = root.start + Token.sizeAll before ∧
      (Tree.node n.kind n.parts).Dotted (before.foldl Token.seen last) := by
  induction h with
  | refl => exact ⟨[], [], by simp, by simp, hroot⟩
  | child _ hc ih =>
      obtain ⟨before, after, htokens, hstart, hdotted⟩ := ih
      obtain ⟨first, rest, hparts, hstart'⟩ := mem_among hc
      rw [hparts] at htokens
      have hinner := hdotted.2
      rw [hparts, Tree.dottedAll_append] at hinner
      refine ⟨before ++ Tree.tokensAll first, Tree.tokensAll rest ++ after, ?_, ?_, ?_⟩
      · simp [htokens]
      · rw [hstart', hstart, Tree.sizeAll_eq, Token.sizeAll_append, Nat.add_assoc]
      · rw [List.foldl_append]
        exact hinner.2.1

/-! ## which parse is in force -/

mutual

theorem Tree.length_moduleItems_map (f : Token → Token) (start stop : Nat) : (t : Tree) →
    ((t.map f).moduleItems stop).length = (t.moduleItems start).length
  | .leaf t => by simp [map, moduleItems]
  | .node k ps => by
      rw [map, moduleItems, moduleItems, List.length_append, List.length_append,
        length_moduleItemsAll_mapAll f start stop ps]
      split <;> rfl

theorem Tree.length_moduleItemsAll_mapAll (f : Token → Token) (start stop : Nat) :
    (ts : List Tree) →
      (moduleItemsAll stop (mapAll f ts)).length = (moduleItemsAll start ts).length
  | [] => by simp [mapAll]
  | t :: ts => by
      rw [mapAll, moduleItemsAll, moduleItemsAll, List.length_append, List.length_append,
        length_moduleItems_map f start stop t,
        length_moduleItemsAll_mapAll f (start + t.size) (stop + (t.map f).size) ts]

end

/-- A script needs to be taken for a module if it has imports or exports. -/
theorem needsModule_iff (text : Text) : (parse .script text).needsModule = true ↔
    0 < (Tree.moduleItemsAll 0 (parse .script text).parts).length := by
  have hnoted : ((parse .script text).problems.filter Problem.isModuleOnly).map (·.span.start) =
      Tree.moduleItemsAll 0 (parse .script text).parts := noted_ofText text
  rw [← hnoted, List.length_map, List.length_pos_iff, Parse.needsModule, List.any_eq_true]
  simp [List.filter_eq_nil_iff, Problem.isModuleOnly]

theorem parseEither_of_ok {source : SourceType} {text : Text}
    (hok : (parse source text).problems = []) : parseEither source text = parse source text := by
  have hneeds : (parse source text).needsModule = false := by simp [Parse.needsModule, hok]
  simp [parseEither, hneeds]

section

variable {source : SourceType} {text text' : Text}

theorem parse_of_respelt_of_ok (hok : (parse source text).problems = [])
    (h : Respelt true none (tokenize text) (tokenize text')) :
    Tree.mapAll Token.blur (parse source text).parts =
        Tree.mapAll Token.blur (parse source text').parts ∧
      (parse source text').problems = [] := by
  have htwin := twin_ofText_of_ok hok h
  have hcauses : (parse source text).problems.map Problem.cause =
      (parse source text').problems.map Problem.cause := by
    simp [parse, htwin.causes]
  refine ⟨by simp [parse, Tree.mapAll_eq, htwin.trees], ?_⟩
  simpa [hok] using hcauses.symm

/-- Which of its parses a text has does not hang on names after dots: the text is
fine as it is, the new tokens `us` look the same everywhere, or no `await` makes a
script another text than a module. -/
def Settled (source : SourceType) (text : Text) (us : List Token) : Prop :=
  (parse source text).problems = [] ∨ Respelt false none (tokenize text) us ∨
    ⟨.ident, "await".toList⟩ ∉ tokenize text ∧ ⟨.ident, "await".toList⟩ ∉ us

theorem needsModule_of_respelt (hok : (parse .module text).problems = [])
    (h : Respelt true none (tokenize text) (tokenize text'))
    (hnone : ⟨.ident, "await".toList⟩ ∉ tokenize text)
    (hnone' : ⟨.ident, "await".toList⟩ ∉ tokenize text')
    (hneeds : (parse .script text).needsModule = true) :
    (parse .script text').needsModule = true := by
  have hshape := (parse_of_respelt_of_ok hok h).1
  rw [parse_module_eq hnone, parse_module_eq hnone'] at hshape
  rw [needsModule_iff] at hneeds ⊢
  rw [← Tree.length_moduleItemsAll_mapAll Token.blur 0 0] at hneeds ⊢
  rwa [← hshape]

theorem parseEither_of_settled (hok : (parseEither source text).problems = [])
    (h : Respelt true none (tokenize text) (tokenize text'))
    (hsettled : Settled source text (tokenize text')) :
    ∃ source', parseEither source text = parse source' text ∧
      parseEither source text' = parse source' text' := by
  have hfine (hok : (parse source text).problems = []) :
      ∃ source', parseEither source text = parse source' text ∧
        parseEither source text' = parse source' text' :=
    ⟨source, parseEither_of_ok hok, parseEither_of_ok (parse_of_respelt_of_ok hok h).2⟩
  rcases hsettled with hown | hrespelt | ⟨hnone, hnone'⟩
  · exact hfine hown
  · exact parseEither_of_respelt hrespelt source
  · by_cases hmodule : source = .script ∧ (parse source text).needsModule = true
    · obtain ⟨rfl, hneeds⟩ := hmodule
      have heither : parseEither .script text = parse .module text := by
        simp [parseEither, hneeds]
      rw [heither] at hok
      have hneeds' := needsModule_of_respelt hok h hnone hnone' hneeds
      exact ⟨.module, heither, by simp [parseEither, hneeds']⟩
    · have heither : parseEither source text = parse source text := by
        have hfalse : (source = .script && (parse source text).needsModule) = false := by
          simpa using hmodule
        simp [parseEither, hfalse]
      exact hfine (heither ▸ hok)

/-- The edited text has the parse of the same kind, of the same shape. -/
theorem parseProgram_of_settled {program : Parse} (hp : parseProgram source text = .ok program)
    (h : Respelt true none (tokenize text) (tokenize text'))
    (hsettled : Settled source text (tokenize text')) :
    ∃ source', program = parse source' text ∧ (parse source' text).problems = [] ∧
      parseProgram source text' = .ok (parse source' text') ∧
      Tree.mapAll Token.blur (parse source' text).parts =
        Tree.mapAll Token.blur (parse source' text').parts := by
  obtain ⟨rfl, hok⟩ := parseProgram_eq_ok_iff.mp hp
  obtain ⟨source', heither, heither'⟩ := parseEither_of_settled hok h hsettled
  rw [heither] at hok
  obtain ⟨hshape, hok'⟩ := parse_of_respelt_of_ok hok h
  rw [← heither'] at hok'
  exact ⟨source', heither, hok, parseProgram_eq_ok_iff.mpr ⟨heither'.symm, hok'⟩, hshape⟩

end

/-! ## properties that are hit -/

/-- Only names of properties are hit, which spell one name. -/
def HitsProperties (program : Parse) (text old : Text) (isHit : Nat → Bool) : Prop :=
  ∀ o t, (o, t) ∈ Token.locate 0 (tokenize text) → isHit o = true → t = ⟨.ident, old⟩ ∧
    ∃ n, Node.Within program.root.node n ∧ n.kind = .propertyName ∧ n.start = o ∧
      n.parts = [.leaf t]

/-- An access, where it stands afterwards, under the name it has there. -/
def Respelling.property (ρ : Respelling) (a : Access) : Access :=
  ⟨(ρ.node a.node).word, ρ.node a.node⟩

namespace HitsProperties

variable {source : SourceType} {text old new : Text} {isHit : Nat → Bool}

theorem dotted (h : HitsProperties (parse source text) text old isHit)
    {before after : List Token} {t : Token} (hsplit : tokenize text = before ++ t :: after)
    (ho : isHit (Token.sizeAll before) = true) :
    (before.foldl Token.seen none).any TokenKind.isDot = true := by
  have hlocated : (Token.sizeAll before, t) ∈ Token.locate 0 (tokenize text) :=
    Token.mem_locate_iff.mpr ⟨before, after, hsplit, by simp⟩
  obtain ⟨-, n, hn, hk, hstart, hparts⟩ := h _ t hlocated ho
  have hroot : (Tree.node (parse source text).root.node.kind
      (parse source text).root.node.parts).Dotted none := ⟨nofun, dottedAll_parse source text⟩
  obtain ⟨before', after', htokens, hstart', hdotted⟩ := hn.exists_dotted hroot
  rw [tokensAll_root] at htokens
  -- what comes before the token is known by where the token starts
  have hsize : Token.sizeAll before = Token.sizeAll before' := by
    rw [← hstart, hstart', show (parse source text).root.node.start = 0 from rfl, Nat.zero_add]
  have hmove := congrArg (Respelling.ofHits text isHit t.text).move hsize
  rw [Respelling.move_ofHits isHit t.text hsplit,
    Respelling.move_ofHits isHit t.text htokens] at hmove
  have hword : (Respelling.ofHits text isHit t.text).word ≠ [] :=
    text_ne_nil_of_mem_tokenize (Token.mem_of_mem_locate hlocated)
  rw [(Respelling.eq_of_sizeAll_tokens hword hsplit htokens hmove).1]
  exact hdotted.1 hk

theorem respelt (h : HitsProperties (parse source text) text old isHit) (hold : Name.IsName old)
    (hnew : IsIdentifier new) :
    Respelt true none (tokenize text)
      ((Respelling.ofHits text isHit new).tokens 0 (tokenize text)) := by
  refine Respelling.respelt_tokens (.ofHits text isHit new) hold hnew
    fun before t after hsplit ho => ?_
  rw [Nat.zero_add] at ho
  have hlocated : (Token.sizeAll before, t) ∈ Token.locate 0 (tokenize text) :=
    Token.mem_locate_iff.mpr ⟨before, after, hsplit, by simp⟩
  exact ⟨(h _ t hlocated ho).1, Or.inl ⟨rfl, h.dotted hsplit ho⟩⟩

/-- Only properties have tokens directly inside that are hit. -/
theorem kind_of_holds (h : HitsProperties (parse source text) text old isHit) {n : Node}
    (hn : Node.Within (parse source text).root.node n) {o : Nat} {t : Token}
    (hholds : n.Holds o t) (ho : isHit o = true) : n.kind = .propertyName := by
  have hlocated := (stands_of_within hn).locate_subset hholds.mem_locate
  obtain ⟨-, m, hm, hk, rfl, hparts⟩ := h o t hlocated ho
  obtain ⟨s, hs, rfl⟩ := Site.exists_reaches hn
  obtain ⟨s', hs', rfl⟩ := Site.exists_reaches hm
  rw [hs.eq_of_holds hs' hholds (Node.holds_of_parts hparts)]
  exact hk

theorem blur_token (h : HitsProperties (parse source text) text old isHit) :
    ∀ p ∈ Token.locate 0 (tokenize text),
      ((Respelling.ofHits text isHit new).token p.1 p.2).blur = p.2.blur := by
  rintro ⟨o, t⟩ ht
  rw [Respelling.token]
  split
  · next ho =>
      obtain ⟨rfl, -⟩ := h o t ht ho
      rfl
  · rfl

theorem carriesGlobals (h : HitsProperties (parse source text) text old isHit)
    (hnew : IsIdentifier new) :
    CarriesGlobals (Respelling.ofHits text isHit new).node id
      (Respelling.ofHits text isHit new).property (parse source text).root := by
  have hfits : (Respelling.ofHits text isHit new).Fits 0
      (Tree.tokensAll (parse source text).root.node.parts) := by
    rw [tokensAll_root]
    exact Respelling.fits_ofHits isHit new
  have hcarries : Carries (Respelling.ofHits text isHit new).node (parse source text).root.node :=
    Respelling.carries hfits
  have hword (n : Node) (hn : Node.Within (parse source text).root.node n)
      (hk : n.kind ≠ .propertyName) :
      ((Respelling.ofHits text isHit new).node n).word = n.word :=
    Respelling.word_node fun o t hholds => Bool.eq_false_iff.mpr fun ho =>
      hk (h.kind_of_holds hn hholds ho)
  have hscopes : CarriesScopes (Respelling.ofHits text isHit new).node
      (parse source text).root :=
    { toCarries := hcarries
      top := rfl
      injective := fun n m hn hm heq => by
        obtain ⟨s, hs, -, hn⟩ := hn
        have hwithin : Node.Within (parse source text).root.node n := by
          rcases List.mem_cons.mp hn with rfl | hn
          · exact hs.within
          · exact hs.within_above rfl hn
        exact Respelling.eq_of_node_eq hnew.isName.ne_nil h.blur_token (stands_of_within hm)
          (stands_of_within hwithin) heq
      word := fun n hn _ hk => hword n hn hk }
  refine hscopes.carriesGlobals (fun n hn hk => hword n hn (by simp [hk])) fun n hn => ?_
  rw [Globals.access?, Globals.access?, Node.property?, hcarries.child?_map hn, Option.map_map,
    Option.map_map]
  rfl

/-- The tree of the edited text is that of the text, moved. -/
theorem root_replaced (h : HitsProperties (parse source text) text old isHit) {text' : Text}
    (htokens : tokenize text' = (Respelling.ofHits text isHit new).tokens 0 (tokenize text))
    (hshape : Tree.mapAll Token.blur (parse source text).parts =
      Tree.mapAll Token.blur (parse source text').parts) :
    (parse source text').root =
      (parse source text).root.map (Respelling.ofHits text isHit new).node := by
  have hold : Tree.tokensAll (parse source text).parts = tokenize text :=
    Draft.tokensAll_ofText source text
  have hparts : (parse source text').parts =
      (Respelling.ofHits text isHit new).trees 0 (parse source text).parts := by
    refine Tree.eq_of_mapAll_eq _ _ (hshape.symm.trans ?_) ?_
    · exact (Respelling.mapAll_blur_trees _ (hold ▸ h.blur_token)).symm
    · rw [Respelling.tokensAll_trees, hold, ← htokens]
      exact Draft.tokensAll_ofText source text'
  have hmove := Respelling.move_ofHits isHit new (List.nil_append (tokenize text)).symm
  simp only [Parse.root, Site.map, Respelling.node, hparts, List.map_nil]
  rw [show (Respelling.ofHits text isHit new).move 0 = 0 from hmove]

/-- The edited text has the tokens of the text, but for those that are hit, and the
globals of the text, moved.  The accesses have the names that were put in. -/
theorem globals_replaced {program : Parse} {groups : List Group}
    (h : HitsProperties program text old isHit) (hp : parseProgram source text = .ok program)
    (hglobals : globals source text = .ok groups) (hold : Name.IsName old)
    (hnew : IsIdentifier new)
    (hsettled : Settled source text
      ((Respelling.ofHits text isHit new).tokens 0 (tokenize text))) :
    tokenize (Token.replaced new isHit (Token.locate 0 (tokenize text))) =
        (Respelling.ofHits text isHit new).tokens 0 (tokenize text) ∧
      globals source (Token.replaced new isHit (Token.locate 0 (tokenize text))) =
        .ok (groups.map (Group.map (Respelling.ofHits text isHit new).node id
          (Respelling.ofHits text isHit new).property)) := by
  obtain ⟨source', hp', hok, hgroups⟩ := exists_program hglobals
  obtain rfl : parse source' text = program := Except.ok.inj (hp'.symm.trans hp)
  have htokens := tokenize_respelt hok (h.respelt hold hnew)
  rw [Respelling.concat_tokens] at htokens
  change tokenize (Token.replaced new isHit _) = _ at htokens
  have hrespelt := h.respelt hold hnew
  rw [← htokens] at hrespelt hsettled
  -- the text may have one tree as a script and as a module
  obtain ⟨source'', heq, -, hedited, hshape⟩ := parseProgram_of_settled hp hrespelt hsettled
  rw [heq] at h hgroups
  refine ⟨htokens, ?_⟩
  have hcollect := (h.carriesGlobals hnew).collect_map_id
  rw [← h.root_replaced htokens hshape, ← hgroups] at hcollect
  rw [← hcollect]
  simp [globals, hedited, bind, Except.bind, globalsAt, Parse.root]

end HitsProperties

end FreeNames
