import FreeNames.Proofs.Spelling
import FreeNames.Proofs.Tally
import FreeNames.Proofs.Units

/-!
# FreeNames.Proofs.Roles

What identifiers are there for.  An identifier is the only token of a node, which names,
refers to, labels or keys something, or it is a word that means something of its own
directly inside a larger node.  `NodeKind.keywords` lists these words for each kind of
node, so that a word is never taken where it has no meaning.

Main statement: `identifier_roles`, in any text nodes of one token hold a token that fits
them, and in a text without problems each identifier is directly inside one node, in one
of the two roles.
-/

namespace FreeNames

/-- The words that stand directly inside a node for what they mean there. -/
def NodeKind.keywords : NodeKind → List String
  | .varDecl => ["let"]
  | .functionDecl | .functionExpr | .arrowFunction => ["async"]
  | .method => ["static", "get", "set", "async"]
  | .classField | .staticBlock => ["static"]
  | .forStmt | .forInStmt | .awaitExpr => ["await"]
  | .forOfStmt => ["await", "of"]
  | .yieldExpr => ["yield"]
  | .importDecl => ["from"]
  | .importSpecifier | .importNamespaceSpecifier | .exportSpecifier => ["as"]
  | .exportDecl => ["as", "from"]
  | _ => []

theorem NodeKind.keywords_contextual {k : NodeKind} {w : String} (h : w ∈ k.keywords) :
    w.toList ∈ contextualWords := by
  have hall : ∀ w ∈ k.keywords, w.toList ∈ contextualWords := by
    cases k <;> decide +kernel
  exact hall w h

theorem Tree.leaf_mem_solids {ts : List Tree} {t : Token} (ht : .leaf t ∈ ts)
    (hk : t.kind = .ident) : .leaf t ∈ solids ts :=
  List.mem_filter.mpr ⟨ht, by simp [isSolid, Token.isTrivia, hk, TokenKind.isTrivia]⟩

/-! ## words through the scripts -/

/-- The identifiers directly among trees. -/
structure Words where
  known : List String
  /-- There may be others. -/
  unknown : Bool

namespace Words

def none : Words := ⟨[], false⟩

def union (b c : Words) : Words := ⟨b.known ++ c.known, b.unknown || c.unknown⟩

def le (b c : Words) : Bool := b.known.all c.known.contains && (!b.unknown || c.unknown)

/-- The next token is taken. -/
def take (σ : Sight) (b : Words) : Words :=
  if σ.rulesOut fun k => k = .ident then b
  else
    match σ.word with
    | some w => { b with known := w :: b.known }
    | .none => { b with unknown := true }

/-- Gathering the identifiers that are taken directly into a node. -/
def tally : Tally Words where
  empty := none
  add := union
  take σ b := some (b.take σ)
  wrap _ _ := none
  closes k b := k.isUnit || b.le ⟨k.keywords, false⟩
  join b c := some (b.union c)
  le := le
  widen b := b
  needs _ := none
  gives _ := none

/-- All identifiers directly among trees are accounted for. -/
def Means (b : Words) (ts : List Tree) : Prop :=
  ∀ t : Token, .leaf t ∈ ts → t.kind = .ident →
    b.unknown = true ∨ ∃ w ∈ b.known, t.text = w.toList

/-- Identifiers directly inside a node of more than one token are words that mean something
there. -/
def Spoken (k : NodeKind) (parts : List Tree) : Prop :=
  k.isUnit = false → ∀ t : Token, .leaf t ∈ parts → t.kind = .ident →
    ∃ w ∈ k.keywords, t.text = w.toList

variable {b c : Words} {ts us : List Tree}

theorem Means.mono (h : Means b ts) (hle : b.le c = true) : Means c ts := by
  obtain ⟨hknown, hunknown⟩ := (Bool.and_eq_true ..).mp hle
  intro t ht hk
  rcases h t ht hk with hb | ⟨w, hw, htext⟩
  · exact Or.inl (by simpa [hb] using hunknown)
  · exact Or.inr ⟨w, by simpa using List.all_eq_true.mp hknown w hw, htext⟩

theorem Means.union_left (h : Means b ts) (c : Words) : Means (b.union c) ts := fun t ht hk =>
  (h t ht hk).imp (fun hb => by simp [union, hb])
    fun ⟨w, hw, htext⟩ => ⟨w, List.mem_append_left _ hw, htext⟩

theorem Means.union_right (h : Means c ts) (b : Words) : Means (b.union c) ts := fun t ht hk =>
  (h t ht hk).imp (fun hc => by simp [union, hc])
    fun ⟨w, hw, htext⟩ => ⟨w, List.mem_append_right _ hw, htext⟩

theorem Means.append (hb : Means b ts) (hc : Means b us) : Means b (ts ++ us) := fun t ht =>
  (List.mem_append.mp ht).elim (hb t) (hc t)

theorem le_take (σ : Sight) (b : Words) : b.le (b.take σ) = true := by
  unfold take
  split
  · simp [le]
  · split
    · simpa [le] using fun x hx => Or.inr hx
    · simp [le]

/-- What is known of the next token is true of it. -/
theorem means_take {start d : Draft} {σ : Sight} {l : Lexeme} {ls : List Lexeme}
    (hσ : σ.Fits true start d) (hrest : d.rest = l :: ls) (b : Words) :
    Means (b.take σ) [.leaf l.token] := by
  have hkind : d.kind = l.token.kind := by simp [Draft.kind, Draft.kindAt, hrest]
  intro t ht hk
  obtain rfl := Tree.leaf.inj (List.mem_singleton.mp ht)
  unfold take
  split
  · next hout =>
      have hne := hσ.of_rulesOut hout
      simp [hkind, hk] at hne
  · split
    · next w hw =>
        have hword := hσ.word w hw
        simp only [Draft.seesWord, Draft.wordAt, Bool.and_eq_true, decide_eq_true_eq] at hword
        refine Or.inr ⟨w, List.mem_cons_self, ?_⟩
        simpa [Draft.textAt, hrest] using hword.2
    · exact Or.inl rfl

theorem lawful_tally : tally.Lawful Means Spoken where
  empty := nofun
  add hb hc := (hb.union_left _).append (hc.union_right _)
  take {_ _ σ b _ _ _ _} hσ hrest _ htake hb := by
    obtain rfl := Option.some.inj htake
    exact (hb.mono (le_take σ b)).append (means_take hσ hrest b)
  wrap k _ _ _ ht := by simp at ht
  closes {b k parts} hcloses hb hunit t ht hk := by
    have hle : b.le ⟨k.keywords, false⟩ = true := by simpa [tally, hunit] using hcloses
    exact (hb.mono hle t (Tree.leaf_mem_solids ht hk) hk).resolve_left nofun
  join {b c _ _} hjoin hb := by
    obtain rfl := Option.some.inj hjoin
    exact hb.elim (·.union_left c) (·.union_right b)
  mono hle hb := hb.mono hle

end Words

set_option maxRecDepth 10000 in
/-- Productions take words into nodes that these mean something in. -/
theorem Production.read_words (p : Production) :
    (((Spelling.full.script p).read Words.tally.reading p.entry (Words.tally.reading.needs p)).all
      fun g => Words.tally.reading.le g (Words.tally.reading.gives p)) = true := by
  cases p with
  | binary least => rfl
  | binaryTail least => rfl
  | suffixes calls => cases calls <;> decide +kernel
  | _ => decide +kernel

theorem holds_words : Words.tally.reading.Holds (Count.Fits Words.Means Words.Spoken) grammar :=
  Words.lawful_tally.sound.holds_grammar .full Production.read_words

set_option maxRecDepth 10000 in
theorem read_words_moduleItem (source : SourceType) :
    (((Spelling.full.item source).read Words.tally.reading {} ⟨true, some .none, true⟩).all fun g =>
      Words.tally.countLe g ⟨true, some .none, true⟩) = true := by
  cases source <;> decide

theorem spoken_root {source : SourceType} {text : Text} (h : (parse source text).problems = []) :
    Tree.All Words.Spoken (parse source text).tree := by
  obtain ⟨hall, hmeans⟩ := Words.lawful_tally.ofText (S := .full) holds_words
    (read_words_moduleItem source) rfl h
  refine .node (fun _ t ht hk => ?_) hall
  simpa [Words.none] using hmeans t (Tree.leaf_mem_solids ht hk) hk

/-! ## roles -/

/-- Nodes of one token hold one that fits them, in any text.  In a text without problems an
identifier is directly inside one node only: it is the token of a node of one token, or a
word that means something of its own in a larger node. -/
theorem identifier_roles (source : SourceType) (text : Text) :
    (∀ s ∈ (parse source text).root.descendants, s.node.kind.isUnit = true →
      ∃ t, s.node.parts = [.leaf t] ∧ t.isTrivia = false ∧ s.node.kind.fits t.kind = true) ∧
    ((parse source text).problems = [] →
      ∀ o t, (o, t) ∈ Token.locate 0 (tokenize text) → t.kind = .ident →
        ∃ s ∈ (parse source text).root.descendants, s.node.Holds o t ∧
          (∀ s' ∈ (parse source text).root.descendants, s'.node.Holds o t → s' = s) ∧
          (s.node.kind.isUnit = true ∧ s.node.parts = [.leaf t] ∨
            s.node.kind.isUnit = false ∧ t.text ∈ contextualWords ∧
              ∃ w ∈ s.node.kind.keywords, t.text = w.toList)) := by
  have hunit {s : Site} (hs : s ∈ (parse source text).root.descendants)
      (hk : s.node.kind.isUnit = true) :
      ∃ t, s.node.parts = [.leaf t] ∧ s.node.kind.fits t.kind = true := by
    obtain ⟨t, hparts, hfits, -⟩ := (Site.within_of_mem_descendants hs).exists_token hk
    exact ⟨t, hparts, hfits⟩
  refine ⟨fun s hs hk => ?_, fun h o t ht hk => ?_⟩
  · obtain ⟨t, hparts, hfits⟩ := hunit hs hk
    exact ⟨t, hparts, NodeKind.not_isTrivia_of_fits hfits, hfits⟩
  · have hlocate : (o, t) ∈ Token.locate (parse source text).root.node.start
        (Tree.tokensAll (parse source text).root.node.parts) := by
      rw [tokensAll_root]
      exact ht
    obtain ⟨s, hreach, hholds⟩ := Site.exists_holds hlocate
    have hs := Site.mem_descendants_iff.mpr hreach
    refine ⟨s, hs, hholds, fun s' hs' hholds' =>
      (Site.mem_descendants_iff.mp hs').eq_of_holds hreach hholds' hholds, ?_⟩
    obtain ⟨before, after, hparts, -⟩ := hholds
    have hmem : .leaf t ∈ s.node.parts := by simp [hparts]
    cases hkind : s.node.kind.isUnit with
    | true =>
        obtain ⟨u, hu, -⟩ := hunit hs hkind
        rw [hu, List.mem_singleton] at hmem
        exact Or.inl ⟨rfl, by rw [hmem, hu]⟩
    | false =>
        obtain ⟨w, hw, htext⟩ := ((spoken_root h).of_mem_descendants hs).1 hkind t hmem hk
        exact Or.inr ⟨rfl, htext ▸ NodeKind.keywords_contextual hw, w, hw, htext⟩

theorem identifier_roles_accessor :
    ∃ p, p = parse .script "class async \x7b static get get() \x7b\x7d \x7d".toList ∧
      p.problems = [] ∧
      (∃ s ∈ p.root.descendants, s.node.kind = .propertyKey ∧ s.node.span = ⟨25, 28⟩ ∧
        ∃ t, s.node.parts = [.leaf t] ∧ t.isTrivia = false ∧ s.node.kind.fits t.kind = true) ∧
      ∃ s ∈ p.root.descendants, s.node.Holds 21 ⟨.ident, "get".toList⟩ ∧
        (s.node.kind.isUnit = true ∧ s.node.parts = [.leaf ⟨.ident, "get".toList⟩] ∨
          s.node.kind.isUnit = false ∧ "get".toList ∈ contextualWords ∧
            ∃ w ∈ s.node.kind.keywords, "get".toList = w.toList) := by
  have hrun :
      (parse .script "class async \x7b static get get() \x7b\x7d \x7d".toList).problems = [] ∧
      (21, ⟨.ident, "get".toList⟩) ∈
        Token.locate 0 (tokenize "class async \x7b static get get() \x7b\x7d \x7d".toList) ∧
      ∃ s ∈ (parse .script
          "class async \x7b static get get() \x7b\x7d \x7d".toList).root.descendants,
        s.node.kind = .propertyKey ∧ s.node.span = ⟨25, 28⟩ := by
    decide +kernel
  obtain ⟨hunits, hroles⟩ :=
    identifier_roles .script "class async \x7b static get get() \x7b\x7d \x7d".toList
  obtain ⟨h, hget, k, hk, hkind, hspan⟩ := hrun
  obtain ⟨s, hs, hholds, -, hrole⟩ := hroles h 21 _ hget rfl
  exact ⟨_, rfl, h, ⟨k, hk, hkind, hspan, hunits k hk (by rw [hkind]; rfl)⟩, s, hs, hholds, hrole⟩

end FreeNames
