import FreeNames.Proofs.Growth

/-!
# FreeNames.Proofs.Templates

Templates in the tree of a text without problems.  A `Template` is a row of chunks
with an expression between each two of them, the last one a tail and all others
heads.  The rules take chunks for templates and nowhere else; that this is so is
computed from the scripts of the productions (`Script.tidy`).  They do not look at
how a chunk starts, but a chunk that starts a template is a suffix of what comes
before it, unless that is shut.

Main statement: `chunked_root`.
-/

namespace FreeNames

/-! ## templates -/

/-- The parts of a template.  For each chunk `joins` holds with the expression before
it, if there is one. -/
inductive Template (joins : Option Tree → Token → Prop) : Option Tree → List Tree → Prop
  | tail {before : Option Tree} {t : Token} (kind : t.kind = .templateTail)
    (joined : joins before t) : Template joins before [.leaf t]
  | head {before : Option Tree} {t : Token} {k : NodeKind} {parts rest : List Tree}
    (kind : t.kind = .templateHead) (joined : joins before t) (expression : k.isExpression = true)
    (more : Template joins (some (.node k parts)) rest) :
    Template joins before (.leaf t :: .node k parts :: rest)

namespace Template

variable {joins joins' : Option Tree → Token → Prop} {before : Option Tree} {ts : List Tree}

theorem imp (h : Template joins before ts)
    (himp : ∀ before t, .leaf t ∈ ts → joins before t → joins' before t) :
    Template joins' before ts := by
  induction h with
  | tail hk hj => exact .tail hk (himp _ _ List.mem_cons_self hj)
  | head hk hj he _ ih =>
      refine .head hk (himp _ _ List.mem_cons_self hj) he (ih fun before t ht => ?_)
      exact himp before t (List.mem_cons_of_mem _ (List.mem_cons_of_mem _ ht))

theorem and (h : Template joins before ts) (h' : Template joins' before ts) :
    Template (fun before t => joins before t ∧ joins' before t) before ts := by
  induction h with
  | tail hk hj =>
      cases h' with
      | tail _ hj' => exact .tail hk ⟨hj, hj'⟩
  | head hk hj he _ ih =>
      cases h' with
      | head _ hj' _ hrest => exact .head hk ⟨hj, hj'⟩ he (ih hrest)

end Template

/-- A token starts with a backtick. -/
def Token.ticked (t : Token) : Bool := t.text.head? = some '\x60'

/-- A chunk that starts a template comes only after an expression that is shut. -/
def AfterShut (before : Option Tree) (t : Token) : Prop := t.ticked = true → ∀ e ∈ before, e.Shut

/-- A tree in which chunks are parts of templates only. -/
inductive Tree.Chunked (joins : Option Tree → Token → Prop) : Tree → Prop
  | leaf (t : Token) : Chunked joins (.leaf t)
  | template {parts : List Tree} (shape : Template joins none (solids parts))
    (all : ∀ p ∈ parts, Chunked joins p) : Chunked joins (.node .templateLiteral parts)
  | other {k : NodeKind} {parts : List Tree} (kind : k ≠ .templateLiteral)
    (plain : ∀ t, .leaf t ∈ parts → t.kind.isTemplate = false)
    (all : ∀ p ∈ parts, Chunked joins p) : Chunked joins (.node k parts)

/-! ## drafts without loose chunks -/

namespace Draft

/-- All trees are chunked, and none is a chunk. -/
structure Tidy (d : Draft) : Prop where
  chunked : d.Every (Tree.Chunked AfterShut)
  plain : ∀ t, .leaf t ∈ d.row → t.kind.isTemplate = false

variable {d e : Draft}

theorem mem_row_of_isTemplate {t : Token} (ht : t.kind.isTemplate = true)
    (hmem : .leaf t ∈ d.trees) : .leaf t ∈ d.row := by
  refine List.mem_filter.mpr ⟨hmem, ?_⟩
  cases hk : t.kind <;> simp_all [TokenKind.isTemplate, Tree.isSolid, Token.isTrivia,
    TokenKind.isTrivia]

theorem tidy_of_row (h : d.Every (Tree.Chunked AfterShut)) (hrow : d.row = []) : d.Tidy :=
  ⟨h, by simp [hrow]⟩

theorem Tidy.log (h : d.Tidy) (s : Step) : (d.log s).Tidy := ⟨h.chunked, h.plain⟩

theorem Tidy.placeTrivia (h : d.Tidy) : d.placeTrivia.Tidy :=
  ⟨h.chunked.placeTrivia .leaf, by rw [row_placeTrivia]; exact h.plain⟩

theorem Tidy.take (h : d.Tidy) (hk : d.kind.isTemplate = false) : d.take.Tidy := by
  refine ⟨h.chunked.take .leaf, fun t ht => ?_⟩
  cases hrest : d.rest with
  | nil =>
      rw [Draft.take, hrest] at ht
      exact h.placeTrivia.plain t ht
  | cons l ls =>
      by_contra htemplate
      rw [Bool.not_eq_false] at htemplate
      have hmem := (List.mem_filter.mp ht).1
      rw [take_cons hrest, trees_place] at hmem
      simp only [List.mem_append, List.mem_reverse, List.mem_map, Tree.leaf.injEq,
        exists_eq_right, List.mem_singleton] at hmem
      rcases hmem with (hgap | rfl) | hmem
      · have htrivia := l.gap.onlyTrivia t hgap
        cases hkind : t.kind <;> simp_all [TokenKind.isTemplate, Token.isTrivia, TokenKind.isTrivia]
      · simp [kind, kindAt, hrest, htemplate] at hk
      · simp [h.plain t (mem_row_of_isTemplate htemplate hmem)] at htemplate

/-- All the trees of a draft become the parts of a node. -/
theorem Tidy.chunked_node (h : d.Tidy) {k : NodeKind} (hk : k ≠ .templateLiteral) :
    Tree.Chunked AfterShut (.node k d.trees.reverse) := by
  refine .other hk (fun t ht => ?_) fun p hp => h.chunked p (List.mem_reverse.mp hp)
  by_contra htemplate
  rw [Bool.not_eq_false] at htemplate
  simp [h.plain t (mem_row_of_isTemplate htemplate (List.mem_reverse.mp ht))] at htemplate

/-- A node is put after the trees of a draft. -/
theorem Tidy.node {body : Draft → Draft} {k : NodeKind} (h : d.Tidy)
    (hbody : Tree.Chunked AfterShut
      (.node k (body (d.placeTrivia.apart.log (.start k))).trees.reverse)) :
    (d.node k body).Tidy := by
  constructor
  · refine Every.rejoin (fun t ht => ?_) h.placeTrivia.chunked
    rw [trees_log, trees_wrap, List.mem_singleton] at ht
    exact ht ▸ hbody
  · intro t ht
    rw [row_node, List.mem_cons] at ht
    exact h.plain t (ht.resolve_left (by simp))

theorem Tidy.enclose {body : Draft → Draft} {k : NodeKind} (hk : k ≠ .templateLiteral)
    (hbody : (body (d.log (.startAt d.base k))).Tidy) : (d.enclose k body).Tidy := by
  constructor
  · intro t ht
    rw [Draft.enclose, trees_log, trees_wrap, List.mem_singleton] at ht
    exact ht ▸ hbody.chunked_node hk
  · intro t ht
    simp [row_enclose] at ht

theorem Tidy.single (h : d.Tidy) {k : NodeKind} (hk : k ≠ .templateLiteral)
    (hkind : d.kind.isTemplate = false) : (d.single k).Tidy := by
  refine h.node (Tidy.chunked_node (Tidy.take ?_ (by simpa using hkind)) hk)
  exact tidy_of_row (every_started _ _) rfl

theorem chunked_group {body : Draft → Draft} (h : d.Every (Tree.Chunked AfterShut))
    (hbody : (body d.placeTrivia.apart).Every (Tree.Chunked AfterShut)) :
    (d.group body).Every (Tree.Chunked AfterShut) :=
  hbody.rejoin (h.placeTrivia .leaf)

theorem Tidy.group {body : Draft → Draft} (h : d.Tidy) (hbody : (body d.placeTrivia.apart).Tidy) :
    (d.group body).Tidy := by
  refine ⟨chunked_group h.chunked hbody.chunked, fun t ht => ?_⟩
  rw [row_group, List.mem_append] at ht
  exact ht.elim (hbody.plain t) (h.plain t)

end Draft

/-! ## scripts -/

/-- A script calls for the parts of a template. -/
def Script.callsParts : Script → Bool
  | .call .templateParts _ => true
  | _ => false

/-- A script takes chunks for templates only, and calls `new` where it comes next. -/
@[simp] def Script.tidy : Script → Sight → Bool
  | take, σ => σ.rulesOut TokenKind.isTemplate
  | single k, σ => k ≠ .templateLiteral && σ.rulesOut TokenKind.isTemplate
  | seq a b, σ => a.tidy σ && (a.flow true σ).all b.tidy
  | choose t a b, σ => (t.tell true σ).all a.tidy && (t.tell false σ).all b.tidy
  | look f, σ => (Sight.kinds σ.first).all fun k => (f k).tidy (σ.only k)
  | ask t f, σ => (t.tell true σ).all (f true).tidy && (t.tell false σ).all (f false).tidy
  | group a, σ => a.tidy σ
  | enclose k a, σ => k ≠ .templateLiteral && a.tidy σ
  | node k a, σ => if k = .templateLiteral then a.callsParts else a.tidy σ
  | .call p _, σ =>
    p ≠ .templateParts && (p ≠ .newExpr || σ.rulesOut fun k => k ≠ .keyword .newKw)
  | advance a, σ => a.tidy σ
  | list _ item, σ => σ.rulesOut TokenKind.isTemplate && item.tidy {}
  | _, _ => true

/-- What a production does to the trees: those for the parts of a template add these, and
all others leave no chunk behind. -/
structure Production.Tidies (p : Production) (d e : Draft) : Prop where
  tidy : p ≠ .templateParts → (p = .newExpr → d.kind = .keyword .newKw) → d.Tidy → e.Tidy
  expression : p = .expression → d.Every (Tree.Chunked AfterShut) → e.Every (Tree.Chunked AfterShut)
  parts : p = .templateParts → ∀ before : Option Tree, (d.Ticked → ∀ t ∈ before, t.Shut) →
    d.Every (Tree.Chunked AfterShut) → e.Every (Tree.Chunked AfterShut) ∧
      ∃ ts, e.row = ts.reverse ++ d.row ∧ Template AfterShut before ts

section

variable {start d : Draft} {σ : Sight} {call : Call}

/-- The parts of a template make one. -/
theorem Draft.Tidy.template {ctx : Context} (h : d.Tidy)
    (hparts : Production.templateParts.Tidies (d.placeTrivia.apart.log (.start .templateLiteral))
      (call .templateParts ctx (d.placeTrivia.apart.log (.start .templateLiteral)))) :
    (d.node .templateLiteral (call .templateParts ctx)).Tidy := by
  obtain ⟨hchunked, ts, hrow, htemplate⟩ :=
    hparts.parts rfl none (by simp) (Draft.every_started _ _)
  refine h.node (.template ?_ fun p hp => hchunked p (List.mem_reverse.mp hp))
  rw [Tree.solids_reverse]
  rw [Draft.row_log, Draft.row_apart, List.append_nil] at hrow
  rwa [← Draft.row, hrow, List.reverse_reverse]

/-- A tidy script leaves no chunk behind. -/
theorem Script.tidy_run (hobeys : Obeys true start call)
    (hcall : ∀ p ctx d, (call p ctx d).problems = [] → p.Tidies d (call p ctx d)) (ctx : Context)
    (s : Script) (hσ : σ.Fits true start d) (hs : s.tidy σ = true)
    (hrun : (s.run call ctx d).problems = []) (hd : d.Tidy) : (s.run call ctx d).Tidy := by
  induction s generalizing σ d with
  | done => exact hd
  | take => exact hd.take (hσ.of_rulesOut hs)
  | report c => simp [run] at hrun
  | single k =>
      obtain ⟨hk, hout⟩ := (Bool.and_eq_true ..).mp hs
      exact hd.single (of_decide_eq_true hk) (hσ.of_rulesOut hout)
  | seq a b iha ihb =>
      obtain ⟨ha, hb⟩ := (Bool.and_eq_true ..).mp hs
      have hmid : (a.run call ctx d).problems = [] := (hobeys.later_run ctx b _).problems hrun
      obtain ⟨τ, hfits, hτ⟩ := (fits_flow hobeys ctx a hσ fun _ => hmid).all hb
      exact ihb hfits hτ hrun (iha hσ ha hmid hd)
  | choose t a b iha ihb =>
      obtain ⟨ha, hb⟩ := (Bool.and_eq_true ..).mp hs
      rw [run] at hrun ⊢
      split at hrun
      · next ht =>
          obtain ⟨τ, hfits, hτ⟩ := (t.covers_tell ctx hσ ht).all ha
          rw [if_pos ht]
          exact iha hfits hτ hrun hd
      · next ht =>
          obtain ⟨τ, hfits, hτ⟩ := (t.covers_tell ctx hσ (Bool.not_eq_true _ ▸ ht)).all hb
          rw [if_neg ht]
          exact ihb hfits hτ hrun hd
  | look f ih => exact ih _ hσ.only (List.all_eq_true.mp hs _ hσ.first) hrun hd
  | ask t f ih =>
      obtain ⟨ha, hb⟩ := (Bool.and_eq_true ..).mp hs
      rw [run] at hrun ⊢
      cases ht : t.holds ctx d with
      | true =>
          rw [ht] at hrun
          obtain ⟨τ, hfits, hτ⟩ := (t.covers_tell ctx hσ ht).all ha
          exact ih _ hfits hτ hrun hd
      | false =>
          rw [ht] at hrun
          obtain ⟨τ, hfits, hτ⟩ := (t.covers_tell ctx hσ ht).all hb
          exact ih _ hfits hτ hrun hd
  | group a ih =>
      exact hd.group (ih (hσ.alike d.alike_opened) hs hrun
        (Draft.tidy_of_row (Draft.every_apart _) rfl))
  | enclose k a ih =>
      obtain ⟨hk, ha⟩ := (Bool.and_eq_true ..).mp hs
      exact Draft.Tidy.enclose (of_decide_eq_true hk)
        (ih (hσ.alike (d.alike_restarted k)) ha hrun (hd.log _))
  | node k a ih =>
      rw [tidy] at hs
      split at hs
      · next hk =>
          subst hk
          match a, hs with
          | .call .templateParts place, _ => exact hd.template (hcall _ _ _ hrun)
      · next hk =>
          have hbody := ih (hσ.alike (d.alike_started k)) hs hrun
            (Draft.tidy_of_row (Draft.every_started _ _) rfl)
          exact hd.node (hbody.chunked_node hk)
  | call p place =>
      obtain ⟨hp, hnew⟩ := (Bool.and_eq_true ..).mp hs
      refine (hcall p _ d hrun).tidy (of_decide_eq_true hp) (fun heq => ?_) hd
      simp only [heq, ne_eq, not_true_eq_false, decide_false, Bool.false_or] at hnew
      simpa using hσ.of_rulesOut hnew
  | advance a ih =>
      have hstep := Draft.advance_eq hrun
      rw [run, hstep] at hrun ⊢
      exact ih hσ hs hrun hd
  | list close item ih =>
      obtain ⟨hout, hitem⟩ := (Bool.and_eq_true ..).mp hs
      refine Draft.items_keep (hobeys.later_run ctx item) (fun e he hok htidy => ?_) _
        hσ.next.shrunk (hd.take (hσ.of_rulesOut hout)) hrun
      have hfits : Sight.Fits true start {} e :=
        { fits_start_strict e with shrunk := he, moved := nofun }
      have hdone := ih hfits hitem hok htidy
      exact ⟨hdone, fun hcomma => hdone.take (by rw [Draft.kind_of_sees hcomma]; rfl)⟩

/-- For a group the trees before it do not count. -/
theorem Script.chunked_group (hobeys : Obeys true start call)
    (hcall : ∀ p ctx d, (call p ctx d).problems = [] → p.Tidies d (call p ctx d)) (ctx : Context)
    {a : Script} (hσ : σ.Fits true start d) (hs : (group a).tidy σ = true)
    (hrun : ((group a).run call ctx d).problems = []) (hd : d.Every (Tree.Chunked AfterShut)) :
    ((group a).run call ctx d).Every (Tree.Chunked AfterShut) := by
  have hstart : d.placeTrivia.apart.Tidy := Draft.tidy_of_row (Draft.every_apart _) rfl
  exact Draft.chunked_group hd
    (tidy_run hobeys hcall ctx a (hσ.alike d.alike_opened) hs hrun hstart).chunked

end

/-! ## productions -/

/-- What is known when a production is called: `new` comes next where it is called for. -/
def Production.opening (p : Production) : Sight where
  first := if p = .newExpr then some [.keyword .newKw] else none

theorem Production.fits_opening {p : Production} {d : Draft}
    (h : p = .newExpr → d.kind = .keyword .newKw) : p.opening.Fits true d d :=
  { fits_start_strict d with
    first := by
      unfold opening
      split
      · next hp => simp [Sight.kinds, h hp]
      · exact Sight.mem_kinds_none _ }

set_option maxRecDepth 10000 in
theorem Production.tidy_script {p : Production} (hp : p ≠ .templateParts) :
    p.script.tidy p.opening = true := by
  cases p with
  | templateParts => exact absurd rfl hp
  | binary least => rfl
  | binaryTail least => rfl
  | suffixes calls => cases calls <;> decide +kernel
  | _ => decide +kernel

namespace Draft

variable {d : Draft}

/-- A chunk that comes next has a backtick if it starts a template. -/
theorem ticked_of_cons {l : Lexeme} {ls : List Lexeme} (h : d.rest = l :: ls)
    (hk : l.token.kind.isTemplate = true) (ht : l.token.ticked = true) : d.Ticked :=
  ⟨by simpa [kind, kindAt, h] using hk, by simpa [textAt, h, Token.ticked] using ht⟩

/-- The next token is taken as a chunk. -/
theorem exists_row_take {k : TokenKind} (hs : d.sees k = true) (hk : k.isTemplate = true)
    {before : Option Tree} (hbefore : d.Ticked → ∀ t ∈ before, t.Shut) :
    ∃ t : Token, t.kind = k ∧ AfterShut before t ∧ d.take.row = .leaf t :: d.row := by
  obtain ⟨l, ls, hrest, rfl⟩ := exists_cons_of_sees hs
  refine ⟨l.token, rfl, fun ht => hbefore (ticked_of_cons hrest hk ht), row_take hrest ?_⟩
  cases hkind : l.token.kind <;> simp_all [TokenKind.isTemplate, Token.isTrivia, TokenKind.isTrivia]

end Draft

/-- What the rule for the parts of a template does. -/
theorem tidies_templateParts {call : Call} (hgrows : Grows call)
    (hcall : ∀ p ctx d, (call p ctx d).problems = [] → p.Tidies d (call p ctx d))
    (hobeys : ∀ start, Obeys true start call) {ctx : Context} {d : Draft}
    (hrun : (Grammar.templateParts call ctx d).problems = []) {before : Option Tree}
    (hbefore : d.Ticked → ∀ t ∈ before, t.Shut) (hd : d.Every (Tree.Chunked AfterShut)) :
    (Grammar.templateParts call ctx d).Every (Tree.Chunked AfterShut) ∧
      ∃ ts, (Grammar.templateParts call ctx d).row = ts.reverse ++ d.row ∧
        Template AfterShut before ts := by
  unfold Grammar.templateParts at hrun ⊢
  split at hrun
  · next htail =>
      obtain ⟨t, hk, hafter, hrow⟩ := Draft.exists_row_take htail rfl hbefore
      rw [if_pos htail]
      exact ⟨hd.take .leaf, [.leaf t], by simpa using hrow, .tail hk hafter⟩
  next htail =>
  rw [if_neg htail]
  split at hrun
  · next hhead =>
      obtain ⟨t, hk, hafter, hrow⟩ := Draft.exists_row_take hhead rfl hbefore
      rw [if_pos hhead]
      generalize he : call .expression ctx.withIn d.take = e at hrun ⊢
      have hok : (call .expression ctx.withIn d.take).problems = [] := by
        rw [he]
        exact ((hobeys d).later .templateParts ctx e).problems hrun
      -- one node for the expression comes after the chunk
      have hfits := hgrows .expression _ _ d.take.row hok ⟨nofun, rfl, fun _ => Or.inl rfl⟩
      have hchunked := (hcall .expression _ _ hok).expression rfl (hd.take .leaf)
      rw [he] at hfits hchunked
      obtain ⟨k, parts, hnode, hexpr⟩ := hfits.row
      have hshut (htick : e.Ticked) : ∀ u ∈ some (Tree.node k parts), u.Shut := by
        obtain ⟨u, hlast, hu⟩ := (hfits.edge htick).resolve_left (by simp [Production.gives])
        rw [hnode] at hlast
        rintro v hv
        obtain rfl := Option.some.inj (hlast.symm.trans hv)
        exact hu.resolve_right id
      obtain ⟨hmore, ts, hts, htemplate⟩ :=
        (hcall .templateParts ctx e hrun).parts rfl _ hshut hchunked
      exact ⟨hmore, .leaf t :: .node k parts :: ts, by simp [hts, hnode, hrow],
        .head hk hafter hexpr htemplate⟩
  · simp at hrun

/-- Every production does to the trees what it is said to do. -/
theorem tidies_grammar (p : Production) (ctx : Context) (d : Draft)
    (h : (grammar p ctx d).problems = []) : p.Tidies d (grammar p ctx d) := by
  refine grammar_induction (P := fun p _ d e => p.Tidies d e)
    (fun call hobeys hcall p ctx d hrun => ?_) p ctx d h
  have hgrows : Grows call := fun q ctx e base hok => by
    have heq := (hcall q ctx e hok).1
    rw [heq] at hok ⊢
    exact grows_grammar q ctx e base hok
  have htidies (q : Production) (ctx : Context) (e : Draft) (hok : (call q ctx e).problems = []) :=
    (hcall q ctx e hok).2
  refine ⟨fun hp hnew hd => ?_, ?_, ?_⟩
  · exact Script.tidy_run (hobeys d) htidies ctx p.script (Production.fits_opening hnew)
      (Production.tidy_script hp) hrun hd
  · rintro rfl hd
    exact Script.chunked_group (hobeys d) htidies ctx
      (Production.fits_opening (p := .expression) (by simp))
      (Production.tidy_script (p := .expression) (by simp)) hrun hd
  · rintro rfl before hbefore hd
    rw [← Production.rule_eq_run] at hrun ⊢
    exact tidies_templateParts hgrows htidies hobeys hrun hbefore hd

/-! ## programs -/

section

variable {d : Draft} {ctx : Context} {source : SourceType}

theorem tidy_run_grammar {σ : Sight} {s : Script} (hσ : σ.Fits true d d) (hs : s.tidy σ = true)
    (hrun : (s.run grammar ctx d).problems = []) (hd : d.Tidy) : (s.run grammar ctx d).Tidy :=
  Script.tidy_run (obeys_grammar_strict d) tidies_grammar ctx s hσ hs hrun hd

theorem fits_kind {k : TokenKind} (h : d.kind = k) :
    Sight.Fits true d { first := some [k] } d :=
  { fits_start_strict d with first := by simp [Sight.kinds, h] }

theorem fits_kind_ne {k : TokenKind} (h : d.kind ≠ k) :
    Sight.Fits true d { first := some (TokenKind.every.filter fun k' => k' ≠ k) } d :=
  { fits_start_strict d with
    first := List.mem_filter.mpr ⟨d.kind.mem_every, by simpa using h⟩ }

/-- The names of an export, in braces. -/
def Script.exportNames (again : Bool) : Script :=
  list (.punct .rBrace) (exportSpecifier again) ++ expect (.punct .rBrace)

/-- The word after the names of an export is no chunk: it was seen before they were read. -/
theorem seesWord_exportNames {again : Bool} (hk : d.kind = .punct .lBrace)
    (hfrom : Test.fromAfter.holds ctx d = true)
    (hrun : ((Script.exportNames again).run grammar ctx d).problems = []) :
    ((Script.exportNames again).run grammar ctx d).seesWord "from" = true := by
  have hnames : (Script.exportNames again).run grammar ctx d =
      (Grammar.exportSpecifiers again d.rest.length d.take).expect (.punct .rBrace) := by
    rw [Script.exportSpecifiers_eq]
    rfl
  rw [hnames] at hrun ⊢
  exact Grammar.seesWord_exportSpecifiers hk hfrom hrun

theorem run_namedExports_of_from (hfrom : Test.fromAfter.holds ctx d = true) :
    Script.namedExports.run grammar ctx d =
      (Script.fromModule ++ Script.endStatement).run grammar ctx
        ((Script.exportNames true).run grammar ctx d).take := by
  rw [Script.namedExports, Script.run, hfrom]
  rfl

theorem tidy_namedExports (hk : d.kind = .punct .lBrace)
    (hrun : (Script.namedExports.run grammar ctx d).problems = []) (hd : d.Tidy) :
    (Script.namedExports.run grammar ctx d).Tidy := by
  have hlater (s : Script) (e : Draft) := (obeys_grammar_strict d).later_run ctx s e
  cases hfrom : Test.fromAfter.holds ctx d with
  | false =>
      rw [Script.namedExports, Script.run, hfrom] at hrun ⊢
      exact tidy_run_grammar (fits_kind hk) (by decide) hrun hd
  | true =>
      have hsource : (Script.fromModule ++ Script.endStatement).tidy {} = true := by decide
      have hnames : (Script.exportNames true).tidy { first := some [.punct .lBrace] } = true := by
        decide
      rw [run_namedExports_of_from hfrom] at hrun ⊢
      have hok := (hlater .take _).problems
        ((hlater (Script.fromModule ++ Script.endStatement) _).problems hrun)
      have hword := seesWord_exportNames hk hfrom hok
      have htidy := tidy_run_grammar (fits_kind hk) hnames hok hd
      refine tidy_run_grammar (fits_start_strict _) hsource hrun (htidy.take ?_)
      rw [Draft.kind_of_seesWord hword]
      rfl

theorem tidy_exported (hrun : (Script.exported.run grammar ctx d).problems = []) (hd : d.Tidy) :
    (Script.exported.run grammar ctx d).Tidy := by
  by_cases hk : d.kind = .punct .lBrace
  · have heq : Script.exported.run grammar ctx d = Script.namedExports.run grammar ctx d := by
      simp only [Script.exported, Script.run, hk]
    rw [heq] at hrun ⊢
    exact tidy_namedExports hk hrun hd
  · exact tidy_run_grammar (fits_kind_ne hk) (by decide) hrun hd

theorem tidy_exportDeclaration (hk : d.kind = .keyword .exportKw)
    (hrun : ((Script.exportDeclaration source).run grammar ctx d).problems = []) (hd : d.Tidy) :
    ((Script.exportDeclaration source).run grammar ctx d).Tidy := by
  cases source with
  | script =>
      have hreport := ((obeys_grammar_strict d).later_run ctx
        (.node .exportDecl (Script.take ++ Script.exported)) (d.report .moduleOnly)).problems hrun
      simp at hreport
  | module =>
      refine hd.node (Draft.Tidy.chunked_node (tidy_exported hrun ?_) (by simp))
      refine Draft.Tidy.take (Draft.tidy_of_row (Draft.every_started _ _) rfl) ?_
      simp only [Draft.kind_log, Draft.kind_apart, Draft.kind_placeTrivia, Script.requireModule,
        Script.run, hk]
      rfl

theorem tidy_moduleItem (hrun : ((Script.moduleItem source).run grammar ctx d).problems = [])
    (hd : d.Tidy) : ((Script.moduleItem source).run grammar ctx d).Tidy := by
  by_cases hk : d.kind = .keyword .exportKw
  · have heq : (Script.moduleItem source).run grammar ctx d =
        (Script.exportDeclaration source).run grammar ctx d := by
      simp only [Script.moduleItem, Script.run, hk]
    rw [heq] at hrun ⊢
    exact tidy_exportDeclaration hk hrun hd
  · exact tidy_run_grammar (fits_kind_ne hk) (by cases source <;> decide) hrun hd

theorem tidy_programItems (bound : Nat)
    (hrun : (programItems grammar source bound d).problems = []) (hd : d.Tidy) :
    (programItems grammar source bound d).Tidy := by
  induction bound generalizing d with
  | zero => exact hd
  | succ bound ih =>
      rw [programItems] at hrun ⊢
      split at hrun
      · next hended =>
          rw [if_pos hended]
          exact hd
      · next hended =>
          rw [if_neg hended]
          refine ih hrun ?_
          have hitem := (steady_later.programItems later_grammar source bound _).problems hrun
          have hstep := Draft.advance_eq hitem
          rw [hstep, ← Script.run_moduleItem] at hitem ⊢
          exact tidy_moduleItem hitem hd

end

/-- In a text without problems the chunks are parts of templates, and a chunk that starts a
template comes after another one only if the expression between them is shut. -/
theorem chunked_root {source : SourceType} {text : Text}
    (h : (parse source text).problems = []) :
    Tree.Chunked AfterShut (.node .program (parse source text).parts) := by
  have hproblems : (Draft.ofText source text).problems = [] := by simpa [parse] using h
  have hitems : Draft.ofText source text =
      (programItems grammar source (Draft.ofTokens (tokenize text)).rest.length
        (Draft.ofTokens (tokenize text))).placeTrivia := by
    rw [Draft.ofText,
      programItems_eq_grammar source (Nat.le_refl _) (Nat.le_refl _) (Nat.le_refl _)]
  rw [hitems, Draft.problems_placeTrivia] at hproblems
  have hstart : (Draft.ofTokens (tokenize text)).Tidy :=
    Draft.tidy_of_row (by simp [Draft.Every, Draft.ofTokens]) rfl
  have htidy := (tidy_programItems _ hproblems hstart).placeTrivia
  rw [← hitems] at htidy
  exact htidy.chunked_node (by simp)

end FreeNames
