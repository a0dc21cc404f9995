import FreeNames.Proofs.Brackets
import FreeNames.Proofs.Footing

/-!
# FreeNames.Proofs.Semicolons

Where semicolons may be left out.  Most rules ask about line ends just before the token
that matters, and `Script.weave` follows them.  An arrow function is different: whether
it comes next is seen past its parameters, by counting brackets.  Parameters that are
read without a problem are such a group (`Script.length_arrowParameters`), so what was seen of
the arrow is true when it is reached.

Main statement: `semicolons_inserted`, in a text without problems nodes that end
without a semicolon do so where they may, and no line ends where none may.
-/

namespace FreeNames

/-! ## bracketed groups -/

namespace Draft

/-- What one token does to the length of a group depends on the bracket that it is. -/
theorem groupLength_mark (depth : Nat) (l : Lexeme) (ls : List Lexeme) :
    groupLength depth (l :: ls) =
      match Mark.ofKind? l.token.kind with
      | none => 1 + groupLength depth ls
      | some (.opening _) => 1 + groupLength (depth + 1) ls
      | some (.closing _) => if depth ≤ 1 then 1 else 1 + groupLength (depth - 1) ls := by
  rw [groupLength]
  cases l.token.kind with
  | punct p => cases p <;> rfl
  | _ => rfl

theorem groupLength_append_plain {ls : List Lexeme}
    (h : ∀ l ∈ ls, Mark.ofKind? l.token.kind = none) (depth : Nat) (rest : List Lexeme) :
    groupLength depth (ls ++ rest) = ls.length + groupLength depth rest := by
  induction ls with
  | nil => simp
  | cons l ls ih =>
      rw [List.forall_mem_cons] at h
      rw [List.cons_append, groupLength_mark, h.1]
      simp only [ih h.2, List.length_cons]
      omega

theorem brackets_tokens (ls : List Lexeme) :
    brackets (ls.map Lexeme.token) = ls.filterMap fun l => Mark.ofKind? l.token.kind :=
  List.filterMap_map ..

/-- A properly nested word stays inside the group that is open. -/
theorem groupLength_append_dyck {ls : List Lexeme} (h : Dyck (brackets (ls.map Lexeme.token)))
    (depth : Nat) (rest : List Lexeme) :
    groupLength (depth + 1) (ls ++ rest) = ls.length + groupLength (depth + 1) rest := by
  rw [brackets_tokens] at h
  generalize hw : (ls.filterMap fun l => Mark.ofKind? l.token.kind) = w at h
  induction h generalizing ls depth rest with
  | nil => exact groupLength_append_plain (List.filterMap_eq_nil_iff.mp hw) _ rest
  | pair b _ _ ihinner ihrest =>
      rw [List.cons_append, List.filterMap_eq_cons_iff] at hw
      obtain ⟨as, l, bs, rfl, has, hl, hbs⟩ := hw
      obtain ⟨cs, ds, rfl, hcs, hds⟩ := List.filterMap_eq_append_iff.mp hbs
      obtain ⟨es, m, fs, rfl, hes, hm, hfs⟩ := List.filterMap_eq_cons_iff.mp hds
      have hopen : groupLength (depth + 1) (l :: (cs ++ (es ++ m :: (fs ++ rest)))) =
          1 + groupLength (depth + 1 + 1) (cs ++ (es ++ m :: (fs ++ rest))) := by
        rw [groupLength_mark, hl]
      have hclose : groupLength (depth + 1 + 1) (m :: (fs ++ rest)) =
          1 + groupLength (depth + 1) (fs ++ rest) := by
        rw [groupLength_mark, hm]
        exact if_neg (by omega)
      simp only [List.append_assoc, List.cons_append, groupLength_append_plain has, hopen,
        ihinner _ _ hcs, groupLength_append_plain hes, hclose, ihrest _ _ hfs,
        List.length_append, List.length_cons]
      omega

/-- No line ends after the parameters that come next, a name or a group in parentheses. -/
def FlatAfter (d : Draft) : Prop :=
  d.kind = .ident ∧ d.newlineAt 1 = false ∨
    d.kind = .punct .lParen ∧ d.newlineAt (groupLength 0 d.rest) = false

theorem FlatAfter.congr {d e : Draft} (h : d.FlatAfter) (he : e.Alike d)
    (hline : ∀ n, e.newlineAt n = d.newlineAt n) : e.FlatAfter := by
  have hlength : groupLength 0 e.rest = groupLength 0 d.rest :=
    groupLength_congr (congrArg (List.map Token.kind) he.ahead) 0
  rw [FlatAfter, he.kind, hline, hline, hlength]
  exact h

/-- Parameters are seen to be followed by an arrow on the same line. -/
theorem flat_of_arrowAt {d : Draft} {n : Nat}
    (h : (match d.kindAt n with
      | .ident => Grammar.seesArrow.arrowAt d (n + 1)
      | .punct .lParen => Grammar.seesArrow.arrowAt d (d.afterGroup n)
      | _ => false) = true) :
    d.kindAt n = .ident ∧ d.kindAt (n + 1) = .punct .fatArrow ∧ d.newlineAt (n + 1) = false ∨
      d.kindAt n = .punct .lParen ∧ d.newlineAt (d.afterGroup n) = false := by
  split at h
  · next hk =>
      simp only [Grammar.seesArrow.arrowAt, Bool.and_eq_true, decide_eq_true_eq,
        Bool.not_eq_true'] at h
      exact Or.inl ⟨hk, h⟩
  · next hk =>
      simp only [Grammar.seesArrow.arrowAt, Bool.and_eq_true, Bool.not_eq_true'] at h
      exact Or.inr ⟨hk, h.2⟩
  · cases h

/-- An arrow function that is seen has its arrow where no line ends before it; so has
`async` what comes after it. -/
theorem flatAfter_of_seesArrow {d : Draft} (h : Grammar.seesArrow d = true) :
    if (d.seesWord "async" && d.kindAt 1 ≠ .punct .fatArrow) = true then
      d.newlineAt 1 = false ∧ d.take.FlatAfter
    else d.FlatAfter := by
  unfold Grammar.seesArrow at h
  by_cases hasync : (d.seesWord "async" &&
      (d.kindAt 1 = .ident || d.kindAt 1 = .punct .lParen) && !d.newlineAt 1) = true
  · simp only [hasync, if_true] at h
    have hflat := flat_of_arrowAt h
    simp only [Bool.and_eq_true, Bool.not_eq_true'] at hasync
    obtain ⟨⟨hword, -⟩, hline⟩ := hasync
    have hrest := rest_ne_nil_of_kind (kind_of_seesWord hword) (by simp)
    have hne : d.kindAt 1 ≠ .punct .fatArrow := by
      rcases hflat with ⟨hk, -⟩ | ⟨hk, -⟩ <;> simp [hk]
    rw [if_pos (by simp [hword, hne])]
    refine ⟨hline, ?_⟩
    rw [FlatAfter, Draft.kind, kindAt_take_succ, newlineAt_take_succ hrest,
      newlineAt_take_succ hrest]
    rcases hflat with ⟨hk, -, hnext⟩ | ⟨hk, hnext⟩
    · exact Or.inl ⟨hk, hnext⟩
    · refine Or.inr ⟨hk, ?_⟩
      obtain ⟨l, ls, hls⟩ := List.exists_cons_of_ne_nil hrest
      have htake : d.take.rest = d.rest.drop 1 := by
        rw [take_cons hls, hls]
        rfl
      rw [htake, Nat.add_comm]
      exact hnext
  · simp only [hasync, Bool.false_eq_true, if_false] at h
    rcases flat_of_arrowAt h with ⟨hk, harrow, hnext⟩ | ⟨hk, hnext⟩
    · rw [if_neg (by simp [harrow])]
      exact Or.inl ⟨hk, hnext⟩
    · rw [if_neg (by simp [seesWord, wordAt, hk])]
      refine Or.inr ⟨hk, ?_⟩
      simpa [afterGroup] using hnext

end Draft

/-! ## parameters before an arrow -/

theorem brackets_solid (ts : List Token) : brackets (Token.solid ts) = brackets ts := by
  have hleaves (us : List Token) : Tree.brackets (us.map .leaf) = brackets us := by
    rw [Tree.brackets, Tree.tokensAll_map_leaf]
  have hsolids : Tree.solids (ts.map .leaf) = (Token.solid ts).map .leaf := List.filter_map ..
  rw [← hleaves, ← hsolids, Tree.brackets_solids, hleaves]

/-- Tokens that a production takes are properly nested. -/
theorem rest_grammar {p : Production} (hp : p.continues = false ∧ p ≠ .newExpr) {ctx : Context}
    {d : Draft} (hsifted : d.Sifted) (hd : d.Every (Tree.All Bracket.Good))
    (h : (grammar p ctx d).problems = []) :
    ∃ ls ms, d.rest = ls ++ ms ∧ ms.map Lexeme.token = (grammar p ctx d).ahead ∧
      Dyck (brackets (ls.map Lexeme.token)) := by
  have hfits := holds_brackets p ctx d hsifted h (fun heq => absurd heq hp.2) d.row
    (.needs Bracket.lawful_tally hp.1 hd)
  obtain ⟨ts, hrow, hdyck⟩ := hfits.sum [] rfl
  have hreads : Draft.Reads d (grammar p ctx d) := Draft.steady_reads.derive _ p ctx d
  obtain ⟨new, htrees, -, hleft⟩ := hreads
  -- the tokens taken have the brackets of the trees that were added
  have hmarks : Tree.brackets ts = brackets new := by
    have hsolids (e : Draft) : Tree.brackets e.trees.reverse = Tree.brackets e.row.reverse := by
      rw [← Tree.brackets_solids, Tree.solids_reverse, Draft.row]
    have hall : Tree.brackets (grammar p ctx d).trees.reverse =
        Tree.brackets d.trees.reverse ++ brackets new := by
      rw [Tree.brackets, htrees]
      exact List.filterMap_append
    rw [hsolids, hrow, List.reverse_append, List.reverse_reverse, Tree.brackets_append,
      ← hsolids] at hall
    exact List.append_cancel_left hall
  have hahead : d.rest.map Lexeme.token = Token.solid new ++ (grammar p ctx d).ahead := by
    have hlater := hsifted.later (later_grammar p ctx d)
    rw [← Draft.ahead, ← hsifted.solid_left, hleft, Token.solid_append, hlater.solid_left]
  obtain ⟨ls, ms, hrest, hls, hms⟩ := List.map_eq_append_iff.mp hahead
  refine ⟨ls, ms, hrest, hms, ?_⟩
  rw [hls, brackets_solid, ← hmarks]
  exact hdyck

namespace Script

/-- The parameters of an arrow function. -/
def arrowParameters (isAsync : Bool) : Script :=
  choose (.sees .ident) (node .paramList bindingName)
    (parameterList fun ctx => ⟨isAsync, false, ctx.noIn⟩)

/-- The rest of an arrow function, from its arrow on. -/
def arrowRest (isAsync : Bool) : Script :=
  expect (.punct .fatArrow) ++
    choose (.sees (.punct .lBrace)) (call .block fun _ => ⟨isAsync, false, false⟩)
      (call .assignment fun ctx => ⟨isAsync, false, ctx.noIn⟩)

/-- All parts of an arrow function. -/
def arrowParts (isAsync : Bool) : Script :=
  takeIf (.given isAsync) ++ arrowParameters isAsync ++ arrowRest isAsync

theorem async_mem_contextualWords : "async".toList ∈ contextualWords := by decide

def arrowBody : Script :=
  ask (.and (.seesWord "async" async_mem_contextualWords)
    (.kindAt 1 fun k => k ≠ .punct .fatArrow)) arrowParts

variable {call : Call} {ctx : Context} {d : Draft}

theorem run_expect {k : TokenKind} (h : ((expect k).run call ctx d).problems = []) :
    d.sees k = true ∧ (expect k).run call ctx d = d.take := by
  by_cases hk : d.sees k = true
  · exact ⟨hk, if_pos hk⟩
  · have hreport : (expect k).run call ctx d = d.report (.expected k) := if_neg hk
    simp [hreport] at h

/-- What is read in parentheses is the group that comes next. -/
theorem length_parenthesized (hcall : Trusted call) {place : Context → Context}
    (hd : d.Sifted) (hevery : d.Every (Tree.All Bracket.Good))
    (hrun : ((expect (.punct .lParen) ++ .call .parameters place ++
      expect (.punct .rParen)).run call ctx d).problems = []) :
    d.rest.length = ((expect (.punct .lParen) ++ .call .parameters place ++
      expect (.punct .rParen)).run call ctx d).rest.length + Draft.groupLength 0 d.rest := by
  have hlater := (hcall.obeys d).later_run ctx
  change ((expect (.punct .rParen)).run call ctx (call .parameters (place ctx)
    ((expect (.punct .lParen)).run call ctx d))).problems = [] at hrun
  change d.rest.length = ((expect (.punct .rParen)).run call ctx (call .parameters (place ctx)
    ((expect (.punct .lParen)).run call ctx d))).rest.length + _
  have hparams := (hlater (expect (.punct .rParen)) _).problems hrun
  obtain ⟨hopen, hfirst⟩ := run_expect (((hcall.obeys d).later _ _ _).problems hparams)
  obtain ⟨hclose, hlast⟩ := run_expect hrun
  rw [hlast, Draft.length_rest_take]
  rw [hfirst] at hparams hclose ⊢
  have heq := hcall.eq_grammar hparams
  rw [heq] at hparams hclose ⊢
  obtain ⟨l, ls, hrest, hl⟩ := Draft.exists_cons_of_sees hopen
  obtain ⟨inner, ms, hinner, hms, hdyck⟩ := rest_grammar (by decide)
    (hd.later (steady_later.take d)) (hevery.take .leaf) hparams
  have htake : d.take.rest = ls := by
    rw [Draft.take_cons hrest]
    rfl
  obtain ⟨m, ns, hend, hm⟩ := Draft.exists_cons_of_sees hclose
  rw [Draft.ahead, hend, List.map_cons] at hms
  obtain ⟨m', ns', rfl, hm', hns⟩ := List.map_eq_cons_iff.mp hms
  rw [htake] at hinner
  have hlength := congrArg List.length hns
  have hopened : Draft.groupLength 0 (l :: ls) = 1 + Draft.groupLength 1 ls := by
    rw [Draft.groupLength_mark, hl]
    rfl
  have hclosed : Draft.groupLength 1 (m' :: ns') = 1 := by
    rw [Draft.groupLength_mark, hm', hm]
    rfl
  rw [hrest, hend, hopened, hinner, Draft.groupLength_append_dyck hdyck 0, hclosed]
  simp only [List.length_map, List.length_cons, List.length_append] at hlength ⊢
  omega

/-- Parameters that are a name take it, and those in parentheses the group. -/
theorem length_arrowParameters (hcall : Trusted call) {isAsync : Bool} (hd : d.Sifted)
    (hrun : ((arrowParameters isAsync).run call ctx d).problems = []) :
    (d.kind = .ident →
      d.rest.length = ((arrowParameters isAsync).run call ctx d).rest.length + 1) ∧
    (d.kind = .punct .lParen →
      d.rest.length = ((arrowParameters isAsync).run call ctx d).rest.length +
        Draft.groupLength 0 d.rest) := by
  have halike := d.alike_started .paramList
  have hlength : (d.placeTrivia.apart.log (.start .paramList)).rest.length = d.rest.length := by
    simp
  refine ⟨fun hk => ?_, fun hk => ?_⟩
  · have hsees {e : Draft} (he : e.kind = .ident) : (Test.sees .ident).holds ctx e = true := by
      rw [Test.holds, e.sees_eq (by simp)]
      exact decide_eq_true he
    have hpos := List.length_pos_iff.mpr (Draft.rest_ne_nil_of_kind hk (by simp))
    have hname : bindingName.run call ctx (d.placeTrivia.apart.log (.start .paramList)) =
        (d.placeTrivia.apart.log (.start .paramList)).single .name :=
      if_pos (hsees (halike.kind.trans hk))
    rw [arrowParameters, run_choose]
    simp only [hsees hk, if_true, run_node]
    rw [Draft.node, hname]
    change _ = (Draft.single _ _).rest.length + 1
    rw [Draft.length_rest_single, hlength]
    omega
  · have hsees : (Test.sees .ident).holds ctx d = false := by
      rw [Test.holds, d.sees_eq (by simp), hk]
      rfl
    rw [arrowParameters, run_choose] at hrun ⊢
    simp only [hsees, Bool.false_eq_true, if_false] at hrun ⊢
    have hgroup := length_parenthesized hcall (hd.alike halike) (Draft.every_started _ _) hrun
    rw [hlength, Draft.groupLength_congr (congrArg (List.map Token.kind) halike.ahead) 0] at hgroup
    exact hgroup

/-- No line ends after the parameters of an arrow function, if none was seen to. -/
theorem newline_arrowParameters (hcall : Trusted call) {isAsync : Bool} (hd : d.Sifted)
    (hflat : d.FlatAfter) (hrun : ((arrowParameters isAsync).run call ctx d).problems = []) :
    ((arrowParameters isAsync).run call ctx d).newline = false := by
  obtain ⟨hname, hgroup⟩ := length_arrowParameters hcall hd hrun
  rw [Draft.newline, (hcall.run Draft.steady_slides hrun).newlineAt 0, Nat.zero_add]
  rcases hflat with ⟨hk, hline⟩ | ⟨hk, hline⟩
  · rw [hname hk, Nat.add_sub_cancel_left]
    exact hline
  · rw [hgroup hk, Nat.add_sub_cancel_left]
    exact hline

end Script

/-! ## the grammar -/

/-- How well trees are punctuated that may be parts of a loop. -/
def Grade.of (inLoop : Bool) : Grade := if inLoop then .inLoop else .punctuated

theorem Grade.fits_of {inLoop : Bool} {d : Draft} :
    (of inLoop).Fits d ↔ d.Punctuated inLoop := by
  cases inLoop <;> rfl

/-- Nothing is known of the tokens that come next and of the last part. -/
theorem Footing.fits_start {a : Grade} {d : Draft} (hd : d.Aligned) (h : a.Fits d)
    (k : NodeKind) : Fits k { grade := a } d :=
  ⟨hd, Outlook.fits_default d, nofun, nofun, LastPart.fits_any _, h⟩

namespace Script

variable {call : Call} {ctx : Context} {d : Draft} {isAsync inLoop : Bool}

/-- What is known before the arrow of an arrow function when no line ends there. -/
def beforeArrow : Footing where
  ahead := { flat := true }
  joined := true
  last := LastPart.addNode {}
  grade := .punctuated

theorem fits_arrowParts (hcall : Trusted call) (hasync : isAsync = true → d.kind = .ident)
    (hflat : ((takeIf (.given isAsync)).run call ctx d).FlatAfter)
    (hd : Footing.Fits .arrowFunction
      { ahead := { flatNext := isAsync }, joined := true, last := .nothing
        grade := .punctuated } d)
    (hrun : ((arrowParts isAsync).run call ctx d).problems = []) :
    Footing.Fits .arrowFunction { joined := true, grade := .punctuated }
      ((arrowParts isAsync).run call ctx d) := by
  have hlater := (hcall.obeys d).later_run ctx
  have hmid := (hlater (arrowRest isAsync) _).problems hrun
  have hparams : Footing.Fits .arrowFunction { beforeArrow with ahead := {} }
      ((takeIf (.given isAsync) ++ arrowParameters isAsync).run call ctx d) := by
    cases isAsync with
    | false => exact fits_of_weave hcall rfl (fits_start_strict d) hd hmid
    | true =>
        have hσ := (fits_start_strict d).only
        rw [hasync rfl] at hσ
        exact fits_of_weave hcall rfl hσ hd hmid
  have hline := newline_arrowParameters hcall
    (hd.aligned.lined.sifted.later (hlater (takeIf (.given isAsync)) d)) hflat hmid
  have harrow : beforeArrow.Fits .arrowFunction
      ((takeIf (.given isAsync) ++ arrowParameters isAsync).run call ctx d) :=
    { hparams with ahead := ⟨fun _ => hline, nofun, nofun⟩ }
  have hrest (isAsync : Bool) : (((arrowRest isAsync).weave .arrowFunction {} beforeArrow).all
      fun f => f.le { joined := true, grade := .punctuated }) = true := by
    cases isAsync <;> rfl
  exact fits_of_weave (s := arrowRest isAsync) hcall (hrest isAsync) (fits_start_strict _) harrow
    hrun

/-- The parts of an arrow function that was seen are joined. -/
theorem fits_arrowBody (hcall : Trusted call) (harrow : Grammar.seesArrow d = true)
    (hd : Footing.Fits .arrowFunction
      { joined := true, last := .nothing, grade := .punctuated } d)
    (hrun : (arrowBody.run call ctx d).problems = []) :
    Footing.Fits .arrowFunction { joined := true, grade := .punctuated }
      (arrowBody.run call ctx d) := by
  have hflat := Draft.flatAfter_of_seesArrow harrow
  have hparts : arrowBody.run call ctx d =
      (arrowParts (d.seesWord "async" && d.kindAt 1 ≠ .punct .fatArrow)).run call ctx d := rfl
  rw [hparts] at hrun ⊢
  cases hasync : d.seesWord "async" && d.kindAt 1 ≠ .punct .fatArrow with
  | false =>
      rw [hasync] at hrun hflat
      exact fits_arrowParts hcall nofun hflat { hd with ahead := Outlook.fits_default d } hrun
  | true =>
      rw [hasync] at hrun hflat
      have hident : d.kind = .ident :=
        Draft.kind_of_seesWord ((Bool.and_eq_true ..).mp hasync).1
      exact fits_arrowParts hcall (fun _ => hident) hflat.2
        { hd with ahead := ⟨nofun, fun _ _ => hflat.1, nofun⟩ } hrun

theorem punctuated_arrowFunction (hcall : Trusted call) (hd : d.Aligned)
    (harrow : Grammar.seesArrow d = true) (h : d.Punctuated inLoop)
    (hrun : (arrowFunction.run call ctx d).problems = []) :
    (arrowFunction.run call ctx d).Punctuated inLoop := by
  have hg := Footing.fits_start hd (Grade.fits_of.mpr h) .program
  have hseen : Grammar.seesArrow (d.placeTrivia.apart.log (.start .arrowFunction)) = true := by
    rw [← harrow]
    exact Draft.Akin.seesArrow (d := d.placeTrivia) ⟨d.ahead_placeTrivia,
      (Draft.Akin.newlines_placeTrivia d).1, (Draft.Akin.newlines_placeTrivia d).2,
      Draft.Akin.solidAll_placeTrivia d, by simp⟩
  have hbody := fits_arrowBody hcall hseen (hg.started .arrowFunction) hrun
  have hnode := (hg.node hbody (hcall.run (s := arrowBody) Draft.steady_reads hrun)).grade
  rw [← Grade.fits_of]
  exact hnode.mono (by cases inLoop <;> rfl)

end Script

/-- What each production keeps is computed from its script; all but arrow functions, which
are seen before. -/
theorem Production.weave_script (p : Production) (hp : p ≠ .assignment) (inLoop : Bool)
    (hloop : p.continues = true → inLoop = false) :
    ((p.script.weave .program {} { grade := .of inLoop }).all fun f =>
      f.le { grade := .of inLoop }) = true := by
  cases p with
  | assignment => exact absurd rfl hp
  | binary least => cases inLoop <;> rfl
  | binaryTail least =>
      rw [hloop rfl]
      rfl
  | suffixes calls =>
      rw [hloop rfl]
      cases calls <;> decide +kernel
  | _ => cases inLoop <;> decide +kernel

set_option maxRecDepth 10000 in
theorem Script.weave_moduleItem (source : SourceType) :
    (((moduleItem source).weave .program {} { grade := .punctuated }).all fun f =>
      f.le { grade := .punctuated }) = true := by
  cases source <;> decide

theorem Script.punctuated_assignment {call : Call} {ctx : Context} {d : Draft} {inLoop : Bool}
    (hcall : Trusted call) (hd : d.Aligned) (h : d.Punctuated inLoop)
    (hrun : (assignment.run call ctx d).problems = []) :
    (assignment.run call ctx d).Punctuated inLoop := by
  rw [assignment, run_choose] at hrun ⊢
  by_cases harrow : Grammar.seesArrow d = true
  · have hholds : Test.arrow.holds ctx d = true := harrow
    simp only [hholds, if_true] at hrun ⊢
    exact punctuated_arrowFunction hcall hd harrow h hrun
  · have hholds : Test.arrow.holds ctx d = false := Bool.not_eq_true _ ▸ harrow
    simp only [hholds, Bool.false_eq_true, if_false] at hrun ⊢
    refine Grade.fits_of.mp (fits_of_weave (h := { grade := .of inLoop }) hcall ?_
      (fits_start_strict d) (Footing.fits_start hd (Grade.fits_of.mpr h) .program) hrun).grade
    cases inLoop <;> rfl

theorem trusted_grammar : Trusted grammar where
  obeys := obeys_grammar_strict
  eq_grammar _ := rfl
  keeps {p ctx d inLoop} hok hd hloop h := by
    refine grammar_induction
      (P := fun p _ d e => d.Aligned → ∀ inLoop, (p.continues = true → inLoop = false) →
        d.Punctuated inLoop → e.Punctuated inLoop)
      (fun call hobeys hcall p ctx d hrun hd inLoop hloop h => ?_) p ctx d hok hd inLoop hloop h
    have htrusted : Trusted call :=
      ⟨hobeys, fun hok => (hcall _ _ _ hok).1, fun hok hd hloop => (hcall _ _ _ hok).2 hd _ hloop⟩
    by_cases hp : p = .assignment
    · subst hp
      exact Script.punctuated_assignment htrusted hd h hrun
    · exact Grade.fits_of.mp (Script.fits_of_weave htrusted (p.weave_script hp inLoop hloop)
        (fits_start_strict d) (Footing.fits_start hd (Grade.fits_of.mpr h) .program) hrun).grade

theorem punctuated_programItems {source : SourceType} (bound : Nat) {d : Draft} (hd : d.Aligned)
    (h : d.Punctuated false) (hrun : (programItems grammar source bound d).problems = []) :
    (programItems grammar source bound d).Punctuated false := by
  induction bound generalizing d with
  | zero => exact h
  | succ bound ih =>
      rw [programItems] at hrun ⊢
      by_cases hended : d.ended = true
      · rw [if_pos hended]
        exact h
      · rw [if_neg hended] at hrun ⊢
        dsimp only at hrun ⊢
        have hok := (steady_later.programItems later_grammar source bound _).problems hrun
        have hstep := Draft.advance_eq hok
        rw [hstep, ← Script.run_moduleItem] at hok hrun ⊢
        have hfits := Script.fits_of_weave trusted_grammar (Script.weave_moduleItem source)
          (fits_start_strict d) (Footing.fits_start (a := .punctuated) hd h .program) hok
        exact ih hfits.aligned hfits.grade hrun

/-- The trees of a text without problems are punctuated. -/
theorem punctuated_root {source : SourceType} {text : Text}
    (h : (parse source text).problems = []) :
    Tree.PunctuatedAll false (parse source text).parts [] := by
  have hproblems : (Draft.ofText source text).problems = [] := by simpa [parse] using h
  have hitems : Draft.ofText source text =
      (programItems grammar source (Draft.ofTokens (tokenize text)).rest.length
        (Draft.ofTokens (tokenize text))).placeTrivia := by
    rw [Draft.ofText,
      programItems_eq_grammar source (Nat.le_refl _) (Nat.le_refl _) (Nat.le_refl _)]
  have hparts : (Draft.ofText source text).Punctuated false := by
    rw [hitems, Draft.problems_placeTrivia] at hproblems
    rw [hitems]
    refine (punctuated_programItems _ (Draft.aligned_ofTokens _) ?_ hproblems).placeTrivia
    exact Tree.punctuatedAll_nil
  rw [Draft.Punctuated, Draft.left_ofText] at hparts
  exact hparts

/-! ## sites -/

namespace Site

/-- A site is directly in a loop. -/
def inLoop (s : Site) : Bool := s.above.head?.any fun n => n.kind.isLoop

/-- A node of a text is terminated if it has to be, and its parts are joined. -/
theorem Reaches.punctuated {root s : Site} (h : root.Reaches s)
    (hroot : Tree.PunctuatedAll root.node.kind.isLoop root.node.parts []) :
    ∃ before after,
      Tree.tokensAll root.node.parts = before ++ (Tree.tokensAll s.node.parts ++ after) ∧
      s.node.start = root.node.start + Token.sizeAll before ∧
      Tree.PunctuatedAll s.node.kind.isLoop s.node.parts after ∧
      (s = root ∨
        (s.node.kind.mustEnd s.inLoop = true → Terminated (Tree.tokensAll s.node.parts) after) ∧
          Tree.Joined s.node.kind s.node.parts.reverse) := by
  induction h with
  | refl => exact ⟨[], [], by simp, by simp, hroot, Or.inl rfl⟩
  | child _ hc ih =>
      obtain ⟨before, after, htokens, hstart, hparts, -⟩ := ih
      obtain ⟨n, hn, rfl⟩ := List.mem_map.mp hc
      obtain ⟨first, last, hsplit, hnstart⟩ := Node.mem_among hn
      have hnode := hparts first (.node n.kind n.parts) last hsplit
      refine ⟨before ++ Tree.tokensAll first, Tree.tokensAll last ++ after, ?_, ?_, ?_⟩
      · rw [htokens, hsplit]
        simp
      · rw [hnstart, hstart, Tree.sizeAll_eq, Token.sizeAll_append, Nat.add_assoc]
      · cases hnode with
        | node ends joined inner => exact ⟨inner, Or.inr ⟨ends, joined⟩⟩

end Site

/-- In a text without problems a statement, an import, a field or a declaration of
variables outside the head and body of a loop ends with a semicolon, or before the end of
the text, a closing brace or the end of a line.  And no line ends where one would end the
statement: after a word that takes an operand, before a postfix operator, before an
arrow and after `async`. -/
theorem semicolons_inserted {source : SourceType} {text : Text}
    (h : (parse source text).problems = []) {s : Site}
    (hs : s ∈ (parse source text).root.descendants) :
    (s.node.kind.isTerminated = true ∨ s.node.kind = .varDecl ∧ s.inLoop = false →
      ∃ before after, tokenize text = before ++ (Tree.tokensAll s.node.parts ++ after) ∧
        s.node.start = Token.sizeAll before ∧
        ((∃ t ∈ (Tree.tokensAll s.node.parts).getLast?, t.kind = .punct .semicolon) ∨
          MayEnd after)) ∧
    ∀ x gap y, Tree.Adjacent s.node.parts x gap y → s.node.kind.joins x y = true →
      OneLine gap := by
  have hreach := Site.mem_descendants_iff.mp hs
  obtain ⟨before, after, htokens, hstart, -, hnode⟩ := hreach.punctuated (punctuated_root h)
  rw [tokensAll_root] at htokens
  have hprogram : (parse source text).root.node.kind = .program := rfl
  refine ⟨fun hkind => ?_, fun x gap y hxy hj => ?_⟩
  · have hne : s ≠ (parse source text).root := by
      rintro rfl
      simp [hprogram, NodeKind.isTerminated] at hkind
    obtain ⟨hends, -⟩ := hnode.resolve_left hne
    obtain ⟨t, ht, htrivia⟩ := (hreach.all (ends_root h)).1.resolve_left hne
    have hmust : s.node.kind.mustEnd s.inLoop = true := by
      rcases hkind with hk | ⟨hk, hl⟩
      · simp [NodeKind.mustEnd, hk]
      · simp [NodeKind.mustEnd, hk, hl]
    refine ⟨before, after, htokens, hstart.trans (Nat.zero_add _), ?_⟩
    exact (hends hmust t ht htrivia).imp_left fun hsemicolon => ⟨t, ht, hsemicolon⟩
  · rcases hnode with rfl | ⟨-, hjoined⟩
    · rw [NodeKind.joins_eq_false (by rw [hprogram]; rfl)] at hj
      cases hj
    · exact hjoined.oneLine hxy hj

/-- A statement that ends at the end of a line, with an arrow function whose parameters
take two lines, and a declaration that nothing ends. -/
theorem semicolons_inserted_arrow :
    (parse .script "f = async (a,\n b) => a++ // c\nfor (var i of f) g()".toList).problems = [] ∧
      (∃ s ∈ (parse .script
          "f = async (a,\n b) => a++ // c\nfor (var i of f) g()".toList).root.descendants,
        s.node.kind = .exprStmt ∧ s.node.start = 0 ∧
          ∃ before after,
            tokenize "f = async (a,\n b) => a++ // c\nfor (var i of f) g()".toList =
              before ++ (Tree.tokensAll s.node.parts ++ after) ∧
            s.node.start = Token.sizeAll before ∧
            ((∃ t ∈ (Tree.tokensAll s.node.parts).getLast?, t.kind = .punct .semicolon) ∨
              MayEnd after)) ∧
      ∃ s ∈ (parse .script
          "f = async (a,\n b) => a++ // c\nfor (var i of f) g()".toList).root.descendants,
        s.node.kind = .arrowFunction ∧ ∃ x gap y, Tree.Adjacent s.node.parts x gap y ∧
          s.node.kind.joins x y = true ∧ OneLine gap := by
  have hrun : (parse .script
      "f = async (a,\n b) => a++ // c\nfor (var i of f) g()".toList).problems = [] ∧
      (∃ s ∈ (parse .script
          "f = async (a,\n b) => a++ // c\nfor (var i of f) g()".toList).root.descendants,
        s.node.kind = .exprStmt ∧ s.node.start = 0) ∧
      ∃ s ∈ (parse .script
          "f = async (a,\n b) => a++ // c\nfor (var i of f) g()".toList).root.descendants,
        s.node.kind = .arrowFunction ∧ ∃ y ∈ s.node.parts, y.isSolid = true ∧
          s.node.parts = .leaf ⟨.ident, "async".toList⟩ ::
            ([⟨.trivia .whitespace, " ".toList⟩].map .leaf ++ y :: s.node.parts.drop 3) := by
    decide +kernel
  obtain ⟨h, ⟨s, hs, hk, hstart⟩, r, hr, hkr, y, -, hy, hparts⟩ := hrun
  have hxy : Tree.Adjacent r.node.parts (.leaf ⟨.ident, "async".toList⟩)
      [⟨.trivia .whitespace, " ".toList⟩] y :=
    ⟨by decide, hy, by decide, [], r.node.parts.drop 3, hparts⟩
  have hjoins : r.node.kind.joins (.leaf ⟨.ident, "async".toList⟩) y = true := by
    rw [hkr]
    cases y <;> rfl
  exact ⟨h, ⟨s, hs, hk, hstart, (semicolons_inserted h hs).1 (Or.inl (by rw [hk]; rfl))⟩,
    r, hr, hkr, _, _, y, hxy, hjoins, (semicolons_inserted h hr).2 _ _ y hxy hjoins⟩

end FreeNames
