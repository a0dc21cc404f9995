import FreeNames.Grammar.Parse
import FreeNames.Proofs.Expressions

/-!
# FreeNames.Proofs.Statements

The rules for statements, imports and exports make drafts by the steps of
`Built`, and leave a draft where any name may come next.  So do the productions
tied together (`lawful_derive`), hence every text is read so (`built_ofText`).
-/

namespace FreeNames

namespace Grammar

open Draft

variable {call : Call} {ctx : Context} {d : Draft} {k : NodeKind}

/-! ## blocks and declarations -/

theorem built_block (hc : Lawful call) (d : Draft) : Built d (block call ctx d) :=
  (Built.refl d).andNode rfl fun e _ =>
    (((Built.refl e).andExpect rfl).andCall hc .statements (clear_expect rfl)).andExpect rfl

theorem clear_block : (block call ctx d).Clear := clear_node fun _ _ => clear_expect rfl

theorem built_statements (hc : Lawful call) (h : d.Clear) : Built d (statements call ctx d) := by
  unfold statements
  refine .either (fun _ => .refl d) fun _ => ?_
  exact ((Built.refl d).andAdvance (hc.built (p := .statement) h)).andCall hc .statements
    (clear_advance (hc.clear_statement h))

theorem plain_of_seesLet (h : seesLet d = true) : d.Plain := by
  simp only [seesLet, Bool.and_eq_true] at h
  exact plain_of_seesWord h.1 (by simp [contextualWords])

theorem plain_of_seesVariables (h : seesVariables d = true) : d.Plain := by
  simp only [seesVariables, seesAny, List.any_cons, List.any_nil, Bool.or_false,
    Bool.or_eq_true] at h
  rcases h with (h | h) | h
  · exact plain_of_sees h rfl
  · exact plain_of_sees h rfl
  · exact plain_of_seesLet h

theorem built_declarators (hc : Lawful call) (h : d.Clear) :
    Built d (declarators call ctx d) := by
  have hfirst : Built d (d.node .varDeclarator fun d =>
      if (call .bindingTarget ctx d).sees (.punct .eq) then
        call .assignment ctx (call .bindingTarget ctx d).take
      else call .bindingTarget ctx d) := by
    refine (Built.refl d).andNode rfl fun e he => ?_
    have htarget : Built e (call .bindingTarget ctx e) :=
      hc.built (p := .bindingTarget) (he.clear h)
    exact .either (fun hs => htarget.trans (built_take_call hc (plain_of_sees hs rfl) id))
      fun _ => htarget
  exact .either (fun hs => hfirst.trans (built_take_call hc (plain_of_sees hs rfl) id))
    fun _ => hfirst

theorem built_variableStatement (hc : Lawful call) (hp : d.Plain) :
    Built d (variableStatement call ctx d) :=
  (Built.refl d).andNode rfl fun _ he => (built_take_call hc (he.plain hp) id).andEndStatement

theorem clear_variableStatement : (variableStatement call ctx d).Clear :=
  clear_node fun _ _ => clear_endStatement _

theorem built_expressionStatement (hc : Lawful call) (h : d.Clear) :
    Built d (expressionStatement call ctx d) :=
  (Built.refl d).andNode rfl fun _ he =>
    (hc.built (p := .expression) (he.clear h)).andEndStatement

theorem clear_expressionStatement : (expressionStatement call ctx d).Clear :=
  clear_node fun _ _ => clear_endStatement _

/-! ## control flow -/

theorem built_condition (hc : Lawful call) (d : Draft) : Built d (condition call ctx d) :=
  (((Built.refl d).andExpect rfl).andCall hc .expression (clear_expect rfl)).andExpect rfl

theorem clear_condition : (condition call ctx d).Clear := clear_expect rfl

theorem built_ifStatement (hc : Lawful call) (hp : d.Plain) :
    Built d (ifStatement call ctx d) := by
  refine (Built.refl d).andNode rfl fun e he => ?_
  have hthen : Built e (call .statement ctx (condition call ctx e.take)) :=
    (((Built.refl e).andTake (he.plain hp)).trans (built_condition hc _)).andCall hc .statement
      clear_condition
  exact .either (fun hs => hthen.trans (built_take_call hc (plain_of_sees hs rfl) id))
    fun _ => hthen

theorem clear_ifStatement (hc : Lawful call) : (ifStatement call ctx d).Clear :=
  clear_node fun _ _ => .either
    (fun hs => hc.clear_statement (plain_of_sees hs rfl).clear_take)
    fun _ => hc.clear_statement clear_condition

theorem built_guarded (hc : Lawful call) (hk : k.isLarge = true) (hp : d.Plain) :
    Built d (guarded call k ctx d) :=
  (Built.refl d).andNode hk fun e he =>
    (((Built.refl e).andTake (he.plain hp)).trans (built_condition hc _)).andCall hc .statement
      clear_condition

theorem clear_guarded (hc : Lawful call) : (guarded call k ctx d).Clear :=
  clear_node fun _ _ => hc.clear_statement clear_condition

theorem built_doStatement (hc : Lawful call) (hp : d.Plain) : Built d (doStatement call ctx d) :=
  (Built.refl d).andNode rfl fun _ he =>
    (((built_take_call hc (he.plain hp) id).andExpect rfl).trans
      (built_condition hc _)).andTakeIf rfl

theorem clear_doStatement : (doStatement call ctx d).Clear :=
  clear_node fun _ _ => clear_condition.takeIf rfl

theorem built_forStart (hc : Lawful call) (h : d.Clear) : Built d (forStart call ctx d) :=
  .either (fun _ => .refl d) fun _ => .either
    (fun hs => built_headed hc rfl (plain_of_seesVariables hs) id)
    fun _ => hc.built (p := .expression) h

theorem isLarge_forKind (d : Draft) : (forKind d).isLarge = true := by
  unfold forKind
  split
  · rfl
  · split <;> rfl

theorem built_forSteps (hc : Lawful call) (d : Draft) : Built d (forSteps call ctx d) := by
  have hsemicolon : Built d (d.expect (.punct .semicolon)) := (Built.refl d).andExpect rfl
  have htest : Built d ((if (d.expect (.punct .semicolon)).sees (.punct .semicolon) then
      d.expect (.punct .semicolon)
      else call .expression ctx.withIn (d.expect (.punct .semicolon))).expect (.punct .semicolon)) :=
    Built.andExpect (.either (fun _ => hsemicolon) fun _ =>
      hsemicolon.andCall hc .expression (clear_expect rfl)) rfl
  exact .either (fun _ => htest) fun _ => htest.andCall hc .expression (clear_expect rfl)

/-- The rest of the head of a `for` statement, after what told its kind. -/
theorem built_forRest {e : Draft} (hc : Lawful call) (he : e.Alike d) :
    Built e (forRest call (forKind d) ctx e) := by
  unfold forKind
  split
  · next hs => exact built_take_call hc (he.plain (plain_of_sees hs rfl)) id
  · split
    · next hs =>
        exact built_take_call hc (he.plain (plain_of_seesWord hs (by simp [contextualWords]))) id
    · exact built_forSteps hc e

theorem built_forStatement (hc : Lawful call) (hp : d.Plain) :
    Built d (forStatement call ctx d) := by
  refine (Built.refl d).andGroup fun e he => ?_
  have hopen : Built e ((e.take.takeIfWord "await").expect (.punct .lParen)) :=
    (((Built.refl e).andTake (he.plain hp)).andTakeIfWord (by simp [contextualWords])).andExpect rfl
  refine (hopen.trans (built_forStart hc (clear_expect rfl))).andEnclose (isLarge_forKind _)
    fun f hf => ?_
  exact ((built_forRest hc hf).andExpect rfl).andCall hc .statement (clear_expect rfl)

theorem clear_forStatement (hc : Lawful call) : (forStatement call ctx d).Clear :=
  clear_group fun _ _ => clear_enclose fun _ _ => hc.clear_statement (clear_expect rfl)

theorem built_clauseBody (hc : Lawful call) (h : d.Clear) : Built d (clauseBody call ctx d) := by
  unfold clauseBody
  refine .either (fun _ => .refl d) fun _ => ?_
  exact ((Built.refl d).andAdvance (hc.built (p := .statement) h)).andCall hc .clauseBody
    (clear_advance (hc.clear_statement h))

theorem built_clause (hc : Lawful call) (h : seesClause d = true) :
    Built d (clause call ctx d) := by
  have hp : d.Plain := by
    simp only [seesClause, seesAny, List.any_cons, List.any_nil, Bool.or_false,
      Bool.or_eq_true] at h
    rcases h with h | h <;> exact plain_of_sees h rfl
  refine (Built.refl d).andNode rfl fun e he => ?_
  refine Built.andCall (Built.andExpect (.either (fun _ => ?_) fun _ => ?_) rfl) hc .clauseBody
    (clear_expect rfl)
  · exact built_take_call hc (he.plain hp) id
  · exact (Built.refl e).andTake (he.plain hp)

theorem built_clauses (hc : Lawful call) (d : Draft) : Built d (clauses call ctx d) := by
  unfold clauses
  refine .either (fun _ => .refl d) fun _ => .either (fun hs => ?_) fun _ => ?_
  · exact (built_clause hc hs).andCall hc .clauses trivial
  · exact ((Built.refl d).andSkip _).andCall hc .clauses trivial

theorem built_switchStatement (hc : Lawful call) (hp : d.Plain) :
    Built d (switchStatement call ctx d) :=
  (Built.refl d).andNode rfl fun e he =>
    (((((Built.refl e).andTake (he.plain hp)).trans (built_condition hc _)).andExpect rfl).andCall
      hc .clauses trivial).andExpect rfl

theorem clear_switchStatement : (switchStatement call ctx d).Clear :=
  clear_node fun _ _ => clear_expect rfl

theorem built_catchClause (hc : Lawful call) (hs : d.sees (.keyword .catchKw) = true) :
    Built d (catchClause call ctx d) := by
  refine (Built.refl d).andNode rfl fun e he => ?_
  have hp : e.Plain := he.plain (plain_of_sees hs rfl)
  have htake : Built e e.take := (Built.refl e).andTake hp
  refine Built.andCall (.either (fun hs => ?_) fun _ => htake) hc .block
    (.either (fun _ => clear_expect rfl) fun _ => hp.clear_take)
  exact htake.trans ((built_take_call hc (plain_of_sees hs rfl) id).andExpect rfl)

theorem clear_catchClause (hc : Lawful call) (hs : d.sees (.keyword .catchKw) = true) :
    (catchClause call ctx d).Clear :=
  clear_node fun _ he => hc.clear_block <| .either (fun _ => clear_expect rfl)
    fun _ => (he.plain (plain_of_sees hs rfl)).clear_take

theorem built_tryStatement (hc : Lawful call) (hp : d.Plain) :
    Built d (tryStatement call ctx d) := by
  refine (Built.refl d).andNode rfl fun e he => ?_
  have hbody : Built e (call .block ctx e.take) := built_take_call hc (he.plain hp) id
  have hhandler : Built e (if (call .block ctx e.take).sees (.keyword .catchKw) then
      catchClause call ctx (call .block ctx e.take) else call .block ctx e.take) :=
    .either (fun hs => hbody.trans (built_catchClause hc hs)) fun _ => hbody
  refine .either (fun hs => ?_) fun _ => .either (fun _ => hhandler) fun _ => hhandler.andReport _
  exact hhandler.trans (built_headed hc rfl (plain_of_sees hs rfl) id)

theorem clear_tryStatement (hc : Lawful call) : (tryStatement call ctx d).Clear := by
  refine clear_node fun e _ => .either (fun hs => ?_) fun _ => .either (fun hs => ?_) fun _ => ?_
  · exact clear_node fun f hf => hc.clear_block (hf.plain (plain_of_sees hs rfl)).clear_take
  · rw [if_pos hs]
    exact clear_catchClause hc hs
  · exact clear_report _ _

theorem built_returnStatement (hc : Lawful call) (hp : d.Plain) :
    Built d (returnStatement call ctx d) := by
  refine (Built.refl d).andNode rfl fun e he => Built.andEndStatement ?_
  have hp : e.Plain := he.plain hp
  exact .either (fun _ => (Built.refl e).andTake hp) fun _ => built_take_call hc hp id

theorem built_throwStatement (hc : Lawful call) (hp : d.Plain) :
    Built d (throwStatement call ctx d) := by
  refine (Built.refl d).andNode rfl fun e he => Built.andEndStatement ?_
  have hp : e.Plain := he.plain hp
  have htake : Built e e.take := (Built.refl e).andTake hp
  exact Built.andCall (.either (fun _ => htake.andReport _) fun _ => htake) hc .expression
    (.either (fun _ => clear_report _ _) fun _ => hp.clear_take)

theorem built_jumpStatement (hk : k.isLarge = true) (hp : d.Plain) :
    Built d (jumpStatement k d) := by
  refine (Built.refl d).andNode hk fun e he => Built.andEndStatement ?_
  have hp : e.Plain := he.plain hp
  have htake : Built e e.take := (Built.refl e).andTake hp
  refine .either (fun hs => htake.andSingle ?_ hp.clear_take nofun) fun _ => htake
  simp only [Bool.and_eq_true] at hs
  exact fits_of_sees hs.1 rfl

/-- After a label comes its colon. -/
theorem plain_label {e : Draft} (he : e.Alike d) (hcolon : d.kindAt 1 = .punct .colon) :
    (e.single .label).Plain := by
  refine plain_of_kind ?_ rfl (k := .punct .colon)
  have hcolon : e.kindAt 1 = .punct .colon := (he.kindAt 1).trans hcolon
  rw [kind, kindAt_single (rest_ne_nil_of_kindAt hcolon (by simp)), hcolon]

theorem built_labeledStatement (hc : Lawful call) (h : d.Clear) (hk : d.kind = .ident)
    (hcolon : d.kindAt 1 = .punct .colon) : Built d (labeledStatement call ctx d) :=
  (Built.refl d).andNode rfl fun e he =>
    ((Built.refl e).andSingle (k := .label) (fits_of_kind (he.kind.trans hk) rfl) (he.clear h)
      nofun).trans (built_take_call hc (plain_label he hcolon) id)

theorem clear_labeledStatement (hc : Lawful call) (hcolon : d.kindAt 1 = .punct .colon) :
    (labeledStatement call ctx d).Clear :=
  clear_node fun _ he => hc.clear_statement (plain_label he hcolon).clear_take

/-! ## all statements -/

theorem built_wordStatement (hc : Lawful call) (h : d.Clear) (hk : d.kind = .ident) :
    Built d (wordStatement call ctx d) := by
  unfold wordStatement
  exact .either (fun hs => built_variableStatement hc (plain_of_seesLet hs)) fun _ =>
    .either (fun _ => built_function hc rfl true d) fun _ =>
      .either (fun hcolon => built_labeledStatement hc h hk hcolon) fun _ =>
        built_expressionStatement hc h

theorem clear_wordStatement (hc : Lawful call) : (wordStatement call ctx d).Clear := by
  unfold wordStatement
  exact .either (fun _ => clear_variableStatement) fun _ =>
    .either (fun _ => clear_function hc) fun _ =>
      .either (fun hcolon => clear_labeledStatement hc hcolon) fun _ => clear_expressionStatement

theorem built_statement (hc : Lawful call) (h : d.Clear) : Built d (statement call ctx d) := by
  unfold statement
  split
  · exact hc.built (p := .block) h
  · next hk => exact built_variableStatement hc (plain_of_kind hk rfl)
  · next hk => exact built_variableStatement hc (plain_of_kind hk rfl)
  · next hk => exact built_wordStatement hc h hk
  · exact built_function hc rfl true d
  · next hk => exact built_classDefinition hc rfl true (plain_of_kind hk rfl)
  · next hk => exact built_ifStatement hc (plain_of_kind hk rfl)
  · next hk => exact built_forStatement hc (plain_of_kind hk rfl)
  · next hk => exact built_guarded hc rfl (plain_of_kind hk rfl)
  · next hk => exact built_doStatement hc (plain_of_kind hk rfl)
  · next hk => exact built_switchStatement hc (plain_of_kind hk rfl)
  · next hk => exact built_tryStatement hc (plain_of_kind hk rfl)
  · next hk => exact built_returnStatement hc (plain_of_kind hk rfl)
  · next hk => exact built_throwStatement hc (plain_of_kind hk rfl)
  · next hk => exact built_jumpStatement rfl (plain_of_kind hk rfl)
  · next hk => exact built_jumpStatement rfl (plain_of_kind hk rfl)
  · next hk => exact built_guarded hc rfl (plain_of_kind hk rfl)
  · next hk =>
      exact (Built.refl d).andNode rfl fun e he =>
        ((Built.refl e).andTake (he.plain (plain_of_kind hk rfl))).andEndStatement
  · next hk =>
      exact (Built.refl d).andNode rfl fun e he =>
        (Built.refl e).andTake (he.plain (plain_of_kind hk rfl))
  iterate 2
    exact .either (fun _ => built_expressionStatement hc h) fun _ => (Built.refl d).andSkip _
  · exact built_expressionStatement hc h

theorem clear_statement (hc : Lawful call) (h : d.Clear) : (statement call ctx d).Clear := by
  unfold statement
  split
  · exact hc.clear_block h
  · exact clear_variableStatement
  · exact clear_variableStatement
  · exact clear_wordStatement hc
  · exact clear_function hc
  · exact clear_classDefinition
  · exact clear_ifStatement hc
  · exact clear_forStatement hc
  · exact clear_guarded hc
  · exact clear_doStatement
  · exact clear_switchStatement
  · exact clear_tryStatement hc
  -- these end like a statement does
  iterate 4 exact clear_node fun _ _ => clear_endStatement _
  · exact clear_guarded hc
  · exact clear_node fun _ _ => clear_endStatement _
  · next hk => exact clear_node fun e he => (he.plain (plain_of_kind hk rfl)).clear_take
  iterate 2 exact .either (fun _ => clear_expressionStatement) fun _ => clear_skip d _
  · exact clear_expressionStatement

/-! ## imports -/

variable {source : SourceType}

theorem built_requireModule (d : Draft) : Built d (requireModule source d) := by
  cases source with
  | script => exact .report d _
  | module => exact .refl d

theorem built_moduleName (d : Draft) : Built d (moduleName d) := by
  unfold moduleName
  refine .either (fun hs => ?_) fun _ => (Built.refl d).andRefuse _
  exact .single (fits_of_sees hs rfl) (clear_of_kind (by simp [kind_of_sees hs])) nofun

theorem fits_externalName (h : (d.kind.isIdentifierName || d.sees .string) = true) :
    NodeKind.moduleExportName.fits d.kind = true := by
  simp only [Bool.or_eq_true] at h
  rcases h with h | h
  · simp [NodeKind.fits, h]
  · exact fits_of_sees h rfl

theorem built_externalName (h : d.Clear) : Built d (externalName d) := by
  unfold externalName
  exact .either (fun hs => .single (fits_externalName hs) h nofun) fun _ =>
    (Built.refl d).andRefuse _

theorem built_importAttributes (hc : Lawful call) (d : Draft) :
    Built d (importAttributes call ctx d) := by
  unfold importAttributes
  refine .either (fun hs => ?_) fun _ => .refl d
  simp only [Bool.and_eq_true, decide_eq_true_eq] at hs
  have hbrace : d.take.kind = .punct .lBrace := by
    rw [kind, kindAt_take (rest_ne_nil_of_kindAt hs.2 (by simp)), hs.2]
  exact ((Built.refl d).andTake (plain_of_sees hs.1 rfl)).trans
    (built_bracketed hc rfl (plain_of_kind hbrace rfl) rfl id)

theorem built_fromModule (hc : Lawful call) (d : Draft) : Built d (fromModule call ctx d) :=
  (built_moduleName d).trans (built_importAttributes hc _)

theorem plain_single_of_wordAt {w : String} (h : d.wordAt 1 w = true)
    (hw : w.toList ∈ contextualWords) : (d.single k).Plain := by
  simp only [wordAt, Bool.and_eq_true, decide_eq_true_eq] at h
  have hrest : d.rest ≠ [] := rest_ne_nil_of_kindAt h.1 (by simp)
  refine Or.inr ⟨?_, ?_⟩
  · rw [kind, kindAt_single hrest, h.1]
  · rw [textAt_single hrest, h.2]
    exact hw

/-- After a name before `as`, or a mark that is left alone, comes a token that
rules take by itself. -/
theorem plain_externalName (h : d.wordAt 1 "as" = true) : (externalName d).Plain := by
  have has : "as".toList ∈ contextualWords := by simp [contextualWords]
  unfold externalName refuse skip
  split
  · exact plain_single_of_wordAt h has
  · split
    · next hcloser =>
        simp only [seesAny, List.any_eq_true] at hcloser
        obtain ⟨t, ht, hs⟩ := hcloser
        refine plain_of_kind (k := t) (kind_of_sees hs) ?_
        simp only [closers, List.mem_cons, List.not_mem_nil, or_false] at ht
        rcases ht with rfl | rfl | rfl | rfl | rfl <;> rfl
    · have hne : (d.report .expectedIdentifier).ended = false := by
        simp only [wordAt, Bool.and_eq_true, decide_eq_true_eq] at h
        simpa [ended] using rest_ne_nil_of_kindAt h.1
      simp only [hne]
      exact plain_single_of_wordAt (d := d.report .expectedIdentifier) h has

theorem built_importSpecifier (h : d.Clear) : Built d (importSpecifier d) := by
  refine (Built.refl d).andNode rfl fun e he => ?_
  have hclear := he.clear h
  refine Built.trans (.either (fun hs => ?_) fun _ => .refl e) (built_bindingName (.either
    (fun hs => (plain_externalName hs).clear_take) fun _ => hclear))
  exact (built_externalName hclear).andTake (plain_externalName hs)

theorem built_importSpecifiers (bound : Nat) (h : d.Clear) :
    Built d (importSpecifiers bound d) := by
  induction bound generalizing d with
  | zero => exact .refl d
  | succ bound ih =>
      unfold importSpecifiers
      exact .either (fun _ => .refl d) fun _ =>
        (built_importSpecifier h).andNextItem fun _ hf => ih hf

theorem built_importedNames (d : Draft) : Built d (importedNames d) := by
  unfold importedNames
  split
  · next hk =>
      refine (Built.refl d).andNode rfl fun e he => ?_
      have hp : e.Plain := he.plain (plain_of_kind hk rfl)
      have has : "as".toList ∈ contextualWords := by simp [contextualWords]
      exact (((Built.refl e).andTake hp).andExpectWord has).trans
        (built_bindingName (clear_expectWord has))
  · next hk =>
      have hp : d.Plain := plain_of_kind hk rfl
      exact (((Built.refl d).andTake hp).trans
        (built_importSpecifiers _ hp.clear_take)).andExpect rfl
  · exact .report d _

theorem built_importClause (h : d.Clear) : Built d (importClause d) := by
  unfold importClause
  refine .either (fun _ => ?_) fun _ => built_importedNames d
  have hname : Built d (d.node .importDefaultSpecifier bindingName) :=
    (Built.refl d).andNode rfl fun _ he => built_bindingName (he.clear h)
  exact .either (fun hs => (hname.andTake (plain_of_sees hs rfl)).trans (built_importedNames _))
    fun _ => hname

theorem kind_requireModule : (requireModule source d).kind = d.kind := by
  cases source <;> rfl

theorem built_importDeclaration (hc : Lawful call) (hk : d.kind = .keyword .importKw) :
    Built d (importDeclaration call source ctx d) := by
  refine (built_requireModule d).andNode rfl fun e he => Built.andEndStatement ?_
  have hp : e.Plain := plain_of_kind (he.kind.trans (kind_requireModule.trans hk)) rfl
  refine Built.trans (.either (fun _ => (Built.refl e).andTake hp) fun _ => ?_)
    (built_fromModule hc _)
  exact (((Built.refl e).andTake hp).trans (built_importClause hp.clear_take)).andExpectWord
    (by simp [contextualWords])

theorem clear_importDeclaration : (importDeclaration call source ctx d).Clear :=
  clear_node fun _ _ => clear_endStatement _

/-! ## exports -/

theorem built_exportSpecifier {again : Bool} (h : d.Clear) :
    Built d (exportSpecifier again d) := by
  refine (Built.refl d).andNode rfl fun e he => ?_
  have hclear := he.clear h
  have hname : Built e (if !again && e.sees .ident then e.single .nameRef else externalName e) := by
    refine .either (fun hs => .single ?_ hclear nofun) fun _ => built_externalName hclear
    simp only [Bool.and_eq_true] at hs
    exact fits_of_sees hs.2 rfl
  refine .either (fun hs => ?_) fun _ => hname
  have hp := plain_of_seesWord hs (by simp [contextualWords])
  exact (hname.andTake hp).trans (built_externalName hp.clear_take)

theorem built_exportSpecifiers {again : Bool} (bound : Nat) (h : d.Clear) :
    Built d (exportSpecifiers again bound d) := by
  induction bound generalizing d with
  | zero => exact .refl d
  | succ bound ih =>
      unfold exportSpecifiers
      exact .either (fun _ => .refl d) fun _ =>
        (built_exportSpecifier h).andNextItem fun _ hf => ih hf

/-- Marks that open or close a group. -/
def isBracket : TokenKind → Bool
  | .punct .lParen | .punct .lBracket | .punct .lBrace | .punct .rParen | .punct .rBracket
  | .punct .rBrace => true
  | _ => false

/-- `from` comes after the group of one bracket that is open. -/
def FromAfter (d : Draft) : Prop := d.wordAt (groupLength 1 d.rest) "from" = true

theorem groupLength_cons {l : Lexeme} {ls : List Lexeme} {depth : Nat}
    (h : isBracket l.token.kind = false) :
    groupLength depth (l :: ls) = 1 + groupLength depth ls := by
  rw [groupLength]
  split <;> simp_all [isBracket]

theorem fromAfter_congr {e : Draft} (h : e.ahead = d.ahead) : FromAfter e ↔ FromAfter d := by
  have hkinds := congrArg (List.map Token.kind) h
  simp only [FromAfter, wordAt, kindAt_eq, textAt_eq, h, groupLength_congr hkinds]

theorem rest_ne_nil_of_fromAfter (h : FromAfter d) : d.rest ≠ [] := by
  simp only [FromAfter, wordAt, Bool.and_eq_true, decide_eq_true_eq] at h
  exact rest_ne_nil_of_kindAt h.1 (by simp)

/-- A token inside the group does not change what comes after it. -/
theorem FromAfter.take (h : FromAfter d) (hk : isBracket d.kind = false) : FromAfter d.take := by
  obtain ⟨l, ls, hrest⟩ := List.exists_cons_of_ne_nil (rest_ne_nil_of_fromAfter h)
  have hkind : isBracket l.token.kind = false := by simpa [kind, kindAt, hrest] using hk
  simp only [FromAfter, wordAt, hrest, groupLength_cons hkind, Nat.add_comm 1] at h
  rw [← kindAt_take (by simp [hrest]), ← textAt_take (by simp [hrest])] at h
  rw [FromAfter, take_cons hrest] at *
  exact h

theorem FromAfter.single (h : FromAfter d) (hk : isBracket d.kind = false) :
    FromAfter (d.single k) := by
  have hstart : FromAfter (d.placeTrivia.apart.log (.start k)) :=
    (fromAfter_congr (d.alike_started k).ahead).mpr h
  exact hstart.take (by simpa using hk)

/-- Unless a problem is reported, only tokens inside the group are taken. -/
def Inside (d e : Draft) : Prop :=
  e.problems = [] → d.problems = [] ∧ (FromAfter d → FromAfter e)

theorem Inside.refl (d : Draft) : Inside d d := fun h => ⟨h, id⟩

theorem Inside.trans {d e f : Draft} (hl : Inside d e) (hr : Inside e f) : Inside d f := fun h =>
  have ⟨he, hef⟩ := hr h
  have ⟨hd, hde⟩ := hl he
  ⟨hd, hef ∘ hde⟩

theorem Inside.take (hk : isBracket d.kind = false) : Inside d d.take := fun h =>
  ⟨by simpa using h, fun hf => hf.take hk⟩

theorem Inside.single (hk : isBracket d.kind = false) : Inside d (d.single k) := fun h =>
  ⟨by simpa using h, fun hf => hf.single hk⟩

theorem Inside.of_problems {e : Draft} (h : e.problems ≠ []) : Inside d e := fun he => (h he).elim

theorem Inside.node {body : Draft → Draft} (h : ∀ e : Draft, e.Alike d → Inside e (body e)) :
    Inside d (d.node k body) := by
  intro hok
  have ⟨hnil, hfrom⟩ := h _ (d.alike_started k) hok
  exact ⟨by simpa using hnil, fun hf => hfrom ((fromAfter_congr (d.alike_started k).ahead).mpr hf)⟩

theorem Inside.either {c : Prop} [Decidable c] {x y : Draft} (hx : c → Inside d x)
    (hy : ¬c → Inside d y) : Inside d (if c then x else y) := by
  split
  · next h => exact hx h
  · next h => exact hy h

theorem isBracket_of_isIdentifierName {t : TokenKind} (h : t.isIdentifierName = true) :
    isBracket t = false := by
  cases t <;> simp_all [TokenKind.isIdentifierName, isBracket]

theorem inside_externalName (d : Draft) : Inside d (externalName d) := by
  unfold externalName
  refine .either (fun hk => .single ?_) fun _ => .of_problems (problems_refuse_ne_nil d _)
  simp only [Bool.or_eq_true] at hk
  rcases hk with hk | hk
  · exact isBracket_of_isIdentifierName hk
  · simp [kind_of_sees hk, isBracket]

theorem inside_exportSpecifier (again : Bool) (d : Draft) :
    Inside d (exportSpecifier again d) := by
  refine .node fun e _ => ?_
  have hname : Inside e (if !again && e.sees .ident then e.single .nameRef else externalName e) := by
    refine .either (fun hs => .single ?_) fun _ => inside_externalName e
    simp only [Bool.and_eq_true] at hs
    simp [kind_of_sees hs.2, isBracket]
  refine .either (fun hs => ?_) fun _ => hname
  exact hname.trans (.trans (.take (by rw [kind_of_seesWord hs]; rfl)) (inside_externalName _))

theorem inside_exportSpecifiers {again : Bool} (bound : Nat) (d : Draft) :
    Inside d (exportSpecifiers again bound d) := by
  induction bound generalizing d with
  | zero => exact .refl d
  | succ bound ih =>
      unfold exportSpecifiers nextItem
      refine .either (fun _ => .refl d) fun _ => .trans (inside_exportSpecifier again d) ?_
      refine .either (fun _ => .refl _) fun _ => .either (fun hs => ?_) fun _ =>
        .of_problems (by simp)
      exact .trans (.take (by simp [kind_of_sees hs, isBracket])) (ih _)

/-- Where the names of an export close without a problem, the word that was seen
behind them comes next. -/
theorem seesWord_of_fromAfter (h : FromAfter d)
    (hok : (d.expect (.punct .rBrace)).problems = []) :
    (d.expect (.punct .rBrace)).seesWord "from" = true := by
  unfold expect at *
  split at hok
  · next hs =>
      obtain ⟨l, ls, hrest, hk⟩ := exists_cons_of_sees hs
      have hlength : groupLength 1 d.rest = 1 := by simp [hrest, groupLength, hk]
      rw [FromAfter, hlength] at h
      rwa [if_pos hs, seesWord, wordAt, kindAt_take (by simp [hrest]),
        textAt_take (by simp [hrest])]
  · simp at hok

/-- The same, where the names of the export have been read. -/
theorem seesWord_exportSpecifiers {again : Bool} {bound : Nat} (hk : d.kind = .punct .lBrace)
    (hfrom : d.wordAt (d.afterGroup 0) "from" = true)
    (hok : ((exportSpecifiers again bound d.take).expect (.punct .rBrace)).problems = []) :
    ((exportSpecifiers again bound d.take).expect (.punct .rBrace)).seesWord "from" = true := by
  obtain ⟨l, ls, hrest, hl⟩ := exists_cons_of_kind hk (by simp)
  have hstart : FromAfter d.take := by
    have hlength : d.afterGroup 0 = groupLength 1 ls + 1 := by
      simp [afterGroup, hrest, groupLength, hl, Nat.add_comm]
    rw [wordAt, hlength, ← kindAt_take (by simp [hrest]), ← textAt_take (by simp [hrest])] at hfrom
    rw [FromAfter, take_cons hrest] at *
    exact hfrom
  have hok' := Built.problems_eq_nil ((Built.refl _).andExpect rfl) hok
  exact seesWord_of_fromAfter ((inside_exportSpecifiers _ _ hok').2 hstart) hok

theorem built_namedExports (hc : Lawful call) (hk : d.kind = .punct .lBrace) :
    Built d (namedExports call ctx d) := by
  have hp : d.Plain := plain_of_kind hk rfl
  have hnames {again : Bool} {bound : Nat} :
      Built d ((exportSpecifiers again bound d.take).expect (.punct .rBrace)) :=
    (((Built.refl d).andTake hp).trans (built_exportSpecifiers _ hp.clear_take)).andExpect rfl
  refine Built.andEndStatement (.either (fun hfrom => ?_) fun _ => hnames)
  refine (hnames.trans (.take fun hok => ?_)).trans (built_fromModule hc _)
  exact plain_of_seesWord (seesWord_exportSpecifiers hk hfrom hok) (by simp [contextualWords])

theorem built_exportAll (hc : Lawful call) (hp : d.Plain) : Built d (exportAll call ctx d) := by
  refine Built.andEndStatement (Built.trans (Built.andExpectWord (.either (fun hs => ?_) fun _ => ?_)
    (by simp [contextualWords])) (built_fromModule hc _))
  · have hp' := plain_of_seesWord hs (by simp [contextualWords])
    exact (((Built.refl d).andTake hp).andTake hp').trans (built_externalName hp'.clear_take)
  · exact (Built.refl d).andTake hp

theorem built_exportDefault (hc : Lawful call) (hp : d.Plain) :
    Built d (exportDefault call ctx d) := by
  have htake : Built d d.take := (Built.refl d).andTake hp
  refine .either (fun _ => htake.trans (built_function hc rfl false _)) fun _ =>
    .either (fun hs => ?_) fun _ => ?_
  · exact htake.trans (built_classDefinition hc rfl false (plain_of_sees hs rfl))
  · exact (htake.andCall hc .assignment hp.clear_take).andEndStatement

theorem built_exported (hc : Lawful call) (d : Draft) : Built d (exported call ctx d) := by
  unfold exported
  split
  · next hk => exact built_exportDefault hc (plain_of_kind hk rfl)
  · next hk => exact built_exportAll hc (plain_of_kind hk rfl)
  · next hk => exact built_namedExports hc hk
  · next hk => exact built_variableStatement hc (plain_of_kind hk rfl)
  · next hk => exact built_variableStatement hc (plain_of_kind hk rfl)
  · exact built_function hc rfl true d
  · next hk => exact built_classDefinition hc rfl true (plain_of_kind hk rfl)
  · exact .either (fun hs => built_variableStatement hc (plain_of_seesLet hs)) fun _ =>
      .either (fun _ => built_function hc rfl true d) fun _ => (Built.refl d).andRefuse _

theorem clear_exportDefault (hc : Lawful call) : (exportDefault call ctx d).Clear :=
  .either (fun _ => clear_function hc) fun _ =>
    .either (fun _ => clear_classDefinition) fun _ => clear_endStatement _

theorem clear_exported (hc : Lawful call) : (exported call ctx d).Clear := by
  unfold exported
  split
  · exact clear_exportDefault hc
  · exact clear_endStatement _
  · exact clear_endStatement _
  · exact clear_variableStatement
  · exact clear_variableStatement
  · exact clear_function hc
  · exact clear_classDefinition
  · exact .either (fun _ => clear_variableStatement) fun _ =>
      .either (fun _ => clear_function hc) fun _ =>
        clear_of_problems (problems_refuse_ne_nil d _)

/-! ## what stands at the top level -/

theorem built_moduleItem (hc : Lawful call) (h : d.Clear) :
    Built d (moduleItem call source ctx d) := by
  unfold moduleItem
  split
  · next hk =>
      exact .either (fun _ => hc.built (p := .statement) h) fun _ => built_importDeclaration hc hk
  · next hk =>
      refine (built_requireModule d).andNode rfl fun e he => ?_
      have hp : e.Plain := plain_of_kind (he.kind.trans (kind_requireModule.trans hk)) rfl
      exact ((Built.refl e).andTake hp).trans (built_exported hc _)
  · exact hc.built (p := .statement) h

theorem clear_moduleItem (hc : Lawful call) (h : d.Clear) :
    (moduleItem call source ctx d).Clear := by
  unfold moduleItem
  split
  · exact .either (fun _ => hc.clear_statement h) fun _ => clear_importDeclaration
  · exact clear_node fun _ _ => clear_exported hc
  · exact hc.clear_statement h

end Grammar

/-! ## the productions together -/

open Grammar

theorem built_rule {call : Call} {ctx : Context} {d : Draft} {p : Production} (hc : Lawful call)
    (hn : Needs p d) : Built d (p.rule call ctx d) := by
  cases p with
  | block => exact built_block hc d
  | statements => exact built_statements hc hn
  | clauses => exact built_clauses hc d
  | clauseBody => exact built_clauseBody hc hn
  | statement => exact built_statement hc hn
  | declarators => exact built_declarators hc hn
  | expression => exact built_expression hc hn
  | commaTail => exact built_commaTail hc d
  | assignment => exact built_assignment hc hn
  | conditional => exact built_conditional hc hn
  | binary _ => exact built_binary hc hn
  | binaryTail _ => exact built_binaryTail hc d
  | unary => exact built_unary hc hn
  | operand => exact built_operand hc hn
  | newExpr => exact built_newExpr hc hn
  | suffixes _ => exact built_suffixes hc d
  | arguments => exact built_arguments hc hn
  | arrayItems => exact built_arrayItems hc hn
  | objectItems => exact built_objectItems hc hn
  | templateParts => exact built_templateParts hc d
  | bindingTarget => exact built_bindingTarget hc hn
  | bindingElement => exact built_bindingElement hc hn
  | patternFields => exact built_patternFields hc hn
  | patternItems => exact built_patternItems hc hn
  | parameters => exact built_parameters hc hn
  | members => exact built_members hc hn

theorem lawful_derive (bound : Nat) : Lawful (derive bound) := by
  induction bound with
  | zero => exact ⟨fun _ => .refl _, id, id⟩
  | succ bound ih =>
      exact ⟨fun hn => built_rule ih hn, fun _ => clear_block, fun h => clear_statement ih h⟩

theorem built_programItems {call : Call} {source : SourceType} {d : Draft} (hc : Lawful call)
    (bound : Nat) (h : d.Clear) : Built d (programItems call source bound d) := by
  induction bound generalizing d with
  | zero => exact .refl d
  | succ bound ih =>
      unfold programItems
      refine .either (fun _ => .refl d) fun _ => ?_
      exact ((Built.refl d).andAdvance (built_moduleItem hc h)).trans
        (ih (Draft.clear_advance (clear_moduleItem hc h)))

/-- Every text is read by the steps of rules. -/
theorem built_ofText (source : SourceType) (text : Text) :
    Built (.ofTokens (tokenize text)) (.ofText source text) := by
  refine .trans (built_programItems (lawful_derive _) _ ?_) (.placeTrivia _)
  exact Draft.clear_of_lastKind? rfl

end FreeNames
