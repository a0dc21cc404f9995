import FreeNames.Grammar.Operator
import FreeNames.Proofs.Built

/-!
# FreeNames.Proofs.Expressions

The rules for expressions, functions, classes and patterns make drafts by the
steps of `Built`, provided the productions they call do (`Lawful`).  Most
productions can start with a name, so they are called only where one may come
next (`Needs`).
-/

namespace FreeNames

/-- What has to hold where a production is called. -/
def Needs : Production → Draft → Prop
  | .newExpr, d => d.kind = .keyword .newKw
  | .clauses, _ | .commaTail, _ | .binaryTail _, _ | .suffixes _, _ | .templateParts, _ => True
  | _, d => d.Clear

/-- Productions that do what rules can do.  A block and a statement leave a draft
where any name may come next. -/
structure Lawful (call : Call) : Prop where
  built {p : Production} {ctx : Context} {d : Draft} : Needs p d → Built d (call p ctx d)
  clear_block {ctx : Context} {d : Draft} : d.Clear → (call .block ctx d).Clear
  clear_statement {ctx : Context} {d : Draft} : d.Clear → (call .statement ctx d).Clear

namespace Built

theorem andCall {call : Call} {ctx : Context} {d e : Draft} (h : Built d e) (hc : Lawful call)
    (p : Production) (hn : Needs p e) : Built d (call p ctx e) := h.trans (hc.built hn)

/-- Either way of a choice. -/
theorem either {c : Prop} [Decidable c] {d x y : Draft} (hx : c → Built d x)
    (hy : ¬c → Built d y) : Built d (if c then x else y) := by
  split
  · next h => exact hx h
  · next h => exact hy h

end Built

namespace Draft

theorem Clear.either {c : Prop} [Decidable c] {x y : Draft} (hx : c → x.Clear)
    (hy : ¬c → y.Clear) : Clear (if c then x else y) := by
  split
  · next h => exact hx h
  · next h => exact hy h

end Draft

namespace Grammar

open Draft

variable {call : Call} {ctx : Context} {d : Draft} {k : NodeKind} {p : Production}

/-! ## common shapes -/

/-- A token and what a production makes of the rest. -/
theorem built_take_call (hc : Lawful call) (hp : d.Plain) (hn : ∀ {e : Draft}, e.Clear → Needs p e) :
    Built d (call p ctx d.take) :=
  ((Built.refl d).andTake hp).andCall hc p (hn hp.clear_take)

/-- A node of a token and of what a production makes. -/
theorem built_headed (hc : Lawful call) (hk : k.isLarge = true) (hp : d.Plain)
    (hn : ∀ {e : Draft}, e.Clear → Needs p e) :
    Built d (d.node k fun d => call p ctx d.take) :=
  (Built.refl d).andNode hk fun _ he => built_take_call hc (he.plain hp) hn

/-- A node in brackets. -/
theorem built_bracketed {close : TokenKind} (hc : Lawful call) (hk : k.isLarge = true)
    (hp : d.Plain) (hclose : close.isPlain = true) (hn : ∀ {e : Draft}, e.Clear → Needs p e) :
    Built d (d.node k fun d => (call p ctx d.take).expect close) :=
  (Built.refl d).andNode hk fun _ he => (built_take_call hc (he.plain hp) hn).andExpect hclose

/-- A larger node, of what was gathered, a token and what a production makes. -/
theorem built_extended (hc : Lawful call) (hk : k.isLarge = true) (hp : d.Plain)
    (hn : ∀ {e : Draft}, e.Clear → Needs p e) :
    Built d (d.enclose k fun d => call p ctx d.take) :=
  (Built.refl d).andEnclose hk fun _ he => built_take_call hc (he.plain hp) hn

/-- A word in front of something, which may be left out. -/
theorem built_optionalTake {c : Prop} [Decidable c] (hp : c → d.Plain) :
    Built d (if c then d.take else d) :=
  .either (fun h => (Built.refl d).andTake (hp h)) fun _ => .refl d

theorem clear_optionalTake {c : Prop} [Decidable c] (h : d.Clear) (hp : c → d.Plain) :
    (if c then d.take else d).Clear :=
  .either (fun h => (hp h).clear_take) fun _ => h

/-! ## keys -/

theorem built_propertyName (h : d.Clear) (hdot : d.lastKind?.any TokenKind.isDot = true) :
    Built d (propertyName d) := by
  unfold propertyName
  refine .either (fun hk => .single ?_ h fun _ => hdot) fun _ => .report _ _
  simp only [Bool.or_eq_true] at hk
  rcases hk with hk | hk
  · simp [NodeKind.fits, hk]
  · exact fits_of_sees hk rfl

theorem built_propertyKey (hc : Lawful call) (h : d.Clear) :
    Built d (propertyKey call ctx d) := by
  unfold propertyKey
  refine .either (fun hs => ?_) fun hs => .either (fun hk => .single ?_ h nofun) fun _ => ?_
  · exact built_bracketed hc rfl (plain_of_sees hs rfl) rfl id
  · -- a bracket is the only start of a key that is no token by itself
    have hne : d.kind ≠ .punct .lBracket := by
      intro he
      simp [sees, he, ended, rest_ne_nil_of_kind he] at hs
    generalize d.kind = k at hk hne
    cases k <;> simp_all [startsKey, NodeKind.fits, TokenKind.isIdentifierName]
  · exact (Built.refl d).andRefuse _

/-! ## patterns -/

theorem built_bindingName (h : d.Clear) : Built d (bindingName d) := by
  unfold bindingName
  exact .either (fun hs => .single (fits_of_sees hs rfl) h nofun)
    fun _ => (Built.refl d).andRefuse _

theorem built_bindingTarget (hc : Lawful call) (h : d.Clear) :
    Built d (bindingTarget call ctx d) := by
  unfold bindingTarget
  refine .either (fun hs => ?_) fun _ => .either (fun hs => ?_) fun _ => built_bindingName h
  · exact built_bracketed hc rfl (plain_of_sees hs rfl) rfl id
  · exact built_bracketed hc rfl (plain_of_sees hs rfl) rfl id

theorem built_bindingElement (hc : Lawful call) (h : d.Clear) :
    Built d (bindingElement call ctx d) := by
  refine (Built.refl d).andGroup fun e he => ?_
  have htarget : Built e (call .bindingTarget ctx e) := hc.built (p := .bindingTarget) (he.clear h)
  exact .either (fun hs => htarget.trans (built_extended hc rfl (plain_of_sees hs rfl) id))
    fun _ => htarget

theorem built_restPattern (hc : Lawful call) (hs : d.sees (.punct .dotDotDot) = true) :
    Built d (restPattern call ctx d) :=
  built_headed hc rfl (plain_of_sees hs rfl) id

theorem built_restOrElement (hc : Lawful call) (h : d.Clear) :
    Built d (restOrElement call ctx d) := by
  unfold restOrElement
  exact .either (fun hs => built_restPattern hc hs) fun _ => hc.built (p := .bindingElement) h

theorem built_patternField (hc : Lawful call) (h : d.Clear) :
    Built d (patternField call ctx d) := by
  refine (Built.refl d).andNode rfl fun e he => ?_
  refine .either (fun _ => hc.built (p := .bindingElement) (he.clear h)) fun _ => ?_
  exact ((built_propertyKey hc (he.clear h)).andExpect rfl).andCall hc .bindingElement
    (clear_expect rfl)

theorem built_patternFields (hc : Lawful call) (h : d.Clear) :
    Built d (patternFields call ctx d) := by
  unfold patternFields
  refine .either (fun _ => .refl d) fun _ => Built.andNextItem ?_ fun f hf =>
    hc.built (p := .patternFields) hf
  exact .either (fun hs => built_restPattern hc hs) fun _ => built_patternField hc h

theorem built_patternItems (hc : Lawful call) (h : d.Clear) :
    Built d (patternItems call ctx d) := by
  unfold patternItems
  refine .either (fun _ => .refl d) fun _ => .either (fun hs => ?_) fun _ => ?_
  · exact built_take_call hc (plain_of_sees hs rfl) id
  · exact (built_restOrElement hc h).andNextItem fun f hf => hc.built (p := .patternItems) hf

theorem built_parameters (hc : Lawful call) (h : d.Clear) :
    Built d (parameters call ctx d) := by
  unfold parameters
  exact .either (fun _ => .refl d) fun _ => (built_restOrElement hc h).andNextItem fun f hf =>
    hc.built (p := .parameters) hf

theorem built_parameterList (hc : Lawful call) (d : Draft) :
    Built d (parameterList call ctx d) :=
  (Built.refl d).andNode rfl fun e _ =>
    (((Built.refl e).andExpect rfl).andCall hc .parameters (clear_expect rfl)).andExpect rfl

theorem clear_parameterList : (parameterList call ctx d).Clear :=
  clear_node fun _ _ => clear_expect rfl

/-! ## functions -/

theorem built_functionRest (hc : Lawful call) (a g : Bool) (d : Draft) :
    Built d (functionRest call a g d) :=
  (built_parameterList hc d).andCall hc .block clear_parameterList

theorem clear_functionRest (hc : Lawful call) {a g : Bool} : (functionRest call a g d).Clear :=
  hc.clear_block clear_parameterList

theorem built_methodRest (hc : Lawful call) (a g : Bool) (d : Draft) :
    Built d (methodRest call a g d) :=
  (Built.refl d).andEnclose rfl fun e _ => built_functionRest hc a g e

theorem clear_methodRest (hc : Lawful call) {a g : Bool} : (methodRest call a g d).Clear :=
  clear_enclose fun _ _ => clear_functionRest hc

/-- The name of a function or class, which may be left out. -/
theorem built_optionalName (needed : Bool) (c : Cause) (h : d.Clear) :
    Built d (if d.sees .ident then bindingName d else if needed then d.report c else d) :=
  .either (fun _ => built_bindingName h) fun _ => .either (fun _ => .report d c) fun _ => .refl d

theorem built_function (hc : Lawful call) (hk : k.isLarge = true) (needsName : Bool) (d : Draft) :
    Built d (function call k needsName d) := by
  refine (Built.refl d).andNode hk fun e _ => ?_
  have hword : Built e (((e.takeIfWord "async").expect (.keyword .functionKw)).takeIf
      (.punct .star)) :=
    (((Built.refl e).andTakeIfWord (by simp [contextualWords])).andExpect rfl).andTakeIf rfl
  have hclear : (((e.takeIfWord "async").expect (.keyword .functionKw)).takeIf
      (.punct .star)).Clear := (clear_expect rfl).takeIf rfl
  exact (hword.trans (built_optionalName _ _ hclear)).trans (built_functionRest hc _ _ _)

theorem clear_function (hc : Lawful call) {needsName : Bool} :
    (function call k needsName d).Clear :=
  clear_node fun _ _ => clear_functionRest hc

theorem built_arrowFunction (hc : Lawful call) (h : d.Clear) :
    Built d (arrowFunction call ctx d) := by
  refine (Built.refl d).andNode rfl fun e he => ?_
  have hasync : (e.seesWord "async" && e.kindAt 1 ≠ .punct .fatArrow) = true → e.Plain := by
    intro hs
    simp only [Bool.and_eq_true] at hs
    exact plain_of_seesWord hs.1 (by simp [contextualWords])
  refine Built.either (fun _ => ?_) fun _ => ?_
  all_goals
    refine Built.andCall (Built.andExpect (.trans (built_optionalTake hasync) ?_) rfl) hc _
      (clear_expect rfl)
    refine .either (fun _ => ?_) fun _ => built_parameterList hc _
    exact (Built.refl _).andNode rfl fun f hf =>
      built_bindingName (hf.clear (clear_optionalTake (he.clear h) hasync))

/-! ## classes -/

theorem built_classDefinition (hc : Lawful call) (hk : k.isLarge = true) (needsName : Bool)
    (hp : d.Plain) : Built d (classDefinition call k needsName ctx d) := by
  refine (Built.refl d).andNode hk fun e he => ?_
  have hp : e.Plain := he.plain hp
  refine Built.andNode (((Built.refl e).andTake hp).trans
    ((built_optionalName needsName .expectedClassName hp.clear_take).trans ?_)) rfl fun f _ => ?_
  · exact .either (fun hs => built_headed hc rfl (plain_of_sees hs rfl) id) fun _ => .refl _
  · exact (((Built.refl f).andExpect rfl).andCall hc .members (clear_expect rfl)).andExpect rfl

theorem clear_classDefinition {needsName : Bool} :
    (classDefinition call k needsName ctx d).Clear :=
  clear_node fun _ _ => clear_node fun _ _ => clear_expect rfl

theorem plain_of_seesAccessor (h : seesAccessor d = true) : d.Plain := by
  simp only [seesAccessor, Bool.and_eq_true, Bool.or_eq_true] at h
  rcases h.1 with h | h <;> exact plain_of_seesWord h (by simp [contextualWords])

/-- `async` in front of a member. -/
theorem plain_of_seesAsync {b c : Bool} (h : (d.seesWord "async" && b && c) = true) : d.Plain := by
  simp only [Bool.and_eq_true] at h
  exact plain_of_seesWord h.1.1 (by simp [contextualWords])

theorem built_fieldRest (hc : Lawful call) (d : Draft) : Built d (fieldRest call d) :=
  (Built.refl d).andEnclose rfl fun _ _ => Built.andEndStatement <|
    .either (fun hs => built_take_call hc (plain_of_sees hs rfl) id) fun _ => .refl _

/-- An accessor of a class or object. -/
theorem built_accessor (hc : Lawful call) (h : seesAccessor d = true) :
    Built d (methodRest call false false (propertyKey call ctx d.take)) := by
  have hp := plain_of_seesAccessor h
  exact (((Built.refl d).andTake hp).trans (built_propertyKey hc hp.clear_take)).trans
    (built_methodRest hc false false _)

theorem built_methodOrField (hc : Lawful call) (h : d.Clear) :
    Built d (methodOrField call ctx d) := by
  unfold methodOrField
  refine .either (fun hs => built_accessor hc hs) fun _ =>
    .either (fun _ => .trans ?_ (built_methodRest hc _ _ _)) fun _ =>
      .trans ?_ (built_fieldRest hc _)
  all_goals
    exact ((built_optionalTake plain_of_seesAsync).andTakeIf rfl).trans
      (built_propertyKey hc ((clear_optionalTake h plain_of_seesAsync).takeIf rfl))

theorem clear_methodOrField (hc : Lawful call) : (methodOrField call ctx d).Clear := by
  unfold methodOrField
  refine .either (fun _ => clear_methodRest hc) fun _ =>
    .either (fun _ => clear_methodRest hc) fun _ => ?_
  exact clear_enclose fun _ _ => clear_endStatement _

theorem built_member (hc : Lawful call) (h : d.Clear) : Built d (member call ctx d) := by
  refine (Built.refl d).andGroup fun e he => ?_
  have hstatic : "static".toList ∈ contextualWords := by simp [contextualWords]
  refine .either (fun hs => ?_) fun _ => ?_
  · simp only [Bool.and_eq_true] at hs
    exact built_headed hc rfl (plain_of_seesWord hs.1 hstatic) id
  · have hp {b : Bool} (hs : (e.seesWord "static" && b) = true) : e.Plain := by
      simp only [Bool.and_eq_true] at hs
      exact plain_of_seesWord hs.1 hstatic
    exact (built_optionalTake hp).trans
      (built_methodOrField hc (clear_optionalTake (he.clear h) hp))

theorem clear_member (hc : Lawful call) : (member call ctx d).Clear := by
  refine clear_group fun e he => .either (fun hs => ?_) fun _ => clear_methodOrField hc
  simp only [Bool.and_eq_true] at hs
  have hp : e.Plain := plain_of_seesWord hs.1 (by simp [contextualWords])
  exact clear_node fun f hf => hc.clear_block (hf.plain hp).clear_take

theorem built_members (hc : Lawful call) (h : d.Clear) : Built d (members call ctx d) := by
  unfold members
  refine .either (fun _ => .refl d) fun _ => .either (fun hs => ?_) fun _ => ?_
  · exact built_take_call hc (plain_of_sees hs rfl) id
  · exact ((Built.refl d).andAdvance (built_member hc h)).andCall hc .members
      (clear_advance (clear_member hc))

/-! ## collections -/

theorem built_spreadElement (hc : Lawful call) (hs : d.sees (.punct .dotDotDot) = true) :
    Built d (spreadElement call ctx d) :=
  built_headed hc rfl (plain_of_sees hs rfl) id

theorem built_spreadOrPlain (hc : Lawful call) (h : d.Clear) :
    Built d (spreadOrPlain call ctx d) := by
  unfold spreadOrPlain
  exact .either (fun hs => built_spreadElement hc hs) fun _ => hc.built (p := .assignment) h

theorem built_arguments (hc : Lawful call) (h : d.Clear) : Built d (arguments call ctx d) := by
  unfold arguments
  exact .either (fun _ => .refl d) fun _ => (built_spreadOrPlain hc h).andNextItem fun f hf =>
    hc.built (p := .arguments) hf

theorem built_argumentList (hc : Lawful call) (d : Draft) : Built d (argumentList call ctx d) :=
  (Built.refl d).andNode rfl fun e _ =>
    (((Built.refl e).andExpect rfl).andCall hc .arguments (clear_expect rfl)).andExpect rfl

theorem built_arrayItems (hc : Lawful call) (h : d.Clear) : Built d (arrayItems call ctx d) := by
  unfold arrayItems
  refine .either (fun _ => .refl d) fun _ => .either (fun hs => ?_) fun _ => ?_
  · exact built_take_call hc (plain_of_sees hs rfl) id
  · exact (built_spreadOrPlain hc h).andNextItem fun f hf => hc.built (p := .arrayItems) hf

theorem built_shorthand (hc : Lawful call) (h : d.Clear) (hs : seesShorthand d = true) :
    Built d (shorthand call ctx d) := by
  refine (Built.refl d).andNode rfl fun e he => ?_
  simp only [seesShorthand, Bool.and_eq_true] at hs
  have hfits : NodeKind.nameRef.fits e.kind = true :=
    fits_of_kind (he.kind.trans (kind_of_sees hs.1)) rfl
  have hname : Built e (e.single .nameRef) := .single hfits (he.clear h)
  exact .either (fun hs => hname.trans (built_take_call hc (plain_of_sees hs rfl) id))
    fun _ => hname

theorem built_keyed (hc : Lawful call) (h : d.Clear) : Built d (keyed call ctx d) := by
  have hkey : Built d (propertyKey call ctx d) := built_propertyKey hc h
  refine .either (fun _ => hkey.trans (built_methodRest hc _ _ _)) fun _ => ?_
  exact hkey.andEnclose rfl fun e _ =>
    ((Built.refl e).andExpect rfl).andCall hc .assignment (clear_expect rfl)

theorem built_property (hc : Lawful call) (h : d.Clear) : Built d (property call ctx d) := by
  refine (Built.refl d).andGroup fun e he => .either (fun hs => built_accessor hc hs) fun _ => ?_
  have hstart {b c : Bool} : Built e ((if (e.seesWord "async" && b && c) = true then e.take
      else e).takeIf (.punct .star)) :=
    (built_optionalTake plain_of_seesAsync).andTakeIf rfl
  have hclear {b c : Bool} : ((if (e.seesWord "async" && b && c) = true then e.take
      else e).takeIf (.punct .star)).Clear :=
    (clear_optionalTake (he.clear h) plain_of_seesAsync).takeIf rfl
  refine .either (fun _ => ?_) fun _ => .either (fun hs => ?_) fun _ => ?_
  · exact hstart.trans ((built_propertyKey hc hclear).trans (built_methodRest hc _ _ _))
  · exact hstart.trans (built_shorthand hc hclear hs)
  · exact hstart.trans (built_keyed hc hclear)

theorem built_objectItems (hc : Lawful call) (h : d.Clear) : Built d (objectItems call ctx d) := by
  unfold objectItems
  refine .either (fun _ => .refl d) fun _ => Built.andNextItem ?_ fun f hf =>
    hc.built (p := .objectItems) hf
  exact .either (fun hs => built_spreadElement hc hs) fun _ => built_property hc h

/-! ## operands -/

theorem built_templateParts (hc : Lawful call) (d : Draft) :
    Built d (templateParts call ctx d) := by
  unfold templateParts
  refine .either (fun hs => (Built.refl d).andTake (plain_of_sees hs rfl)) fun _ =>
    .either (fun hs => ?_) fun _ => .report d _
  exact (built_take_call hc (plain_of_sees hs rfl) id).andCall hc .templateParts trivial

theorem built_template (hc : Lawful call) (d : Draft) : Built d (template call ctx d) :=
  (Built.refl d).andNode rfl fun _ _ => hc.built (p := .templateParts) trivial

theorem built_index (hc : Lawful call) (d : Draft) : Built d (index call ctx d) :=
  (((Built.refl d).andExpect rfl).andCall hc .expression (clear_expect rfl)).andExpect rfl

theorem built_metaProperty (hp : d.Plain) (hdot : d.kindAt 1 = .punct .dot) :
    Built d (metaProperty d) := by
  refine (Built.refl d).andNode rfl fun e he => ?_
  have hdot' : e.take.kind = .punct .dot := by
    rw [kind, kindAt_take (rest_ne_nil_of_kindAt ((he.kindAt 1).trans hdot) (by simp)), he.kindAt,
      hdot]
  have hp' : e.take.Plain := plain_of_kind hdot' rfl
  refine (((Built.refl e).andTake (he.plain hp)).andTake hp').trans
    (built_propertyName hp'.clear_take ?_)
  rw [hp'.lastKind?_take, hdot']
  rfl

theorem built_importExpr (hc : Lawful call) (hp : d.Plain) : Built d (importExpr call ctx d) := by
  refine .either (fun hdot => built_metaProperty hp hdot) fun _ => ?_
  exact (Built.refl d).andNode rfl fun e he =>
    ((Built.refl e).andTake (he.plain hp)).trans (built_argumentList hc _)

theorem built_primary (hc : Lawful call) (h : d.Clear) : Built d (primary call ctx d) := by
  unfold primary
  split
  · next hk => exact .single (fits_of_kind hk rfl) h nofun
  · next hk => exact .single (fits_of_kind hk rfl) h nofun
  · next hk =>
      exact .either (fun _ => built_function hc rfl false d) fun _ =>
        .single (fits_of_kind hk rfl) h nofun
  -- numbers, strings, regular expressions and the three words for values
  iterate 6 next hk => exact .single (fits_of_kind hk rfl) h nofun
  · exact built_template hc d
  · exact built_template hc d
  · next hk => exact built_bracketed hc rfl (plain_of_kind hk rfl) rfl id
  · next hk => exact built_bracketed hc rfl (plain_of_kind hk rfl) rfl id
  · next hk => exact built_bracketed hc rfl (plain_of_kind hk rfl) rfl id
  · exact built_function hc rfl false d
  · next hk => exact built_classDefinition hc rfl false (plain_of_kind hk rfl)
  · next hk =>
      exact .either (fun _ => built_importExpr hc (plain_of_kind hk rfl)) fun _ =>
        (Built.refl d).andRefuse _
  · exact (Built.refl d).andRefuse _

theorem built_newOrPrimary (hc : Lawful call) (h : d.Clear) :
    Built d (if d.sees (.keyword .newKw) then call .newExpr ctx d else primary call ctx d) :=
  .either (fun hs => hc.built (p := .newExpr) (kind_of_sees hs)) fun _ => built_primary hc h

theorem built_newExpr (hc : Lawful call) (hk : d.kind = .keyword .newKw) :
    Built d (newExpr call ctx d) := by
  have hp : d.Plain := plain_of_kind hk rfl
  refine .either (fun hdot => built_metaProperty hp hdot) fun _ => ?_
  refine (Built.refl d).andNode rfl fun e he => ?_
  have hp : e.Plain := he.plain hp
  have hcallee : Built e (e.take.group fun d =>
      call (.suffixes false) ctx
        (if d.sees (.keyword .newKw) then call .newExpr ctx d else primary call ctx d)) :=
    ((Built.refl e).andTake hp).andGroup fun f hf =>
      (built_newOrPrimary hc (hf.clear hp.clear_take)).andCall hc (.suffixes false) trivial
  exact .either (fun _ => hcallee.trans (built_argumentList hc _)) fun _ => hcallee

theorem built_suffix? {calls : Bool} {e : Draft} (hc : Lawful call)
    (he : suffix? call calls ctx d = some e) : Built d e := by
  have hname {k : TokenKind} (hk : d.kind = k) (hdot : k.isDot = true) (hplain : k.isPlain = true) :
      Built d (d.enclose .memberExpr fun d => propertyName d.take) := by
    refine (Built.refl d).andEnclose rfl fun f hf => ?_
    have hp : f.Plain := hf.plain (plain_of_kind hk hplain)
    refine ((Built.refl f).andTake hp).trans (built_propertyName hp.clear_take ?_)
    rwa [hp.lastKind?_take, hf.kind, hk, Option.any_some]
  unfold suffix? at he
  split at he
  · next hk =>
      cases he
      exact hname hk rfl rfl
  · next hk =>
      have hp : d.Plain := plain_of_kind hk rfl
      split at he <;> cases he
      · exact (Built.refl d).andEnclose rfl fun f hf =>
          ((Built.refl f).andTake (hf.plain hp)).trans (built_index hc _)
      · exact (Built.refl d).andEnclose rfl fun f hf =>
          ((Built.refl f).andTake (hf.plain hp)).trans (built_argumentList hc _)
      · exact hname hk rfl rfl
  · cases he
    exact (Built.refl d).andEnclose rfl fun f _ => built_index hc f
  · split at he <;> cases he
    exact (Built.refl d).andEnclose rfl fun f _ => built_argumentList hc f
  iterate 2
    split at he <;> cases he
    exact (Built.refl d).andEnclose rfl fun f _ => built_template hc f
  · cases he

theorem built_suffixes {calls : Bool} (hc : Lawful call) (d : Draft) :
    Built d (suffixes call calls ctx d) := by
  unfold suffixes
  split
  · next e he => exact (built_suffix? hc he).andCall hc (.suffixes calls) trivial
  · exact .refl d

theorem built_operand (hc : Lawful call) (h : d.Clear) : Built d (operand call ctx d) :=
  (Built.refl d).andGroup fun _ he =>
    (built_newOrPrimary hc (he.clear h)).andCall hc (.suffixes true) trivial

/-! ## operators -/

theorem built_commaTail (hc : Lawful call) (d : Draft) : Built d (commaTail call ctx d) := by
  unfold commaTail
  exact .either (fun hs => (built_take_call hc (plain_of_sees hs rfl) id).andCall hc .commaTail
    trivial) fun _ => .refl d

theorem built_expression (hc : Lawful call) (h : d.Clear) : Built d (expression call ctx d) := by
  refine (Built.refl d).andGroup fun e he => ?_
  have hfirst : Built e (call .assignment ctx e) := hc.built (p := .assignment) (he.clear h)
  refine .either (fun _ => ?_) fun _ => hfirst
  exact hfirst.andEnclose rfl fun _ _ => hc.built (p := .commaTail) trivial

theorem built_yieldExpr (hc : Lawful call) (hs : d.seesWord "yield" = true) :
    Built d (yieldExpr call ctx d) := by
  refine (Built.refl d).andNode rfl fun e he => ?_
  have hp : e.Plain := he.plain (plain_of_seesWord hs (by simp [contextualWords]))
  have htake : Built e e.take := (Built.refl e).andTake hp
  refine .either (fun hs => htake.trans (built_take_call hc (plain_of_sees hs rfl) id)) fun _ => ?_
  exact .either (fun _ => htake) fun _ => htake.andCall hc .assignment hp.clear_take

theorem isPlain_of_isAssign {t : TokenKind} (h : t.isAssign = true) : t.isPlain = true := by
  cases t <;> simp_all [TokenKind.isAssign, TokenKind.isPlain]

theorem built_assignment (hc : Lawful call) (h : d.Clear) : Built d (assignment call ctx d) := by
  unfold assignment
  refine .either (fun _ => built_arrowFunction hc h) fun _ => .either (fun hs => ?_) fun _ => ?_
  · simp only [Bool.and_eq_true] at hs
    exact built_yieldExpr hc hs.2
  · refine (Built.refl d).andGroup fun e he => ?_
    have hleft : Built e (call .conditional ctx e) := hc.built (p := .conditional) (he.clear h)
    refine .either (fun ha => ?_) fun _ => hleft
    exact hleft.trans (built_extended hc rfl (plain_of_kind rfl (isPlain_of_isAssign ha)) id)

theorem built_conditional (hc : Lawful call) (h : d.Clear) : Built d (conditional call ctx d) := by
  refine (Built.refl d).andGroup fun e he => ?_
  have htest : Built e (call (.binary 1) ctx e) := hc.built (p := .binary 1) (he.clear h)
  refine .either (fun hs => ?_) fun _ => htest
  refine htest.andEnclose rfl fun f hf => ?_
  exact ((built_take_call hc (hf.plain (plain_of_sees hs rfl)) id).andExpect rfl).andCall hc
    .assignment (clear_expect rfl)

theorem isPlain_of_precedence? {t : TokenKind} {n : Nat} (h : precedence? ctx t = some n) :
    t.isPlain = true := by
  unfold precedence? at h
  split at h <;> first | rfl | cases h

theorem built_binaryTail {least : Nat} (hc : Lawful call) (d : Draft) :
    Built d (binaryTail call least ctx d) := by
  unfold binaryTail
  split
  · exact .refl d
  · next n hn =>
      refine .either (fun _ => .refl d) fun _ => Built.andCall ?_ hc (.binaryTail least) trivial
      exact built_extended hc rfl (plain_of_kind rfl (isPlain_of_precedence? hn)) id

theorem built_binary {least : Nat} (hc : Lawful call) (h : d.Clear) :
    Built d (binary call least ctx d) := by
  refine (Built.refl d).andGroup fun e he => Built.andCall ?_ hc (.binaryTail least) trivial
  refine .either (fun hs => ?_) fun _ => hc.built (p := .unary) (he.clear h)
  simp only [Bool.and_eq_true] at hs
  exact .single (fits_of_sees hs.1 rfl) (he.clear h) nofun

theorem built_postfixed (hc : Lawful call) (h : d.Clear) : Built d (postfixed call ctx d) := by
  refine (Built.refl d).andGroup fun e he => ?_
  have hoperand : Built e (call .operand ctx e) := hc.built (p := .operand) (he.clear h)
  refine .either (fun hs => ?_) fun _ => hoperand
  refine hoperand.andEnclose rfl fun f hf => (Built.refl f).andTake (hf.plain ?_)
  simp only [seesAny, List.any_cons, List.any_nil, Bool.or_false, Bool.and_eq_true,
    Bool.or_eq_true] at hs
  rcases hs.1 with hs | hs <;> exact plain_of_sees hs rfl

theorem built_unary (hc : Lawful call) (h : d.Clear) : Built d (unary call ctx d) := by
  unfold unary
  split
  iterate 9 next hk => exact built_headed hc rfl (plain_of_kind hk rfl) id
  refine .either (fun hs => ?_) fun _ => built_postfixed hc h
  simp only [Bool.and_eq_true] at hs
  exact built_headed hc rfl (plain_of_seesWord hs.2 (by simp [contextualWords])) id

end Grammar

end FreeNames
