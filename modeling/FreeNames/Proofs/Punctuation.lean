import FreeNames.Proofs.LineBreaks

/-!
# FreeNames.Proofs.Punctuation

What line breaks mean for nodes.  Some nodes have to be terminated: by a semicolon, or
by what comes after them (`Terminated`).  Some parts of nodes may not be separated by
the end of a line (`NodeKind.joins`).  Whether a node is terminated depends on tokens
that come after it, so `Tree.Punctuated` is said of a tree and of all tokens after it,
and `Draft.Punctuated` of the trees of a draft and of the tokens that are left.

Main statements: `Draft.Puts.joined`, `suffix_trees_grammar`.
-/

namespace FreeNames

/-! ## nodes that are terminated -/

/-- A statement may end before some tokens without a semicolon: at the end of the text,
before a closing brace, and where a line ends. -/
def MayEnd (after : List Token) : Prop :=
  ∀ u ∈ (Token.solid after).head?, u.kind = .punct .rBrace ∨
    ∃ t ∈ after.takeWhile Token.isTrivia, t.hasLineBreak = true

/-- Tokens end with a semicolon, or may end before those after them; nothing is said if
they end with trivia. -/
def Terminated (own after : List Token) : Prop :=
  ∀ t ∈ own.getLast?, t.isTrivia = false → t.kind = .punct .semicolon ∨ MayEnd after

namespace NodeKind

/-- Statements that start with `for`. -/
def isLoop : NodeKind → Bool
  | .forStmt | .forInStmt | .forOfStmt => true
  | _ => false

/-- Nodes that are terminated wherever they stand. -/
def isTerminated : NodeKind → Bool
  | .exprStmt | .returnStmt | .throwStmt | .breakStmt | .continueStmt | .debuggerStmt
  | .importDecl | .classField => true
  | _ => false

/-- Nodes that have to be terminated; declarations of variables only if they do not
stand directly in a loop. -/
def mustEnd (inLoop : Bool) (k : NodeKind) : Bool := k.isTerminated || (k = .varDecl && !inLoop)

/-- No line may end between two parts of a node, if only trivia is between them: a word
and its operand or label, an operand and an operator after it, the parameters of an
arrow function and its arrow, the word `async` and what it modifies. -/
def joins : NodeKind → Tree → Tree → Bool
  | .returnStmt, .leaf _, .node _ _ | .throwStmt, .leaf _, .node _ _ => true
  | .breakStmt, .leaf _, .node _ _ | .continueStmt, .leaf _, .node _ _ => true
  | .yieldExpr, .leaf t, .node _ _ => t.kind = .ident
  | .updateExpr, .node _ _, .leaf _ | .arrowFunction, .node _ _, .leaf _ => true
  | .functionDecl, .leaf t, _ | .functionExpr, .leaf t, _ | .arrowFunction, .leaf t, _
  | .method, .leaf t, _ => t.kind = .ident && t.text = "async".toList
  | _, _, _ => false

/-- Nodes with parts that may not be separated. -/
def isJoint : NodeKind → Bool
  | .returnStmt | .throwStmt | .breakStmt | .continueStmt | .yieldExpr | .updateExpr
  | .arrowFunction | .functionDecl | .functionExpr | .method => true
  | _ => false

theorem joins_eq_false {k : NodeKind} (h : k.isJoint = false) (x y : Tree) :
    k.joins x y = false := by
  cases k <;> first | rfl | simp [isJoint] at h

theorem mustEnd_mono {k : NodeKind} {inLoop : Bool} (h : k.mustEnd inLoop = true) :
    k.mustEnd false = true := by
  cases inLoop with
  | false => exact h
  | true =>
      simp only [mustEnd, Bool.not_true, Bool.and_false, Bool.or_false] at h
      simp [mustEnd, h]

end NodeKind

/-! ## parts that are joined -/

namespace Tree

/-- The trivia that comes last among trees, latest first. -/
def margin (ts : List Tree) : List Token := tokensAll (ts.takeWhile fun t => !t.isSolid)

/-- No line ends between parts of a node, latest first, that may not be separated. -/
def Joined (k : NodeKind) : List Tree → Prop
  | [] => True
  | y :: ts =>
    (y.isSolid = true → ∀ x ∈ (solids ts).head?, k.joins x y = true → OneLine (margin ts)) ∧
      Joined k ts

variable {k : NodeKind} {ts us vs : List Tree} {x y : Tree}

theorem joined_of_not_isJoint (h : k.isJoint = false) (ts : List Tree) : Joined k ts := by
  induction ts with
  | nil => trivial
  | cons y ts ih => exact ⟨fun _ x _ hj => by simp [NodeKind.joins_eq_false h x y] at hj, ih⟩

/-- One part alone is not separated from others. -/
theorem joined_of_length_solids (h : (solids ts).length ≤ 1) : Joined k ts := by
  induction ts with
  | nil => trivial
  | cons y ts ih =>
      cases hy : y.isSolid with
      | true =>
          have hnil : solids ts = [] := by simpa [solids, hy] using h
          exact ⟨fun _ x hx => by simp [hnil] at hx, ih (by simp [hnil])⟩
      | false =>
          rw [solids, List.filter_cons_of_neg (by simp [hy])] at h
          exact ⟨fun hsolid => by simp [hy] at hsolid, ih h⟩

theorem Joined.of_append (h : Joined k (us ++ ts)) : Joined k ts := by
  induction us with
  | nil => exact h
  | cons u us ih => exact ih h.2

theorem Joined.trivia_append (hus : ∀ u ∈ us, u.isSolid = false) (h : Joined k ts) :
    Joined k (us ++ ts) := by
  induction us with
  | nil => exact h
  | cons u us ih =>
      rw [List.forall_mem_cons] at hus
      exact ⟨fun hu => by simp [hus.1] at hu, ih hus.2⟩

theorem solids_trivia_append (hvs : ∀ v ∈ vs, v.isSolid = false) :
    solids (vs ++ ts) = solids ts := by
  have hnil : solids vs = [] := by simpa [solids] using hvs
  rw [solids_append, hnil, List.nil_append]

theorem margin_trivia_append (hvs : ∀ v ∈ vs, v.isSolid = false) :
    margin (vs ++ ts) = tokensAll vs ++ margin ts := by
  rw [margin, List.takeWhile_append_of_pos (by simpa using hvs), tokensAll_append, margin]

/-- One more tree is put after others, with trivia before and after it. -/
theorem Joined.put (hus : ∀ u ∈ us, u.isSolid = false) (hvs : ∀ v ∈ vs, v.isSolid = false)
    (h : Joined k ts)
    (hline : ∀ x ∈ (solids ts).head?, k.joins x y = true →
      OneLine (tokensAll vs) ∧ OneLine (margin ts)) : Joined k (us ++ y :: (vs ++ ts)) := by
  refine Joined.trivia_append hus ⟨fun _ x hx hj => ?_, h.trivia_append hvs⟩
  rw [solids_trivia_append hvs] at hx
  rw [margin_trivia_append hvs]
  obtain ⟨hvs, hts⟩ := hline x hx hj
  exact fun t ht => (List.mem_append.mp ht).elim (hvs t) (hts t)

/-- Two parts of a node with only trivia between them. -/
def Adjacent (parts : List Tree) (x : Tree) (gap : List Token) (y : Tree) : Prop :=
  x.isSolid = true ∧ y.isSolid = true ∧ (∀ t ∈ gap, t.isTrivia = true) ∧
    ∃ front back, parts = front ++ x :: (gap.map leaf ++ y :: back)

theorem Joined.oneLine {parts : List Tree} {gap : List Token} (h : Joined k parts.reverse)
    (hxy : Adjacent parts x gap y) (hj : k.joins x y = true) : OneLine gap := by
  obtain ⟨hx, hy, hgap, front, back, rfl⟩ := hxy
  have hparts : (front ++ x :: (gap.map leaf ++ y :: back)).reverse =
      back.reverse ++ y :: ((gap.map leaf).reverse ++ x :: front.reverse) := by simp
  rw [hparts] at h
  have htrivia : ∀ v ∈ (gap.map leaf).reverse, v.isSolid = false := by
    intro v hv
    obtain ⟨t, ht, rfl⟩ := List.mem_map.mp (List.mem_reverse.mp hv)
    simp [isSolid, hgap t ht]
  have hhead : x ∈ (solids ((gap.map leaf).reverse ++ x :: front.reverse)).head? := by
    rw [solids_trivia_append htrivia]
    simp [solids, hx]
  have hone := h.of_append.1 hy x hhead hj
  rw [margin_trivia_append htrivia] at hone
  intro t ht
  refine hone t (List.mem_append_left _ ?_)
  rw [← List.map_reverse, tokensAll_map_leaf]
  exact List.mem_reverse.mpr ht

/-! ## trees and what comes after them -/

/-- In a tree with some tokens after it, nodes that have to be are terminated, and parts
that have to be are joined.  The tree may stand directly in a loop. -/
inductive Punctuated : Bool → Tree → List Token → Prop
  | leaf (inLoop : Bool) (t : Token) (after : List Token) : Punctuated inLoop (.leaf t) after
  | node {inLoop : Bool} {k : NodeKind} {parts : List Tree} {after : List Token}
    (ends : k.mustEnd inLoop = true → Terminated (tokensAll parts) after)
    (joined : Joined k parts.reverse)
    (inner : ∀ front t back, parts = front ++ t :: back →
      Punctuated k.isLoop t (tokensAll back ++ after)) : Punctuated inLoop (.node k parts) after

/-- The same of trees in a row. -/
def PunctuatedAll (inLoop : Bool) (ts : List Tree) (after : List Token) : Prop :=
  ∀ front t back, ts = front ++ t :: back → t.Punctuated inLoop (tokensAll back ++ after)

variable {inLoop : Bool} {after : List Token}

theorem Punctuated.mono {t : Tree} (h : t.Punctuated false after) :
    t.Punctuated inLoop after := by
  cases h with
  | leaf => exact .leaf inLoop _ after
  | node ends joined inner => exact .node (fun he => ends (NodeKind.mustEnd_mono he)) joined inner

theorem PunctuatedAll.mono (h : PunctuatedAll false ts after) : PunctuatedAll inLoop ts after :=
  fun front t back hts => (h front t back hts).mono

theorem punctuatedAll_nil : PunctuatedAll inLoop [] after := by
  intro front t back h
  simp at h

theorem punctuatedAll_append :
    PunctuatedAll inLoop (ts ++ us) after ↔
      PunctuatedAll inLoop ts (tokensAll us ++ after) ∧ PunctuatedAll inLoop us after := by
  constructor
  · refine fun h => ⟨?_, ?_⟩
    · rintro front t back rfl
      have ht := h front t (back ++ us) (by simp)
      rwa [tokensAll_append, List.append_assoc] at ht
    · rintro front t back rfl
      exact h (ts ++ front) t back (by simp)
  · rintro ⟨hts, hus⟩ front t back heq
    rcases List.append_eq_append_iff.mp heq with ⟨mid, rfl, hmid⟩ | ⟨mid, rfl, hmid⟩
    · exact hus mid t back hmid
    · cases mid with
      | nil => exact hus [] t back (by simpa using hmid.symm)
      | cons m mid =>
          obtain ⟨rfl, rfl⟩ := List.cons.inj (hmid.trans (List.cons_append ..))
          rw [tokensAll_append, List.append_assoc]
          exact hts front t mid rfl

theorem punctuatedAll_leaves (ts : List Token) : PunctuatedAll inLoop (ts.map leaf) after := by
  intro front t back h
  have hmem : t ∈ ts.map leaf := h ▸ List.mem_append_right _ List.mem_cons_self
  obtain ⟨u, -, rfl⟩ := List.mem_map.mp hmem
  exact .leaf _ _ _

theorem punctuatedAll_singleton {t : Tree} (h : t.Punctuated inLoop after) :
    PunctuatedAll inLoop [t] after := by
  intro front u back heq
  obtain ⟨rfl, hu⟩ | ⟨v, rfl, hv⟩ := List.cons_eq_append_iff.mp heq
  · obtain ⟨rfl, rfl⟩ := List.cons.inj hu
    exact h
  · simp at hv

/-- Trees without anything solid are leaves of trivia. -/
theorem exists_map_leaf (h : ∀ t ∈ ts, t.isSolid = false) :
    ∃ us : List Token, ts = us.map leaf ∧ ∀ u ∈ us, u.isTrivia = true := by
  induction ts with
  | nil => exact ⟨[], rfl, by simp⟩
  | cons t ts ih =>
      rw [List.forall_mem_cons] at h
      obtain ⟨us, rfl, hus⟩ := ih h.2
      cases t with
      | leaf u =>
          have hu : u.isTrivia = true := by simpa [isSolid] using h.1
          exact ⟨u :: us, rfl, by simpa [hu] using hus⟩
      | node k parts => simp [isSolid] at h

end Tree

/-! ## trees of a draft -/

namespace Draft

variable {d e : Draft} {k : NodeKind} {inLoop : Bool}

/-- The trees of the open node or group are punctuated, with what is left after them. -/
def Punctuated (inLoop : Bool) (d : Draft) : Prop :=
  Tree.PunctuatedAll inLoop d.trees.reverse d.left

namespace Punctuated

theorem mono (h : d.Punctuated false) : d.Punctuated inLoop := Tree.PunctuatedAll.mono h

theorem leaves {ts : List Token} (h : d.Punctuated inLoop)
    (htrees : e.trees = (ts.map Tree.leaf).reverse ++ d.trees) (hleft : d.left = ts ++ e.left) :
    e.Punctuated inLoop := by
  rw [Punctuated, hleft] at h
  rw [Punctuated, htrees, List.reverse_append, List.reverse_reverse, Tree.punctuatedAll_append,
    Tree.tokensAll_map_leaf]
  exact ⟨h, Tree.punctuatedAll_leaves ts⟩

theorem placeTrivia (h : d.Punctuated inLoop) : d.placeTrivia.Punctuated inLoop := by
  cases hrest : d.rest with
  | nil =>
      rw [placeTrivia_nil hrest]
      exact h.leaves rfl (by simp [left, hrest])
  | cons l ls =>
      rw [placeTrivia_cons hrest]
      exact h.leaves rfl (by simp [left, hrest])

theorem take (h : d.Punctuated inLoop) : d.take.Punctuated inLoop := by
  cases hrest : d.rest with
  | nil =>
      rw [Draft.take, hrest]
      exact h.placeTrivia
  | cons l ls =>
      rw [take_cons hrest]
      exact h.leaves rfl (by simp [left, hrest])

theorem opened (d : Draft) : d.apart.Punctuated inLoop := Tree.punctuatedAll_nil

/-- What was gathered apart was left before, so trees before it have the same tokens
after them. -/
theorem rejoin (hd : d.Punctuated inLoop) (he : e.Punctuated inLoop) (hreads : Reads d.apart e) :
    (e.rejoin d).Punctuated inLoop := by
  obtain ⟨new, htrees, -, hleft⟩ := hreads
  have hnew : d.left = Tree.tokensAll e.trees.reverse ++ e.left := by
    rw [htrees]
    exact hleft
  rw [Punctuated, hnew] at hd
  rw [Punctuated, trees_rejoin, List.reverse_append, Tree.punctuatedAll_append]
  exact ⟨hd, he⟩

/-- A node of all the trees gathered. -/
theorem wrap (h : e.Punctuated k.isLoop)
    (ends : k.mustEnd inLoop = true → Terminated (Tree.tokensAll e.trees.reverse) e.left)
    (joined : Tree.Joined k e.trees) : ((e.wrap k).log .finish).Punctuated inLoop :=
  Tree.punctuatedAll_singleton (.node ends (by rwa [List.reverse_reverse]) h)

end Punctuated

/-- Where no line ends before the next token, the trivia placed last and the trivia left
before the token are on one line. -/
theorem Aligned.oneLine (h : d.Aligned) (hline : d.newline = false) :
    OneLine (Tree.margin d.trees) ∧ OneLine (d.left.takeWhile Token.isTrivia) := by
  have hhere := h.lined.here
  rw [← newline_eq, hline, eq_comm, ← oneLine_iff] at hhere
  rw [h.lined.sifted.takeWhile_left]
  refine ⟨fun t ht => hhere t (List.mem_append_left _ ?_),
    fun t ht => hhere t (List.mem_append_right _ ht)⟩
  have hmargin : ∀ t ∈ d.trees.takeWhile fun t => !t.isSolid, t.isSolid = false := fun t ht => by
    simpa using List.all_eq_true.mp List.all_takeWhile t ht
  obtain ⟨us, hus, htrivia⟩ := Tree.exists_map_leaf hmargin
  -- what was gathered last was placed last
  have hplaced : us <+: d.placed := by
    obtain ⟨front, hfront⟩ := h.gathered
    have htrees : d.trees = us.map Tree.leaf ++ d.trees.dropWhile fun t => !t.isSolid := by
      rw [← hus, List.takeWhile_append_dropWhile]
    rw [htrees, List.reverse_append, Tree.tokensAll_append, ← List.map_reverse,
      Tree.tokensAll_map_leaf, ← List.append_assoc] at hfront
    refine ⟨(front ++ Tree.tokensAll (d.trees.dropWhile fun t => !t.isSolid).reverse).reverse, ?_⟩
    rw [← List.reverse_reverse d.placed, ← hfront]
    simp
  obtain ⟨more, hmore⟩ := hplaced
  rw [Tree.margin, hus, Tree.tokensAll_map_leaf] at ht
  rw [← hmore, List.takeWhile_append_of_pos htrivia]
  exact List.mem_append_left _ ht

/-! ## one more part -/

/-- One solid tree has been added to those of a draft, with trivia around it. -/
def Puts (d e : Draft) (y : Tree) : Prop :=
  ∃ us vs, e.trees = us ++ y :: (vs ++ d.trees) ∧ (∀ u ∈ us, u.isSolid = false) ∧
    (∀ v ∈ vs, v.isSolid = false) ∧ Tree.tokensAll vs.reverse <+: d.left

theorem puts_of_row {y : Tree} (htrees : d.trees <:+ e.trees) (hrow : e.row = y :: d.row)
    (hreads : Reads d e) : d.Puts e y := by
  obtain ⟨new, hnew⟩ := htrees
  have hsolid : Tree.solids new = [y] := by
    rw [row, ← hnew, Tree.solids_append, ← row, ← List.singleton_append] at hrow
    exact List.append_cancel_right hrow
  obtain ⟨us, vs, rfl, hus, -, hvs⟩ := List.filter_eq_cons_iff.mp hsolid
  refine ⟨us, vs, by simpa using hnew.symm, by simpa using hus,
    by simpa using List.filter_eq_nil_iff.mp hvs, ?_⟩
  obtain ⟨more, hmore, -, hleft⟩ := hreads
  rw [← hnew] at hmore
  have hsplit : (us ++ y :: vs ++ d.trees).reverse =
      d.trees.reverse ++ (vs.reverse ++ (y :: us.reverse)) := by simp
  rw [hsplit, Tree.tokensAll_append, Tree.tokensAll_append] at hmore
  rw [hleft, ← List.append_cancel_left hmore, List.append_assoc]
  exact List.prefix_append ..

/-- A part that may not be separated from the one before it comes before the end of the
line. -/
theorem Puts.joined {y : Tree} (hputs : d.Puts e y) (hd : d.Aligned)
    (h : Tree.Joined k d.trees)
    (hline : ∀ x ∈ d.row.head?, k.joins x y = true → d.newline = false) :
    Tree.Joined k e.trees := by
  obtain ⟨us, vs, htrees, hus, hvs, hleft⟩ := hputs
  rw [htrees]
  refine h.put hus hvs fun x hx hj => ?_
  obtain ⟨hmargin, hnext⟩ := hd.oneLine (hline x hx hj)
  refine ⟨fun t ht => hnext t ?_, hmargin⟩
  obtain ⟨ts, rfl, htrivia⟩ := Tree.exists_map_leaf hvs
  rw [← List.map_reverse, Tree.tokensAll_map_leaf] at hleft
  rw [Tree.tokensAll_map_leaf] at ht
  obtain ⟨more, hmore⟩ := hleft
  rw [← hmore, List.takeWhile_append_of_pos (by simpa using htrivia)]
  exact List.mem_append_left _ (List.mem_reverse.mpr ht)

/-! ## rules that only add trees -/

theorem suffix_trees_placeTrivia (d : Draft) : d.trees <:+ d.placeTrivia.trees := by
  cases hrest : d.rest with
  | nil =>
      rw [placeTrivia_nil hrest]
      exact List.suffix_append ..
  | cons l ls =>
      rw [placeTrivia_cons hrest]
      exact List.suffix_append ..

theorem suffix_trees_take (d : Draft) : d.trees <:+ d.take.trees := by
  cases hrest : d.rest with
  | nil =>
      rw [take, hrest]
      exact d.suffix_trees_placeTrivia
  | cons l ls =>
      rw [take_cons hrest]
      exact List.suffix_append ..

theorem suffix_trees_rejoin (d e : Draft) : d.trees <:+ (e.rejoin d.placeTrivia).trees :=
  d.suffix_trees_placeTrivia.trans (List.suffix_append ..)

theorem suffix_trees_node (d : Draft) (k : NodeKind) (body : Draft → Draft) :
    d.trees <:+ (d.node k body).trees := d.suffix_trees_rejoin _

theorem suffix_trees_advance {step : Draft → Draft} (h : d.trees <:+ (step d).trees) :
    d.trees <:+ (d.advance step).trees := by
  unfold advance
  dsimp only
  split
  · refine h.trans ?_
    unfold skip
    dsimp only
    split
    · exact List.suffix_rfl
    · exact suffix_trees_node ((step d).report _) .error take
  · exact h

theorem suffix_trees_items {close : TokenKind} {item : Draft → Draft}
    (hitem : ∀ d : Draft, d.trees <:+ (item d).trees) (bound : Nat) (d : Draft) :
    d.trees <:+ (d.items close item bound).trees := by
  induction bound generalizing d with
  | zero => exact List.suffix_rfl
  | succ bound ih =>
      rw [items]
      split
      · exact List.suffix_rfl
      · unfold nextItem
        split
        · exact hitem d
        · split
          · exact ((hitem d).trans (suffix_trees_take _)).trans (ih _)
          · exact hitem d

end Draft

/-- A script that makes no node around trees that are there only adds to them. -/
theorem Script.suffix_trees_run {call : Call}
    (hcall : ∀ p ctx d, Production.continues p = false → d.trees <:+ (call p ctx d).trees)
    (ctx : Context) {s : Script} (hs : s.rooted false = true) (d : Draft) :
    d.trees <:+ (s.run call ctx d).trees := by
  induction s generalizing d with
  | done => exact List.suffix_rfl
  | take => exact d.suffix_trees_take
  | report c => exact List.suffix_rfl
  | single k => exact d.suffix_trees_node k _
  | seq a b iha ihb =>
      obtain ⟨ha, hb⟩ := (Bool.and_eq_true ..).mp hs
      exact (iha ha d).trans (ihb hb _)
  | choose t a b iha ihb =>
      obtain ⟨ha, hb⟩ := (Bool.and_eq_true ..).mp hs
      rw [run]
      split
      · exact iha ha d
      · exact ihb hb d
  | look f ih => exact ih _ (List.all_eq_true.mp hs _ d.kind.mem_every) d
  | ask t f ih =>
      obtain ⟨htrue, hfalse⟩ := (Bool.and_eq_true ..).mp hs
      rw [run]
      cases t.holds ctx d with
      | true => exact ih _ htrue d
      | false => exact ih _ hfalse d
  | group a => exact d.suffix_trees_rejoin _
  | enclose k a => cases hs
  | node k a => exact d.suffix_trees_node k _
  | call p place => exact hcall p _ d (by simpa using hs)
  | advance a ih => exact Draft.suffix_trees_advance (ih hs d)
  | list close item ih => exact d.suffix_trees_take.trans (Draft.suffix_trees_items (ih hs) _ _)

theorem suffix_trees_grammar {p : Production} (hp : p.continues = false) (ctx : Context)
    (d : Draft) : d.trees <:+ (grammar p ctx d).trees := by
  have hderive (bound : Nat) (p : Production) (ctx : Context) (d : Draft)
      (hp : p.continues = false) : d.trees <:+ (derive bound p ctx d).trees := by
    induction bound generalizing p ctx d with
    | zero => exact List.suffix_rfl
    | succ bound ih =>
        rw [derive, p.rule_eq_run]
        exact Script.suffix_trees_run ih ctx (hp ▸ p.rooted_script) d
  exact hderive _ p ctx d hp

end FreeNames
