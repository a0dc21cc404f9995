import FreeNames.Proofs.Layouts

/-!
# FreeNames.Proofs.Precedence

How binary operators group.  The operators stand on twelve levels (`Operator.levels`).
An operand that was read for operators of some level on binds at least so tightly, and
an operator that follows it does not (`Stops`): so what an operator finds to its left
binds at least as tightly as it does itself (`Ready`).  A context in which `in` is no
operator is the same for an operation and all its operands.

Main statement: `operations_ranked`, in a text without problems the operands of each
binary operator bind tightly enough, on the left and on the right.
-/

namespace FreeNames

/-! ## levels of operators -/

/-- The binary operators, from those that bind least tightly on. -/
def Operator.levels : List (List TokenKind) :=
  [[.punct .questionQuestion],
   [.punct .pipePipe],
   [.punct .ampAmp],
   [.punct .pipe],
   [.punct .caret],
   [.punct .amp],
   [.punct .eqEq, .punct .bangEq, .punct .eqEqEq, .punct .bangEqEq],
   [.punct .lt, .punct .gt, .punct .ltEq, .punct .gtEq, .keyword .inKw, .keyword .instanceofKw],
   [.punct .shl, .punct .shr, .punct .ushr],
   [.punct .plus, .punct .minus],
   [.punct .star, .punct .slash, .punct .percent],
   [.punct .starStar]]

/-- The level of an operator, counted from one. -/
def Operator.level? (k : TokenKind) : Option Nat :=
  (levels.findIdx? fun ks => ks.contains k).map (· + 1)

theorem Operator.level?_eq (k : TokenKind) : level? k = Grammar.precedence? {} k := by
  cases k with
  | trivia t => cases t <;> rfl
  | punct p => cases p <;> rfl
  | keyword k => cases k <;> rfl
  | _ => rfl

/-- The level that the left operand has at least. -/
def Operator.left (k : TokenKind) (p : Nat) : Nat := if k = .punct .starStar then p + 1 else p

/-- The level that the right operand has at least. -/
def Operator.right (k : TokenKind) (p : Nat) : Nat := if k = .punct .starStar then p else p + 1

theorem Operator.bounds {k : TokenKind} {p : Nat} (h : level? k = some p) :
    1 ≤ p ∧ p ≤ 12 ∧ (p = 12 ↔ k = .punct .starStar) := by
  have hall : (TokenKind.every.all fun k => (level? k).all fun p =>
      decide (1 ≤ p ∧ p ≤ 12 ∧ (p = 12 ↔ k = .punct .starStar))) = true := by
    decide
  have hk := List.all_eq_true.mp hall k k.mem_every
  rw [h, Option.all_some] at hk
  exact of_decide_eq_true hk

/-- What follows a right operand of an operator binds no tighter than it. -/
theorem Operator.left_le {j k : TokenKind} {p q : Nat} (hp : level? j = some p)
    (hq : level? k = some q) (hlt : q < right j p) : left k q ≤ p := by
  have hj := bounds hp
  have hk := bounds hq
  unfold right at hlt
  unfold left
  split at hlt <;> split <;> grind

/-- The level of the operator of a node. -/
def Node.level? (n : Node) : Option Nat := n.firstToken?.bind fun t => Operator.level? t.kind

namespace Tree

/-- How tightly a tree binds: an operation as its operator does, and all else tighter than
any operator. -/
def level : Tree → Nat
  | .node .binaryExpr parts => (Node.level? ⟨0, .binaryExpr, parts⟩).getD 0
  | _ => 13

/-- The operands of a binary operator bind tightly enough. -/
def Ranked (k : NodeKind) (parts : List Tree) : Prop :=
  k = .binaryExpr → ∃ i ls op j rs p,
    solids parts = [.node i ls, .leaf op, .node j rs] ∧ Operator.level? op.kind = some p ∧
      Operator.left op.kind p ≤ level (.node i ls) ∧ Operator.right op.kind p ≤ level (.node j rs)

theorem level_of_ne {k : NodeKind} (h : k ≠ .binaryExpr) (parts : List Tree) :
    level (.node k parts) = 13 := by
  unfold level
  split
  · next heq => exact absurd (Tree.node.inj heq).1 h
  · rfl

/-- A tree that is a token. -/
def token? : Tree → Option Token
  | .leaf t => some t
  | .node _ _ => none

theorem firstToken?_eq (n : Node) : n.firstToken? = (solids n.parts).findSome? token? := by
  obtain ⟨start, k, parts⟩ := n
  unfold Node.firstToken?
  induction parts with
  | nil => rfl
  | cons t parts ih =>
      cases t with
      | node k ps => exact ih
      | leaf u =>
          cases hu : u.isTrivia with
          | true => simpa [solids, isSolid, hu] using ih
          | false =>
              rw [solids_leaf hu, List.findSome?_cons, List.findSome?_cons]
              simp [token?, hu]

theorem firstToken?_of_solids {n : Node} {k : NodeKind} {ls ts : List Tree} {op : Token}
    (h : solids n.parts = .node k ls :: .leaf op :: ts) : n.firstToken? = some op := by
  rw [firstToken?_eq, h]
  rfl

theorem level_of_solids {k : NodeKind} {parts ls ts : List Tree} {op : Token} {p : Nat}
    (h : solids parts = .node k ls :: .leaf op :: ts) (hp : Operator.level? op.kind = some p) :
    level (.node .binaryExpr parts) = p := by
  have hfirst : (⟨0, .binaryExpr, parts⟩ : Node).firstToken? = some op := firstToken?_of_solids h
  simp [level, Node.level?, hfirst, hp]

end Tree

/-! ## productions other than those for operators -/

/-- What is known of the trees that have been added. -/
inductive Operand where
  | nothing
  /-- One node that is no operation. -/
  | tight
  | any
  /-- This point is not reached. -/
  | never
deriving DecidableEq

namespace Operand

/-- Adding one node that is no operation.  What goes on after an operand to make
operations is left out. -/
def tally : Tally Operand where
  empty := .nothing
  add b c := if b = .nothing then c else if c = .nothing then b else .any
  take _ _ := some .any
  wrap k _ := if k = .binaryExpr then .any else .tight
  closes k _ := k ≠ .binaryExpr
  join b c := some (if b = c then b else .any)
  le b c := c = .any || b = c
  widen _ := .any
  needs
    | .suffixes _ => .tight
    | _ => .never
  gives
    | .unary | .operand | .newExpr | .suffixes _ => .tight
    | _ => .any

def Means : Operand → List Tree → Prop
  | nothing, ts => ts = []
  | tight, ts => ∃ k parts, ts = [.node k parts] ∧ k ≠ .binaryExpr
  | any, _ => True
  | never, _ => False

theorem lawful_tally : tally.Lawful Means Tree.Ranked where
  empty := rfl
  add {b c ts us} hb hc := by
    simp only [tally]
    split
    · next h =>
        subst h
        obtain rfl : ts = [] := hb
        exact hc
    · split
      · next h =>
          subst h
          obtain rfl : us = [] := hc
          rwa [List.append_nil]
      · trivial
  take _ _ _ htake _ := by
    obtain rfl := Option.some.inj htake
    trivial
  wrap k _ _ := by
    simp only [tally]
    split
    · trivial
    · next h => exact ⟨k, _, rfl, h⟩
  closes hcloses _ hk := absurd hk (of_decide_eq_true hcloses)
  join hjoin hb := by
    obtain rfl := Option.some.inj hjoin
    split
    · next h =>
        subst h
        exact hb.elim id id
    · trivial
  mono hle hb := by
    rcases (Bool.or_eq_true ..).mp hle with hle | hle
    · rw [of_decide_eq_true hle]
      trivial
    · exact of_decide_eq_true hle ▸ hb

end Operand

/-- The productions that make operations. -/
def Production.operates : Production → Bool
  | .binary _ | .binaryTail _ => true
  | _ => false

set_option maxRecDepth 10000 in
theorem Production.read_operands {p : Production} (h : p.operates = false) :
    ((p.script.read Operand.tally.reading p.entry (Operand.tally.reading.needs p)).all fun g =>
      Operand.tally.reading.le g (Operand.tally.reading.gives p)) = true := by
  cases p with
  | binary least => cases h
  | binaryTail least => cases h
  | suffixes calls => cases calls <;> decide +kernel
  | _ => decide +kernel

/-! ## operators and their operands -/

/-- No operator of a level or of a higher one comes next. -/
def Draft.Stops (least : Nat) (ctx : Context) (d : Draft) : Prop :=
  ∀ p, Grammar.precedence? ctx d.kind = some p → p < least

/-- An operator that comes next may have a tree as its left operand. -/
def Draft.Ready (ctx : Context) (t : Tree) (d : Draft) : Prop :=
  ∀ p, Grammar.precedence? ctx d.kind = some p → Operator.left d.kind p ≤ t.level

/-- What is left of an operation is one node that binds tightly enough. -/
structure Draft.Operates (least : Nat) (ctx : Context) (base : List Tree) (e : Draft) : Prop where
  ranked : e.Every (Tree.All Tree.Ranked)
  row : ∃ k parts, e.row = .node k parts :: base ∧ min least 13 ≤ Tree.level (.node k parts)
  stops : e.Stops least ctx

/-- What the productions for operations do. -/
def Production.Operates (p : Production) (ctx : Context) (d e : Draft) : Prop :=
  match p with
  | .binary least => d.Every (Tree.All Tree.Ranked) → e.Operates least ctx d.row
  | .binaryTail least => ∀ k parts, d.row = [.node k parts] →
      d.Every (Tree.All Tree.Ranked) → min least 13 ≤ Tree.level (.node k parts) →
      d.Ready ctx (.node k parts) → e.Operates least ctx []
  | _ => True

section

variable {call : Call} {ctx : Context} {d e : Draft} {p least : Nat}

theorem level?_of_precedence? {k : TokenKind} (h : Grammar.precedence? ctx k = some p) :
    Operator.level? k = some p := by
  rw [Script.precedence?_eq, Option.ite_none_left_eq_some] at h
  rw [Operator.level?_eq]
  exact h.2

theorem Draft.Sifted.take (h : d.Sifted) : d.take.Sifted := fun t ht =>
  h t (List.mem_of_mem_tail (d.ahead_take ▸ ht))

theorem Draft.row_single (d : Draft) (k : NodeKind) :
    ∃ parts, (d.single k).row = .node k parts :: d.row :=
  ⟨_, by rw [single, node, row_rejoin, row_placeTrivia, row_log, row_wrap]; rfl⟩

/-- An operator takes the node to its left and what is read to its right, and what it
makes of them is ready to be an operand of the operators that follow. -/
theorem Draft.Operates.enclose {k : NodeKind} {parts : List Tree} (hsifted : d.Sifted)
    (hrow : d.row = [.node k parts]) (hp : Grammar.precedence? ctx d.kind = some p)
    (hready : d.Ready ctx (.node k parts))
    (he : e.Operates (Operator.right d.kind p) ctx d.take.row) :
    Tree.Ranked .binaryExpr e.trees.reverse ∧
      Tree.level (.node .binaryExpr e.trees.reverse) = p ∧
      e.Ready ctx (.node .binaryExpr e.trees.reverse) := by
  have hop := level?_of_precedence? hp
  have hbounds := Operator.bounds hop
  have hkind : d.kind ≠ .error := fun h => by simp [h, Grammar.precedence?] at hp
  obtain ⟨l, ls, hrest⟩ := List.exists_cons_of_ne_nil (rest_ne_nil_of_kind_ne hkind)
  have hl : l.token.kind = d.kind := by simp [kind, kindAt, hrest]
  obtain ⟨j, rs, hjrow, hjlevel⟩ := he.row
  have hsolids : Tree.solids e.trees.reverse = [.node k parts, .leaf l.token, .node j rs] := by
    rw [Tree.solids_reverse, ← Draft.row, hjrow, row_take hrest (hsifted.of_cons hrest), hrow]
    rfl
  have hright : Operator.right d.kind p ≤ Tree.level (.node j rs) := by
    have hle : Operator.right d.kind p ≤ 13 := by
      unfold Operator.right
      split <;> omega
    rwa [Nat.min_eq_left hle] at hjlevel
  have hlevel : Tree.level (.node .binaryExpr e.trees.reverse) = p :=
    Tree.level_of_solids hsolids (hl ▸ hop)
  refine ⟨fun _ => ⟨k, parts, l.token, j, rs, p, hsolids, ?_⟩, hlevel, fun q hq => ?_⟩
  · rw [hl]
    exact ⟨hop, hready p hp, hright⟩
  · rw [hlevel]
    exact Operator.left_le hop (level?_of_precedence? hq) (he.stops q hq)

/-- As long as operators come that bind tightly enough, what is there becomes their left
operand. -/
theorem operates_binaryTail (hobeys : ∀ start, Obeys true start call)
    (hcall : ∀ q : Production, q.operates = true → ∀ d : Draft, d.Sifted →
      (call q ctx d).problems = [] → q.Operates ctx d (call q ctx d))
    (hsifted : d.Sifted) (hrun : (Grammar.binaryTail call least ctx d).problems = []) :
    (Production.binaryTail least).Operates ctx d (Grammar.binaryTail call least ctx d) := by
  intro k parts hrow hall hlevel hready
  unfold Grammar.binaryTail at hrun ⊢
  cases hp : Grammar.precedence? ctx d.kind with
  | none => exact ⟨hall, ⟨k, parts, hrow, hlevel⟩, fun q hq => by simp [hp] at hq⟩
  | some p =>
      simp only [hp] at hrun ⊢
      by_cases hlt : p < least
      · rw [if_pos hlt]
        refine ⟨hall, ⟨k, parts, hrow, hlevel⟩, fun q hq => ?_⟩
        rw [hp, Option.some.injEq] at hq
        exact hq ▸ hlt
      · rw [if_neg hlt] at hrun ⊢
        have hnext : (if d.sees (.punct .starStar) then p else p + 1) =
            Operator.right d.kind p := by
          rw [d.sees_eq (by simp)]
          simp [Operator.right]
        rw [hnext] at hrun ⊢
        -- from here on the draft is the one in which the operation has been started
        obtain ⟨m, hm⟩ : ∃ m, m = d.log (.startAt d.base .binaryExpr) := ⟨_, rfl⟩
        obtain ⟨e, he⟩ : ∃ e, e = call (.binary (Operator.right d.kind p)) ctx m.take := ⟨_, rfl⟩
        have hencl : (d.enclose .binaryExpr fun d' =>
            call (.binary (Operator.right d.kind p)) ctx d'.take) =
              (e.wrap .binaryExpr).log .finish := by
          rw [he, hm]
          rfl
        rw [hencl] at hrun ⊢
        have hmsifted : m.Sifted := hm ▸ hsifted
        have hok : e.problems = [] :=
          ((hobeys d).later (.binaryTail least) ctx
            ((e.wrap .binaryExpr).log .finish)).problems hrun
        have hright : e.Operates (Operator.right d.kind p) ctx m.take.row := by
          rw [he] at hok ⊢
          exact hcall (.binary _) rfl _ hmsifted.take hok (Draft.Every.take .leaf (hm ▸ hall))
        have hmkind : m.kind = d.kind := by rw [hm]; rfl
        rw [← hmkind] at hp hright
        obtain ⟨hranked, hpeq, hnextReady⟩ :=
          hright.enclose hmsifted (by rw [hm]; exact hrow) hp (by rw [hm]; exact hready)
        have hsuffix : e.ahead <:+ m.take.ahead := he ▸ ((hobeys d).later _ ctx _).ahead
        exact hcall (.binaryTail least) rfl _ (fun t ht => hmsifted.take t (hsuffix.subset ht)) hrun
          .binaryExpr _ rfl (hright.ranked.all_wrap hranked) (by omega) hnextReady

/-- The first operand is no operation, so any operator may follow it. -/
theorem operates_binary
    (hunary : ∀ d : Draft, d.Sifted → (call .unary ctx d).problems = [] →
      d.Every (Tree.All Tree.Ranked) → (call .unary ctx d).Every (Tree.All Tree.Ranked) ∧
        ∃ k parts, (call .unary ctx d).row = .node k parts :: d.row ∧ k ≠ .binaryExpr)
    (hobeys : ∀ start, Obeys true start call)
    (hcall : ∀ q : Production, q.operates = true → ∀ d : Draft, d.Sifted →
      (call q ctx d).problems = [] → q.Operates ctx d (call q ctx d))
    (hsifted : d.Sifted) (hrun : (Grammar.binary call least ctx d).problems = []) :
    (Production.binary least).Operates ctx d (Grammar.binary call least ctx d) := by
  intro hall
  obtain ⟨m, hm⟩ : ∃ m, m = d.placeTrivia.apart := ⟨_, rfl⟩
  have hmsifted : m.Sifted := hm ▸ hsifted.alike d.alike_opened
  obtain ⟨e, he⟩ : ∃ e, e =
      if m.sees .privateName && m.kindAt 1 = .keyword .inKw then m.single .literal
      else call .unary ctx m := ⟨_, rfl⟩
  have hgroup : Grammar.binary call least ctx d =
      (call (.binaryTail least) ctx e).rejoin d.placeTrivia := by
    rw [he, hm]
    rfl
  rw [hgroup] at hrun ⊢
  have hok : e.problems = [] := ((hobeys d).later (.binaryTail least) ctx e).problems hrun
  have hlater : e.ahead <:+ m.ahead := by
    rw [he]
    split
    · exact (steady_later.single m (k := .literal) rfl).ahead
    · exact ((hobeys d).later _ ctx m).ahead
  have hfirst : e.Every (Tree.All Tree.Ranked) ∧
      ∃ k parts, e.row = [.node k parts] ∧ k ≠ .binaryExpr := by
    have hmall : m.Every (Tree.All Tree.Ranked) := hm ▸ d.placeTrivia.every_apart
    have hmrow : m.row = [] := hm ▸ rfl
    rw [he] at hok ⊢
    split at hok
    · next hprivate =>
        rw [if_pos hprivate]
        obtain ⟨parts, hparts⟩ := m.row_single .literal
        exact ⟨hmall.single .leaf fun hparts => .node nofun hparts, .literal, parts,
          by rw [hparts, hmrow], nofun⟩
    · next hprivate =>
        rw [if_neg hprivate, ← hmrow]
        exact hunary m hmsifted hok hmall
  obtain ⟨heall, k, parts, herow, hk⟩ := hfirst
  have hlevel := Tree.level_of_ne hk parts
  have htail := hcall (.binaryTail least) rfl e (fun t ht => hmsifted t (hlater.subset ht)) hrun k
    parts herow heall (by omega) fun p hp => by
      have hbounds := Operator.bounds (level?_of_precedence? hp)
      rw [hlevel]
      unfold Operator.left
      split <;> omega
  obtain ⟨j, qs, hrow, hj⟩ := htail.row
  refine ⟨htail.ranked.rejoin (hall.placeTrivia .leaf), ⟨j, qs, ?_, hj⟩, htail.stops⟩
  rw [Draft.row_rejoin, Draft.row_placeTrivia, hrow]
  rfl

end

/-! ## the grammar -/

/-- Each production keeps the nodes ranked, and those for operations do what they are said
to. -/
theorem operates_grammar {p : Production} {ctx : Context} {d : Draft} (hsifted : d.Sifted)
    (hok : (grammar p ctx d).problems = []) (hnew : p = .newExpr → d.kind = .keyword .newKw) :
    (∀ base, (Operand.tally.reading.needs p).Fits Operand.Means Tree.Ranked base d →
      (Operand.tally.reading.gives p).Fits Operand.Means Tree.Ranked base (grammar p ctx d)) ∧
      p.Operates ctx d (grammar p ctx d) := by
  refine grammar_induction
    (P := fun p ctx d e => d.Sifted → (p = .newExpr → d.kind = .keyword .newKw) →
      (∀ base, (Operand.tally.reading.needs p).Fits Operand.Means Tree.Ranked base d →
        (Operand.tally.reading.gives p).Fits Operand.Means Tree.Ranked base e) ∧
        p.Operates ctx d e)
    (fun call hobeys hcall p ctx d hrun hsifted hnew => ?_) p ctx d hok hsifted hnew
  have hholds : Operand.tally.reading.Holds (Count.Fits Operand.Means Tree.Ranked) call :=
    fun q ctx e he hq hnew => ((hcall q ctx e hq).2 he hnew).1
  have hoperates (q : Production) (hq : q.operates = true) (e : Draft) (he : e.Sifted)
      (hok : (call q ctx e).problems = []) : q.Operates ctx e (call q ctx e) :=
    ((hcall q ctx e hok).2 he fun h => by cases h; cases hq).2
  cases p with
  | binary least =>
      rw [← Production.rule_eq_run] at hrun ⊢
      have hbinary : (Production.binary least).Operates ctx d
          (Production.rule call (.binary least) ctx d) :=
        operates_binary (fun e he hok hall => ?_) hobeys hoperates hsifted hrun
      · refine ⟨fun base hneeds => ?_, hbinary⟩
        obtain ⟨hranked, ⟨k, parts, hrow, -⟩, -⟩ := hbinary (hneeds.sound rfl)
        obtain ⟨ts, hts, rfl⟩ := hneeds.sum .nothing rfl
        exact ⟨nofun, fun b hb => ⟨[.node k parts], by rw [hrow, hts]; rfl,
          Option.some.inj hb ▸ trivial⟩, fun _ => hranked⟩
      · have hgives := hholds .unary ctx e he hok nofun e.row
          (.needs Operand.lawful_tally rfl hall)
        obtain ⟨ts, hts, k, parts, rfl, hk⟩ := hgives.sum .tight rfl
        exact ⟨hgives.sound rfl, k, parts, hts, hk⟩
  | binaryTail least =>
      rw [← Production.rule_eq_run] at hrun ⊢
      refine ⟨fun base hneeds => ?_, operates_binaryTail hobeys hoperates hsifted hrun⟩
      obtain ⟨ts, -, hnever⟩ := hneeds.sum .never rfl
      exact hnever.elim
  | _ =>
      exact ⟨fun base hneeds => Operand.lawful_tally.sound.run_script .plain hobeys hholds
        (Production.read_operands rfl) hsifted hrun hnew hneeds, trivial⟩

theorem holds_operands :
    Operand.tally.reading.Holds (Count.Fits Operand.Means Tree.Ranked) grammar :=
  fun _ _ _ hsifted hok hnew => (operates_grammar hsifted hok hnew).1

theorem read_operands_moduleItem (source : SourceType) :
    (((Spelling.plain.item source).read Operand.tally.reading {} ⟨true, some .any, true⟩).all
      fun g => Operand.tally.countLe g ⟨true, some .any, true⟩) = true := by
  cases source <;> decide +kernel

/-- In a text without problems all operators are ranked. -/
theorem ranked_root {source : SourceType} {text : Text} (h : (parse source text).problems = []) :
    Tree.All Tree.Ranked (parse source text).tree :=
  .node nofun (Operand.lawful_tally.ofText (S := .plain) holds_operands
    (read_operands_moduleItem source) rfl h).1

/-! ## operations -/

/-- A binary operation: an operator of some level between two nodes, neither of which binds
less tightly than operators do, nor less than the operator allows on its side. -/
structure Node.Operation (n left right : Node) (op : Token) (p : Nat) : Prop where
  children : n.children = [left, right]
  between : Tree.solids n.parts =
    [.node left.kind left.parts, .leaf op, .node right.kind right.parts]
  level : Operator.level? op.kind = some p
  operands : ∀ c ∈ [left, right], c.kind ∉
    [.assignExpr, .conditionalExpr, .sequenceExpr, .yieldExpr, .arrowFunction]
  left : left.kind = .binaryExpr →
    op.kind ≠ .punct .starStar ∧ ∃ q, left.level? = some q ∧ p ≤ q
  right : right.kind = .binaryExpr →
    ∃ q, right.level? = some q ∧ if op.kind = .punct .starStar then p ≤ q else p < q

/-- The nodes directly inside a node are its parts. -/
theorem Node.map_node_among (start : Nat) (ts : List Tree) :
    (among start ts).map (fun n => Tree.node n.kind n.parts) =
      (Tree.solids ts).filter fun t => t.token?.isNone := by
  induction ts generalizing start with
  | nil => rfl
  | cons t ts ih =>
      cases t with
      | node k parts => exact congrArg (_ :: ·) (ih _)
      | leaf u =>
          rw [among, ih]
          cases hu : u.isTrivia <;> simp [Tree.solids, Tree.isSolid, hu, Tree.token?]

theorem Node.children_of_solids {n : Node} {i j : NodeKind} {ls rs : List Tree} {op : Token}
    (h : Tree.solids n.parts = [.node i ls, .leaf op, .node j rs]) :
    ∃ a b, n.children = [⟨a, i, ls⟩, ⟨b, j, rs⟩] := by
  have hmap := map_node_among n.start n.parts
  rw [h] at hmap
  obtain ⟨⟨a, _, _⟩, c, hc, hfirst, hrest⟩ := List.map_eq_cons_iff.mp hmap
  obtain ⟨⟨b, _, _⟩, c', rfl, hsecond, hnil⟩ := List.map_eq_cons_iff.mp hrest
  obtain ⟨rfl, rfl⟩ := Tree.node.inj hfirst
  obtain ⟨rfl, rfl⟩ := Tree.node.inj hsecond
  obtain rfl := List.map_eq_nil_iff.mp hnil
  exact ⟨a, b, hc⟩

/-- An operation binds as its operator does. -/
theorem Tree.All.level {n : Node} (h : (Tree.node n.kind n.parts).All Tree.Ranked)
    (hk : n.kind = .binaryExpr) :
    ∃ q, n.level? = some q ∧ Tree.level (.node n.kind n.parts) = q ∧ q ≤ 12 := by
  cases h with
  | node here _ =>
      obtain ⟨i, ls, op, j, rs, q, hsolids, hq, -⟩ := here hk
      refine ⟨q, ?_, ?_, (Operator.bounds hq).2.1⟩
      · rw [Node.level?, Tree.firstToken?_of_solids hsolids]
        exact hq
      · rw [hk]
        exact Tree.level_of_solids hsolids hq

theorem Family.not_loose {k : NodeKind} (h : k.family ∈ operands) :
    k ∉ [.assignExpr, .conditionalExpr, .sequenceExpr, .yieldExpr, .arrowFunction] := by
  intro hk
  simp only [List.mem_cons, List.not_mem_nil, or_false] at hk
  rcases hk with rfl | rfl | rfl | rfl | rfl <;> simp [operands, NodeKind.family] at h

/-- In a text without problems every binary operator has two operands, and operators group
by level: from the left, but `**` from the right. -/
theorem operations_ranked (source : SourceType) (text : Text)
    (h : (parse source text).problems = []) :
    ∀ s ∈ (parse source text).root.descendants, s.node.kind = .binaryExpr →
      ∃ left right op p, s.node.Operation left right op p := by
  intro s hs hk
  obtain ⟨hranked, hparts⟩ := (ranked_root h).of_mem_descendants hs
  obtain ⟨i, ls, op, j, rs, p, hsolids, hp, hleft, hright⟩ := hranked hk
  obtain ⟨a, b, hchildren⟩ := Node.children_of_solids hsolids
  have hmem {t : Tree} (ht : t ∈ Tree.solids s.node.parts) : t.All Tree.Ranked :=
    hparts t (List.mem_filter.mp ht).1
  have hlaid : Layout.Means [.row [Family.operands, Family.operands]] s.node.parts := by
    have := ((laid_root h).of_mem_descendants hs).1
    rwa [hk] at this
  refine ⟨⟨a, i, ls⟩, ⟨b, j, rs⟩, op, p, hchildren, hsolids, hp, ?_, fun hi => ?_, fun hj => ?_⟩
  · obtain ⟨l, hl, hfits⟩ := hlaid
    obtain rfl := List.mem_singleton.mp hl
    rw [← Tree.kinds_solids, hsolids] at hfits
    obtain ⟨hfi, hfj⟩ : i.family ∈ Family.operands ∧ j.family ∈ Family.operands := by
      simpa [Layout.Fits, Tree.kinds] using hfits
    rintro c (_ | ⟨_, _ | ⟨_, hc⟩⟩)
    · exact Family.not_loose hfi
    · exact Family.not_loose hfj
    · cases hc
  · obtain ⟨q, hq, hlevel, hle⟩ :=
      Tree.All.level (n := ⟨a, i, ls⟩) (hmem (by simp [hsolids])) hi
    rw [hlevel] at hleft
    have hbounds := Operator.bounds hp
    unfold Operator.left at hleft
    split at hleft
    · next hstar =>
        -- nothing that is an operation binds tighter than `**`
        have htop := hbounds.2.2.mpr hstar
        omega
    · next hstar => exact ⟨hstar, q, hq, hleft⟩
  · obtain ⟨q, hq, hlevel, -⟩ :=
      Tree.All.level (n := ⟨b, j, rs⟩) (hmem (by simp [hsolids])) hj
    refine ⟨q, hq, ?_⟩
    rw [hlevel] at hright
    unfold Operator.right at hright
    split at hright
    · next hstar => rwa [if_pos hstar]
    · next hstar => rwa [if_neg hstar]

theorem operations_ranked_power :
    (parse .script "a - b - c ** d ** e * f".toList).problems = [] ∧
      ∃ s ∈ (parse .script "a - b - c ** d ** e * f".toList).root.descendants,
        s.node.kind = .binaryExpr ∧ s.node.span = ⟨0, 23⟩ ∧
          s.node.children.map Node.span = [⟨0, 5⟩, ⟨8, 23⟩] ∧
          ∃ left right op p, s.node.Operation left right op p := by
  have hrun : (parse .script "a - b - c ** d ** e * f".toList).problems = [] ∧
      ∃ s ∈ (parse .script "a - b - c ** d ** e * f".toList).root.descendants,
        s.node.kind = .binaryExpr ∧ s.node.span = ⟨0, 23⟩ ∧
          s.node.children.map Node.span = [⟨0, 5⟩, ⟨8, 23⟩] := by
    decide +kernel
  obtain ⟨h, s, hs, hk, hspan, hchildren⟩ := hrun
  exact ⟨h, s, hs, hk, hspan, hchildren, operations_ranked .script _ h s hs hk⟩

end FreeNames
