import FreeNames.Proofs.Foresight
import FreeNames.Proofs.Templates

/-!
# FreeNames.Proofs.Backticks

How the chunks of templates start.  The lexer ends a template for each backtick that
starts one, unless the text breaks off (`Lexed.tails_le`).  In a tree each template
has one tail, so if no chunk but the first of a template starts with a backtick,
each first chunk must (`chunked_exact`).

Main statement: `templates_iff_of_ok`.
-/

namespace FreeNames

/-! ## tokens -/

namespace Token

/-- The last chunk of a template. -/
def isTail (t : Token) : Bool := t.kind = .templateTail

/-- A chunk that starts a template. -/
def opens (t : Token) : Bool := t.kind.isTemplate && t.ticked

end Token

theorem TokenKind.isTemplate_iff {k : TokenKind} :
    k.isTemplate = true ↔ k = .templateHead ∨ k = .templateTail := by
  cases k <;> simp [isTemplate]

namespace Mode

variable {m : Mode} {first : Bool} {x r : Text} {k : TokenKind}

theorem scanSlash_not_isTemplate (m : Mode) (cs : Text) :
    (m.scanSlash cs).1.isTemplate = false := by
  unfold scanSlash scanPunct
  repeat' split
  all_goals rfl

/-- A chunk starts with a backtick, or with the brace that ends a substitution. -/
theorem head?_of_isTemplate (hx : x ≠ []) (hk : k.isTemplate = true)
    (h : m.scan first (x ++ r) = (k, x.length)) :
    x.head? = some '\x60' ∨ x.head? = some '\x7d' ∧ m.braces.head? = some .template := by
  obtain ⟨c, y, rfl⟩ := List.exists_cons_of_ne_nil hx
  have hs := m.scan_spec first c (y ++ r)
  rw [← List.cons_append, h] at hs
  generalize hresult : (k, (c :: y).length) = result at hs
  have hkind : result.1.isTemplate = true := by rw [← hresult]; exact hk
  cases hs with
  | blank _ => simp [TokenKind.isTemplate] at hkind
  | slash _ => simp [scanSlash_not_isTemplate] at hkind
  | hash _ =>
      rcases scanHash_kind first (c :: (y ++ r)) with h | h | h <;>
        simp [h, TokenKind.isTemplate] at hkind
  | quoted _ =>
      rcases scanQuoted_kind c (y ++ r) with h | h <;> simp [h, TokenKind.isTemplate] at hkind
  | template hc => simpa using hc
  | number _ => simp [TokenKind.isTemplate] at hkind
  | name _ _ =>
      rcases Name.scan_kind (c :: (y ++ r)) with h | h | ⟨k, h⟩ <;>
        simp [h, TokenKind.isTemplate] at hkind
  | punct _ =>
      rcases scanPunct_kind (c :: (y ++ r)) with h | ⟨p, h⟩ <;>
        simp [h, TokenKind.isTemplate] at hkind

theorem count_tail_le {braces : List Brace} :
    braces.tail.count .template ≤ braces.count .template :=
  (List.tail_sublist braces).count_le _

/-- A token that ends a template takes away an open substitution, or it starts the
template too; one that opens a substitution goes on with another, or starts a
template. -/
theorem count_bracesAfter {t : Token} (hne : t.text ≠ [])
    (h : m.scan first (t.text ++ r) = (t.kind, t.text.length)) :
    t.isTail.toNat + (bracesAfter m.braces t).count .template ≤
      t.opens.toNat + m.braces.count .template := by
  cases hk : t.kind.isTemplate with
  | false =>
      have htail : t.isTail = false := by
        cases htail : t.kind <;> simp_all [Token.isTail, TokenKind.isTemplate]
      have hle : (if t.text.head? = some '\x7d' then m.braces.tail else m.braces).count .template ≤
          m.braces.count .template := by
        split
        · exact count_tail_le
        · exact Nat.le_refl _
      simp only [htail, Token.opens, hk, Bool.false_and, Bool.toNat_false, Nat.zero_add,
        bracesAfter]
      split
      · simpa using hle
      · next hhead => simp [hhead, TokenKind.isTemplate] at hk
      · exact hle
  | true =>
      have htick (ht : t.text.head? = some '\x60') : t.opens = true := by
        simp [Token.opens, Token.ticked, hk, ht]
      rcases TokenKind.isTemplate_iff.mp hk with hkind | hkind
      · have htail : t.isTail = false := by simp [Token.isTail, hkind]
        rcases head?_of_isTemplate hne hk h with hhead | ⟨hhead, hbraces⟩
        · have hafter : bracesAfter m.braces t = .template :: m.braces := by
            simp [bracesAfter, hkind, hhead]
          rw [hafter, htail, htick hhead, List.count_cons_self, Bool.toNat_false, Bool.toNat_true]
          omega
        · have hafter : bracesAfter m.braces t = m.braces := by
            rw [← List.cons_head?_tail hbraces]
            simp [bracesAfter, hkind, hhead]
          rw [hafter, htail, Bool.toNat_false]
          omega
      · have htail : t.isTail = true := by simp [Token.isTail, hkind]
        rcases head?_of_isTemplate hne hk h with hhead | ⟨hhead, hbraces⟩
        · have hafter : bracesAfter m.braces t = m.braces := by simp [bracesAfter, hkind, hhead]
          rw [hafter, htail, htick hhead]
        · have hafter : m.braces = .template :: bracesAfter m.braces t := by
            rw [bracesAfter, hhead, if_pos rfl, hkind]
            exact (List.cons_head?_tail hbraces).symm
          rw [hafter, List.count_cons_self, ← hafter, htail, Bool.toNat_true]
          omega

end Mode

/-- Templates are ended no more often than they are started. -/
theorem Lexed.tails_le {m : Mode} {first : Bool} {ts : List Token} (h : Lexed m first ts) :
    ts.countP Token.isTail ≤ ts.countP Token.opens + m.braces.count .template := by
  induction h with
  | nil m first => simp
  | @cons m first t ts hne hscan _ ih =>
      have hstep : t.isTail.toNat + (m.after t).braces.count .template ≤
          t.opens.toNat + m.braces.count .template := by
        rw [Mode.after]
        split
        · next ht =>
            cases hk : t.kind <;>
              simp_all [Token.isTail, Token.opens, TokenKind.isTemplate, Token.isTrivia,
                TokenKind.isTrivia]
        · exact Mode.count_bracesAfter hne hscan
      rw [List.countP_cons, List.countP_cons]
      cases ht : t.isTail <;> cases ho : t.opens <;> simp [ht, ho] at hstep ⊢ <;> omega

/-! ## trees -/

/-- Only the first chunk of a template starts with a backtick. -/
def Unticked (before : Option Tree) (t : Token) : Prop := before.isSome = true → t.ticked = false

/-- The first chunk of a template starts with a backtick, and no other does. -/
def Exact (before : Option Tree) (t : Token) : Prop := t.ticked = before.isNone

namespace Tree

/-- How many templates end among trees. -/
def tails (ts : List Tree) : Nat := (tokensAll ts).countP Token.isTail

/-- How many chunks among trees start a template. -/
def ticks (ts : List Tree) : Nat := (tokensAll ts).countP Token.opens

@[simp] theorem tails_nil : tails [] = 0 := by simp [tails]
@[simp] theorem ticks_nil : ticks [] = 0 := by simp [ticks]

theorem tails_cons (t : Tree) (ts : List Tree) : tails (t :: ts) = tails [t] + tails ts := by
  simp [tails]

theorem ticks_cons (t : Tree) (ts : List Tree) : ticks (t :: ts) = ticks [t] + ticks ts := by
  simp [ticks]

theorem tails_leaf (t : Token) : tails [.leaf t] = t.isTail.toNat := by
  cases h : t.isTail <;> simp [tails, h]

theorem ticks_leaf (t : Token) : ticks [.leaf t] = t.opens.toNat := by
  cases h : t.opens <;> simp [ticks, h]

theorem tails_node (k : NodeKind) (parts : List Tree) : tails [.node k parts] = tails parts := by
  simp [tails]

theorem ticks_node (k : NodeKind) (parts : List Tree) : ticks [.node k parts] = ticks parts := by
  simp [ticks]

theorem not_isTemplate_of_isTrivia {t : Token} (h : t.isTrivia = true) :
    t.kind.isTemplate = false := by
  cases hk : t.kind <;> simp_all [Token.isTrivia, TokenKind.isTrivia, TokenKind.isTemplate]

theorem tails_leaf_of_not_isTemplate {t : Token} (h : t.kind.isTemplate = false) :
    tails [.leaf t] = 0 := by
  rw [tails_leaf]
  cases hk : t.kind <;> simp_all [Token.isTail, TokenKind.isTemplate]

theorem ticks_leaf_of_not_isTemplate {t : Token} (h : t.kind.isTemplate = false) :
    ticks [.leaf t] = 0 := by
  simp [ticks_leaf, Token.opens, h]

/-- Trivia does not count. -/
theorem counts_solids (ts : List Tree) :
    tails (solids ts) = tails ts ∧ ticks (solids ts) = ticks ts := by
  induction ts with
  | nil => simp
  | cons t ts ih =>
      rw [tails_cons, ticks_cons t ts]
      cases t with
      | node k parts => rw [solids_node, tails_cons, ticks_cons, ih.1, ih.2]; exact ⟨rfl, rfl⟩
      | leaf t =>
          cases ht : t.isTrivia with
          | false => rw [solids_leaf ht, tails_cons, ticks_cons, ih.1, ih.2]; exact ⟨rfl, rfl⟩
          | true =>
              have hk := not_isTemplate_of_isTrivia ht
              have hdrop : solids (.leaf t :: ts) = solids ts := by simp [solids, isSolid, ht]
              rw [hdrop, ih.1, ih.2, tails_leaf_of_not_isTemplate hk,
                ticks_leaf_of_not_isTemplate hk]
              simp

end Tree

/-- No more chunks start a template than templates end, and if they are as many each template
starts with a backtick. -/
def Tree.Balanced (k : NodeKind) (parts : List Tree) : Prop :=
  ticks parts ≤ tails parts ∧ (tails parts ≤ ticks parts → Chunked Exact (.node k parts))

theorem unticked_iff {before : Option Tree} {t : Token} :
    Unticked before t ↔ t.ticked.toNat + before.isSome.toNat ≤ 1 := by
  cases ht : t.ticked <;> cases hb : before.isSome <;> simp [Unticked, ht, hb]

theorem Unticked.exact {before : Option Tree} {t : Token} (h : Unticked before t)
    (hle : 1 ≤ t.ticked.toNat + before.isSome.toNat) : Exact before t := by
  rw [unticked_iff] at h
  unfold Exact
  cases ht : t.ticked <;> cases before <;> simp_all

/-- The parts of a template hold a tail for the chunk that they start with. -/
theorem Template.counts {before : Option Tree} {ts : List Tree} (h : Template Unticked before ts)
    (hnodes : ∀ k parts, .node k parts ∈ ts → Tree.Balanced k parts) :
    Tree.ticks ts + before.isSome.toNat ≤ Tree.tails ts ∧
      (Tree.tails ts ≤ Tree.ticks ts + before.isSome.toNat → Template Exact before ts ∧
        ∀ k parts, .node k parts ∈ ts → (Tree.node k parts).Chunked Exact) := by
  induction h with
  | @tail before t hk hj =>
      have htails : Tree.tails [.leaf t] = 1 := by simp [Tree.tails_leaf, Token.isTail, hk]
      have hticks : Tree.ticks [.leaf t] = t.ticked.toNat := by
        simp [Tree.ticks_leaf, Token.opens, hk, TokenKind.isTemplate]
      rw [htails, hticks]
      exact ⟨unticked_iff.mp hj, fun hle => ⟨.tail hk (hj.exact hle), by simp⟩⟩
  | @head before t k parts rest hk hj he hrest ih =>
      have htails : Tree.tails (.leaf t :: .node k parts :: rest) =
          Tree.tails parts + Tree.tails rest := by
        rw [Tree.tails_cons, Tree.tails_cons (.node k parts), Tree.tails_node, Tree.tails_leaf]
        simp [Token.isTail, hk]
      have hticks : Tree.ticks (.leaf t :: .node k parts :: rest) =
          t.ticked.toNat + (Tree.ticks parts + Tree.ticks rest) := by
        rw [Tree.ticks_cons, Tree.ticks_cons (.node k parts), Tree.ticks_node, Tree.ticks_leaf]
        simp [Token.opens, hk, TokenKind.isTemplate]
      obtain ⟨hle, hexact⟩ := hnodes k parts (by simp)
      obtain ⟨hle', hexact'⟩ := ih fun k parts hmem => hnodes k parts (by simp [hmem])
      have hfirst := unticked_iff.mp hj
      rw [htails, hticks]
      simp only [Option.isSome_some, Bool.toNat_true] at hle' hexact'
      refine ⟨by omega, fun hge => ?_⟩
      obtain ⟨htemplate, hrest'⟩ := hexact' (by omega)
      refine ⟨.head hk (hj.exact (by omega)) he htemplate, fun k' parts' hmem => ?_⟩
      simp only [List.mem_cons, reduceCtorEq, false_or] at hmem
      rcases hmem with heq | hmem
      · rw [heq]
        exact hexact (by omega)
      · exact hrest' k' parts' hmem

/-- Outside templates the counts of the parts add up. -/
theorem Tree.counts_of_plain {ps : List Tree}
    (hplain : ∀ t, .leaf t ∈ ps → t.kind.isTemplate = false)
    (hnodes : ∀ k parts, .node k parts ∈ ps → Balanced k parts) :
    ticks ps ≤ tails ps ∧
      (tails ps ≤ ticks ps → ∀ k parts, .node k parts ∈ ps → Chunked Exact (.node k parts)) := by
  induction ps with
  | nil => simp
  | cons p ps ih =>
      obtain ⟨hle, hexact⟩ := ih (fun t ht => hplain t (List.mem_cons_of_mem _ ht))
        fun k parts hmem => hnodes k parts (List.mem_cons_of_mem _ hmem)
      rw [tails_cons, ticks_cons]
      cases p with
      | leaf t =>
          have hk := hplain t List.mem_cons_self
          rw [tails_leaf_of_not_isTemplate hk, ticks_leaf_of_not_isTemplate hk]
          refine ⟨by omega, fun hge k parts hmem => hexact (by omega) k parts ?_⟩
          exact (List.mem_cons.mp hmem).resolve_left (by simp)
      | node k parts =>
          obtain ⟨hle', hexact'⟩ := hnodes k parts List.mem_cons_self
          rw [tails_node, ticks_node]
          refine ⟨by omega, fun hge k' parts' hmem => ?_⟩
          rcases List.mem_cons.mp hmem with heq | hmem
          · rw [heq]
            exact hexact' (by omega)
          · exact hexact (by omega) k' parts' hmem

theorem Tree.Chunked.all_of_nodes {joins : Option Tree → Token → Prop} {ps : List Tree}
    (h : ∀ k parts, .node k parts ∈ ps → Chunked joins (.node k parts)) :
    ∀ p ∈ ps, Chunked joins p := by
  intro p hp
  cases p with
  | leaf t => exact .leaf t
  | node k parts => exact h k parts hp

theorem Tree.Chunked.balanced {t : Tree} (h : t.Chunked Unticked) {k : NodeKind}
    {parts : List Tree} (ht : t = .node k parts) : Balanced k parts := by
  induction h generalizing k parts with
  | leaf t => cases ht
  | @template ps hshape _ ih =>
      obtain ⟨rfl, rfl⟩ := Tree.node.inj ht
      obtain ⟨htails, hticks⟩ := counts_solids ps
      have hmem {k : NodeKind} {parts : List Tree} (hp : .node k parts ∈ ps) :
          .node k parts ∈ solids ps := List.mem_filter.mpr ⟨hp, rfl⟩
      obtain ⟨hle, hexact⟩ := hshape.counts fun k parts hp =>
        ih _ (List.mem_filter.mp hp).1 rfl
      rw [htails, hticks] at hle hexact
      refine ⟨hle, fun hge => ?_⟩
      obtain ⟨htemplate, hall⟩ := hexact hge
      exact .template htemplate (all_of_nodes fun k parts hp => hall k parts (hmem hp))
  | @other k' ps hk hplain _ ih =>
      obtain ⟨rfl, rfl⟩ := Tree.node.inj ht
      obtain ⟨hle, hexact⟩ := counts_of_plain hplain fun k parts hp => ih _ hp rfl
      exact ⟨hle, fun hge => .other hk hplain (all_of_nodes (hexact hge))⟩

/-! ## programs -/

section

variable {joins joins' : Option Tree → Token → Prop}

theorem Tree.Chunked.parts {k : NodeKind} {ps : List Tree} (h : Chunked joins (.node k ps)) :
    ∀ p ∈ ps, Chunked joins p := by
  cases h with
  | template _ hall | other _ _ hall => exact hall

theorem Node.Within.chunked {root n : Node} (h : Within root n)
    (hroot : Tree.Chunked joins (.node root.kind root.parts)) :
    Tree.Chunked joins (.node n.kind n.parts) := by
  induction h with
  | refl => exact hroot
  | child _ hc ih =>
      obtain ⟨before, after, hparts, -⟩ := mem_among hc
      exact ih.parts _ (by simp [hparts])

theorem Tree.Chunked.shape {parts : List Tree}
    (h : Chunked joins (.node .templateLiteral parts)) : Template joins none (solids parts) := by
  generalize hk : NodeKind.templateLiteral = k at h
  cases h with
  | template hshape _ => exact hshape
  | other hne _ _ => exact absurd hk.symm hne

theorem Node.exists_mem_among {k : NodeKind} {parts : List Tree} {ts : List Tree} (start : Nat)
    (h : .node k parts ∈ ts) : ∃ n ∈ among start ts, n.kind = k ∧ n.parts = parts := by
  fun_induction among start ts with
  | case1 => simp at h
  | case2 start t ts ih => exact ih ((List.mem_cons.mp h).resolve_left (by simp))
  | case3 start k' parts' ts ih =>
      rcases List.mem_cons.mp h with heq | h
      · obtain ⟨rfl, rfl⟩ := Tree.node.inj heq
        exact ⟨_, List.mem_cons_self, rfl, rfl⟩
      · obtain ⟨n, hn, hnode⟩ := ih h
        exact ⟨n, List.mem_cons_of_mem _ hn, hnode⟩

/-- Something else holds of the templates of a tree in which chunks are parts of templates
only. -/
theorem Tree.Chunked.of_within {t : Tree} (h : t.Chunked joins) (root : Node)
    (ht : t = .node root.kind root.parts)
    (hall : ∀ n, Node.Within root n → n.kind = .templateLiteral →
      Template joins' none (solids n.parts)) : t.Chunked joins' := by
  induction h generalizing root with
  | leaf t => cases ht
  | @template ps _ _ ih =>
      obtain ⟨hk, rfl⟩ := Tree.node.inj ht
      refine .template (hall root .refl hk.symm) (all_of_nodes fun k parts hp => ?_)
      obtain ⟨n, hn, rfl, rfl⟩ := Node.exists_mem_among root.start hp
      exact ih _ hp n rfl fun c hc => hall c (Node.Within.trans (.child .refl hn) hc)
  | @other k ps hne hplain _ ih =>
      obtain ⟨rfl, rfl⟩ := Tree.node.inj ht
      refine .other hne hplain (all_of_nodes fun k parts hp => ?_)
      obtain ⟨n, hn, rfl, rfl⟩ := Node.exists_mem_among root.start hp
      exact ih _ hp n rfl fun c hc => hall c (Node.Within.trans (.child .refl hn) hc)

/-- The parts of each template of a parsed text. -/
def Parse.EachTemplate (joins : Option Tree → Token → Prop) (p : Parse) : Prop :=
  ∀ s ∈ p.root.descendants, s.node.kind = .templateLiteral →
    Template joins none (Tree.solids s.node.parts)

theorem Parse.EachTemplate.of_chunked {p : Parse}
    (h : Tree.Chunked joins (.node .program p.parts)) : p.EachTemplate joins := by
  intro s hs hk
  have hnode := (Site.within_of_mem_descendants hs).chunked h
  rw [hk] at hnode
  exact hnode.shape

theorem Parse.EachTemplate.chunked {p : Parse} (h : p.EachTemplate joins')
    (hp : Tree.Chunked joins (.node .program p.parts)) :
    Tree.Chunked joins' (.node .program p.parts) := by
  refine hp.of_within p.root.node rfl fun n hn hk => ?_
  obtain ⟨s, hs, rfl⟩ := Site.exists_reaches hn
  exact h s (Site.mem_descendants_iff.mpr hs) hk

end

theorem Lexed.head?_of_mem {m : Mode} {first : Bool} {ts : List Token} (h : Lexed m first ts)
    {t : Token} (ht : t ∈ ts) (hk : t.kind.isTemplate = true) :
    t.text.head? = some '\x60' ∨ t.text.head? = some '\x7d' := by
  induction h with
  | nil => simp at ht
  | cons hne hscan _ ih =>
      rcases List.mem_cons.mp ht with rfl | ht
      · exact (Mode.head?_of_isTemplate hne hk hscan).imp_right And.left
      · exact ih ht

theorem Template.isTemplate_of_mem {joins : Option Tree → Token → Prop} {before : Option Tree}
    {ts : List Tree} (h : Template joins before ts) {t : Token} (ht : .leaf t ∈ ts) :
    t.kind.isTemplate = true := by
  induction h with
  | tail hk _ =>
      obtain rfl : t = _ := by simpa using ht
      simp [hk, TokenKind.isTemplate]
  | head hk _ _ _ ih =>
      simp only [List.mem_cons, Tree.leaf.injEq, reduceCtorEq, false_or] at ht
      rcases ht with rfl | ht
      · simp [hk, TokenKind.isTemplate]
      · exact ih ht

/-- A token that is part of a node is one of the text. -/
theorem Tree.mem_tokensAll_of_leaf {t : Token} {ts : List Tree} (h : .leaf t ∈ ts) :
    t ∈ tokensAll ts := by
  induction ts with
  | nil => simp at h
  | cons u ts ih =>
      rw [tokensAll_cons, List.mem_append]
      rcases List.mem_cons.mp h with rfl | h
      · exact Or.inl (by simp)
      · exact Or.inr (ih h)

/-- The first chunk of a template starts with a backtick, and each later one with the brace
that ends a substitution. -/
def Marked (before : Option Tree) (t : Token) : Prop :=
  t.text.head? = some (if before.isSome then '\x7d' else '\x60')

/-- No chunk that starts a template comes after an expression that is shut. -/
def Unbroken (before : Option Tree) (t : Token) : Prop := ∀ e ∈ before, e.Shut → t.ticked = false

section

variable {source : SourceType} {text : Text}

/-- If only the first chunks of templates start with backticks, all first chunks do. -/
theorem chunked_exact
    (h : Tree.Chunked Unticked (.node .program (parse source text).parts)) :
    Tree.Chunked Exact (.node .program (parse source text).parts) := by
  have htokens : Tree.tokensAll (parse source text).parts = tokenize text :=
    tokensAll_root source text
  obtain ⟨-, hexact⟩ := h.balanced rfl
  refine hexact ?_
  have hle := (lexed_tokenize text).tails_le
  rw [Tree.tails, Tree.ticks, htokens]
  simpa [Mode.initial] using hle

/-- A chunk starts with a backtick or with a brace. -/
theorem marked_of_exact (h : (parse source text).EachTemplate Exact) :
    (parse source text).EachTemplate Marked := by
  intro s hs hk
  have hshape := h s hs hk
  refine hshape.imp fun before t ht hexact => ?_
  have hmem : t ∈ tokenize text := by
    have hstands := (Site.within_of_mem_descendants hs).stands (.self _)
    rw [tokensAll_root] at hstands
    obtain ⟨front, back, heq, -⟩ := hstands
    rw [heq]
    have hleaf := Tree.mem_tokensAll_of_leaf (List.mem_filter.mp ht).1
    simp [hleaf]
  have hhead := (lexed_tokenize text).head?_of_mem hmem (hshape.isTemplate_of_mem ht)
  unfold Exact Token.ticked at hexact
  unfold Marked
  cases before <;> simp_all

/-- In a text without problems the parts of each template are chunks with one expression
between each two of them.  All templates start with a backtick and go on with braces exactly
if none goes on with a backtick after an expression that is shut. -/
theorem templates_iff_of_ok (h : (parse source text).problems = []) :
    (parse source text).EachTemplate (fun _ _ => True) ∧
      ((parse source text).EachTemplate Marked ↔ (parse source text).EachTemplate Unbroken) := by
  have hroot := chunked_root h
  have hshut : (parse source text).EachTemplate AfterShut := .of_chunked hroot
  refine ⟨fun s hs hk => (hshut s hs hk).imp fun _ _ _ _ => trivial, fun hmarked s hs hk => ?_,
    fun hunbroken => ?_⟩
  · refine (hmarked s hs hk).imp fun before t _ hhead e he _ => ?_
    rw [Marked, Option.mem_def.mp he] at hhead
    simp [Token.ticked, hhead]
  · have hunticked : (parse source text).EachTemplate Unticked := fun s hs hk => by
      refine ((hshut s hs hk).and (hunbroken s hs hk)).imp fun before t _ hboth hsome => ?_
      obtain ⟨e, rfl⟩ := Option.isSome_iff_exists.mp hsome
      by_contra hticked
      rw [Bool.not_eq_false] at hticked
      simp [hboth.2 e rfl (hboth.1 hticked e rfl)] at hticked
    exact marked_of_exact (.of_chunked (chunked_exact (hunticked.chunked hroot)))

/-- A template whose expressions are shut, each with a brace after it. -/
theorem templates_iff_update_arrow :
    (parse .script "`a$\x7bx++\x7d$\x7by => \x7b\x7d\x7db`".toList).problems = [] ∧
      (parse .script "`a$\x7bx++\x7d$\x7by => \x7b\x7d\x7db`".toList).EachTemplate
        (fun _ _ => True) ∧
      ((parse .script "`a$\x7bx++\x7d$\x7by => \x7b\x7d\x7db`".toList).EachTemplate Marked ↔
        (parse .script "`a$\x7bx++\x7d$\x7by => \x7b\x7d\x7db`".toList).EachTemplate
          Unbroken) := by
  have h : (parse .script "`a$\x7bx++\x7d$\x7by => \x7b\x7d\x7db`".toList).problems = [] := by
    decide +kernel
  exact ⟨h, templates_iff_of_ok h⟩

/-- A substitution that ends with a postfix operator may be left open: the template that
follows is taken for the rest of the first one. -/
theorem template_resumed_by_backtick :
    (parse .script "`$\x7bx++`b`".toList).problems = [] ∧
      ¬(parse .script "`$\x7bx++`b`".toList).EachTemplate Marked := by
  refine ⟨by decide +kernel, fun h => ?_⟩
  have hmem : ∃ s ∈ (parse .script "`$\x7bx++`b`".toList).root.descendants,
      s.node.kind = .templateLiteral ∧ Tree.solids s.node.parts =
        [.leaf ⟨.templateHead, "`$\x7b".toList⟩,
          .node .updateExpr [.node .nameRef [.leaf ⟨.ident, "x".toList⟩],
            .leaf ⟨.punct .plusPlus, "++".toList⟩],
          .leaf ⟨.templateTail, "`b`".toList⟩] := by
    decide +kernel
  obtain ⟨s, hs, hk, hparts⟩ := hmem
  have hshape := h s hs hk
  rw [hparts] at hshape
  cases hshape with
  | head _ _ _ hmore =>
      cases hmore with
      | tail _ hmarked => exact absurd hmarked (by simp [Marked])

end

end FreeNames
